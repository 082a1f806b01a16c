import RayPlatform.Lib.OrderedMap
import RayPlatform.Lib.ShortestPath
import RayPlatform.Routing.GraphImplementation
import Mathlib.Data.Finset.Sort

/-!
# ShortestPath

`findShortestPath`, with which some graphs look for their routes: Dijkstra's
algorithm with an index of the unvisited vertices by distance, in which the relay
events decide between predecessors at the same distance.

* `relax_spec` and `leave_spec` — what the two parts of a round do to the labels of
  the library and to the index (`Search.Indexed`);
* `nextVertex_spec` — the next vertex is an unvisited one at the lowest distance;
* `searchFrom_spec` — the loop ends with sound labels and nothing unvisited;
* `generateRoute_spec` — the predecessors give a route of as many hops as the label says.
-/

namespace RayPlatform

open Lib
open Lib.Map (first?)
open MessageRouter (IsRank)

instance linearOrderRank : LinearOrder Rank where
  le_refl _ := Int32.le_refl _
  le_trans _ _ _ := Int32.le_trans
  le_antisymm _ _ := Int32.le_antisymm
  le_total := Int32.le_total
  lt_iff_le_not_ge a b := by
    simp only [Int32.lt_iff_toInt_lt, Int32.le_iff_toInt_le]
    omega
  toDecidableLE := inferInstance
  min_def _ _ := rfl
  max_def _ _ := rfl

/-- No distance is negative. -/
abbrev Distance := Nat

/-- The distance of a vertex that has not been reached. -/
def farAway : Nat := 9999

/-- The variables of a search. -/
structure Search where
  tentativeDistances : Map Rank Distance
  previousVertices : Map Rank Rank
  unvisited : Finset Rank
  /-- an index of the unvisited vertices -/
  verticesWithDistance : Map Distance (Finset Rank)

/-- The connections of a rank, in the order of the set. -/
def getOutcomingConnections (m_outcomingConnections : List (Finset Rank)) (source : Rank) :
    Option (List Rank) :=
  (entry m_outcomingConnections source).map fun connections => connections.sort (· ≤ ·)

/-- The edges of the graph. -/
def connects (m_outcomingConnections : List (Finset Rank)) (u v : Rank) : Bool :=
  decide (v ∈ (entry m_outcomingConnections u).getD ∅)

/-! ## The search -/

/-- An index of some vertices by their distances. -/
def indexOf (tentativeDistances : Map Rank Distance) (vertices : List Rank) :
    Map Distance (Finset Rank) :=
  vertices.foldl (fun index i => index.insertIn (tentativeDistances.get i) i) ∅

/-- assign tentative distances -/
def startDistances (m_size : Int32) (source : Rank) : Map Rank Distance :=
  ((ranks m_size).foldl (fun (distances : Map Rank Distance) i => distances.insert i farAway)
    ∅).insert source 0

/-- The variables before the loop. -/
def startSearch (m_size : Int32) (source : Rank) : Search :=
  { tentativeDistances := startDistances m_size source
    previousVertices := ∅
    unvisited := (ranks m_size).toFinset
    verticesWithDistance :=
      indexOf (startDistances m_size source) ((startDistances m_size source).keys.sort (· ≤ ·)) }

/-- Whether `current` replaces the predecessor of a neighbour. -/
def isBetter (m_relayEvents : List Int32) (s : Search) (current theNeighbor : Rank) :
    Option Bool :=
  if s.tentativeDistances.get current + 1 < s.tentativeDistances.get theNeighbor then some true
  else if s.tentativeDistances.get current + 1 = s.tentativeDistances.get theNeighbor then
    match s.previousVertices.lookup theNeighbor with
    | none => some false
    | some previous => do
        -- distances are equal and current has less relay events
        let events ← entry m_relayEvents current
        let previousEvents ← entry m_relayEvents previous
        return events < previousEvents
  else some false

/-- The updates when `current` becomes the predecessor of a neighbour. The set of the old
distance stays in the index when it becomes empty. -/
def Search.update (s : Search) (current theNeighbor : Rank) : Search :=
  let newDistance := s.tentativeDistances.get current + 1
  let oldDistance := s.tentativeDistances.get theNeighbor
  { s with
    tentativeDistances := s.tentativeDistances.insert theNeighbor newDistance
    previousVertices := s.previousVertices.insert theNeighbor current
    verticesWithDistance :=
      (s.verticesWithDistance.modify oldDistance fun vertices =>
        vertices.erase theNeighbor).insertIn newDistance theNeighbor }

/-- One neighbour of the current vertex. Only the unvisited ones are of interest. -/
def relax (m_relayEvents : List Int32) (current : Rank) (s : Search) (theNeighbor : Rank) :
    Option Search :=
  if theNeighbor ∈ s.unvisited then
    (isBetter m_relayEvents s current theNeighbor).map fun better =>
      if better then s.update current theNeighbor else s
  else some s

/-- mark the current vertex as not used, and remove it as well from the index -/
def Search.leave (s : Search) (current : Rank) : Search :=
  { s with
    unvisited := s.unvisited.erase current
    verticesWithDistance :=
      s.verticesWithDistance.eraseFrom (s.tentativeDistances.get current) current }

/-- The loop over the index that looks for the next current vertex. Of the vertices at one
distance the first decides. -/
def nextVertex (s : Search) : List Distance → Rank → Int → Rank
  | [], current, _ => current
  | theDistance :: distances, current, bestDistance =>
      -- we are done if all the remaining distances are greater
      if bestDistance ≠ -1 ∧ (theDistance : Int) > bestDistance then current
      else
        match first? (s.verticesWithDistance.get theDistance) with
        | none => nextVertex s distances current bestDistance
        | some vertex =>
            if (theDistance : Int) < bestDistance ∨ bestDistance = -1 then
              nextVertex s distances vertex (s.tentativeDistances.get vertex)
            else nextVertex s distances current bestDistance

/-- `while(!unvisited.empty())` -/
def searchFrom (m_outcomingConnections : List (Finset Rank)) (m_relayEvents : List Int32) :
    Nat → Search → Rank → Option Search
  | fuel, s, current =>
    if s.unvisited = ∅ then some s
    else
      match fuel with
      | 0 => none
      | fuel + 1 => do
          let connections ← getOutcomingConnections m_outcomingConnections current
          let s ← connections.foldlM (relax m_relayEvents current) s
          let s := s.leave current
          searchFrom m_outcomingConnections m_relayEvents fuel s
            (nextVertex s (s.verticesWithDistance.keys.sort (· ≤ ·)) current (-1))

/-- `while(current!=source)`. The route is inverted at the end. -/
def generateRoute (previousVertices : Map Rank Rank) (source : Rank) :
    Nat → Rank → List Rank → Option (List Rank)
  | fuel, current, route =>
    if current = source then some (route ++ [source]).reverse
    else
      match fuel with
      | 0 => none
      | fuel + 1 =>
        match previousVertices.lookup current with
        -- this should not happen: there is no route
        | none => some []
        | some previous => generateRoute previousVertices source fuel previous (route ++ [current])

/-- Each loop runs at most `fuel` times. -/
def findShortestPath (m_size : Int32) (m_outcomingConnections : List (Finset Rank))
    (m_relayEvents : List Int32) (fuel : Nat) (source destination : Rank) :
    Option (List Rank) :=
  if source = destination then some [source, destination]
  else do
    let s ← searchFrom m_outcomingConnections m_relayEvents fuel (startSearch m_size source) source
    generateRoute s.previousVertices source fuel destination []

/-! ## What a round does -/

/-- The labels of a search. -/
def Search.labels (s : Search) : Labels Rank :=
  ⟨s.tentativeDistances.get, s.previousVertices.lookup, s.unvisited⟩

/-- The index holds exactly the unvisited vertices, by their distances. -/
def Search.Indexed (s : Search) : Prop :=
  ∀ d v, v ∈ s.verticesWithDistance.get d ↔ v ∈ s.unvisited ∧ s.tentativeDistances.get v = d

/-- The ranks of a graph. -/
abbrev vertices (m_size : Int32) : Finset Rank := (ranks m_size).toFinset

theorem mem_vertices {m_size : Int32} {r : Rank} : r ∈ vertices m_size ↔ IsRank m_size r := by
  rw [List.mem_toFinset, mem_ranks]

theorem entry_isSome {α : Type*} {m_size : Int32} {table : List α}
    (hlength : table.length = m_size.toNatClampNeg) {r : Rank} (hr : IsRank m_size r) :
    ∃ t, entry table r = some t := by
  obtain ⟨k, hk, rfl⟩ := isRank_iff.mp hr
  have hsize := Int32.toNatClampNeg_lt m_size
  rw [entry_ofNat _ (by omega)]
  exact ⟨table[k], List.getElem?_eq_getElem (by omega)⟩

theorem isRank_of_entry {α : Type*} {m_size : Int32} {table : List α}
    (hlength : table.length = m_size.toNatClampNeg) {r : Rank} {t : α}
    (h : entry table r = some t) : IsRank m_size r := by
  unfold entry at h
  split at h
  case isTrue hge =>
    obtain ⟨hlt, -⟩ := List.getElem?_eq_some_iff.mp h
    rw [hlength] at hlt
    rw [← Int32.ofNat_toNatClampNeg r hge]
    exact isRank_ofNat hlt
  case isFalse => cases h

section

variable {m_size : Int32} {m_outcomingConnections : List (Finset Rank)}
  {m_relayEvents : List Int32} {s s' : Search} {current theNeighbor source : Rank}

theorem isRank_of_connects (hlength : m_outcomingConnections.length = m_size.toNatClampNeg)
    {u v : Rank} (h : connects m_outcomingConnections u v = true) : IsRank m_size u := by
  rw [connects, decide_eq_true_iff] at h
  cases hentry : entry m_outcomingConnections u with
  | none => simp [hentry] at h
  | some t => exact isRank_of_entry hlength hentry

theorem isBetter_spec (theNeighbor : Rank) (hlength : m_relayEvents.length = m_size.toNatClampNeg)
    (hcurrent : IsRank m_size current)
    (hprevious : ∀ v u, s.previousVertices.lookup v = some u → IsRank m_size u) :
    ∃ better, isBetter m_relayEvents s current theNeighbor = some better ∧
      (better = true →
        s.labels.distance current + 1 < s.labels.distance theNeighbor ∨
          s.labels.distance current + 1 = s.labels.distance theNeighbor ∧
            s.labels.previous theNeighbor ≠ none) ∧
      (better = false →
        s.labels.distance theNeighbor ≤ s.labels.distance current + 1) := by
  simp only [Search.labels]
  unfold isBetter
  split
  case isTrue hlt => exact ⟨true, rfl, fun _ => .inl hlt, fun h => by cases h⟩
  case isFalse hnot =>
    split
    case isTrue heq =>
      cases hprev : s.previousVertices.lookup theNeighbor with
      | none => exact ⟨false, rfl, fun h => (by cases h), fun _ => heq.ge⟩
      | some previous =>
          obtain ⟨events, hevents⟩ := entry_isSome hlength hcurrent
          obtain ⟨previousEvents, hpreviousEvents⟩ :=
            entry_isSome hlength (hprevious theNeighbor previous hprev)
          refine ⟨decide (events < previousEvents), by simp [hevents, hpreviousEvents], ?_, ?_⟩
          · exact fun _ => .inr ⟨heq, by simp⟩
          · exact fun _ => heq.ge
    case isFalse hne => exact ⟨false, rfl, fun h => (by cases h), fun _ => not_lt.mp hnot⟩

theorem Search.Indexed.update (h : s.Indexed) (hopen : theNeighbor ∈ s.unvisited) :
    (s.update current theNeighbor).Indexed := by
  intro d v
  show v ∈ (Map.insertIn _ _ _).get d ↔ v ∈ s.unvisited ∧ Map.get (Finmap.insert _ _ _) v = d
  rw [Map.mem_insertIn]
  by_cases hv : v = theNeighbor
  · subst hv
    have hold : v ∉ (s.verticesWithDistance.modify (s.tentativeDistances.get v)
        fun vertices => vertices.erase v).get d := by
      by_cases hd : d = s.tentativeDistances.get v
      · rw [hd, Map.get_modify_self]
        exact Finset.notMem_erase v _
      · rw [Map.get_modify_of_ne _ hd, h]
        exact fun hmem => hd hmem.2.symm
    simp only [hold, or_false, and_true, Map.get_insert_self, hopen, true_and]
    exact eq_comm
  · have hold : v ∈ (s.verticesWithDistance.modify (s.tentativeDistances.get theNeighbor)
        fun vertices => vertices.erase theNeighbor).get d ↔
          v ∈ s.unvisited ∧ s.tentativeDistances.get v = d := by
      by_cases hd : d = s.tentativeDistances.get theNeighbor
      · rw [hd, Map.get_modify_self, Finset.mem_erase, h]
        exact and_iff_right hv
      · rw [Map.get_modify_of_ne _ hd, h]
    rw [hold, Map.get_insert_of_ne _ hv]
    simp only [hv, and_false, false_or]

theorem relaxes_update (hopen : theNeighbor ∈ s.unvisited)
    (hbetter : s.labels.distance current + 1 < s.labels.distance theNeighbor ∨
      s.labels.distance current + 1 = s.labels.distance theNeighbor ∧
        s.labels.previous theNeighbor ≠ none) :
    Relaxes current (· = theNeighbor) s.labels (s.update current theNeighbor).labels := by
  have hdistance : (s.update current theNeighbor).labels.distance theNeighbor =
      s.labels.distance current + 1 := s.tentativeDistances.get_insert_self
  refine ⟨rfl, ?_, fun v => ?_⟩
  · rintro v rfl -
    exact hdistance.le
  · by_cases hv : v = theNeighbor
    · subst hv
      exact .inr ⟨rfl, hopen, Finmap.lookup_insert _, hdistance, hbetter⟩
    · exact .inl ⟨Map.get_insert_of_ne _ hv, Finmap.lookup_insert_of_ne _ hv⟩

/-- One neighbour. -/
theorem relax_spec (theNeighbor : Rank) (hlength : m_relayEvents.length = m_size.toNatClampNeg)
    (hcurrent : IsRank m_size current) (hindexed : s.Indexed)
    (hprevious : ∀ v u, s.previousVertices.lookup v = some u → IsRank m_size u) :
    ∃ s', relax m_relayEvents current s theNeighbor = some s' ∧ s'.Indexed ∧
      Relaxes current (· = theNeighbor) s.labels s'.labels := by
  unfold relax
  split
  case isTrue hopen =>
    obtain ⟨better, hbetter, hyes, hno⟩ :=
      isBetter_spec theNeighbor hlength hcurrent hprevious
    rw [hbetter]
    cases better with
    | true => exact ⟨_, rfl, hindexed.update hopen, relaxes_update hopen (hyes rfl)⟩
    | false =>
        refine ⟨s, rfl, hindexed, rfl, ?_, fun _ => .inl ⟨rfl, rfl⟩⟩
        rintro v rfl -
        exact hno rfl
  case isFalse hvisited =>
    refine ⟨s, rfl, hindexed, rfl, ?_, fun _ => .inl ⟨rfl, rfl⟩⟩
    rintro v rfl hopen
    exact absurd hopen hvisited

/-- All neighbours, by induction on the list of them. -/
theorem relaxAll_spec (hlength : m_relayEvents.length = m_size.toNatClampNeg)
    (hcurrent : IsRank m_size current) (connections : List Rank) :
    ∀ s : Search, s.Indexed →
      (∀ v u, s.previousVertices.lookup v = some u → IsRank m_size u) →
      ∃ s', connections.foldlM (relax m_relayEvents current) s = some s' ∧ s'.Indexed ∧
        Relaxes current (· ∈ connections) s.labels s'.labels := by
  induction connections with
  | nil =>
      intro s hindexed _
      refine ⟨s, rfl, hindexed, ?_⟩
      simpa only [List.not_mem_nil] using Relaxes.nothing
  | cons theNeighbor connections ih =>
      intro s hindexed hprevious
      obtain ⟨s₁, hs₁, hindexed₁, hrelax⟩ :=
        relax_spec theNeighbor hlength hcurrent hindexed hprevious
      have hprevious₁ : ∀ v u, s₁.previousVertices.lookup v = some u → IsRank m_size u := by
        intro v u hu
        obtain ⟨-, hsame⟩ | ⟨-, -, hnew, -⟩ := hrelax.change v
        · exact hprevious v u (hsame.symm.trans hu)
        · cases hnew.symm.trans hu
          exact hcurrent
      obtain ⟨s₂, hs₂, hindexed₂, hrest⟩ := ih s₁ hindexed₁ hprevious₁
      refine ⟨s₂, ?_, hindexed₂, ?_⟩
      · rw [List.foldlM_cons, hs₁]
        exact hs₂
      · simpa only [List.mem_cons] using hrelax.trans hrest

theorem Search.Indexed.leave (h : s.Indexed) : (s.leave current).Indexed := by
  intro d v
  show v ∈ (Map.eraseFrom _ _ _).get d ↔ v ∈ s.unvisited.erase current ∧ _
  rw [Map.mem_eraseFrom, h, Finset.mem_erase]
  constructor
  · rintro ⟨hnot, hopen, hd⟩
    exact ⟨⟨fun hv => hnot ⟨by rw [← hd, hv], hv⟩, hopen⟩, hd⟩
  · rintro ⟨⟨hne, hopen⟩, hd⟩
    exact ⟨fun hv => hne hv.2, hopen, hd⟩

/-! ## The next vertex -/

/-- Once a vertex is found the loop stops at the next distance, which is greater. -/
theorem nextVertex_found {distances : List Distance} {vertex : Rank} {best : Distance}
    (hgreater : ∀ d ∈ distances, best < d) :
    nextVertex s distances vertex best = vertex := by
  cases distances with
  | nil => rfl
  | cons theDistance distances =>
      have hlt := hgreater theDistance (by simp)
      rw [nextVertex, if_pos ⟨by omega, by exact_mod_cast hlt⟩]

theorem nextVertex_of_sorted (current : Rank) (hindexed : s.Indexed) {distances : List Distance}
    (hsorted : distances.Pairwise (· < ·)) {d : Distance} {v : Rank} (hd : d ∈ distances)
    (hv : v ∈ s.verticesWithDistance.get d) :
    nextVertex s distances current (-1) ∈ s.unvisited ∧
      ∀ d' ∈ distances, ∀ w ∈ s.verticesWithDistance.get d',
        s.tentativeDistances.get (nextVertex s distances current (-1)) ≤ d' := by
  induction distances with
  | nil => cases hd
  | cons theDistance distances ih =>
      obtain ⟨hfirst, hsorted⟩ := List.pairwise_cons.mp hsorted
      rw [nextVertex, if_neg (fun h => h.1 rfl)]
      cases hset : first? (s.verticesWithDistance.get theDistance) with
      | none =>
          have hempty := Map.first?_eq_none_iff.mp hset
          have hd : d ∈ distances := by
            rcases List.mem_cons.mp hd with rfl | hd
            · rw [hempty] at hv
              exact absurd hv (Finset.notMem_empty v)
            · exact hd
          obtain ⟨hopen, hleast⟩ := ih hsorted hd
          refine ⟨hopen, fun d' hd' w hw => ?_⟩
          rcases List.mem_cons.mp hd' with rfl | hd'
          · rw [hempty] at hw
            exact absurd hw (Finset.notMem_empty w)
          · exact hleast d' hd' w hw
      | some vertex =>
          obtain ⟨hopen, hdistance⟩ := (hindexed theDistance vertex).mp (Map.first?_mem hset)
          simp only [or_true, if_true]
          rw [hdistance, nextVertex_found hfirst]
          refine ⟨hopen, fun d' hd' _ _ => ?_⟩
          rw [hdistance]
          rcases List.mem_cons.mp hd' with rfl | hd'
          · exact le_rfl
          · exact (hfirst d' hd').le

/-- The next vertex is a closest one of the unvisited. -/
theorem nextVertex_spec (current : Rank) (hindexed : s.Indexed) (hsome : s.unvisited.Nonempty) :
    nextVertex s (s.verticesWithDistance.keys.sort (· ≤ ·)) current (-1) ∈ s.unvisited ∧
      ∀ v ∈ s.unvisited, s.labels.distance
        (nextVertex s (s.verticesWithDistance.keys.sort (· ≤ ·)) current (-1)) ≤
          s.labels.distance v := by
  have hin : ∀ v ∈ s.unvisited,
      v ∈ s.verticesWithDistance.get (s.tentativeDistances.get v) := fun v hv =>
    (hindexed _ v).mpr ⟨hv, rfl⟩
  have hkey : ∀ v ∈ s.unvisited,
      s.tentativeDistances.get v ∈ s.verticesWithDistance.keys.sort (· ≤ ·) := fun v hv =>
    (Finset.mem_sort _).mpr (Map.mem_keys_of_mem_get (hin v hv))
  obtain ⟨v, hv⟩ := hsome
  obtain ⟨hopen, hleast⟩ := nextVertex_of_sorted current hindexed
    (Finset.sortedLT_sort _).pairwise (hkey v hv) (hin v hv)
  exact ⟨hopen, fun w hw => hleast _ (hkey w hw) w (hin w hw)⟩

/-! ## The loop -/

/-- Labels of a search on the ranks. -/
abbrev Search.Sound (m_size : Int32) (m_outcomingConnections : List (Finset Rank))
    (source : Rank) (s : Search) : Prop :=
  s.labels.Sound (fun u v => connects m_outcomingConnections u v = true) (vertices m_size)
    source farAway

/-- A round settles the current vertex. -/
theorem round_spec (hconnections : m_outcomingConnections.length = m_size.toNatClampNeg)
    (hevents : m_relayEvents.length = m_size.toNatClampNeg)
    (hsound : s.Sound m_size m_outcomingConnections source) (hindexed : s.Indexed)
    (hcurrent : current ∈ s.unvisited)
    (hclosest : ∀ v ∈ s.unvisited, s.labels.distance current ≤ s.labels.distance v) :
    ∃ connections s', getOutcomingConnections m_outcomingConnections current =
        some connections ∧
      connections.foldlM (relax m_relayEvents current) s = some s' ∧
      (s'.leave current).Indexed ∧
      (s'.leave current).Sound m_size m_outcomingConnections source ∧
      (s'.leave current).unvisited = s.unvisited.erase current := by
  have hrank := mem_vertices.mp (hsound.unvisited hcurrent)
  obtain ⟨set, hset⟩ := entry_isSome hconnections hrank
  obtain ⟨s', hs', hindexed', hrelax⟩ :=
    relaxAll_spec hevents hrank (set.sort (· ≤ ·)) s hindexed fun v u hu =>
      mem_vertices.mp (hsound.reached u v hu).2.1
  have hedges : (fun v => v ∈ set.sort (· ≤ ·)) =
      fun v => connects m_outcomingConnections current v = true := by
    funext v
    simp [connects, hset]
  rw [hedges] at hrelax
  refine ⟨_, s', by rw [getOutcomingConnections, hset]; rfl, hs', hindexed'.leave, ?_, ?_⟩
  · exact hsound.settle hcurrent hclosest hrelax
  · show s'.unvisited.erase current = _
    rw [show s'.unvisited = s.unvisited from hrelax.unvisited]

/-- The loop ends with all vertices visited, by induction on their number. -/
theorem searchFrom_spec (hconnections : m_outcomingConnections.length = m_size.toNatClampNeg)
    (hevents : m_relayEvents.length = m_size.toNatClampNeg) :
    ∀ n (s : Search) (current : Rank), s.unvisited.card = n →
      s.Sound m_size m_outcomingConnections source → s.Indexed →
      (s.unvisited.Nonempty → current ∈ s.unvisited ∧
        ∀ v ∈ s.unvisited, s.labels.distance current ≤ s.labels.distance v) →
      ∃ s', (∀ fuel ≥ n, searchFrom m_outcomingConnections m_relayEvents fuel s current =
          some s') ∧
        s'.Sound m_size m_outcomingConnections source ∧ s'.unvisited = ∅ := by
  intro n
  induction n with
  | zero =>
      intro s current hcard hsound _ _
      have hempty := Finset.card_eq_zero.mp hcard
      refine ⟨s, fun fuel _ => ?_, hsound, hempty⟩
      unfold searchFrom
      rw [if_pos hempty]
  | succ n ih =>
      intro s current hcard hsound hindexed hnext
      have hsome : s.unvisited.Nonempty := Finset.card_pos.mp (by omega)
      obtain ⟨hcurrent, hclosest⟩ := hnext hsome
      obtain ⟨connections, s₁, hget, hfold, hindexed₁, hsound₁, hopen₁⟩ :=
        round_spec hconnections hevents hsound hindexed hcurrent hclosest
      have hcard₁ : (s₁.leave current).unvisited.card = n := by
        rw [hopen₁, Finset.card_erase_of_mem hcurrent]
        omega
      obtain ⟨s', hrun, hsound', hdone⟩ := ih (s₁.leave current) _ hcard₁ hsound₁ hindexed₁
        fun hsome₁ => nextVertex_spec current hindexed₁ hsome₁
      refine ⟨s', fun fuel hfuel => ?_, hsound', hdone⟩
      obtain ⟨fuel, rfl⟩ : ∃ less, fuel = less + 1 := ⟨fuel - 1, by omega⟩
      rw [searchFrom, if_neg hsome.ne_empty]
      simp only [Option.bind_eq_bind, hget, hfold, Option.bind_some]
      exact hrun fuel (by omega)

/-! ## The start -/

theorem mem_indexOf (tentativeDistances : Map Rank Distance) (l : List Rank)
    (index : Map Distance (Finset Rank)) (d : Distance) (v : Rank) :
    v ∈ (l.foldl (fun index i => index.insertIn (tentativeDistances.get i) i) index).get d ↔
      (v ∈ l ∧ tentativeDistances.get v = d) ∨ v ∈ index.get d := by
  induction l generalizing index with
  | nil => simp
  | cons i l ih =>
      rw [List.foldl_cons, ih, Map.mem_insertIn, List.mem_cons]
      constructor
      · rintro (⟨hv, hd⟩ | ⟨rfl, rfl⟩ | hv)
        · exact .inl ⟨.inr hv, hd⟩
        · exact .inl ⟨.inl rfl, rfl⟩
        · exact .inr hv
      · rintro (⟨rfl | hv, hd⟩ | hv)
        · exact .inr (.inl ⟨hd.symm, rfl⟩)
        · exact .inl ⟨hv, hd⟩
        · exact .inr (.inr hv)

theorem lookup_insertAll (l : List Rank) (m : Map Rank Distance) (v : Rank) :
    (l.foldl (fun (distances : Map Rank Distance) i => distances.insert i farAway) m).lookup v =
      if v ∈ l then some farAway else m.lookup v := by
  induction l generalizing m with
  | nil => simp
  | cons i l ih =>
      rw [List.foldl_cons, ih]
      by_cases hi : v = i
      · subst hi
        simp [Finmap.lookup_insert]
      · simp [hi, Finmap.lookup_insert_of_ne _ hi]

theorem lookup_startDistances (v : Rank) :
    (startDistances m_size source).lookup v =
      if v = source then some 0 else if v ∈ vertices m_size then some farAway else none := by
  unfold startDistances
  by_cases hv : v = source
  · rw [hv, Finmap.lookup_insert, if_pos rfl]
  · rw [Finmap.lookup_insert_of_ne _ hv, lookup_insertAll, if_neg hv]
    simp

theorem mem_keys_startDistances (hsource : IsRank m_size source) {v : Rank} :
    v ∈ (startDistances m_size source).keys ↔ v ∈ vertices m_size := by
  rw [Finmap.mem_keys, Finmap.mem_iff, lookup_startDistances]
  by_cases hv : v = source
  · simp [hv, mem_ranks, hsource]
  · by_cases hvertex : v ∈ vertices m_size
    · simp [hv, hvertex]
    · simp [hv, hvertex]

theorem startSearch_indexed (hsource : IsRank m_size source) :
    (startSearch m_size source).Indexed := by
  intro d v
  show v ∈ (indexOf _ _).get d ↔ v ∈ vertices m_size ∧ _
  rw [indexOf, mem_indexOf, Finset.mem_sort, mem_keys_startDistances hsource, Map.get_empty]
  exact or_iff_left (Finset.notMem_empty v)

theorem startSearch_sound (m_outcomingConnections : List (Finset Rank))
    (hsource : IsRank m_size source) :
    (startSearch m_size source).Sound m_size m_outcomingConnections source := by
  have hvertex := mem_vertices.mpr hsource
  have hzero : (startSearch m_size source).labels.distance source = 0 := by
    show Map.get (startDistances m_size source) source = 0
    rw [Map.get, lookup_startDistances, if_pos rfl]
    rfl
  have hfar : ∀ v ∈ vertices m_size, v ≠ source →
      (startSearch m_size source).labels.distance v = farAway := by
    intro v hv hne
    show Map.get (startDistances m_size source) v = farAway
    rw [Map.get, lookup_startDistances, if_neg hne, if_pos hv]
    rfl
  refine ⟨subset_rfl, ⟨hzero, rfl⟩, fun v hv => ?_, fun u v hu => ?_,
    fun v hv hne _ => hfar v hv hne, fun u hu hvisited => absurd hu hvisited,
    fun u hu hvisited => absurd hu hvisited⟩
  · by_cases hv' : v = source
    · rw [hv', hzero]
      exact Nat.zero_le _
    · exact (hfar v hv hv').le
  · change (∅ : Map Rank Rank).lookup v = some u at hu
    simp at hu

/-! ## The route -/

theorem IsRoute.hop {connected : Rank → Rank → Bool} {u v : Rank} {hops : Nat}
    {route : List Rank} (h : IsRoute connected source u hops route)
    (hedge : connected u v = true) :
    IsRoute connected source v (hops + 1) (route ++ [v]) := by
  refine ⟨?_, by simp, ?_, by simp [h.length]⟩
  · rw [List.head?_append, h.head]
    rfl
  · rw [List.isChain_append]
    refine ⟨h.edges, by simp, fun a ha b hb => ?_⟩
    rw [h.last] at ha
    cases ha
    cases hb
    exact hedge

/-- The rest of a route. -/
theorem IsRoute.rest {connected : Rank → Rank → Bool} {a b destination : Rank} {hops : Nat}
    {route : List Rank} (h : IsRoute connected source destination hops (a :: b :: route)) :
    a = source ∧ connected a b = true ∧ ∃ less, hops = less + 1 ∧
      IsRoute connected b destination less (b :: route) := by
  obtain ⟨hhead, hlast, hedges, hlength⟩ := h
  cases hhead
  obtain ⟨hedge, hedges⟩ := List.isChain_cons_cons.mp hedges
  rw [List.getLast?_cons_cons] at hlast
  exact ⟨rfl, hedge, route.length, by simpa using hlength.symm, rfl, hlast, hedges, by simp⟩

theorem IsRoute.single {connected : Rank → Rank → Bool} {a destination : Rank} {hops : Nat}
    (h : IsRoute connected source destination hops [a]) :
    a = source ∧ a = destination ∧ hops = 0 := by
  obtain ⟨hhead, hlast, -, hlength⟩ := h
  cases hhead
  cases hlast
  exact ⟨rfl, rfl, by simpa using hlength.symm⟩

theorem IsRoute.walk {connected : Rank → Rank → Bool} {destination : Rank} {hops : Nat}
    {route : List Rank} (h : IsRoute connected source destination hops route) :
    Walk (fun u v => connected u v = true) source hops destination := by
  induction route generalizing source hops with
  | nil => cases h.head
  | cons a route ih =>
      cases route with
      | nil =>
          obtain ⟨rfl, rfl, rfl⟩ := h.single
          exact .start
      | cons b route =>
          obtain ⟨rfl, hedge, less, rfl, hrest⟩ := h.rest
          refine Walk.cons ?_ (ih hrest)
          exact hedge

/-- From each vertex of a route there is a walk to the end. -/
theorem IsRoute.walk_of_mem {connected : Rank → Rank → Bool} {x destination : Rank}
    {hops : Nat} {route : List Rank} (h : IsRoute connected source destination hops route)
    (hx : x ∈ route) :
    ∃ n ≤ hops, Walk (fun u v => connected u v = true) x n destination := by
  induction route generalizing source hops with
  | nil => cases h.head
  | cons a route ih =>
      rcases List.mem_cons.mp hx with rfl | hx
      · obtain rfl : x = source := by simpa using h.head
        exact ⟨hops, le_rfl, h.walk⟩
      · cases route with
        | nil => cases hx
        | cons b route =>
            obtain ⟨-, -, less, rfl, hrest⟩ := h.rest
            obtain ⟨n, hle, hwalk⟩ := ih hrest hx
            exact ⟨n, hle.trans (Nat.le_succ _), hwalk⟩

/-- A shortest route has no vertex twice. -/
theorem IsRoute.nodup {connected : Rank → Rank → Bool} {destination : Rank} {hops : Nat}
    {route : List Rank} (h : IsRoute connected source destination hops route)
    (hshortest : ∀ n, Walk (fun u v => connected u v = true) source n destination → hops ≤ n) :
    route.Nodup := by
  induction route generalizing source hops with
  | nil => exact List.nodup_nil
  | cons a route ih =>
      cases route with
      | nil => exact List.nodup_singleton a
      | cons b route =>
          obtain ⟨rfl, hedge, less, rfl, hrest⟩ := h.rest
          refine List.nodup_cons.mpr ⟨fun ha => ?_, ih hrest fun n hwalk => ?_⟩
          · obtain ⟨n, hle, hwalk⟩ := hrest.walk_of_mem ha
            have := hshortest n hwalk
            omega
          · have hlonger : Walk (fun u v => connected u v = true) a (n + 1) destination := by
              refine Walk.cons ?_ hwalk
              exact hedge
            have := hshortest (n + 1) hlonger
            omega

/-- A route along the connections of the ranks only visits ranks. -/
theorem IsRoute.isRank (hlength : m_outcomingConnections.length = m_size.toNatClampNeg)
    {destination : Rank} (hdestination : IsRank m_size destination) {hops : Nat}
    {route : List Rank}
    (h : IsRoute (connects m_outcomingConnections) source destination hops route) :
    ∀ r ∈ route, IsRank m_size r := by
  induction route generalizing source hops with
  | nil => exact fun r hr => absurd hr List.not_mem_nil
  | cons a route ih =>
      cases route with
      | nil =>
          obtain ⟨-, rfl, -⟩ := h.single
          simpa using hdestination
      | cons b route =>
          obtain ⟨-, hedge, less, -, hrest⟩ := h.rest
          intro r hr
          rcases List.mem_cons.mp hr with rfl | hr
          · exact isRank_of_connects hlength hedge
          · exact ih hrest r hr

/-- The predecessors of a vertex that has been reached, by induction on its distance. -/
theorem generateRoute_spec (hsound : s.Sound m_size m_outcomingConnections source) :
    ∀ n v, v ∈ vertices m_size → s.labels.distance v = n → n < farAway →
      ∃ front, IsRoute (connects m_outcomingConnections) source v n front ∧
        ∀ fuel ≥ n, ∀ route, generateRoute s.previousVertices source fuel v route =
          some (front ++ route.reverse) := by
  intro n
  induction n with
  | zero =>
      intro v hv hdistance hlt
      have hwalk := hsound.walk hv (by omega)
      rw [hdistance] at hwalk
      have hsource := hwalk.eq_of_zero
      refine ⟨[source], ⟨rfl, by simp [hsource], by simp, rfl⟩, fun fuel _ route => ?_⟩
      unfold generateRoute
      rw [if_pos hsource]
      simp
  | succ n ih =>
      intro v hv hdistance hlt
      have hne : v ≠ source := by
        rintro rfl
        rw [hsound.start.1] at hdistance
        omega
      cases hprev : s.previousVertices.lookup v with
      | none =>
          have := hsound.unreached v hv hne hprev
          omega
      | some u =>
          obtain ⟨hedge, hu, -, hstep, -⟩ := hsound.reached u v hprev
          obtain ⟨front, hfront, hroute⟩ := ih u hu (by omega) (by omega)
          refine ⟨front ++ [v], hfront.hop hedge, fun fuel hfuel route => ?_⟩
          obtain ⟨fuel, rfl⟩ : ∃ less, fuel = less + 1 := ⟨fuel - 1, by omega⟩
          rw [generateRoute, if_neg hne, hprev]
          show generateRoute _ _ _ _ _ = _
          rw [hroute fuel (by omega)]
          simp

/-- The number of rounds that is enough for both loops. -/
abbrev searchRounds (m_size : Int32) : Nat :=
  m_size.toNatClampNeg + farAway

/-- The search between different vertices returns a shortest route, or none if every walk
is as long as `farAway`. -/
theorem findShortestPath_spec
    (hconnections : m_outcomingConnections.length = m_size.toNatClampNeg)
    (hevents : m_relayEvents.length = m_size.toNatClampNeg) {destination : Rank}
    (hsource : IsRank m_size source) (hdestination : IsRank m_size destination)
    (hne : source ≠ destination) :
    ∃ route, (∀ fuel ≥ searchRounds m_size, findShortestPath m_size m_outcomingConnections
        m_relayEvents fuel source destination = some route) ∧
      ((∃ hops < farAway, IsRoute (connects m_outcomingConnections) source destination hops route ∧
          ∀ n, Walk (fun u v => connects m_outcomingConnections u v = true) source n destination →
            hops ≤ n) ∨
        route = [] ∧
          ∀ n, Walk (fun u v => connects m_outcomingConnections u v = true) source n destination →
            farAway ≤ n) := by
  have hcard : (startSearch m_size source).unvisited.card ≤ m_size.toNatClampNeg := by
    refine (List.toFinset_card_le _).trans ?_
    simp [ranks]
  have hvertex := mem_vertices.mpr hdestination
  have hstart := startSearch_sound m_outcomingConnections hsource
  obtain ⟨s, hrun, hsound, hdone⟩ := searchFrom_spec hconnections hevents
    _ (startSearch m_size source) source rfl hstart (startSearch_indexed hsource) fun _ =>
      ⟨mem_vertices.mpr hsource, fun v _ => hstart.start.1.le.trans (Nat.zero_le _)⟩
  have hshortest := fun n hwalk => hsound.le_of_walk (n := n) hdone
    (fun u v hedge => mem_vertices.mpr (isRank_of_connects hconnections hedge)) hwalk hvertex
  have hsearch : ∀ fuel ≥ searchRounds m_size, findShortestPath m_size m_outcomingConnections
      m_relayEvents fuel source destination =
        generateRoute s.previousVertices source fuel destination [] := by
    intro fuel hfuel
    rw [findShortestPath, if_neg hne, hrun fuel (by unfold searchRounds at hfuel; omega)]
    rfl
  rcases (hsound.bounded destination hvertex).lt_or_eq with hlt | hfar
  · obtain ⟨route, hroute, hgenerate⟩ := generateRoute_spec hsound _ destination hvertex rfl hlt
    refine ⟨route, fun fuel hfuel => ?_, .inl ⟨_, hlt, hroute, hshortest⟩⟩
    rw [hsearch fuel hfuel, hgenerate fuel (by unfold searchRounds at hfuel; omega)]
    simp
  · have hnone : s.previousVertices.lookup destination = none := by
      cases hprev : s.previousVertices.lookup destination with
      | none => rfl
      | some u =>
          have := (hsound.reached u destination hprev).2.2.2.2
          omega
    refine ⟨[], fun fuel hfuel => ?_, .inr ⟨rfl, fun n hwalk => hfar ▸ hshortest n hwalk⟩⟩
    obtain ⟨less, hless⟩ : ∃ less, fuel = less + 1 := by
      refine ⟨fuel - 1, ?_⟩
      have : farAway = 9999 := rfl
      unfold searchRounds at hfuel
      omega
    rw [hsearch fuel hfuel, hless, generateRoute, if_neg (Ne.symm hne), hnone]

/-- Equal ends give the two of them, as the route of a message to oneself. Otherwise the
route is one of the shortest, and empty if there is none below the code's infinity. -/
theorem findShortestPath_correct
    (hconnections : m_outcomingConnections.length = m_size.toNatClampNeg)
    (hevents : m_relayEvents.length = m_size.toNatClampNeg) {destination : Rank}
    (hsource : IsRank m_size source) (hdestination : IsRank m_size destination) :
    ∃ route, (∀ fuel ≥ searchRounds m_size, findShortestPath m_size m_outcomingConnections
        m_relayEvents fuel source destination = some route) ∧
      (source = destination → route = [source, destination]) ∧
      (source ≠ destination →
        ((∃ hops < 9999, ∃ other,
            IsRoute (connects m_outcomingConnections) source destination hops other) →
          ∃ hops, IsRoute (connects m_outcomingConnections) source destination hops route ∧
            ∀ hops' other, IsRoute (connects m_outcomingConnections) source destination
              hops' other → hops ≤ hops') ∧
        ((∀ hops < 9999, ∀ other,
            ¬ IsRoute (connects m_outcomingConnections) source destination hops other) →
          route = [])) := by
  by_cases hsame : source = destination
  · refine ⟨[source, destination], fun fuel _ => ?_, fun _ => rfl, fun hne => absurd hsame hne⟩
    rw [findShortestPath, if_pos hsame]
  · obtain ⟨route, hrun, ⟨hops, hlt, hroute, hshortest⟩ | ⟨rfl, hfar⟩⟩ :=
      findShortestPath_spec hconnections hevents hsource hdestination hsame
    · refine ⟨route, hrun, fun heq => absurd heq hsame, fun _ => ⟨fun _ => ?_, fun hnone => ?_⟩⟩
      · exact ⟨hops, hroute, fun hops' other hother => hshortest hops' hother.walk⟩
      · exact absurd hroute (hnone hops hlt route)
    · refine ⟨[], hrun, fun heq => absurd heq hsame, fun _ => ⟨?_, fun _ => rfl⟩⟩
      rintro ⟨hops, hlt, other, hother⟩
      exact absurd (hfar hops hother.walk) (by unfold farAway; omega)

end

theorem findShortestPath_correct_cycle :
    ∃ route, (∀ fuel ≥ searchRounds 3,
        findShortestPath 3 [{1}, {2}, {0}] [0, 0, 0] fuel 0 2 = some route) ∧
      ∃ hops, IsRoute (connects [{1}, {2}, {0}]) 0 2 hops route := by
  obtain ⟨route, hrun, -, hroute⟩ := @findShortestPath_correct 3 [{1}, {2}, {0}] [0, 0, 0] 0
    rfl rfl 2 ⟨by decide, by decide⟩ ⟨by decide, by decide⟩
  obtain ⟨hops, hshort, -⟩ := (hroute (by decide)).1
    ⟨2, by decide, [0, 1, 2], rfl, rfl, by decide, rfl⟩
  exact ⟨route, hrun, hops, hshort⟩

/-- The route from a vertex to itself is not along an edge, and not the shortest one. -/
theorem findShortestPath_equal_ends :
    (∀ fuel, findShortestPath 1 [∅] [0] fuel 0 0 = some [0, 0]) ∧
      (¬ ∃ hops, IsRoute (connects [∅]) 0 0 hops [0, 0]) ∧
      IsRoute (connects [∅]) 0 0 0 [0] := by
  refine ⟨fun fuel => rfl, ?_, rfl, rfl, by decide, rfl⟩
  rintro ⟨hops, hroute⟩
  have hedge := (List.isChain_cons_cons.mp hroute.edges).1
  exact absurd hedge (by decide)

end RayPlatform
