import RayPlatform.Routing.ShortestPath

/-!
# RouteTables

The tables of routes that `computeRoutes` fills for all pairs of ranks, in the order
of a shuffle, and their use by `getRoute` and `computeRelayEvents`.

* `updateEntry_spec`, `connectAll_spec` — what is written to the tables of a graph;
* `addRoute_spec` — one pair: its table gets the hops of its route, the tables of the
  other pairs stay (`routeTable`);
* `computeRoutes_spec` — when the search finds its routes whatever the relay events
  are, all pairs get one of these routes, in any order of the pairs;
* `getRoute_of_stored` — a route without repetition is followed to its end;
* `computeRelayEvents_spec` — the count of the relays then ends as well.
-/

namespace RayPlatform

open Lib
open MessageRouter (IsRank)

/-- The members of `GraphImplementation`. -/
structure GraphImplementation where
  m_size : Int32
  m_outcomingConnections : List (Finset Rank)
  m_incomingConnections : List (Finset Rank)
  /-- source, destination, vertex 1, vertex 2 -/
  m_routes : List (List (Map Rank Rank))
  m_relayEvents : List Int32
  m_relayEventsTo0 : List Int32
  m_relayEventsFrom0 : List Int32

/-- `table[r]=f(table[r])`, which fails outside the table. -/
def updateEntry {α : Type*} (table : List α) (r : Rank) (f : α → Option α) : Option (List α) := do
  let t ← entry table r
  let t' ← f t
  return table.set r.toNatClampNeg t'

/-- `events[relayRank]++` -/
def raise (relayRank : Rank) (events : List Int32) : Option (List Int32) :=
  updateEntry events relayRank fun count => some (count + 1)

def raiseIf (condition : Bool) (relayRank : Rank) (events : List Int32) : Option (List Int32) :=
  if condition then raise relayRank events else some events

namespace GraphImplementation

/-- A graph before `makeConnections`. -/
def blank : GraphImplementation :=
  ⟨0, [], [], [], [], [], []⟩

/-- The size, and empty sets of connections. -/
def resize (g : GraphImplementation) (n : Int32) : GraphImplementation :=
  { g with
    m_size := n
    m_outcomingConnections := g.m_outcomingConnections ++ (ranks n).map fun _ => ∅
    m_incomingConnections := g.m_incomingConnections ++ (ranks n).map fun _ => ∅ }

/-- The insertions for a connection from `source` to `destination`. -/
def connect (g : GraphImplementation) (pair : Rank × Rank) : Option GraphImplementation := do
  let outcoming ← updateEntry g.m_outcomingConnections pair.1 fun s => some (insert pair.2 s)
  let incoming ← updateEntry g.m_incomingConnections pair.2 fun s => some (insert pair.1 s)
  return { g with m_outcomingConnections := outcoming, m_incomingConnections := incoming }

/-- Communicating with itself is always allowed. -/
def isConnected (g : GraphImplementation) (source destination : Rank) : Bool :=
  if source = destination then true else connects g.m_outcomingConnections source destination

/-! ## Routes -/

/-- `m_routes[source][destination][route[i]]=route[i+1]` for all hops -/
def addHops (table : Map Rank Rank) : List Rank → Map Rank Rank
  | a :: b :: route => addHops (table.insert a b) (b :: route)
  | _ => table

/-- The ranks of the route minus the source and minus the destination. -/
def relays (route : List Rank) : List Rank :=
  (route.drop 1).dropLast

/-- initialize the relay events, append empty routes -/
def initializeRoutes (g : GraphImplementation) : GraphImplementation :=
  { g with
    m_relayEvents := g.m_relayEvents ++ (ranks g.m_size).map fun _ => 0
    m_routes := g.m_routes ++ (ranks g.m_size).map fun _ => (ranks g.m_size).map fun _ => ∅ }

/-- The pairs before the list is shuffled. -/
def pairs (m_size : Int32) : List (Rank × Rank) :=
  (ranks m_size).flatMap fun source => (ranks m_size).map fun destination => (source, destination)

section

variable (computeRoute : GraphImplementation → Rank → Rank → Option (List Rank))

/-- The route of a pair, and the relay information. -/
def addRoute (g : GraphImplementation) (pair : Rank × Rank) : Option GraphImplementation := do
  let route ← computeRoute g pair.1 pair.2
  let m_routes ← updateEntry g.m_routes pair.1 fun row =>
    updateEntry row pair.2 fun table => some (addHops table route)
  let m_relayEvents ← (relays route).foldlM (fun events relayRank => raise relayRank events)
    g.m_relayEvents
  return { g with m_routes, m_relayEvents }

/-- The routes of the shuffled pairs. -/
def computeRoutes (shuffled : List (Rank × Rank)) (g : GraphImplementation) :
    Option GraphImplementation :=
  shuffled.foldlM (addRoute computeRoute) g.initializeRoutes

end

/-- `computeRoute` of the graphs that search for their routes -/
def computeRoute (fuel : Nat) (g : GraphImplementation) (a b : Rank) : Option (List Rank) :=
  findShortestPath g.m_size g.m_outcomingConnections g.m_relayEvents fuel a b

/-- `m_routes[source][destination][rank]`, which stores rank 0 if there is no entry. -/
def getNextRankInRoute (g : GraphImplementation) (source destination rank : Rank) :
    Option (Rank × GraphImplementation) := do
  let row ← entry g.m_routes source
  let table ← entry row destination
  let m_routes ← updateEntry g.m_routes source fun row =>
    updateEntry row destination fun table => some (table.modify rank id)
  return (table.get rank, { g with m_routes })

/-! ## Relay events -/

/-- The counters that one relay rank of a route raises. -/
def countRelay (source destination : Rank) (g : GraphImplementation) (relayRank : Rank) :
    Option GraphImplementation := do
  let general ← raise relayRank g.m_relayEvents
  let from0 ← raiseIf (source == 0) relayRank g.m_relayEventsFrom0
  let to0 ← raiseIf (destination == 0) relayRank g.m_relayEventsTo0
  return { g with
    m_relayEvents := general, m_relayEventsFrom0 := from0, m_relayEventsTo0 := to0 }

/-- The relays of one pair. -/
def countRelays (fuel : Nat) (g : GraphImplementation) (pair : Rank × Rank) :
    Option GraphImplementation := do
  let (route, g) ← getRoute getNextRankInRoute fuel g pair.1 pair.2
  (relays route).foldlM (countRelay pair.1 pair.2) g

def computeRelayEvents (fuel : Nat) (g : GraphImplementation) : Option GraphImplementation :=
  (pairs g.m_size).foldlM (countRelays fuel)
    { g with
      m_relayEvents := (ranks g.m_size).map fun _ => 0
      m_relayEventsTo0 := (ranks g.m_size).map fun _ => 0
      m_relayEventsFrom0 := (ranks g.m_size).map fun _ => 0 }

/-- The calls of `findShortestPath` and `getRoute` loop at most `fuel` times. -/
def makeRoutes (fuel : Nat) (shuffled : List (Rank × Rank)) (g : GraphImplementation) :
    Option GraphImplementation := do
  let g ← computeRoutes (computeRoute fuel) shuffled g
  computeRelayEvents fuel g

end GraphImplementation

/-! ## Tables with one entry for each rank -/

theorem updateEntry_spec {α : Type*} {table : List α} {r : Rank} {t t' : α}
    {f : α → Option α} (hentry : entry table r = some t) (hf : f t = some t') :
    ∃ table', updateEntry table r f = some table' ∧ table'.length = table.length ∧
      entry table' r = some t' ∧ ∀ r' ≠ r, entry table' r' = entry table r' := by
  have hupdate : updateEntry table r f = some (table.set r.toNatClampNeg t') := by
    simp [updateEntry, hentry, hf]
  refine ⟨_, hupdate, List.length_set, ?_, fun r' hne => ?_⟩
  · unfold entry at hentry ⊢
    split at hentry
    case isTrue hge =>
      obtain ⟨hlt, -⟩ := List.getElem?_eq_some_iff.mp hentry
      rw [if_pos hge, List.getElem?_set_self hlt]
    case isFalse => cases hentry
  · unfold entry at hentry ⊢
    split at hentry
    case isTrue hge =>
      split
      case isTrue hge' =>
        rw [List.getElem?_set_ne]
        intro heq
        apply hne
        rw [← Int32.ofNat_toNatClampNeg r hge, ← Int32.ofNat_toNatClampNeg r' hge', heq]
      case isFalse => rfl
    case isFalse => cases hentry

/-- Nothing changes where the update gives back the entry. -/
theorem updateEntry_same {α : Type*} {table : List α} {r : Rank} {t : α} {f : α → Option α}
    (hentry : entry table r = some t) (hf : f t = some t) :
    updateEntry table r f = some table := by
  have hupdate : updateEntry table r f = some (table.set r.toNatClampNeg t) := by
    simp [updateEntry, hentry, hf]
  rw [hupdate]
  unfold entry at hentry
  split at hentry
  case isTrue hge =>
    obtain ⟨hlt, rfl⟩ := List.getElem?_eq_some_iff.mp hentry
    rw [List.set_getElem_self]
  case isFalse => cases hentry

theorem entry_map_ranks {α : Type*} {m_size : Int32} {t : α} {r : Rank}
    (hr : IsRank m_size r) : entry ((ranks m_size).map fun _ => t) r = some t := by
  obtain ⟨k, hk, rfl⟩ := isRank_iff.mp hr
  have hsize := Int32.toNatClampNeg_lt m_size
  rw [entry_ofNat _ (by omega)]
  simp [ranks, hk]

theorem raise_spec {m_size : Int32} {events : List Int32}
    (hlength : events.length = m_size.toNatClampNeg) {r : Rank} (hr : IsRank m_size r) :
    ∃ events', raise r events = some events' ∧ events'.length = m_size.toNatClampNeg := by
  obtain ⟨count, hcount⟩ := entry_isSome hlength hr
  obtain ⟨events', hevents', hlength', -⟩ :=
    updateEntry_spec (f := fun count => some (count + 1)) hcount rfl
  exact ⟨events', hevents', hlength'.trans hlength⟩

theorem raiseIf_spec {m_size : Int32} {events : List Int32}
    (hlength : events.length = m_size.toNatClampNeg) {r : Rank} (hr : IsRank m_size r)
    (condition : Bool) : ∃ events', raiseIf condition r events = some events' ∧
      events'.length = m_size.toNatClampNeg := by
  cases condition with
  | true => exact raise_spec hlength hr
  | false => exact ⟨events, rfl, hlength⟩

/-- Raising the counters of some ranks. -/
theorem raiseAll_spec {m_size : Int32} (relayRanks : List Rank)
    (hranks : ∀ r ∈ relayRanks, IsRank m_size r) :
    ∀ events : List Int32, events.length = m_size.toNatClampNeg →
      ∃ events', relayRanks.foldlM (fun events relayRank => raise relayRank events) events =
        some events' ∧ events'.length = m_size.toNatClampNeg := by
  induction relayRanks with
  | nil => exact fun events hlength => ⟨events, rfl, hlength⟩
  | cons r relayRanks ih =>
      intro events hlength
      obtain ⟨events₁, hevents₁, hlength₁⟩ := raise_spec hlength (hranks r (by simp))
      obtain ⟨events₂, hevents₂, hlength₂⟩ :=
        ih (fun r' hr' => hranks r' (by simp [hr'])) events₁ hlength₁
      refine ⟨events₂, ?_, hlength₂⟩
      rw [List.foldlM_cons, hevents₁]
      exact hevents₂

namespace GraphImplementation

variable {g : GraphImplementation}

/-! ## Connections -/

/-- The tables of the connections have one set for each rank, and are converse. -/
structure Linked (g : GraphImplementation) : Prop where
  outcoming : g.m_outcomingConnections.length = g.m_size.toNatClampNeg
  incoming : g.m_incomingConnections.length = g.m_size.toNatClampNeg
  converse : ∀ u v, connects g.m_incomingConnections v u = connects g.m_outcomingConnections u v

theorem connects_insert {table table' : List (Finset Rank)} {u v : Rank} {s : Finset Rank}
    (hs : entry table u = some s) (hnew : entry table' u = some (insert v s))
    (hold : ∀ r ≠ u, entry table' r = entry table r) (a b : Rank) :
    connects table' a b = true ↔ (a = u ∧ b = v) ∨ connects table a b = true := by
  simp only [connects, decide_eq_true_iff]
  by_cases ha : a = u
  · subst ha
    simp [hs, hnew]
  · simp [hold a ha, ha]

/-- One connection. -/
theorem connect_spec (h : g.Linked) {u v : Rank} (hu : IsRank g.m_size u)
    (hv : IsRank g.m_size v) :
    ∃ outcoming incoming, g.connect (u, v) = some { g with
        m_outcomingConnections := outcoming, m_incomingConnections := incoming } ∧
      Linked { g with m_outcomingConnections := outcoming, m_incomingConnections := incoming } ∧
      ∀ a b, connects outcoming a b = true ↔
        (a = u ∧ b = v) ∨ connects g.m_outcomingConnections a b = true := by
  obtain ⟨out, hout⟩ := entry_isSome h.outcoming hu
  obtain ⟨inc, hinc⟩ := entry_isSome h.incoming hv
  obtain ⟨outcoming, houtcoming, houtlen, houtnew, houtold⟩ :=
    updateEntry_spec (f := fun s => some (insert v s)) hout rfl
  obtain ⟨incoming, hincoming, hinclen, hincnew, hincold⟩ :=
    updateEntry_spec (f := fun s => some (insert u s)) hinc rfl
  have hedges := connects_insert hout houtnew houtold
  have hback := connects_insert hinc hincnew hincold
  refine ⟨outcoming, incoming, by simp [connect, houtcoming, hincoming],
    ⟨houtlen.trans h.outcoming, hinclen.trans h.incoming, fun a b => ?_⟩, hedges⟩
  rw [Bool.eq_iff_iff, hback b a, hedges a b, h.converse a b, and_comm]

/-- Several connections, one after the other. -/
theorem connectAll_spec (edges : List (Rank × Rank)) :
    ∀ g : GraphImplementation, g.Linked →
      (∀ e ∈ edges, IsRank g.m_size e.1 ∧ IsRank g.m_size e.2) →
      ∃ outcoming incoming, edges.foldlM connect g = some { g with
          m_outcomingConnections := outcoming, m_incomingConnections := incoming } ∧
        Linked { g with
          m_outcomingConnections := outcoming, m_incomingConnections := incoming } ∧
        ∀ a b, connects outcoming a b = true ↔
          (a, b) ∈ edges ∨ connects g.m_outcomingConnections a b = true := by
  induction edges with
  | nil => exact fun g h _ => ⟨_, _, rfl, h, by simp⟩
  | cons e edges ih =>
      intro g h hranks
      obtain ⟨hu, hv⟩ := hranks e (by simp)
      obtain ⟨out₁, inc₁, hconnect, h₁, hedges₁⟩ := connect_spec h hu hv
      obtain ⟨out₂, inc₂, hrest, h₂, hedges₂⟩ := ih _ h₁ fun e' he' => hranks e' (by simp [he'])
      refine ⟨out₂, inc₂, ?_, h₂, fun a b => ?_⟩
      · rw [List.foldlM_cons, hconnect]
        exact hrest
      · rw [hedges₂, hedges₁, List.mem_cons, Prod.ext_iff]
        tauto

theorem linked_resize (n : Int32) : (blank.resize n).Linked ∧
    ∀ a b, connects (blank.resize n).m_outcomingConnections a b = false := by
  have hempty : ∀ a b, connects ((ranks n).map fun _ => ∅) a b = false := by
    intro a b
    rw [connects, decide_eq_false_iff_not]
    cases hentry : entry ((ranks n).map fun _ => (∅ : Finset Rank)) a with
    | none => exact Finset.notMem_empty b
    | some s =>
        have hlength : ((ranks n).map fun _ => (∅ : Finset Rank)).length = n.toNatClampNeg := by
          simp [ranks]
        have hrank := isRank_of_entry hlength hentry
        rw [entry_map_ranks hrank] at hentry
        cases hentry
        exact Finset.notMem_empty b
  refine ⟨⟨by simp [resize, blank, ranks], by simp [resize, blank, ranks], fun u v => ?_⟩,
    hempty⟩
  exact (hempty v u).trans (hempty u v).symm

/-! ## The table of a pair -/

/-- `m_routes[source][destination]` -/
def routeTable (g : GraphImplementation) (source destination : Rank) :
    Option (Map Rank Rank) := do
  let row ← entry g.m_routes source
  entry row destination

/-- The tables that `computeRoutes` works on have their sizes. -/
structure Sized (g : GraphImplementation) : Prop where
  outcoming : g.m_outcomingConnections.length = g.m_size.toNatClampNeg
  relayEvents : g.m_relayEvents.length = g.m_size.toNatClampNeg
  routes : ∀ s d, IsRank g.m_size s → IsRank g.m_size d → ∃ t, g.routeTable s d = some t

theorem updateTable_spec {s d : Rank} {t t' : Map Rank Rank}
    {f : Map Rank Rank → Option (Map Rank Rank)} (ht : g.routeTable s d = some t)
    (hf : f t = some t') :
    ∃ m_routes, updateEntry g.m_routes s (fun row => updateEntry row d f) = some m_routes ∧
      routeTable { g with m_routes } s d = some t' ∧
      ∀ s' d', (s', d') ≠ (s, d) → routeTable { g with m_routes } s' d' = g.routeTable s' d' := by
  simp only [routeTable, Option.bind_eq_bind, Option.bind_eq_some_iff] at ht
  obtain ⟨row, hrow, hcell⟩ := ht
  obtain ⟨row', hrow', -, hcellnew, hcellold⟩ := updateEntry_spec hcell hf
  obtain ⟨m_routes, hupdate, -, hnew, hold⟩ :=
    updateEntry_spec (f := fun row => updateEntry row d f) hrow hrow'
  refine ⟨m_routes, hupdate, by simp [routeTable, hnew, hcellnew], fun s' d' hne => ?_⟩
  by_cases hs : s' = s
  · subst hs
    have hd : d' ≠ d := fun h => hne (by rw [h])
    simp [routeTable, hnew, hrow, hcellold d' hd]
  · simp [routeTable, hold s' hs]

/-- A search for a route and what it finds: see `findShortestPath_spec`. -/
def FoundRoute (m_outcomingConnections : List (Finset Rank)) (s d : Rank) (route : List Rank) :
    Prop :=
  (s = d ∧ route = [s, d]) ∨ (s ≠ d ∧
    ((∃ hops < farAway, IsRoute (connects m_outcomingConnections) s d hops route ∧
        ∀ n, Walk (fun u v => connects m_outcomingConnections u v = true) s n d → hops ≤ n) ∨
      route = [] ∧
        ∀ n, Walk (fun u v => connects m_outcomingConnections u v = true) s n d → farAway ≤ n))

theorem computeRoute_spec (h : g.Sized) {s d : Rank} (hs : IsRank g.m_size s)
    (hd : IsRank g.m_size d) :
    ∃ route, (∀ fuel ≥ searchRounds g.m_size, computeRoute fuel g s d = some route) ∧
      FoundRoute g.m_outcomingConnections s d route := by
  by_cases hsame : s = d
  · refine ⟨[s, d], fun fuel _ => ?_, .inl ⟨hsame, rfl⟩⟩
    rw [computeRoute, findShortestPath, if_pos hsame]
  · obtain ⟨route, hrun, hroute⟩ := findShortestPath_spec h.outcoming h.relayEvents hs hd hsame
    exact ⟨route, hrun, .inr ⟨hsame, hroute⟩⟩

theorem FoundRoute.isRank {m_outcomingConnections : List (Finset Rank)} {m_size : Int32}
    (hlength : m_outcomingConnections.length = m_size.toNatClampNeg) {s d : Rank}
    (hs : IsRank m_size s) (hd : IsRank m_size d) {route : List Rank}
    (h : FoundRoute m_outcomingConnections s d route) : ∀ r ∈ route, IsRank m_size r := by
  obtain ⟨rfl, rfl⟩ | ⟨-, ⟨hops, -, hroute, -⟩ | ⟨rfl, -⟩⟩ := h
  · simpa using hs
  · exact hroute.isRank hlength hd
  · exact fun r hr => absurd hr List.not_mem_nil

/-! ## All pairs -/

/-- One pair. -/
theorem addRoute_spec (h : g.Sized) {s d : Rank} (hs : IsRank g.m_size s)
    (hd : IsRank g.m_size d) {t : Map Rank Rank} (ht : g.routeTable s d = some t) :
    ∃ m_routes m_relayEvents route,
      (∀ fuel ≥ searchRounds g.m_size, addRoute (computeRoute fuel) g (s, d) =
        some { g with m_routes, m_relayEvents }) ∧
      Sized { g with m_routes, m_relayEvents } ∧
      FoundRoute g.m_outcomingConnections s d route ∧
      routeTable { g with m_routes, m_relayEvents } s d = some (addHops t route) ∧
      ∀ s' d', (s', d') ≠ (s, d) →
        routeTable { g with m_routes, m_relayEvents } s' d' = g.routeTable s' d' := by
  obtain ⟨route, hcompute, hfound⟩ := computeRoute_spec h hs hd
  obtain ⟨m_routes, hroutes, hnew, hold⟩ :=
    updateTable_spec (f := fun table => some (addHops table route)) ht rfl
  obtain ⟨m_relayEvents, hevents, hlength⟩ := raiseAll_spec (relays route)
    (fun r hr => hfound.isRank h.outcoming hs hd r (List.mem_of_mem_drop
      (List.dropLast_subset _ hr))) g.m_relayEvents h.relayEvents
  refine ⟨m_routes, m_relayEvents, route, fun fuel hfuel => ?_,
    ⟨h.outcoming, hlength, fun s' d' hs' hd' => ?_⟩, hfound, hnew, hold⟩
  · simp [addRoute, hcompute fuel hfuel, hroutes, hevents]
  · by_cases hpair : (s', d') = (s, d)
    · obtain ⟨rfl, rfl⟩ := Prod.ext_iff.mp hpair
      exact ⟨_, hnew⟩
    · obtain ⟨t', ht'⟩ := h.routes s' d' hs' hd'
      exact ⟨t', (hold s' d' hpair).trans ht'⟩

/-- Pairs in any order: each of them gets the hops of a route that a search finds, and the
tables of the others stay. -/
theorem addRoutes_spec (shuffled : List (Rank × Rank)) (hnodup : shuffled.Nodup) :
    ∀ g : GraphImplementation, g.Sized →
      (∀ p ∈ shuffled, IsRank g.m_size p.1 ∧ IsRank g.m_size p.2) →
      ∃ m_routes m_relayEvents,
        (∀ fuel ≥ searchRounds g.m_size,
          shuffled.foldlM (addRoute (computeRoute fuel)) g =
            some { g with m_routes, m_relayEvents }) ∧
        Sized { g with m_routes, m_relayEvents } ∧
        (∀ p ∈ shuffled, ∀ t, g.routeTable p.1 p.2 = some t →
          ∃ route, FoundRoute g.m_outcomingConnections p.1 p.2 route ∧
            routeTable { g with m_routes, m_relayEvents } p.1 p.2 = some (addHops t route)) ∧
        ∀ s d, (s, d) ∉ shuffled →
          routeTable { g with m_routes, m_relayEvents } s d = g.routeTable s d := by
  induction shuffled with
  | nil => exact fun g h _ => ⟨_, _, fun _ _ => rfl, h, by simp, fun _ _ _ => rfl⟩
  | cons p shuffled ih =>
      intro g h hranks
      obtain ⟨hnot, hnodup⟩ := List.nodup_cons.mp hnodup
      obtain ⟨hs, hd⟩ := hranks p (by simp)
      obtain ⟨t, ht⟩ := h.routes p.1 p.2 hs hd
      obtain ⟨routes₁, events₁, route, hadd, h₁, hfound, hnew, hold⟩ := addRoute_spec h hs hd ht
      obtain ⟨routes₂, events₂, hrest, h₂, hall, hother⟩ :=
        ih hnodup _ h₁ fun q hq => hranks q (by simp [hq])
      refine ⟨routes₂, events₂, fun fuel hfuel => ?_, h₂, fun q hq u hu => ?_, fun s d hsd => ?_⟩
      · rw [List.foldlM_cons, hadd fuel hfuel]
        exact hrest fuel hfuel
      · rcases List.mem_cons.mp hq with rfl | hq
        · cases ht.symm.trans hu
          exact ⟨route, hfound, (hother _ _ hnot).trans hnew⟩
        · have hne : (q.1, q.2) ≠ (p.1, p.2) := fun heq => hnot ((Prod.ext_iff.mpr
            ⟨congrArg Prod.fst heq, congrArg Prod.snd heq⟩ : q = p) ▸ hq)
          exact hall q hq u ((hold q.1 q.2 hne).trans hu)
      · rw [List.mem_cons, not_or] at hsd
        exact (hother s d hsd.2).trans (hold s d hsd.1)

theorem mem_pairs {m_size : Int32} {s d : Rank} :
    (s, d) ∈ pairs m_size ↔ IsRank m_size s ∧ IsRank m_size d := by
  simp [pairs, mem_ranks]

theorem nodup_ranks (m_size : Int32) : (ranks m_size).Nodup := by
  have hsize := Int32.toNatClampNeg_lt m_size
  refine List.Nodup.map_on (fun i hi j hj heq => ?_) List.nodup_range
  have hvalue := congrArg Int32.toNatClampNeg heq
  rw [List.mem_range] at hi hj
  rwa [Int32.toNatClampNeg_ofNat_of_lt (by omega),
    Int32.toNatClampNeg_ofNat_of_lt (by omega)] at hvalue

theorem nodup_pairs (m_size : Int32) : (pairs m_size).Nodup := by
  rw [pairs, List.nodup_flatMap]
  refine ⟨fun s _ => (nodup_ranks m_size).map fun _ _ h => (Prod.ext_iff.mp h).2, ?_⟩
  refine (nodup_ranks m_size).imp fun {s s'} hne => ?_
  intro p hp hp'
  obtain ⟨d, -, rfl⟩ := List.mem_map.mp hp
  obtain ⟨d', -, heq⟩ := List.mem_map.mp hp'
  exact hne (Prod.ext_iff.mp heq).1.symm

/-- A graph that `makeConnections` has connected, and nothing else. -/
structure Fresh (g : GraphImplementation) : Prop where
  linked : g.Linked
  relayEvents : g.m_relayEvents = []
  routes : g.m_routes = []

theorem Fresh.initializeRoutes (h : g.Fresh) :
    g.initializeRoutes.Sized ∧ ∀ s d, IsRank g.m_size s → IsRank g.m_size d →
      g.initializeRoutes.routeTable s d = some ∅ := by
  have htable : ∀ s d, IsRank g.m_size s → IsRank g.m_size d →
      g.initializeRoutes.routeTable s d = some ∅ := by
    intro s d hs hd
    simp only [routeTable, GraphImplementation.initializeRoutes, h.routes, List.nil_append]
    rw [entry_map_ranks hs]
    exact entry_map_ranks hd
  refine ⟨⟨h.linked.outcoming, ?_, fun s d hs hd => ⟨∅, htable s d hs hd⟩⟩, htable⟩
  simp [GraphImplementation.initializeRoutes, h.relayEvents, ranks]

/-- All pairs of ranks get the hops of a route that a search finds. -/
theorem computeRoutes_spec (h : g.Fresh) {shuffled : List (Rank × Rank)}
    (hshuffled : shuffled.Perm (pairs g.m_size)) :
    ∃ m_routes m_relayEvents,
      (∀ fuel ≥ searchRounds g.m_size, computeRoutes (computeRoute fuel) shuffled g =
        some { g with m_routes, m_relayEvents }) ∧
      Sized { g with m_routes, m_relayEvents } ∧
      ∀ s d, IsRank g.m_size s → IsRank g.m_size d →
        ∃ route, FoundRoute g.m_outcomingConnections s d route ∧
          routeTable { g with m_routes, m_relayEvents } s d = some (addHops ∅ route) := by
  obtain ⟨hsized, hempty⟩ := h.initializeRoutes
  obtain ⟨m_routes, m_relayEvents, hrun, hsized', hall, -⟩ := addRoutes_spec shuffled
    (hshuffled.nodup_iff.mpr (nodup_pairs g.m_size)) g.initializeRoutes hsized
    fun p hp => mem_pairs.mp (hshuffled.mem_iff.mp hp)
  refine ⟨m_routes, m_relayEvents, hrun, hsized', fun s d hs hd => ?_⟩
  exact hall (s, d) (hshuffled.mem_iff.mpr (mem_pairs.mpr ⟨hs, hd⟩)) ∅ (hempty s d hs hd)

/-! ## Following a route -/

/-- Each hop of a route is in the table. -/
abbrev Stored (t : Map Rank Rank) (route : List Rank) : Prop :=
  route.IsChain fun a b => t.lookup a = some b

theorem lookup_addHops_of_notMem {a : Rank} (route : List Rank) (ha : a ∉ route) :
    ∀ t : Map Rank Rank, (addHops t route).lookup a = t.lookup a := by
  induction route with
  | nil => exact fun t => rfl
  | cons b route ih =>
      intro t
      rw [List.mem_cons, not_or] at ha
      cases route with
      | nil => rfl
      | cons c route =>
          rw [addHops, ih ha.2]
          exact Finmap.lookup_insert_of_ne _ ha.1

/-- The hops of a route without repetition are all there at the end. -/
theorem stored_addHops (route : List Rank) (hnodup : route.Nodup) :
    ∀ t : Map Rank Rank, Stored (addHops t route) route := by
  induction route with
  | nil => exact fun t => List.IsChain.nil
  | cons a route ih =>
      intro t
      obtain ⟨hnot, hnodup⟩ := List.nodup_cons.mp hnodup
      cases route with
      | nil => exact List.IsChain.singleton a
      | cons b route =>
          rw [addHops]
          refine List.isChain_cons_cons.mpr ⟨?_, ih hnodup _⟩
          rw [lookup_addHops_of_notMem _ hnot]
          exact Finmap.lookup_insert t

theorem modify_id_of_lookup {t : Map Rank Rank} {r next : Rank} (h : t.lookup r = some next) :
    t.get r = next ∧ t.modify r id = t := by
  have hget : t.get r = next := by
    rw [Map.get, h]
    rfl
  refine ⟨hget, Finmap.ext_lookup fun x => ?_⟩
  rw [Map.lookup_modify]
  split
  case isTrue hx => rw [hx, h, hget]; rfl
  case isFalse => rfl

/-- Looking up a hop that is there changes nothing. -/
theorem getNextRankInRoute_spec {s d r next : Rank} {t : Map Rank Rank}
    (ht : g.routeTable s d = some t) (hnext : t.lookup r = some next) :
    getNextRankInRoute g s d r = some (next, g) := by
  obtain ⟨hget, hmodify⟩ := modify_id_of_lookup hnext
  simp only [routeTable, Option.bind_eq_bind, Option.bind_eq_some_iff] at ht
  obtain ⟨row, hrow, hcell⟩ := ht
  have hsame := updateEntry_same (f := fun row => updateEntry row d fun table =>
    some (table.modify r id)) hrow (updateEntry_same hcell (by rw [hmodify]))
  simp only [getNextRankInRoute, Option.bind_eq_bind, hrow, hcell, hsame, Option.bind_some, hget]
  rfl

/-- A stored route without repetition is followed to its end. -/
theorem routeFrom_of_stored {connected : Rank → Rank → Bool} {s d : Rank} {t : Map Rank Rank}
    (ht : g.routeTable s d = some t) (route : List Rank) :
    ∀ r hops, IsRoute connected r d hops route → route.Nodup → Stored t route →
      ∀ fuel ≥ hops, routeFrom getNextRankInRoute s d fuel g r = some (route, g) := by
  induction route with
  | nil =>
      intro r hops hroute
      cases hroute.head
  | cons a route ih =>
      intro r hops hroute hnodup hstored fuel hfuel
      obtain ⟨hnot, hnodup⟩ := List.nodup_cons.mp hnodup
      cases route with
      | nil =>
          obtain ⟨rfl, rfl, -⟩ := hroute.single
          unfold routeFrom
          rw [if_pos rfl]
      | cons b route =>
          obtain ⟨rfl, -, less, rfl, hrest⟩ := hroute.rest
          obtain ⟨hnext, hstored⟩ := List.isChain_cons_cons.mp hstored
          have hne : a ≠ d := fun heq => hnot (heq ▸ List.mem_of_getLast? hrest.last)
          obtain ⟨fuel, rfl⟩ : ∃ less, fuel = less + 1 := ⟨fuel - 1, by omega⟩
          rw [routeFrom, if_neg hne, getNextRankInRoute_spec ht hnext]
          simp only [Option.bind_eq_bind, Option.bind_some,
            ih b less hrest hnodup hstored fuel (by omega)]
          rfl

/-- What the table of a pair holds and where `getRoute` arrives, if there is a route. -/
structure Leads (g : GraphImplementation) (s d : Rank) (hops : Nat) (route : List Rank) : Prop where
  along : IsRoute g.isConnected s d hops route
  table : ∃ t, g.routeTable s d = some t ∧ Stored t route
  next : route.IsChain fun a b => getNextRankInRoute g s d a = some (b, g)
  getRoute : ∃ followed, IsRoute g.isConnected s d (followed.length - 1) followed ∧
    followed.length ≤ hops + 1 ∧ ∀ fuel ≥ hops,
      RayPlatform.getRoute getNextRankInRoute fuel g s d = some (followed, g)

theorem isConnected_of_connects {u v : Rank}
    (h : connects g.m_outcomingConnections u v = true) : g.isConnected u v = true := by
  unfold isConnected
  split
  · rfl
  · exact h

theorem isRoute_isConnected {s d : Rank} {hops : Nat} {route : List Rank}
    (h : IsRoute (connects g.m_outcomingConnections) s d hops route) :
    IsRoute g.isConnected s d hops route :=
  ⟨h.head, h.last, h.edges.imp fun _ _ => isConnected_of_connects, h.length⟩

/-- The route from a rank to itself. -/
theorem leads_self {s : Rank} (ht : g.routeTable s s = some (addHops ∅ [s, s])) :
    g.Leads s s 1 [s, s] := by
  have hself : g.isConnected s s = true := if_pos rfl
  have hlookup : (addHops ∅ [s, s]).lookup s = some s := Finmap.lookup_insert _
  refine ⟨⟨rfl, rfl, by simpa using hself, rfl⟩, ⟨_, ht, by simpa using hlookup⟩, ?_, [s],
    ⟨rfl, rfl, by simp, rfl⟩, by simp, fun fuel _ => ?_⟩
  · simpa using getNextRankInRoute_spec ht hlookup
  · rw [RayPlatform.getRoute]
    unfold routeFrom
    rw [if_pos rfl]

theorem leads_of_shortest {s d : Rank} {hops : Nat} {route : List Rank}
    (ht : g.routeTable s d = some (addHops ∅ route))
    (hroute : IsRoute (connects g.m_outcomingConnections) s d hops route)
    (hshortest : ∀ n, Walk (fun u v => connects g.m_outcomingConnections u v = true) s n d →
      hops ≤ n) : g.Leads s d hops route := by
  have hnodup := hroute.nodup hshortest
  have hstored := stored_addHops route hnodup ∅
  have hlength := hroute.length
  refine ⟨isRoute_isConnected hroute, ⟨_, ht, hstored⟩,
    hstored.imp fun a b hab => getNextRankInRoute_spec ht hab, route, ?_, hlength.le, ?_⟩
  · rw [hlength]
    exact isRoute_isConnected hroute
  · exact routeFrom_of_stored ht route s hops hroute hnodup hstored

/-! ## Counting the relays -/

/-- The counters of the relay events have one entry for each rank. -/
structure Counters (m_size : Int32) (g : GraphImplementation) : Prop where
  general : g.m_relayEvents.length = m_size.toNatClampNeg
  from0 : g.m_relayEventsFrom0.length = m_size.toNatClampNeg
  to0 : g.m_relayEventsTo0.length = m_size.toNatClampNeg

theorem countRelay_spec {m_size : Int32} (h : g.Counters m_size) (s d : Rank) {r : Rank}
    (hr : IsRank m_size r) :
    ∃ general from0 to0, countRelay s d g r = some { g with
        m_relayEvents := general, m_relayEventsFrom0 := from0, m_relayEventsTo0 := to0 } ∧
      Counters m_size { g with
        m_relayEvents := general, m_relayEventsFrom0 := from0, m_relayEventsTo0 := to0 } := by
  obtain ⟨general, hgeneral, hlength⟩ := raise_spec h.general hr
  obtain ⟨from0, hfrom0, hlength0⟩ := raiseIf_spec h.from0 hr (s == 0)
  obtain ⟨to0, hto0, hlength1⟩ := raiseIf_spec h.to0 hr (d == 0)
  refine ⟨general, from0, to0, ?_, hlength, hlength0, hlength1⟩
  simp only [countRelay, Option.bind_eq_bind, hgeneral, hfrom0, hto0, Option.bind_some]
  rfl

theorem countAllRelays_spec {m_size : Int32} (s d : Rank) (relayRanks : List Rank)
    (hranks : ∀ r ∈ relayRanks, IsRank m_size r) :
    ∀ g : GraphImplementation, g.Counters m_size →
      ∃ general from0 to0, relayRanks.foldlM (countRelay s d) g = some { g with
          m_relayEvents := general, m_relayEventsFrom0 := from0, m_relayEventsTo0 := to0 } ∧
        Counters m_size { g with
          m_relayEvents := general, m_relayEventsFrom0 := from0, m_relayEventsTo0 := to0 } := by
  induction relayRanks with
  | nil => exact fun g h => ⟨_, _, _, rfl, h⟩
  | cons r relayRanks ih =>
      intro g h
      obtain ⟨general₁, from₁, to₁, hcount, h₁⟩ := countRelay_spec h s d (hranks r (by simp))
      obtain ⟨general₂, from₂, to₂, hrest, h₂⟩ := ih (fun r' hr' => hranks r' (by simp [hr'])) _ h₁
      refine ⟨general₂, from₂, to₂, ?_, h₂⟩
      rw [List.foldlM_cons, hcount]
      exact hrest

/-- `getRoute` ends for a pair, and this rests on the tables of the routes only. -/
def Followed (m_size : Int32) (bound : Nat) (m_routes : List (List (Map Rank Rank)))
    (s d : Rank) : Prop :=
  ∃ route : List Rank, (∀ r ∈ route, IsRank m_size r) ∧
    ∀ g : GraphImplementation, g.m_routes = m_routes → ∀ fuel ≥ bound,
      RayPlatform.getRoute getNextRankInRoute fuel g s d = some (route, g)

theorem countPairs_spec {m_size : Int32} {bound : Nat} {m_routes : List (List (Map Rank Rank))}
    (pairs : List (Rank × Rank))
    (hfollowed : ∀ p ∈ pairs, Followed m_size bound m_routes p.1 p.2) :
    ∀ g : GraphImplementation, g.Counters m_size → g.m_routes = m_routes →
      ∃ general from0 to0, (∀ fuel ≥ bound, pairs.foldlM (countRelays fuel) g = some { g with
        m_relayEvents := general, m_relayEventsFrom0 := from0, m_relayEventsTo0 := to0 }) := by
  induction pairs with
  | nil => exact fun g _ _ => ⟨_, _, _, fun _ _ => rfl⟩
  | cons p pairs ih =>
      intro g h hroutes
      obtain ⟨route, hranks, hgetRoute⟩ := hfollowed p (by simp)
      obtain ⟨general₁, from₁, to₁, hcount, h₁⟩ := countAllRelays_spec p.1 p.2 (relays route)
        (fun r hr => hranks r (List.mem_of_mem_drop (List.dropLast_subset _ hr))) g h
      obtain ⟨general₂, from₂, to₂, hrest⟩ :=
        ih (fun q hq => hfollowed q (by simp [hq])) _ h₁ hroutes
      refine ⟨general₂, from₂, to₂, fun fuel hfuel => ?_⟩
      have hone : countRelays fuel g p = some { g with
          m_relayEvents := general₁, m_relayEventsFrom0 := from₁, m_relayEventsTo0 := to₁ } := by
        simp only [countRelays, Option.bind_eq_bind, hgetRoute g hroutes fuel hfuel,
          Option.bind_some]
        exact hcount
      rw [List.foldlM_cons, hone]
      exact hrest fuel hfuel

/-- The count ends if all routes can be followed. -/
theorem computeRelayEvents_spec {bound : Nat}
    (hfollowed : ∀ s d, IsRank g.m_size s → IsRank g.m_size d →
      Followed g.m_size bound g.m_routes s d) :
    ∃ g', ∀ fuel ≥ bound, computeRelayEvents fuel g = some g' := by
  have hcounters : Counters g.m_size { g with
      m_relayEvents := (ranks g.m_size).map fun _ => 0
      m_relayEventsTo0 := (ranks g.m_size).map fun _ => 0
      m_relayEventsFrom0 := (ranks g.m_size).map fun _ => 0 } :=
    ⟨by simp [ranks], by simp [ranks], by simp [ranks]⟩
  obtain ⟨general, from0, to0, hrun⟩ := countPairs_spec (pairs g.m_size) (fun p hp =>
    hfollowed p.1 p.2 (mem_pairs.mp hp).1 (mem_pairs.mp hp).2) _ hcounters rfl
  exact ⟨_, hrun⟩

/-- Where all pairs have a shortest route `getRoute` ends for all of them. -/
theorem followed_of_shortest {s d : Rank} (hsized : g.m_outcomingConnections.length =
      g.m_size.toNatClampNeg) (hd : IsRank g.m_size d) {bound hops : Nat}
    (hle : hops ≤ bound) {route : List Rank} (ht : g.routeTable s d = some (addHops ∅ route))
    (hroute : IsRoute (connects g.m_outcomingConnections) s d hops route)
    (hshortest : ∀ n, Walk (fun u v => connects g.m_outcomingConnections u v = true) s n d →
      hops ≤ n) : Followed g.m_size bound g.m_routes s d := by
  have hnodup := hroute.nodup hshortest
  refine ⟨route, hroute.isRank hsized hd, fun g' hsame fuel hfuel => ?_⟩
  have ht' : g'.routeTable s d = some (addHops ∅ route) := by
    rw [← ht]
    simp only [routeTable, hsame]
  exact routeFrom_of_stored ht' route s hops hroute hnodup (stored_addHops route hnodup ∅) fuel
    (by omega)

theorem followed_self {s : Rank} (hs : IsRank g.m_size s) (bound : Nat) :
    Followed g.m_size bound g.m_routes s s := by
  refine ⟨[s], by simpa using hs, fun g' _ fuel _ => ?_⟩
  rw [RayPlatform.getRoute]
  unfold routeFrom
  rw [if_pos rfl]

end GraphImplementation

end RayPlatform
