import RayPlatform.Routing.RouteTables

/-!
# GraphImplementationRandom

The first edges of a shuffled list of all pairs of ranks, about `n log2 n / 2` of
them, in both directions. Nothing checks that they connect the ranks: with three
ranks there is one edge only.

* `Spans` — the condition on the shuffle: the chosen identifiers are indexes, and
  any two ranks are joined by a chain that the search does not take for infinite;
* `Supports` — connected, a table route for all pairs, and all loops end.
  `supports_iff` says that the one is exactly the condition for the other.
-/

namespace RayPlatform

open Lib
open MessageRouter (IsRank)

namespace GraphImplementationRandom

open GraphImplementation

/-- all edges: no pair for (i,i), and none for (i,j) if i<j -/
def edges (m_size : Int32) : List (Rank × Rank) :=
  (ranks m_size).flatMap fun i =>
    ((ranks m_size).filter fun j => ¬ i = j ∧ ¬ i < j).map fun j => (i, j)

/-- The identifiers of the edges before the shuffle, counted by an `int`. -/
def identifiers (m_size : Int32) : List Int32 :=
  (List.range (edges m_size).length).map Int32.ofNat

/-- `(int)(log(m_size)/log(2))` -/
def connectionsPerVertex (m_size : Int32) : Int32 :=
  Int32.ofNat (Nat.log2 m_size.toNatClampNeg)

def numberOfEdgesToAdd (m_size : Int32) : Int32 :=
  m_size * connectionsPerVertex m_size / 2

/-- The edge that the shuffled list has at an index. -/
def edgeAt (m_size : Int32) (shuffled : List Int32) (i : Nat) : Option (Rank × Rank) := do
  let identifier ← shuffled[i]?
  entry (edges m_size) identifier

/-- add the first edges in both directions -/
def makeConnections (n : Int32) (shuffled : List Int32) : Option GraphImplementation := do
  let chosen ← (List.range (numberOfEdgesToAdd n).toNatClampNeg).mapM (edgeAt n shuffled)
  (chosen.flatMap fun edge => [edge, edge.swap]).foldlM connect (blank.resize n)

/-- Two ranks of one of the first edges. -/
def Joined (n : Int32) (shuffled : List Int32) (u v : Rank) : Prop :=
  ∃ i < (numberOfEdgesToAdd n).toNatClampNeg,
    edgeAt n shuffled i = some (u, v) ∨ edgeAt n shuffled i = some (v, u)

/-- The first identifiers are indexes of edges, and these edges join any two ranks by a chain
shorter than the search's infinity. -/
structure Spans (n : Int32) (shuffled : List Int32) : Prop where
  inRange : ∀ i < (numberOfEdgesToAdd n).toNatClampNeg, ∃ edge, edgeAt n shuffled i = some edge
  joined : ∀ s d, IsRank n s → IsRank n d → ∃ hops < farAway, Walk (Joined n shuffled) s hops d

/-- The graph is connected, the tables lead along edges, and all routes are followed to
their ends. -/
def Supports (n : Int32) (shuffled : List Int32) (order : List (Rank × Rank)) : Prop :=
  ∃ g g', makeConnections n shuffled = some g ∧
    (∀ fuel ≥ searchRounds n, computeRoutes (computeRoute fuel) order g = some g') ∧
    (∀ s d, IsRank n s → IsRank n d → ∃ hops,
      Walk (fun a b => connects g.m_outcomingConnections a b = true) s hops d) ∧
    (∀ s d, IsRank n s → IsRank n d → ∃ hops route, g'.Leads s d hops route) ∧
    ∃ g'', ∀ fuel ≥ searchRounds n, computeRelayEvents fuel g' = some g''

variable {n : Int32} {shuffled : List Int32}

theorem isRank_of_edgeAt {i : Nat} {edge : Rank × Rank} (h : edgeAt n shuffled i = some edge) :
    IsRank n edge.1 ∧ IsRank n edge.2 := by
  simp only [edgeAt, Option.bind_eq_bind, Option.bind_eq_some_iff] at h
  obtain ⟨identifier, -, hentry⟩ := h
  have hmem : edge ∈ edges n := by
    unfold entry at hentry
    split at hentry
    case isTrue => exact List.mem_of_getElem? hentry
    case isFalse => cases hentry
  simp only [edges, List.mem_flatMap, List.mem_map, List.mem_filter] at hmem
  obtain ⟨i, hi, j, ⟨hj, -⟩, rfl⟩ := hmem
  exact ⟨mem_ranks.mp hi, mem_ranks.mp hj⟩

/-- The connections are made exactly if the first identifiers are indexes. -/
theorem makeConnections_spec
    (h : ∀ i < (numberOfEdgesToAdd n).toNatClampNeg, ∃ edge, edgeAt n shuffled i = some edge) :
    ∃ g, makeConnections n shuffled = some g ∧ g.m_size = n ∧ g.Fresh ∧
      ∀ a b, connects g.m_outcomingConnections a b = true ↔ Joined n shuffled a b := by
  obtain ⟨chosen, hchosen, hentries⟩ := mapM_isSome (f := edgeAt n shuffled)
    (l := List.range (numberOfEdgesToAdd n).toNatClampNeg) fun i hi => h i (List.mem_range.mp hi)
  have hmem : ∀ edge, edge ∈ chosen ↔
      ∃ i < (numberOfEdgesToAdd n).toNatClampNeg, edgeAt n shuffled i = some edge := by
    intro edge
    have hmap := mapM_eq_some_iff.mp hchosen
    rw [← List.mem_map_of_injective (Option.some_injective _), ← hmap, List.mem_map]
    simp only [List.mem_range]
  obtain ⟨hlinked, hempty⟩ := linked_resize n
  obtain ⟨outcoming, incoming, hmake, hlinked', hedges⟩ :=
    connectAll_spec (chosen.flatMap fun edge => [edge, edge.swap]) (blank.resize n) hlinked
      fun e he => by
        obtain ⟨edge, hedge, he⟩ := List.mem_flatMap.mp he
        obtain ⟨i, -, hi⟩ := (hmem edge).mp hedge
        have hranks := isRank_of_edgeAt hi
        simp only [List.mem_cons, List.not_mem_nil, or_false] at he
        rcases he with rfl | rfl
        · exact hranks
        · exact hranks.symm
  refine ⟨_, ?_, rfl, ⟨hlinked', rfl, rfl⟩, fun a b => ?_⟩
  · simp only [makeConnections, Option.bind_eq_bind, hchosen, Option.bind_some]
    exact hmake
  · refine (hedges a b).trans ?_
    rw [hempty]
    simp only [List.mem_flatMap, List.mem_cons, List.not_mem_nil, or_false, Bool.false_eq_true,
      hmem, Joined]
    constructor
    · rintro ⟨edge, ⟨i, hi, hedge⟩, rfl | hswap⟩
      · exact ⟨i, hi, .inl hedge⟩
      · rw [← Prod.swap_swap edge, ← hswap] at hedge
        exact ⟨i, hi, .inr hedge⟩
    · rintro ⟨i, hi, hedge | hedge⟩
      · exact ⟨(a, b), ⟨i, hi, hedge⟩, .inl rfl⟩
      · exact ⟨(b, a), ⟨i, hi, hedge⟩, .inr rfl⟩

theorem inRange_of_makeConnections {g : GraphImplementation}
    (h : makeConnections n shuffled = some g) :
    ∀ i < (numberOfEdgesToAdd n).toNatClampNeg, ∃ edge, edgeAt n shuffled i = some edge := by
  simp only [makeConnections, Option.bind_eq_bind, Option.bind_eq_some_iff] at h
  obtain ⟨chosen, hchosen, -⟩ := h
  intro i hi
  have hmem : edgeAt n shuffled i ∈ chosen.map some := by
    rw [← mapM_eq_some_iff.mp hchosen]
    exact List.mem_map_of_mem (List.mem_range.mpr hi)
  obtain ⟨edge, -, hedge⟩ := List.mem_map.mp hmem
  exact ⟨edge, hedge.symm⟩

theorem supports_of_spans (h : Spans n shuffled) {order : List (Rank × Rank)}
    (horder : order.Perm (pairs n)) : Supports n shuffled order := by
  obtain ⟨g, hmake, rfl, hfresh, hedges⟩ := makeConnections_spec h.inRange
  obtain ⟨m_routes, m_relayEvents, hrun, hsized, hroutes⟩ := computeRoutes_spec hfresh horder
  have hwalk : ∀ s d, IsRank g.m_size s → IsRank g.m_size d → ∃ hops < farAway,
      Walk (fun a b => connects g.m_outcomingConnections a b = true) s hops d := by
    intro s d hs hd
    obtain ⟨hops, hlt, hwalk⟩ := h.joined s d hs hd
    exact ⟨hops, hlt, hwalk.mono fun a b => (hedges a b).mpr⟩
  have hshortest : ∀ s d, IsRank g.m_size s → IsRank g.m_size d → s ≠ d →
      ∃ hops < farAway, ∃ route,
        IsRoute (connects g.m_outcomingConnections) s d hops route ∧
        (∀ n, Walk (fun u v => connects g.m_outcomingConnections u v = true) s n d → hops ≤ n) ∧
        routeTable { g with m_routes, m_relayEvents } s d = some (addHops ∅ route) := by
    intro s d hs hd hne
    obtain ⟨few, hlt, hwalk⟩ := hwalk s d hs hd
    obtain ⟨route, ⟨heq, -⟩ | ⟨-, ⟨hops, hfew, hroute, hleast⟩ | ⟨-, hfar⟩⟩, ht⟩ :=
      hroutes s d hs hd
    · exact absurd heq hne
    · exact ⟨hops, hfew, route, hroute, hleast, ht⟩
    · exact absurd (hfar few hwalk) (by omega)
  refine ⟨g, _, hmake, hrun, fun s d hs hd => ?_, fun s d hs hd => ?_, ?_⟩
  · obtain ⟨hops, -, hwalk⟩ := hwalk s d hs hd
    exact ⟨hops, hwalk⟩
  · by_cases heq : s = d
    · subst heq
      obtain ⟨route, ⟨-, rfl⟩ | ⟨hne, -⟩, ht⟩ := hroutes s s hs hs
      · exact ⟨1, [s, s], leads_self ht⟩
      · exact absurd rfl hne
    · obtain ⟨hops, -, route, hroute, hleast, ht⟩ := hshortest s d hs hd heq
      exact ⟨hops, route, leads_of_shortest ht hroute hleast⟩
  · refine computeRelayEvents_spec fun s d hs hd => ?_
    by_cases heq : s = d
    · subst heq
      exact followed_self hs _
    · obtain ⟨hops, hlt, route, hroute, hleast, ht⟩ := hshortest s d hs hd heq
      exact followed_of_shortest hsized.outcoming hd (by unfold searchRounds; omega) ht hroute
        hleast

/-- A table with a hop out of the source was filled from a route that the search found. -/
theorem spans_of_supports {order : List (Rank × Rank)} (horder : order.Perm (pairs n))
    (h : Supports n shuffled order) : Spans n shuffled := by
  obtain ⟨g, g', hmake, hrun, -, hleads, -⟩ := h
  have hinRange := inRange_of_makeConnections hmake
  obtain ⟨g₁, hmake₁, rfl, hfresh, hedges⟩ := makeConnections_spec hinRange
  obtain rfl : g₁ = g := Option.some.inj (hmake₁.symm.trans hmake)
  obtain ⟨m_routes, m_relayEvents, hrun₁, -, hroutes⟩ := computeRoutes_spec hfresh horder
  have hsame := Option.some.inj ((hrun₁ _ le_rfl).symm.trans (hrun _ le_rfl))
  refine ⟨hinRange, fun s d hs hd => ?_⟩
  by_cases heq : s = d
  · subst heq
    exact ⟨0, by decide, .start⟩
  · obtain ⟨route, ⟨hself, -⟩ | ⟨-, ⟨hops, hlt, hroute, -⟩ | ⟨rfl, -⟩⟩, ht⟩ := hroutes s d hs hd
    · exact absurd hself heq
    · exact ⟨hops, hlt, hroute.walk.mono fun a b => (hedges a b).mp⟩
    · obtain ⟨hops, route, hroute⟩ := hleads s d hs hd
      obtain ⟨t, ht', hstored⟩ := hroute.table
      rw [← hsame, ht] at ht'
      cases ht'
      exfalso
      cases route with
      | nil => cases hroute.along.head
      | cons a route =>
          cases route with
          | nil =>
              obtain ⟨rfl, rfl, -⟩ := hroute.along.single
              exact heq rfl
          | cons b route =>
              have hlookup := (List.isChain_cons_cons.mp hstored).1
              simp [addHops] at hlookup

theorem isRank_small {size r : Int32} {k : Nat} (hk : size.toNatClampNeg = k)
    (hr : IsRank size r) : ∃ i < k, r = Int32.ofNat i := by
  rw [← hk]
  exact isRank_iff.mp hr

/-- `getRoute` stays at rank 0 if the default value of the map is its next hop. -/
theorem routeFrom_of_missing {d : Rank} (hd : (0 : Rank) ≠ d) (fuel : Nat) :
    ∀ (g : GraphImplementation) (t : Map Rank Rank), g.routeTable 0 d = some t → t.get 0 = 0 →
      routeFrom getNextRankInRoute 0 d fuel g 0 = none := by
  induction fuel with
  | zero =>
      intro g t _ _
      rw [routeFrom, if_neg hd]
  | succ fuel ih =>
      intro g t ht hzero
      obtain ⟨m_routes, hupdate, hnew, -⟩ :=
        updateTable_spec (f := fun table => some (table.modify 0 id)) ht rfl
      have hnext : getNextRankInRoute g 0 d 0 = some (0, { g with m_routes }) := by
        simp only [routeTable, Option.bind_eq_bind, Option.bind_eq_some_iff] at ht
        obtain ⟨row, hrow, hcell⟩ := ht
        simp only [getNextRankInRoute, Option.bind_eq_bind, hrow, hcell, hupdate,
          Option.bind_some, hzero]
        rfl
      rw [routeFrom, if_neg hd, hnext]
      simp only [Option.bind_eq_bind, Option.bind_some]
      rw [ih _ _ hnew (by rw [Map.get_modify_self, hzero]; rfl)]
      rfl

end GraphImplementationRandom

end RayPlatform
