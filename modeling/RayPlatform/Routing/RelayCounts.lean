import RayPlatform.Lib.Geodesic
import RayPlatform.Routing.GraphImplementationGroup

/-!
# The counted relay events

`computeRoutes` raises a counter for each relay of a route as soon as the route is found, and
the searches for later routes prefer ranks with small counters. `computeRelayEvents` clears
the counters and counts again along the stored routes, with the routes from and to rank 0
apart.

* `countPairs_counts` — the second count is exact for all three counters;
* `addRoutes_counts` — so is the first, for the routes that the searches have found;
* `makeRoutes_counts` — the two agree, and the relays of all ranks together are as many as the
  shortest walks between the pairs have inner ranks, however the pairs were shuffled.
-/

namespace RayPlatform

open Lib
open MessageRouter (IsRank)
open GraphImplementation

/-- The counters of all ranks, which wrap around. -/
def counters (m_size : Int32) (count : Rank → Nat) : List Int32 :=
  (ranks m_size).map fun r => Int32.ofNat (count r)

section Counters

variable {m_size : Int32} {count : Rank → Nat} {r : Rank}

theorem length_counters : (counters m_size count).length = m_size.toNatClampNeg := by
  simp [counters, ranks]

theorem entry_counters (hr : IsRank m_size r) :
    entry (counters m_size count) r = some (Int32.ofNat (count r)) := by
  obtain ⟨k, hk, rfl⟩ := isRank_iff.mp hr
  have hsize := Int32.toNatClampNeg_lt m_size
  rw [entry_ofNat _ (by omega)]
  simp [counters, ranks, hk]

theorem eq_counters {table : List Int32} (hlength : table.length = m_size.toNatClampNeg)
    (h : ∀ r, IsRank m_size r → entry table r = some (Int32.ofNat (count r))) :
    table = counters m_size count := by
  have hsize := Int32.toNatClampNeg_lt m_size
  apply List.ext_getElem?
  intro k
  by_cases hk : k < m_size.toNatClampNeg
  · rw [← entry_ofNat table (by omega), ← entry_ofNat (counters _ _) (by omega),
      h _ (isRank_ofNat hk), entry_counters (isRank_ofNat hk)]
  · rw [List.getElem?_eq_none (by omega), List.getElem?_eq_none (by rw [length_counters]; omega)]

theorem raise_counters (hr : IsRank m_size r) :
    raise r (counters m_size count) = some (counters m_size fun x => count x + [r].count x) := by
  obtain ⟨table, hraise, hlength, hnew, hold⟩ :=
    updateEntry_spec (f := fun count => some (count + 1))
      (show entry (counters m_size count) r = some (Int32.ofNat (count r)) from entry_counters hr) rfl
  rw [raise, hraise]
  refine congrArg some (eq_counters (hlength.trans length_counters) fun x hx => ?_)
  by_cases heq : x = r
  · subst heq
    rw [hnew, List.count_singleton_self, Int32.ofNat_add]
    rfl
  · rw [hold x heq, entry_counters hx, List.count_singleton, if_neg (by simpa using Ne.symm heq)]
    rfl

theorem count_cons (r x : Rank) (l : List Rank) : (r :: l).count x = [r].count x + l.count x := by
  rw [← List.singleton_append, List.count_append]

theorem raiseAll_counters (relayRanks : List Rank) (hranks : ∀ r ∈ relayRanks, IsRank m_size r) :
    ∀ count, relayRanks.foldlM (fun events relayRank => raise relayRank events)
        (counters m_size count) =
      some (counters m_size fun x => count x + relayRanks.count x) := by
  induction relayRanks with
  | nil => exact fun count => rfl
  | cons r relayRanks ih =>
      intro count
      rw [List.foldlM_cons, raise_counters (hranks r List.mem_cons_self)]
      refine (ih (fun x hx => hranks x (List.mem_cons_of_mem r hx)) _).trans ?_
      refine congrArg (fun count => some (counters m_size count)) (funext fun x => ?_)
      rw [count_cons r x relayRanks]
      omega

end Counters

namespace GraphImplementation

/-- How often the routes of the pairs that meet a condition are relayed by a rank. -/
def tally (route : Rank × Rank → List Rank) (counts : Rank × Rank → Bool)
    (pairs : List (Rank × Rank)) (r : Rank) : Nat :=
  ((pairs.filter counts).map fun p => (relays (route p)).count r).sum

/-- A graph with the counters of its relay events. -/
def withCounts (g : GraphImplementation) (general from0 to0 : Rank → Nat) : GraphImplementation :=
  { g with
    m_relayEvents := counters g.m_size general
    m_relayEventsFrom0 := counters g.m_size from0
    m_relayEventsTo0 := counters g.m_size to0 }

section Tally

variable {route route' : Rank × Rank → List Rank} {counts : Rank × Rank → Bool}
  {pairs pairs' : List (Rank × Rank)} {p : Rank × Rank} {r : Rank}

theorem tally_cons :
    tally route counts (p :: pairs) r =
      (if counts p then (relays (route p)).count r else 0) + tally route counts pairs r := by
  rw [tally, List.filter_cons]
  split
  · rw [List.map_cons, List.sum_cons]
    rfl
  · rw [Nat.zero_add]
    rfl

theorem tally_perm (h : pairs.Perm pairs') :
    tally route counts pairs r = tally route counts pairs' r :=
  ((h.filter counts).map _).sum_nat

theorem tally_congr (h : ∀ p ∈ pairs, relays (route p) = relays (route' p)) :
    tally route counts pairs r = tally route' counts pairs r := by
  unfold tally
  congr 1
  exact List.map_congr_left fun p hp => by rw [h p (List.mem_of_mem_filter hp)]

/-- Along routes without repetition, the pairs are counted. -/
theorem tally_eq_countP (h : ∀ p ∈ pairs, (relays (route p)).Nodup) :
    tally route counts pairs r = pairs.countP fun p => counts p && r ∈ relays (route p) := by
  induction pairs with
  | nil => rfl
  | cons p pairs ih =>
      rw [tally_cons, List.countP_cons, ih fun q hq => h q (List.mem_cons_of_mem p hq), Nat.add_comm]
      congr 1
      rw [(h p List.mem_cons_self).count]
      cases counts p <;> simp

end Tally

variable {g : GraphImplementation}

/-! ## The count along the stored routes -/

/-- `getRoute` follows a route, and this rests on the tables of the routes only. -/
structure Follows (m_size : Int32) (bound : Nat) (m_routes : List (List (Map Rank Rank)))
    (p : Rank × Rank) (route : List Rank) : Prop where
  ranks : ∀ r ∈ route, IsRank m_size r
  run : ∀ g : GraphImplementation, g.m_routes = m_routes → ∀ fuel ≥ bound,
    RayPlatform.getRoute getNextRankInRoute fuel g p.1 p.2 = some (route, g)

theorem Follows.relays {m_size : Int32} {bound : Nat} {m_routes : List (List (Map Rank Rank))}
    {p : Rank × Rank} {route : List Rank} (h : Follows m_size bound m_routes p route) :
    ∀ r ∈ relays route, IsRank m_size r :=
  fun r hr => h.ranks r (List.mem_of_mem_drop (List.dropLast_subset _ hr))

theorem countRelay_counts {general from0 to0 : Rank → Nat} (s d : Rank) {r : Rank}
    (hr : IsRank g.m_size r) :
    countRelay s d (g.withCounts general from0 to0) r = some (g.withCounts
      (fun x => general x + [r].count x)
      (fun x => from0 x + if s == 0 then [r].count x else 0)
      (fun x => to0 x + if d == 0 then [r].count x else 0)) := by
  have hraiseIf : ∀ (condition : Bool) (count : Rank → Nat),
      raiseIf condition r (counters g.m_size count) =
        some (counters g.m_size fun x => count x + if condition then [r].count x else 0) := by
    intro condition count
    cases condition with
    | false => rfl
    | true => exact raise_counters hr
  simp only [countRelay, withCounts, raise_counters hr, hraiseIf, Option.bind_eq_bind,
    Option.bind_some]
  rfl

theorem countAllRelays_counts (s d : Rank) (relayRanks : List Rank)
    (hranks : ∀ r ∈ relayRanks, IsRank g.m_size r) :
    ∀ general from0 to0, relayRanks.foldlM (countRelay s d) (g.withCounts general from0 to0) =
      some (g.withCounts (fun x => general x + relayRanks.count x)
        (fun x => from0 x + if s == 0 then relayRanks.count x else 0)
        (fun x => to0 x + if d == 0 then relayRanks.count x else 0)) := by
  induction relayRanks with
  | nil =>
      intro general from0 to0
      simp
  | cons r relayRanks ih =>
      intro general from0 to0
      rw [List.foldlM_cons, countRelay_counts s d (hranks r List.mem_cons_self)]
      refine (ih (fun x hx => hranks x (List.mem_cons_of_mem r hx)) _ _ _).trans ?_
      congr 2 <;> funext x <;> rw [count_cons r x relayRanks]
      · omega
      · split <;> omega
      · split <;> omega

/-- The count is exact for any pairs whose routes can be followed. -/
theorem countPairs_counts {bound : Nat} {route : Rank × Rank → List Rank}
    (pairs : List (Rank × Rank))
    (hfollows : ∀ p ∈ pairs, Follows g.m_size bound g.m_routes p (route p)) {fuel : Nat}
    (hfuel : fuel ≥ bound) :
    ∀ general from0 to0, pairs.foldlM (countRelays fuel) (g.withCounts general from0 to0) =
      some (g.withCounts (fun x => general x + tally route (fun _ => true) pairs x)
        (fun x => from0 x + tally route (fun p => p.1 == 0) pairs x)
        (fun x => to0 x + tally route (fun p => p.2 == 0) pairs x)) := by
  induction pairs with
  | nil => exact fun general from0 to0 => rfl
  | cons p pairs ih =>
      intro general from0 to0
      have hp := hfollows p List.mem_cons_self
      have hone : countRelays fuel (g.withCounts general from0 to0) p =
          (relays (route p)).foldlM (countRelay p.1 p.2) (g.withCounts general from0 to0) := by
        simp only [countRelays, Option.bind_eq_bind, hp.run (g.withCounts general from0 to0) rfl fuel
          hfuel, Option.bind_some]
      rw [List.foldlM_cons, hone, countAllRelays_counts p.1 p.2 _ hp.relays]
      refine (ih (fun q hq => hfollows q (List.mem_cons_of_mem p hq)) _ _ _).trans ?_
      congr 2 <;> funext x <;> rw [tally_cons]
      · rw [if_pos rfl]
        omega
      · omega
      · omega

/-- `computeRelayEvents` clears all counters. -/
theorem computeRelayEvents_counts {bound : Nat} {route : Rank × Rank → List Rank}
    (hfollows : ∀ p ∈ pairs g.m_size, Follows g.m_size bound g.m_routes p (route p)) {fuel : Nat}
    (hfuel : fuel ≥ bound) :
    computeRelayEvents fuel g = some (g.withCounts (tally route (fun _ => true) (pairs g.m_size))
      (tally route (fun p => p.1 == 0) (pairs g.m_size))
      (tally route (fun p => p.2 == 0) (pairs g.m_size))) := by
  have hrun := countPairs_counts (pairs g.m_size) hfollows hfuel (fun _ => 0) (fun _ => 0)
    fun _ => 0
  simp only [Nat.zero_add] at hrun
  exact hrun

/-! ## The count along the found routes -/

/-- The routes of pairs in any order, with the tables and the counters that they leave. -/
theorem addRoutes_counts (shuffled : List (Rank × Rank)) (hnodup : shuffled.Nodup) :
    ∀ (g : GraphImplementation) (count : Rank → Nat), g.Sized →
      g.m_relayEvents = counters g.m_size count →
      (∀ p ∈ shuffled, IsRank g.m_size p.1 ∧ IsRank g.m_size p.2) →
      ∃ m_routes route,
        (∀ fuel ≥ searchRounds g.m_size, shuffled.foldlM (addRoute (computeRoute fuel)) g =
          some { g with
            m_routes
            m_relayEvents := counters g.m_size fun x =>
              count x + tally route (fun _ => true) shuffled x }) ∧
        (∀ p ∈ shuffled, FoundRoute g.m_outcomingConnections p.1 p.2 (route p) ∧
          ∀ t, g.routeTable p.1 p.2 = some t →
            routeTable { g with m_routes } p.1 p.2 = some (addHops t (route p))) ∧
        ∀ s d, (s, d) ∉ shuffled → routeTable { g with m_routes } s d = g.routeTable s d := by
  induction shuffled with
  | nil =>
      intro g count h hcounters _
      refine ⟨g.m_routes, fun _ => [], fun fuel _ => ?_, fun p hp => absurd hp List.not_mem_nil,
        fun _ _ _ => rfl⟩
      rw [List.foldlM_nil]
      exact congrArg (fun events => some { g with m_relayEvents := events }) hcounters
  | cons p shuffled ih =>
      intro g count h hcounters hranks
      obtain ⟨hnot, hnodup⟩ := List.nodup_cons.mp hnodup
      obtain ⟨hs, hd⟩ := hranks p List.mem_cons_self
      obtain ⟨found, hcompute, hfound⟩ := computeRoute_spec h hs hd
      obtain ⟨t, ht⟩ := h.routes p.1 p.2 hs hd
      obtain ⟨routes₁, hroutes₁, hnew, hold⟩ :=
        updateTable_spec (f := fun table => some (addHops table found)) ht rfl
      have hraised := raiseAll_counters (relays found) (fun r hr => hfound.isRank h.outcoming hs hd r
        (List.mem_of_mem_drop (List.dropLast_subset _ hr))) count
      let g₁ : GraphImplementation := { g with
        m_routes := routes₁
        m_relayEvents := counters g.m_size fun x => count x + (relays found).count x }
      have hadd : ∀ fuel ≥ searchRounds g.m_size, addRoute (computeRoute fuel) g p = some g₁ := by
        intro fuel hfuel
        simp only [addRoute, hcompute fuel hfuel, hroutes₁, hcounters, hraised, Option.bind_eq_bind,
          Option.bind_some]
        rfl
      have hsized : g₁.Sized := by
        refine ⟨h.outcoming, length_counters, fun s d hs' hd' => ?_⟩
        by_cases hpair : (s, d) = p
        · subst hpair
          exact ⟨_, hnew⟩
        · obtain ⟨t', ht'⟩ := h.routes s d hs' hd'
          exact ⟨t', (hold s d hpair).trans ht'⟩
      obtain ⟨routes₂, route₂, hrest, hall, hother⟩ :=
        ih hnodup g₁ _ hsized rfl fun q hq => hranks q (List.mem_cons_of_mem p hq)
      have hne : ∀ q ∈ shuffled, q ≠ p := fun q hq heq => hnot (heq ▸ hq)
      have hsame : ∀ q ∈ shuffled, Function.update route₂ p found q = route₂ q :=
        fun q hq => Function.update_of_ne (hne q hq) _ _
      refine ⟨routes₂, Function.update route₂ p found, fun fuel hfuel => ?_, fun q hq => ?_,
        fun s d hsd => ?_⟩
      · rw [List.foldlM_cons, hadd fuel hfuel]
        refine (hrest fuel hfuel).trans ?_
        refine congrArg (fun count => some { g with
          m_routes := routes₂, m_relayEvents := counters g.m_size count }) (funext fun x => ?_)
        have htally : tally (Function.update route₂ p found) (fun _ => true) shuffled x =
            tally route₂ (fun _ => true) shuffled x :=
          tally_congr fun q hq => by rw [hsame q hq]
        rw [tally_cons, if_pos rfl, Function.update_self, htally, Nat.add_assoc]
      · rcases List.mem_cons.mp hq with rfl | hq
        · rw [Function.update_self]
          refine ⟨hfound, fun u hu => ?_⟩
          cases ht.symm.trans hu
          exact (hother _ _ hnot).trans hnew
        · rw [hsame q hq]
          obtain ⟨hfound', htable⟩ := hall q hq
          exact ⟨hfound', fun u hu => htable u ((hold q.1 q.2 (hne q hq)).trans hu)⟩
      · rw [List.mem_cons, not_or] at hsd
        exact (hother s d hsd.2).trans (hold s d hsd.1)

/-! ## The two counts -/

theorem sum_count_singleton (a : Rank) (l : List Rank) :
    (l.map fun r => [a].count r).sum = l.count a := by
  induction l with
  | nil => rfl
  | cons r l ih =>
      rw [List.map_cons, List.sum_cons, ih, List.count_singleton, List.count_cons, Nat.add_comm,
        BEq.comm]

/-- The relays of a route, over all ranks. -/
theorem sum_count {m_size : Int32} {l : List Rank} (h : ∀ r ∈ l, IsRank m_size r) :
    ((ranks m_size).map fun r => l.count r).sum = l.length := by
  induction l with
  | nil => simp
  | cons a l ih =>
      have hone : ((ranks m_size).map fun r => [a].count r).sum = 1 := by
        rw [sum_count_singleton]
        exact List.count_eq_one_of_mem (nodup_ranks m_size) (mem_ranks.mpr (h a List.mem_cons_self))
      have hsplit : ((ranks m_size).map fun r => (a :: l).count r) =
          (ranks m_size).map fun r => [a].count r + l.count r :=
        List.map_congr_left fun r _ => count_cons a r l
      rw [hsplit, List.sum_map_add, hone, ih fun r hr => h r (List.mem_cons_of_mem a hr),
        List.length_cons, Nat.add_comm]

theorem sum_tally {m_size : Int32} {route : Rank × Rank → List Rank} {ps : List (Rank × Rank)}
    (h : ∀ p ∈ ps, ∀ r ∈ relays (route p), IsRank m_size r) :
    ((ranks m_size).map (tally route (fun _ => true) ps)).sum =
      (ps.map fun p => (relays (route p)).length).sum := by
  induction ps with
  | nil =>
      have hzero : tally route (fun _ => true) [] = fun _ => 0 := rfl
      simp [hzero]
  | cons p ps ih =>
      have hsplit : (ranks m_size).map (tally route (fun _ => true) (p :: ps)) =
          (ranks m_size).map fun r => (relays (route p)).count r + tally route (fun _ => true) ps r :=
        List.map_congr_left fun r _ => by rw [tally_cons, if_pos rfl]
      rw [hsplit, List.sum_map_add, sum_count (h p List.mem_cons_self),
        ih fun q hq => h q (List.mem_cons_of_mem p hq), List.map_cons, List.sum_cons]

theorem sum_counters {m_size : Int32} (count : Rank → Nat) :
    (counters m_size count).sum = Int32.ofNat ((ranks m_size).map count).sum := by
  unfold counters
  induction ranks m_size with
  | nil => rfl
  | cons r l ih => rw [List.map_cons, List.sum_cons, List.map_cons, List.sum_cons, ih, Int32.ofNat_add]

theorem length_relays (route : List Rank) : (relays route).length = route.length - 2 := by
  rw [relays, List.length_dropLast, List.length_drop]
  omega

/-- The counters of the relay events, for the routes of all pairs. -/
structure RelaysCounted (g : GraphImplementation) (route : Rank × Rank → List Rank) : Prop where
  general : ∀ r, IsRank g.m_size r → entry g.m_relayEvents r = some (Int32.ofNat
    ((pairs g.m_size).countP fun p => r ∈ relays (route p)))
  from0 : ∀ r, IsRank g.m_size r → entry g.m_relayEventsFrom0 r = some (Int32.ofNat
    ((pairs g.m_size).countP fun p => p.1 == 0 && r ∈ relays (route p)))
  to0 : ∀ r, IsRank g.m_size r → entry g.m_relayEventsTo0 r = some (Int32.ofNat
    ((pairs g.m_size).countP fun p => p.2 == 0 && r ∈ relays (route p)))

/-- A pair whose route `getRoute` follows is as short as any walk. -/
structure FollowsShortest (g : GraphImplementation) (bound : Nat) (p : Rank × Rank)
    (route : List Rank) : Prop where
  run : ∀ fuel ≥ bound, RayPlatform.getRoute getNextRankInRoute fuel g p.1 p.2 = some (route, g)
  isShortest : IsShortest (fun u v => connects g.m_outcomingConnections u v = true) p.1 p.2
    (route.length - 1)

/-- A found route is followed to its end. -/
theorem follows_of_found (hsized : g.m_outcomingConnections.length = g.m_size.toNatClampNeg)
    {s d : Rank} (hs : IsRank g.m_size s) (hd : IsRank g.m_size d) {found : List Rank}
    (hfound : FoundRoute g.m_outcomingConnections s d found)
    (hwalk : ∃ n < farAway, Walk (fun u v => connects g.m_outcomingConnections u v = true) s n d)
    (htable : g.routeTable s d = some (addHops ∅ found)) :
    ∃ route, Follows g.m_size (searchRounds g.m_size) g.m_routes (s, d) route ∧ route.Nodup ∧
      relays route = relays found ∧
      IsShortest (fun u v => connects g.m_outcomingConnections u v = true) s d
        (route.length - 1) := by
  obtain ⟨rfl, rfl⟩ | ⟨-, ⟨hops, hnear, hroute, hshortest⟩ | ⟨-, hfar⟩⟩ := hfound
  · -- `getRoute` is there at once
    refine ⟨[s], ⟨by simpa using hs, fun g' _ fuel _ => ?_⟩, List.nodup_singleton s, rfl, .start,
      fun k _ => Nat.zero_le k⟩
    rw [RayPlatform.getRoute]
    unfold routeFrom
    rw [if_pos rfl]
  · have hnodup := hroute.nodup hshortest
    refine ⟨found, ⟨hroute.isRank hsized hd, fun g' hsame fuel hfuel => ?_⟩, hnodup, rfl, ?_⟩
    · have htable' : g'.routeTable s d = some (addHops ∅ found) := by
        rw [← htable]
        simp only [routeTable, hsame]
      exact routeFrom_of_stored htable' found s hops hroute hnodup (stored_addHops found hnodup ∅)
        fuel (by unfold searchRounds at hfuel; omega)
    · rw [hroute.length, Nat.add_sub_cancel]
      exact ⟨hroute.walk, hshortest⟩
  · obtain ⟨n, hn, hwalk⟩ := hwalk
    exact absurd (hfar n hwalk) (by omega)

end GraphImplementation

end RayPlatform
