import RayPlatform.Communication.ChangingNetwork
import RayPlatform.Lib.Geodesic
import RayPlatform.Routing.GraphImplementationDeBruijn
import RayPlatform.Routing.GraphImplementationKautz
import RayPlatform.Routing.Polytope
import RayPlatform.Routing.Torus

/-!
# The computed routes are shortest

The de Bruijn and Kautz graphs, the polytope and the torus compute a hop from the words of
two ranks and never search the connections. Each of them has a distance of words that a hop
makes one less. No edge of the graph does more, so that no walk is shorter than the route.

A network that is routed on one of them needs no more messages than there are hops on
shortest walks, although the polytope and the torus of a rank count the loads of its searches
alone, and Kautz ranks may look up numbers that they do not have.
-/

namespace RayPlatform

open Lib
open MessageRouter (IsRank)

/-- A rank is connected to itself. -/
theorem isConnected_self (outcoming : List (List Rank)) (rank : Rank) :
    isConnected outcoming rank rank = true :=
  if_pos rfl

/-- The connections are those that were computed. -/
theorem computeConnection_of_isConnected {size : Int32}
    {connection : Rank → Rank → Option Bool} {i j : Rank} (hi : IsRank size i)
    (h : isConnected (outcomingConnections size connection) i j = true) :
    i = j ∨ IsRank size j ∧ connection i j = some true := by
  obtain ⟨k, hk, rfl⟩ := isRank_iff.mp hi
  have hsize := Int32.toNatClampNeg_lt size
  rw [isConnected] at h
  split at h
  · next heq => exact .inl heq
  · rw [entry_ofNat _ (by omega), outcomingConnections, List.getElem?_map, ranks,
      List.getElem?_map, List.getElem?_range hk] at h
    simp only [Option.map_some, Option.getD_some, List.contains_iff_mem, List.mem_filter] at h
    exact .inr ⟨mem_ranks.mp h.1, by simpa using h.2⟩

/-! ## Overlaps -/

section Overlaps

variable {size : Int32} {d : Nat} {table : List Tuple}

/-- The tuple at the end of an edge is a shift of the one at its beginning. -/
theorem shift_of_overlapConnection {a t : Tuple} (hd : 0 < d)
    (h : getMaximumOverlap d a t = d - 1) :
    ∃ w x, t.word d = w ++ [x] ∧ w <:+ a.word d := by
  obtain ⟨e, rfl⟩ := Nat.exists_eq_add_one.mpr hd
  rw [Nat.add_sub_cancel] at h
  refine ⟨(t.word (e + 1)).take e, (t.digit e).toNat, ?_, ?_⟩
  · simp [Tuple.word, List.range_succ, List.take_left']
  · rw [getMaximumOverlap, Nat.add_sub_cancel, maximumOverlap_eq (by omega)] at h
    cases e with
    | zero => exact List.nil_suffix
    | succ e => exact Nat.findGreatest_of_ne_zero h (by omega)

/-- An edge makes the overlap with a destination at most one symbol longer. -/
theorem Tells.overlap_edge (h : Tells size d table) {u v destination : Rank}
    (hu : IsRank size u)
    (hedge : isConnected (outcomingConnections size (overlapConnection d table)) u v = true) :
    IsRank size v ∧
      d - rankOverlap d table u destination ≤ d - rankOverlap d table v destination + 1 := by
  rcases computeConnection_of_isConnected hu hedge with rfl | ⟨hv, hconnection⟩
  · exact ⟨hu, by omega⟩
  · refine ⟨hv, ?_⟩
    obtain ⟨a, ha⟩ := h.entry u hu
    obtain ⟨t, ht⟩ := h.entry v hv
    rcases Nat.eq_zero_or_pos d with rfl | hpos
    · omega
    · simp only [overlapConnection, ha, ht, Option.bind_eq_bind, Option.bind_some] at hconnection
      have hoverlap : getMaximumOverlap d a t = d - 1 := by simpa using hconnection
      obtain ⟨w, x, hword, hsuffix⟩ := shift_of_overlapConnection hpos hoverlap
      have hle := overlap_append_le (x := x) (b := rankWord d table destination) hsuffix
      rw [rankOverlap, rankOverlap, rankWord_eq ha, rankWord_eq ht, hword]
      omega

/-- The symbols that the overlap lacks. -/
theorem Tells.lacking_eq_zero_iff (h : Tells size d table) {rank destination : Rank}
    (hrank : IsRank size rank) (hdestination : IsRank size destination) :
    d - rankOverlap d table rank destination = 0 ↔ rank = destination := by
  have hle := h.rankOverlap_le (r := rank) hdestination
  rw [← h.rankOverlap_eq_iff hrank hdestination]
  omega

theorem Tells.lacking_slide (h : Tells size d table) {next rank destination : Rank}
    (hrank : IsRank size rank) (hdestination : IsRank size destination) (hne : rank ≠ destination)
    (hslide : rankWord d table next = slide (rankWord d table rank) (rankWord d table destination)) :
    d - rankOverlap d table rank destination = d - rankOverlap d table next destination + 1 := by
  have hgrown := h.rankOverlap_slide hrank hdestination hne hslide
  have hle := h.rankOverlap_le (r := next) hdestination
  omega

end Overlaps

namespace GraphImplementationDeBruijn

variable {n : Int32} {b d : Nat} {g : GraphImplementationDeBruijn}

def kind (g : GraphImplementationDeBruijn) : ChangingGraph GraphImplementationDeBruijn :=
  { isConnected := g.isConnected, getNextRankInRoute := getNextRankInRoute }

theorem Built.shortestHops (h : Built n b d g) (hpos : 0 < d) :
    ShortestHops n g.kind (· = g) fun destination rank => d - g.overlap rank destination where
  there destination rank hdestination hrank := by
    rw [overlap, h.m_diameter]
    exact h.table.tells.lacking_eq_zero_iff hrank hdestination
  hop g' source destination rank hg' hdestination hrank hne := by
    obtain rfl := hg'
    obtain ⟨next, hnext, hnextRank, hedge, hslide⟩ := h.hop source hdestination hrank hne
    refine ⟨next, _, hnext, rfl, hnextRank, hedge, ?_⟩
    rw [overlap, overlap, h.m_diameter]
    exact h.table.tells.lacking_slide hrank hdestination hne hslide
  rest g' source destination next g'' hg' hdestination hnext := by
    obtain rfl := hg'
    obtain ⟨_, next', -, hnext', hnextRank, -⟩ := h.next hpos source hdestination hdestination
    cases hnext'.symm.trans hnext
    exact hnextRank
  self _ := isConnected_self _ _
  edge destination u v hdestination hu hedge := by
    rw [overlap, overlap, h.m_diameter]
    have hedge : RayPlatform.isConnected g.m_outcomingConnections u v = true := hedge
    rw [h.connections] at hedge
    exact h.table.tells.overlap_edge hu hedge

end GraphImplementationDeBruijn

namespace GraphImplementationKautz

variable {n : Int32} {k d : Nat} {g : GraphImplementationKautz}

/-- The number that is found at the destination is a rank. So is the one of a new entry. -/
theorem Built.getNextRankInRoute_self (h : Built n k d g) (hpos : 0 < d) (source : Rank)
    {destination next : Rank} {g' : GraphImplementationKautz} (hdestination : IsRank n destination)
    (hnext : g.getNextRankInRoute source destination destination = some (next, g')) :
    IsRank n next := by
  obtain ⟨a, ha⟩ := h.tables.tells.entry destination hdestination
  obtain ⟨t, ht, -⟩ := shiftTowards_word (a := a) (b := a) hpos h.tables.cells
  have hsymbols : ∀ x ∈ t.word d, x < k + 1 := by
    intro x hx
    have hword := h.tables.symbol_lt hdestination x
    rw [rankWord_eq ha] at hword
    exact hword ((shiftTowards_mem hpos ht h.tables.cells x hx).elim id id)
  have hfound : next = (subscript g.m_kautzToGraph
      (convertToBase10 (Int32.ofNat (k + 1)) d t)).1 := by
    rw [getNextRankInRoute, computeNextRankInRoute, h.m_diameter, h.m_base, nextTuple, ha] at hnext
    simp only [Option.bind_eq_bind, Option.bind_some, ht] at hnext
    cases hnext
    rfl
  rw [hfound, subscript]
  by_cases hspread : Spread 2 (t.word d)
  · obtain ⟨r, hr, hlookup, -⟩ := h.tables.lookup_vertex hsymbols hspread
    rw [hlookup]
    exact hr
  · rw [h.tables.lookup_missing hsymbols hspread]
    exact ⟨Int32.le_refl 0, Int32.lt_of_le_of_lt hdestination.1 hdestination.2⟩

def kind (g : GraphImplementationKautz) : ChangingGraph GraphImplementationKautz :=
  { isConnected := g.isConnected, getNextRankInRoute := getNextRankInRoute }

theorem Built.shortestHops (h : Built n k d g) (hpos : 0 < d) :
    ShortestHops n g.kind (· = g) fun destination rank => d - g.overlap rank destination where
  there destination rank hdestination hrank := by
    rw [overlap, h.m_diameter]
    exact h.tables.tells.lacking_eq_zero_iff hrank hdestination
  hop g' source destination rank hg' hdestination hrank hne := by
    obtain rfl := hg'
    obtain ⟨_, next, -, -, -, hnext, hnextRank, hedge, hslide⟩ := h.hop source hdestination hrank hne
    refine ⟨next, _, hnext, rfl, hnextRank, hedge, ?_⟩
    rw [overlap, overlap, h.m_diameter]
    exact h.tables.tells.lacking_slide hrank hdestination hne hslide
  rest g' source destination next g'' hg' hdestination hnext := by
    obtain rfl := hg'
    exact h.getNextRankInRoute_self hpos source hdestination hnext
  self _ := isConnected_self _ _
  edge destination u v hdestination hu hedge := by
    rw [overlap, overlap, h.m_diameter]
    have hedge : RayPlatform.isConnected g.m_outcomingConnections u v = true := hedge
    rw [h.connections] at hedge
    exact h.tables.tells.overlap_edge hu hedge

end GraphImplementationKautz

/-! ## Coordinates -/

section Coordinates

variable {n : Int32} {b d : Nat} {table : List Tuple} {u v destination : Rank} {a t : Tuple}

/-- Two tuples that differ in one position, the other way round. -/
theorem word_eq_set {p : Nat} (hsame : ∀ i < d, i ≠ p → t.digit i = a.digit i) :
    t.word d = (a.word d).set p (t.digit p).toNat := by
  apply List.ext_getElem
  · simp
  · intro i hi _
    have hi : i < d := by simpa using hi
    rw [List.getElem_set]
    split
    · next heq => simp [heq]
    · next hne => simp [hsame i hi (Ne.symm hne)]

/-- One position of all is counted. -/
theorem exists_unique_of_countP {P : Nat → Bool} (h : (List.range d).countP P = 1) :
    ∃ p < d, P p = true ∧ ∀ i < d, i ≠ p → P i = false := by
  rw [List.countP_eq_length_filter, List.length_eq_one_iff] at h
  obtain ⟨p, hp⟩ := h
  have hmem : ∀ i, i ∈ (List.range d).filter P ↔ i = p := by
    intro i
    rw [hp, List.mem_singleton]
  simp only [List.mem_filter, List.mem_range] at hmem
  obtain ⟨hlt, hP⟩ := (hmem p).mpr rfl
  refine ⟨p, hlt, hP, fun i hi hne => ?_⟩
  rw [← Bool.not_eq_true]
  exact fun hPi => hne ((hmem i).mp ⟨hi, hPi⟩)

/-- An edge that changes one symbol changes a distance by coordinates by what it changes there. -/
theorem WordTable.distance_edge {δ : Nat → Nat → Nat} (h : WordTable n b d table)
    (hdestination : IsRank n destination) (ha : entry table u = some a)
    (ht : entry table v = some t) {p : Nat} (hp : p < d)
    (hsame : ∀ i < d, i ≠ p → t.digit i = a.digit i)
    (hδ : ∀ y < b, δ (a.digit p).toNat y ≤ δ (t.digit p).toNat y + 1) :
    distance δ (rankWord d table u) (rankWord d table destination) ≤
      distance δ (rankWord d table v) (rankWord d table destination) + 1 := by
  have hlength := h.tells.length hdestination
  rw [rankWord_eq ha, rankWord_eq ht]
  refine distance_le_succ (p := p) (by simp [hlength]) (by simpa using hp) (word_eq_set hsame) ?_
  intro y hy
  rw [Tuple.getElem_word]
  exact hδ y (h.symbol_lt hdestination y hy)

end Coordinates

namespace Polytope

variable {n : Int32} {b d : Nat} {g : Polytope} {u v destination : Rank}

/-- An edge makes at most one symbol right. -/
theorem Built.hamming_edge (h : Built n b d g) (hu : IsRank n u)
    (hdestination : IsRank n destination) (hedge : g.isConnected u v = true) :
    IsRank n v ∧ g.hammingDistance u destination ≤ g.hammingDistance v destination + 1 := by
  rw [isConnected, h.connections] at hedge
  rcases computeConnection_of_isConnected hu hedge with rfl | ⟨hv, hconnection⟩
  · exact ⟨hu, by omega⟩
  · refine ⟨hv, ?_⟩
    obtain ⟨a, ha⟩ := h.table.tells.entry u hu
    obtain ⟨t, ht⟩ := h.table.tells.entry v hv
    rw [computeConnection] at hconnection
    split at hconnection
    · cases hconnection
    · simp only [ha, ht, Option.bind_eq_bind, Option.bind_some] at hconnection
      have hone : (List.range d).countP (fun i => a.digit i != t.digit i) = 1 := by
        simpa using hconnection
      obtain ⟨p, hp, -, hrest⟩ := exists_unique_of_countP hone
      rw [hammingDistance, hammingDistance, h.m_wordLength]
      refine h.table.distance_edge hdestination ha ht hp (fun i hi hne => ?_)
        fun y _ => mismatch_le_succ _ _ y
      exact (bne_eq_false_iff_eq.mp (hrest i hi hne)).symm

/-- Nothing is selected where every symbol is correct. -/
theorem getNextRankInRoute_self (g : Polytope) (source destination : Rank) :
    g.getNextRankInRoute source destination destination = none := by
  have hnone : ∀ (t : Tuple) (positions : List Nat),
      positions.foldl (g.considerPosition t t) none = none := by
    intro t positions
    induction positions with
    | nil => rfl
    | cons p positions ih =>
        rw [List.foldl_cons, considerPosition, if_pos rfl]
        exact ih
  rw [getNextRankInRoute, computeNextRankInRoute]
  cases entry g.m_graphToVertex destination with
  | none => rfl
  | some t =>
      simp only [Option.bind_eq_bind, Option.bind_some, hnone]
      rfl

def kind (g : Polytope) : ChangingGraph Polytope :=
  { isConnected := g.isConnected, getNextRankInRoute := getNextRankInRoute }

/-- Any loads will do. -/
theorem Built.shortestHops (h : Built n b d g) :
    ShortestHops n g.kind (fun g' => ∃ loads, g' = g.withLoads loads)
      fun destination rank => g.hammingDistance rank destination where
  there _ _ hdestination hrank := h.hammingDistance_eq_zero_iff hrank hdestination
  hop g' source destination rank hg' hdestination hrank hne := by
    obtain ⟨loads, rfl⟩ := hg'
    obtain ⟨next, loads', hnext, hnextRank, hedge, hcloser⟩ :=
      (h.withLoads loads).hop source hdestination hrank hne
    exact ⟨next, _, hnext, ⟨loads', rfl⟩, hnextRank, hedge, hcloser⟩
  rest g' source destination next g'' _ _ hnext := by
    cases (getNextRankInRoute_self g' source destination).symm.trans hnext
  self _ := isConnected_self _ _
  edge _ _ _ hdestination hu hedge := h.hamming_edge hu hdestination hedge

end Polytope

namespace Torus

variable {n : Int32} {r d : Nat} {g : Torus} {u v destination : Rank}

theorem ofNat_injective_small {x y : Nat} (hx : x < r) (hy : y < r) (hr : r ≤ 256)
    (h : Int32.ofNat x = Int32.ofNat y) : y = x := by
  have hvalue := congrArg Int32.toNatClampNeg h
  rw [Int32.toNatClampNeg_ofNat_of_lt (by omega),
    Int32.toNatClampNeg_ofNat_of_lt (by omega)] at hvalue
  exact hvalue.symm

/-- An edge comes at most one step closer. -/
theorem Built.torus_edge (h : Built n r d g) (hu : IsRank n u)
    (hdestination : IsRank n destination) (hedge : g.isConnected u v = true) :
    IsRank n v ∧ g.torusDistance u destination ≤ g.torusDistance v destination + 1 := by
  have hradix : g.m_radix.toNatClampNeg = r := by
    rw [h.m_radix, Int32.toNatClampNeg_ofNat_of_lt (by have := h.small; omega)]
  rw [isConnected, h.connections] at hedge
  rcases computeConnection_of_isConnected hu hedge with rfl | ⟨hv, hconnection⟩
  · exact ⟨hu, by omega⟩
  · refine ⟨hv, ?_⟩
    obtain ⟨a, ha⟩ := h.table.tells.entry u hu
    obtain ⟨t, ht⟩ := h.table.tells.entry v hv
    rw [computeConnection] at hconnection
    split at hconnection
    · cases hconnection
    · simp only [ha, ht, Option.bind_eq_bind, Option.bind_some, Option.pure_def,
        Option.some.injEq, decide_eq_true_eq] at hconnection
      obtain ⟨hall, hone⟩ := hconnection
      obtain ⟨p, hp, hmoved, -⟩ := exists_unique_of_countP hone
      -- all other symbols are the same
      have hsplit := List.length_eq_countP_add_countP
        (fun i => a.digit i == t.digit i) (l := List.range d)
      rw [List.length_range] at hsplit
      have hdiffer : (List.range d).countP (fun i => ¬(a.digit i == t.digit i) = true) = 1 := by
        omega
      obtain ⟨q, hq, hqne, hrest⟩ := exists_unique_of_countP hdiffer
      simp only [Bool.and_eq_true, bne_iff_ne] at hmoved
      have hpq : p = q := by
        by_contra hne
        have := hrest p hp hne
        simp [hmoved.1] at this
      subst hpq
      have hx := h.table.digit_lt hu ha hp
      have hy := h.table.digit_lt hv ht hp
      rw [torusDistance, torusDistance, h.m_dimension, hradix]
      refine h.table.distance_edge hdestination ha ht hp (fun i hi hne => ?_) fun y hlt => ?_
      · have hequal := not_not.mp (of_decide_eq_false (hrest i hi hne))
        exact (beq_iff_eq.mp hequal).symm
      · refine cyclic_le_succ hx hlt ?_
        have hsmall := h.small
        have hmod : ∀ k, k % r < r := fun k => Nat.mod_lt k (by omega)
        have hstep := hmoved.2
        rw [incrementSymbol_ofNat hsmall hx, decrementSymbol_ofNat hsmall hx, Bool.or_eq_true,
          beq_iff_eq, beq_iff_eq] at hstep
        exact hstep.imp (ofNat_injective_small (hmod _) hy hsmall)
          (ofNat_injective_small (hmod _) hy hsmall)

/-- Nothing is selected where every symbol is correct. -/
theorem getNextRankInRoute_self (g : Torus) (source destination : Rank) :
    g.getNextRankInRoute source destination destination = none := by
  have hnone : ∀ (t : Tuple) (positions : List Nat),
      positions.foldl (g.considerPosition t t) none = none := by
    intro t positions
    induction positions with
    | nil => rfl
    | cons p positions ih =>
        rw [List.foldl_cons, considerPosition, if_pos rfl]
        exact ih
  rw [getNextRankInRoute]
  cases entry g.m_graphToVertex destination with
  | none => rfl
  | some t =>
      simp only [Option.bind_eq_bind, Option.bind_some, hnone]
      rfl

def kind (g : Torus) : ChangingGraph Torus :=
  { isConnected := g.isConnected, getNextRankInRoute := getNextRankInRoute }

/-- Any loads will do. -/
theorem Built.shortestHops (h : Built n r d g) :
    ShortestHops n g.kind (fun g' => ∃ loads, g' = g.withLoads loads)
      fun destination rank => g.torusDistance rank destination where
  there _ _ hdestination hrank := h.torusDistance_eq_zero_iff hrank hdestination
  hop g' source destination rank hg' hdestination hrank hne := by
    obtain ⟨loads, rfl⟩ := hg'
    obtain ⟨next, loads', hnext, hnextRank, hedge, hcloser⟩ :=
      (h.withLoads loads).hop source hdestination hrank hne
    exact ⟨next, _, hnext, ⟨loads', rfl⟩, hnextRank, hedge, hcloser⟩
  rest g' source destination next g'' _ _ hnext := by
    cases (getNextRankInRoute_self g' source destination).symm.trans hnext
  self _ := isConnected_self _ _
  edge _ _ _ hdestination hu hedge := h.torus_edge hu hdestination hedge

end Torus

end RayPlatform
