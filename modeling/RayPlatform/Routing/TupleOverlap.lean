import RayPlatform.Routing.GraphImplementation

/-!
# Overlaps of tuples

The de Bruijn, Kautz and experimental graphs route alike: the symbols of the current
tuple move by one cell, and the symbol of the destination that follows the overlap
goes into the free cell. The three classes have their own copies of this code.

* `getMaximumOverlap_eq`: two different tuples overlap as their words do;
* `shiftTowards_spec`: the shift is a `slide` of the words, with an edge
  (`getMaximumOverlap_shift`) from the old tuple to the new one.
-/

namespace RayPlatform

open Lib
open MessageRouter (IsRank)

/-- The comparison for one value of `numberOfMatches`. -/
def overlapMatches (m_diameter : Nat) (a b : Tuple) (numberOfMatches : Nat) : Bool :=
  (List.range numberOfMatches).all fun positionInB =>
    a.digit (m_diameter - numberOfMatches + positionInB) == b.digit positionInB

/-- The loop of `getMaximumOverlap`. Nothing is compared for zero matches. -/
def maximumOverlap (m_diameter : Nat) (a b : Tuple) : Nat → Nat
  | 0 => 0
  | numberOfMatches + 1 =>
    if overlapMatches m_diameter a b (numberOfMatches + 1) then numberOfMatches + 1
    else maximumOverlap m_diameter a b numberOfMatches

/-- The maximum overlap between two vertices, short of a perfect match. -/
def getMaximumOverlap (m_diameter : Nat) (a b : Tuple) : Nat :=
  maximumOverlap m_diameter a b (m_diameter - 1)

/-- The tuple `next` of `computeNextRankInRoute`. -/
def shiftTowards (m_diameter : Nat) (currentVertex destinationVertex : Tuple) : Option Tuple := do
  -- a left shift
  let next ← Tuple.blank.fill (fun i => currentVertex.digit (i + 1)) (m_diameter - 1)
  let overlapSize := getMaximumOverlap m_diameter currentVertex destinationVertex
  -- append the digit
  next.write (m_diameter - 1) (destinationVertex.digit overlapSize)

/-- The tuple `next`, for two ranks. -/
def nextTuple (m_diameter : Nat) (table : List Tuple) (destination current : Rank) :
    Option Tuple := do
  let destinationVertex ← entry table destination
  let currentVertex ← entry table current
  shiftTowards m_diameter currentVertex destinationVertex

/-- `computeConnection`: the overlap property. -/
def overlapConnection (m_diameter : Nat) (table : List Tuple) (source destination : Rank) :
    Option Bool := do
  let sourceVertex ← entry table source
  let destinationVertex ← entry table destination
  let overlap := getMaximumOverlap m_diameter sourceVertex destinationVertex
  return overlap == m_diameter - 1

variable {d : Nat} {a b t : Tuple}

theorem overlapMatches_iff {m : Nat} (hm : m ≤ d) :
    overlapMatches d a b m = true ↔ (b.word d).take m <:+ a.word d := by
  rw [List.suffix_iff_eq_drop, List.length_take, Tuple.length_word, Tuple.length_word,
    Nat.min_eq_left hm, overlapMatches, List.all_eq_true]
  constructor
  · intro h
    apply List.ext_getElem
    · simp
      omega
    · intro i hi _
      have hi : i < m := by
        rw [List.length_take] at hi
        omega
      have := beq_iff_eq.mp (h i (List.mem_range.mpr hi))
      simp [this]
  · intro h i hi
    have hi := List.mem_range.mp hi
    have := congrArg (fun l => l[i]?) h
    simp only [List.getElem?_take, if_pos hi, List.getElem?_drop] at this
    rw [List.getElem?_eq_getElem (by simp; omega),
      List.getElem?_eq_getElem (by simp; omega)] at this
    simp only [Tuple.getElem_word, Option.some.injEq, UInt8.toNat_inj] at this
    simp [this]

theorem maximumOverlap_eq {m : Nat} (hm : m ≤ d) :
    maximumOverlap d a b m = Nat.findGreatest (fun k => (b.word d).take k <:+ a.word d) m := by
  induction m with
  | zero => rfl
  | succ m ih =>
      rw [maximumOverlap, Nat.findGreatest_succ, ih (by omega)]
      simp only [overlapMatches_iff hm]

theorem getMaximumOverlap_eq (hne : a.word d ≠ b.word d) :
    getMaximumOverlap d a b = overlap (a.word d) (b.word d) := by
  have hlt := overlap_lt (by simp) hne
  rw [Tuple.length_word] at hlt
  rw [getMaximumOverlap, maximumOverlap_eq (by omega), overlap, Tuple.length_word]
  obtain ⟨e, rfl⟩ := Nat.exists_eq_add_one.mpr (by omega : 0 < d)
  rw [Nat.add_sub_cancel, Nat.findGreatest_succ, if_neg]
  intro h
  -- a perfect match would make the words equal
  have := le_overlap (by simp) h
  omega

theorem maximumOverlap_le (m : Nat) : maximumOverlap d a b m ≤ m := by
  induction m with
  | zero => exact le_rfl
  | succ m ih =>
      rw [maximumOverlap]
      split
      · exact le_rfl
      · omega

/-- The shift, also of a tuple towards itself. -/
theorem shiftTowards_word (hpos : 0 < d) (hd : d ≤ 16) :
    ∃ t, shiftTowards d a b = some t ∧
      t.word d = (a.word d).tail ++ [(b.digit (getMaximumOverlap d a b)).toNat] := by
  obtain ⟨e, rfl⟩ := Nat.exists_eq_add_one.mpr hpos
  obtain ⟨next, hnext, hshift, -⟩ :=
    Tuple.blank.fill_spec (fun i => a.digit (i + 1)) (show e ≤ 16 by omega)
  obtain ⟨t, ht, hlast, hkept⟩ := next.write_spec (show e < 16 by omega)
    (b.digit (getMaximumOverlap (e + 1) a b))
  refine ⟨t, ?_, ?_⟩
  · rw [shiftTowards, Nat.add_sub_cancel, hnext]
    exact ht
  · rw [Tuple.word, List.range_succ, List.map_append, List.map_singleton, hlast, Tuple.word,
      List.range_succ_eq_map, List.map_cons, List.tail_cons, List.map_map]
    congr 1
    apply List.map_congr_left
    intro i hi
    have hi := List.mem_range.mp hi
    rw [hkept i (by omega), hshift i hi]
    rfl

theorem shiftTowards_spec (hd : d ≤ 16) (hne : a.word d ≠ b.word d) :
    ∃ t, shiftTowards d a b = some t ∧ t.word d = slide (a.word d) (b.word d) := by
  have hlt := overlap_lt (by simp) hne
  rw [Tuple.length_word] at hlt
  obtain ⟨t, ht, hword⟩ := shiftTowards_word (a := a) (b := b) (by omega : 0 < d) hd
  refine ⟨t, ht, ?_⟩
  rw [hword, slide_eq (overlap_lt (by simp) hne), Tuple.getElem_word, getMaximumOverlap_eq hne]

/-- The shift brings no symbol that is in neither tuple. -/
theorem shiftTowards_mem (hpos : 0 < d) (ht : shiftTowards d a b = some t) (hd : d ≤ 16) :
    ∀ x ∈ t.word d, x ∈ a.word d ∨ x ∈ b.word d := by
  obtain ⟨t', ht', hword⟩ := shiftTowards_word (a := a) (b := b) hpos hd
  obtain rfl := Option.some.inj (ht'.symm.trans ht)
  have hlast : getMaximumOverlap d a b < d := (maximumOverlap_le (d - 1)).trans_lt (by omega)
  rw [hword]
  intro x hx
  rcases List.mem_append.mp hx with hx | hx
  · exact .inl (List.mem_of_mem_tail hx)
  · obtain rfl := List.mem_singleton.mp hx
    exact .inr (List.mem_map.mpr ⟨_, List.mem_range.mpr hlast, rfl⟩)

/-- A word and the word after a slide overlap but for one symbol. -/
theorem getMaximumOverlap_shift (hd : 0 < d) {x : List Nat}
    (ht : t.word d = (a.word d).tail ++ x) : getMaximumOverlap d a t = d - 1 := by
  have hmatch : overlapMatches d a t (d - 1) = true := by
    rw [overlapMatches_iff (by omega), ht, List.take_left' (by simp)]
    exact List.tail_suffix _
  rw [getMaximumOverlap]
  cases hd1 : d - 1 with
  | zero => rfl
  | succ e =>
      rw [hd1] at hmatch
      rw [maximumOverlap, if_pos hmatch]

/-! ## Routes of slides -/

/-- The length of the longest beginning of the destination's word that ends the word of the
current rank, a perfect match included. -/
def rankOverlap (m_diameter : Nat) (table : List Tuple) (current destination : Rank) : Nat :=
  overlap (rankWord m_diameter table current) (rankWord m_diameter table destination)

section Routes

variable {Graph : Type*} {getNextRankInRoute : Graph → Rank → Rank → Rank → Option (Rank × Graph)}
  {size : Int32} {table : List Tuple} {connected : Rank → Rank → Bool}

theorem Tells.rankOverlap_le (h : Tells size d table) {r destination : Rank}
    (hdestination : IsRank size destination) : rankOverlap d table r destination ≤ d := by
  have := overlap_le_length (rankWord d table r) (rankWord d table destination)
  rwa [h.length hdestination] at this

theorem Tells.rankOverlap_eq_iff (h : Tells size d table) {r destination : Rank}
    (hr : IsRank size r) (hdestination : IsRank size destination) :
    rankOverlap d table r destination = d ↔ r = destination := by
  constructor
  · intro heq
    apply h.injective r destination hr hdestination
    apply eq_of_overlap
    · rw [h.length hr, h.length hdestination]
    · rw [h.length hdestination]
      exact heq
  · rintro rfl
    rw [rankOverlap, overlap_self, h.length hr]

/-- The overlap with the destination grows by one with each slide. -/
theorem Tells.rankOverlap_slide (h : Tells size d table) {r next destination : Rank}
    (hr : IsRank size r) (hdestination : IsRank size destination) (hne : r ≠ destination)
    (hslide : rankWord d table next =
      slide (rankWord d table r) (rankWord d table destination)) :
    rankOverlap d table next destination = rankOverlap d table r destination + 1 := by
  rw [rankOverlap, hslide]
  apply overlap_slide
  · rw [h.length hr, h.length hdestination]
  · exact fun heq => hne (h.injective r destination hr hdestination heq)

/-- The next tuple is a slide of the words of the two ranks. -/
theorem Tells.nextTuple (h : Tells size d table) (hd : d ≤ 16) {r destination : Rank}
    (hr : IsRank size r) (hdestination : IsRank size destination) (hne : r ≠ destination) :
    ∃ t, nextTuple d table destination r = some t ∧
      t.word d = slide (rankWord d table r) (rankWord d table destination) := by
  have hwords := fun heq => hne (h.injective r destination hr hdestination heq)
  obtain ⟨a, ha⟩ := h.entry r hr
  obtain ⟨b, hb⟩ := h.entry destination hdestination
  rw [rankWord_eq ha, rankWord_eq hb] at hwords ⊢
  rw [RayPlatform.nextTuple, ha, hb]
  exact shiftTowards_spec hd hwords

/-- An edge leads to each slide. -/
theorem Tells.edge (h : Tells size d table) {r next destination : Rank}
    (hr : IsRank size r) (hnext : IsRank size next) (hdestination : IsRank size destination)
    (hne : r ≠ destination)
    (hslide : rankWord d table next =
      slide (rankWord d table r) (rankWord d table destination)) :
    isConnected (outcomingConnections size (overlapConnection d table)) r next = true := by
  apply isConnected_of_computeConnection hr hnext
  obtain ⟨a, ha⟩ := h.entry r hr
  obtain ⟨t, ht⟩ := h.entry next hnext
  have hlt := overlap_lt (by rw [h.length hr, h.length hdestination])
    fun heq => hne (h.injective r destination hr hdestination heq)
  rw [h.length hdestination] at hlt
  rw [rankWord_eq ha, rankWord_eq ht] at hslide
  rw [overlapConnection, ha, ht]
  simp [getMaximumOverlap_shift (by omega) hslide]

/-- Where each hop slides the word of the destination in, a route has as many hops as
symbols are missing. -/
theorem Tells.getRoute (h : Tells size d table) (Valid : Graph → Prop) {source destination : Rank}
    (hhop : ∀ g r, Valid g → IsRank size r → r ≠ destination → ∃ next g',
      getNextRankInRoute g source destination r = some (next, g') ∧ Valid g' ∧
        IsRank size next ∧ connected r next = true ∧
        rankWord d table next = slide (rankWord d table r) (rankWord d table destination))
    {g : Graph} (hg : Valid g) (hsource : IsRank size source)
    (hdestination : IsRank size destination) {steps : Nat} (hsteps : d ≤ steps) :
    ∃ route g', getRoute getNextRankInRoute steps g source destination = some (route, g') ∧
      Valid g' ∧
      IsRoute connected source destination (d - rankOverlap d table source destination) route := by
  refine routeFrom_isRoute Valid (IsRank size)
    (fun r => d - rankOverlap d table r destination) (fun r hr => ?_) (fun g r hg hr hne => ?_)
    steps g source hg hsource (by omega)
  · have hle := h.rankOverlap_le (r := r) hdestination
    rw [← h.rankOverlap_eq_iff hr hdestination]
    omega
  · obtain ⟨next, g', hnext, hg', hrank, hedge, hslide⟩ := hhop g r hg hr hne
    have hgrown := h.rankOverlap_slide hr hdestination hne hslide
    have hle := h.rankOverlap_le (r := next) hdestination
    exact ⟨next, g', hnext, hg', hrank, hedge, by omega⟩

end Routes

end RayPlatform
