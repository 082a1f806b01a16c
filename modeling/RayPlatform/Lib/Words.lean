import Mathlib.Data.List.Basic
import Mathlib.Data.List.Perm.Subperm
import Mathlib.Data.Nat.Digits.Lemmas
import Mathlib.Data.Nat.Find
import Mathlib.Algebra.BigOperators.Group.Finset.Basic
import Mathlib.Algebra.BigOperators.Fin

/-!
# Words

Words over an alphabet, as lists.

* `digitWord` writes a number with a fixed number of digits, the lowest first;
  `ofDigits_digitWord` and `digitWord_ofDigits` are the two round trips.
* `overlap a b` is the length of the longest prefix of `b` that ends `a`. Sliding
  one symbol of `b` into `a` raises it by exactly one (`overlap_slide`), and after
  as many slides as symbols are missing the word is `b`. `journey a b` is the word
  in which all the words of this walk are windows (`journey_slide`).
* `Spread z w` says that any `z` consecutive symbols of `w` are pairwise distinct;
  `countP_spread` counts these words.
-/

namespace RayPlatform.Lib

open Nat (ofDigits)

/-! ## Numbers as words -/

/-- The `d` lowest digits of `k` in base `b`, the lowest first. -/
def digitWord (b d k : Nat) : List Nat :=
  (List.range d).map fun p => k / b ^ p % b

@[simp] theorem length_digitWord (b d k : Nat) : (digitWord b d k).length = d := by
  simp [digitWord]

theorem digitWord_lt {b d k : Nat} (hb : 0 < b) : ∀ x ∈ digitWord b d k, x < b := by
  intro x hx
  obtain ⟨p, -, rfl⟩ := List.mem_map.mp hx
  exact Nat.mod_lt _ hb

theorem ofDigits_digitWord (b d k : Nat) : ofDigits b (digitWord b d k) = k % b ^ d := by
  induction d with
  | zero => simp [digitWord, Nat.mod_one]
  | succ d ih =>
      have hlast : digitWord b (d + 1) k = digitWord b d k ++ [k / b ^ d % b] := by
        simp [digitWord, List.range_succ]
      rw [hlast, Nat.ofDigits_append, ih, Nat.ofDigits_singleton, length_digitWord,
        Nat.mod_pow_succ]

theorem digitWord_ofDigits {b : Nat} {w : List Nat} (hb : 1 < b) (hw : ∀ x ∈ w, x < b) :
    digitWord b w.length (ofDigits b w) = w := by
  apply Nat.ofDigits_inj_of_len_eq hb (length_digitWord ..) (digitWord_lt (by omega)) hw
  rw [ofDigits_digitWord]
  exact Nat.mod_eq_of_lt (Nat.ofDigits_lt_base_pow_length hb hw)

/-- Numbers below `b ^ d` are told apart by their words. -/
theorem digitWord_injOn {b d j k : Nat} (hj : j < b ^ d) (hk : k < b ^ d)
    (h : digitWord b d j = digitWord b d k) : j = k := by
  have := congrArg (ofDigits b) h
  rwa [ofDigits_digitWord, ofDigits_digitWord, Nat.mod_eq_of_lt hj, Nat.mod_eq_of_lt hk] at this

theorem digitWord_cons {b x : Nat} (hx : x < b) (d j : Nat) :
    digitWord b (d + 1) (x + b * j) = x :: digitWord b d j := by
  have hb : 0 < b := by omega
  rw [digitWord, List.range_succ_eq_map, List.map_cons, List.map_map]
  congr 1
  · simp [Nat.mod_eq_of_lt hx]
  · apply List.map_congr_left
    intro p _
    show (x + b * j) / b ^ (p + 1) % b = j / b ^ p % b
    rw [Nat.pow_succ', ← Nat.div_div_eq_div_mul, Nat.add_mul_div_left _ _ hb,
      Nat.div_eq_of_lt hx, Nat.zero_add]

/-! ## Overlaps -/

section Overlap

variable {α : Type*} [DecidableEq α] {a b : List α}

/-- The length of the longest prefix of `b` that is a suffix of `a`. -/
def overlap (a b : List α) : Nat :=
  Nat.findGreatest (fun k => b.take k <:+ a) b.length

theorem take_overlap_suffix (a b : List α) : b.take (overlap a b) <:+ a :=
  Nat.findGreatest_spec (P := fun k => b.take k <:+ a) (Nat.zero_le b.length)
    (by simp)

theorem overlap_le_length (a b : List α) : overlap a b ≤ b.length :=
  Nat.findGreatest_le _

theorem le_overlap {k : Nat} (hk : k ≤ b.length) (h : b.take k <:+ a) : k ≤ overlap a b :=
  Nat.le_findGreatest hk h

theorem overlap_self (b : List α) : overlap b b = b.length :=
  Nat.le_antisymm (overlap_le_length b b) (le_overlap le_rfl (by simp))

/-- Only the word itself overlaps a word of its length in full. -/
theorem eq_of_overlap (hlen : a.length = b.length) (h : overlap a b = b.length) : a = b := by
  have hsuffix := take_overlap_suffix a b
  rw [h, List.take_length] at hsuffix
  exact (hsuffix.eq_of_length hlen.symm).symm

theorem overlap_lt (hlen : a.length = b.length) (hne : a ≠ b) : overlap a b < b.length :=
  lt_of_le_of_ne (overlap_le_length a b) fun h => hne (eq_of_overlap hlen h)

/-- `a` without its first symbol, followed by the first symbol of `b` after the overlap. -/
def slide (a b : List α) : List α :=
  a.tail ++ (b[overlap a b]?).toList

theorem slide_eq (hlt : overlap a b < b.length) : slide a b = a.tail ++ [b[overlap a b]] := by
  rw [slide, List.getElem?_eq_getElem hlt, Option.toList_some]

/-- The alphabet is kept. -/
theorem mem_slide {x : α} (h : x ∈ slide a b) : x ∈ a ∨ x ∈ b := by
  rcases List.mem_append.mp h with h | h
  · exact .inl (List.mem_of_mem_tail h)
  · rw [Option.mem_toList] at h
    exact .inr (List.mem_of_getElem? h)

omit [DecidableEq α] in
/-- A proper suffix of a word is a suffix of its tail. -/
theorem suffix_tail {u w : List α} (h : u <:+ w) (hlt : u.length < w.length) : u <:+ w.tail := by
  obtain _ | ⟨x, w⟩ := w
  · simp at hlt
  · rcases List.suffix_cons_iff.mp h with rfl | h
    · simp at hlt
    · exact h

/-- Each slide brings the word one symbol closer, and never more. -/
theorem overlap_slide (hlen : a.length = b.length) (hne : a ≠ b) :
    overlap (slide a b) b = overlap a b + 1 := by
  have hlt := overlap_lt hlen hne
  apply Nat.le_antisymm
  · -- without its last symbol, the new overlap is one of the word before the slide
    rcases Nat.eq_zero_or_pos (overlap (slide a b) b) with h | h
    · omega
    · obtain ⟨k, hk⟩ := Nat.exists_eq_add_one.mpr h
      have hle := overlap_le_length (slide a b) b
      have hsuffix := take_overlap_suffix (slide a b) b
      rw [hk] at hle hsuffix
      rw [List.take_succ_eq_append_getElem hle, slide_eq hlt] at hsuffix
      obtain ⟨t, ht⟩ := hsuffix
      rw [← List.append_assoc] at ht
      have hshorter : b.take k <:+ a.tail := ⟨t, (List.append_inj' ht rfl).1⟩
      rw [hk]
      have := le_overlap (by omega) (hshorter.trans (List.tail_suffix a))
      omega
  · apply le_overlap (by omega)
    rw [List.take_succ_eq_append_getElem hlt, slide_eq hlt, List.suffix_append_self_iff]
    apply suffix_tail (take_overlap_suffix a b)
    rw [List.length_take]
    omega

/-- The word that a walk from `a` to `b` reads: `a`, then what `b` adds to the overlap. -/
def journey (a b : List α) : List α :=
  a ++ b.drop (overlap a b)

theorem journey_self (b : List α) : journey b b = b := by
  simp [journey, overlap_self]

theorem prefix_journey (a b : List α) : a <+: journey a b :=
  List.prefix_append _ _

theorem journey_eq (a b : List α) :
    ∃ u, a = u ++ b.take (overlap a b) ∧ journey a b = u ++ b := by
  obtain ⟨u, hu⟩ := take_overlap_suffix a b
  refine ⟨u, hu.symm, ?_⟩
  calc journey a b = (u ++ b.take (overlap a b)) ++ b.drop (overlap a b) := by rw [hu]; rfl
    _ = u ++ b := by rw [List.append_assoc, List.take_append_drop]

/-- The journey after a slide is the rest of the journey. -/
theorem journey_slide (hlen : a.length = b.length) (hne : a ≠ b) :
    journey (slide a b) b = (journey a b).tail := by
  have hlt := overlap_lt hlen hne
  have hnil : a ≠ [] := by
    rintro rfl
    simp at hlen
    omega
  rw [journey, overlap_slide hlen hne, slide_eq hlt, journey, List.tail_append_of_ne_nil hnil,
    List.append_assoc, List.singleton_append, List.getElem_cons_drop]

end Overlap

/-! ## Spread words -/

section Spread

variable {α : Type*} {z : Nat}

/-- Any `z` consecutive symbols of the word are pairwise distinct. -/
def Spread (z : Nat) : List α → Prop
  | [] => True
  | x :: w => x ∉ w.take (z - 1) ∧ Spread z w

instance Spread.decidable [DecidableEq α] (z : Nat) : (w : List α) → Decidable (Spread z w)
  | [] => .isTrue trivial
  | x :: w =>
      have := Spread.decidable z w
      inferInstanceAs (Decidable (x ∉ w.take (z - 1) ∧ Spread z w))

theorem spread_iff {w : List α} :
    Spread z w ↔ ∀ i j (hij : i < j) (hj : j < w.length), j < i + z → w[i] ≠ w[j] := by
  induction w with
  | nil => simp [Spread]
  | cons x w ih =>
      rw [Spread, ih]
      constructor
      · rintro ⟨hx, hw⟩ i j hij hj hz
        obtain ⟨j, rfl⟩ := Nat.exists_eq_add_one.mpr (by omega : 0 < j)
        rcases i with _ | i
        · intro h
          apply hx
          rw [List.mem_take_iff_getElem]
          exact ⟨j, by simp at hj; omega, h.symm⟩
        · exact hw i j (by omega) (by simpa using hj) (by omega)
      · intro h
        constructor
        · intro hx
          obtain ⟨j, hj, hjx⟩ := List.mem_take_iff_getElem.mp hx
          exact h 0 (j + 1) (by omega) (by simp; omega) (by omega) hjx.symm
        · intro i j hij hj hz
          exact h (i + 1) (j + 1) (by omega) (by simpa using hj) (by omega)

theorem Spread.initial {u w : List α} (hw : Spread z w) (h : u <+: w) : Spread z u := by
  obtain ⟨v, rfl⟩ := h
  rw [spread_iff] at hw ⊢
  intro i j hij hj hz
  have := hw i j hij (by simp; omega) hz
  rwa [List.getElem_append_left (by omega), List.getElem_append_left hj] at this

theorem Spread.tail {w : List α} (hw : Spread z w) : Spread z w.tail := by
  cases w with
  | nil => exact hw
  | cons x w => exact hw.2

/-- A spread window in front of a word says nothing about the rest. -/
theorem spread_tail_iff {a w : List α} (ha : Spread z a) (hbegins : a <+: w)
    (hz : z ≤ a.length) (hpos : 0 < a.length) : Spread z w ↔ Spread z w.tail := by
  obtain ⟨v, rfl⟩ := hbegins
  obtain _ | ⟨x, a⟩ := a
  · simp at hpos
  · refine ⟨Spread.tail, fun hw => ⟨?_, hw⟩⟩
    rw [List.length_cons] at hz
    show x ∉ (a ++ v).take (z - 1)
    rw [List.take_append_of_le_length (by omega)]
    exact ha.1

variable [DecidableEq α] {a b : List α}

/-- Where the overlap is as long as a window less one, all of the journey is spread. -/
theorem Spread.journey_of_overlap (ha : Spread z a) (hb : Spread z b) (h : z ≤ overlap a b + 1) :
    Spread z (journey a b) := by
  obtain ⟨u, hu, hj⟩ := journey_eq a b
  rw [hu, spread_iff] at ha
  rw [hj, spread_iff]
  rw [spread_iff] at hb
  have hle := overlap_le_length a b
  intro i j hij hlt hz
  rw [List.length_append] at hlt
  by_cases hi : i < u.length
  · -- both symbols are in `a`, whose end is the beginning of `b`
    have hja : j < (u ++ b.take (overlap a b)).length := by
      rw [List.length_append, List.length_take]
      omega
    have := ha i j hij hja hz
    rw [List.getElem_append_left hi] at this ⊢
    by_cases hju : j < u.length
    · rwa [List.getElem_append_left hju] at this ⊢
    · rw [List.getElem_append_right (by omega)] at this ⊢
      rwa [List.getElem_take] at this
  · rw [List.getElem_append_right (by omega), List.getElem_append_right (by omega)]
    exact hb (i - u.length) (j - u.length) (by omega) (by omega) (by omega)

/-- Without two equal symbols in a row, a journey needs no overlap: an empty overlap means
that the last symbol of `a` is not the first of `b`. -/
theorem Spread.journey_two (ha : Spread 2 a) (hb : Spread 2 b) : Spread 2 (journey a b) := by
  by_cases h : 2 ≤ overlap a b + 1
  · exact ha.journey_of_overlap hb h
  have h0 : overlap a b = 0 := by omega
  rw [journey, h0, List.drop_zero]
  rw [spread_iff] at ha hb ⊢
  intro i j hij hlt hz
  rw [List.length_append] at hlt
  by_cases hj : j < a.length
  · rw [List.getElem_append_left (by omega), List.getElem_append_left hj]
    exact ha i j hij hj hz
  by_cases hi : i < a.length
  · intro heq
    rw [List.getElem_append_left hi, List.getElem_append_right (by omega)] at heq
    have hsuffix : b.take 1 <:+ a := by
      rw [List.suffix_iff_eq_drop, List.length_take]
      have hmin : min 1 b.length = 1 := by omega
      have hib : i = a.length - 1 := by omega
      have hjb : j - a.length = 0 := by omega
      rw [hmin, List.drop_eq_getElem_cons (by omega), List.take_one]
      simp only [hib, hjb] at heq
      rw [heq, List.drop_eq_nil_of_le (by omega)]
      rw [List.head?_eq_getElem?, List.getElem?_eq_getElem (by omega), Option.toList_some]
    have := le_overlap (by omega) hsuffix
    omega
  · rw [List.getElem_append_right (by omega), List.getElem_append_right (by omega)]
    exact hb (i - a.length) (j - a.length) (by omega) (by omega) (by omega)

theorem Spread.slide_two (ha : Spread 2 a) (hb : Spread 2 b) (hlen : a.length = b.length)
    (hne : a ≠ b) : Spread 2 (slide a b) := by
  have := (ha.journey_two hb).tail
  rw [← journey_slide hlen hne] at this
  exact this.initial (prefix_journey _ _)

end Spread

/-! ## Counting spread words -/

theorem range_mul (b m : Nat) :
    List.range (b * m) = (List.range m).flatMap fun j => (List.range b).map fun x => x + b * j := by
  induction m with
  | zero => simp
  | succ m ih =>
      rw [Nat.mul_succ, List.range_add, ih, List.range_succ, List.flatMap_append,
        List.flatMap_singleton]
      congr 1
      apply List.map_congr_left
      intro x _
      omega

theorem Spread.nodup_take {z : Nat} {w : List Nat} (hw : Spread z w) : (w.take (z - 1)).Nodup := by
  rw [List.Nodup, List.pairwise_iff_getElem]
  intro i j _ hj hij
  rw [List.length_take] at hj
  rw [List.getElem_take, List.getElem_take]
  exact spread_iff.mp hw i j hij (by omega) (by omega)

/-- The symbols that a list of distinct symbols leaves. -/
theorem countP_notMem {b : Nat} {l : List Nat} (hnodup : l.Nodup) (hlt : ∀ x ∈ l, x < b) :
    (List.range b).countP (fun x => decide (x ∉ l)) = b - l.length := by
  have hin : (List.range b).countP (fun x => decide (x ∈ l)) = l.length := by
    rw [List.countP_eq_length_filter]
    apply List.Perm.length_eq
    rw [List.perm_ext_iff_of_nodup (List.nodup_range.filter _) hnodup]
    intro x
    simp only [List.mem_filter, List.mem_range, decide_eq_true_eq]
    exact ⟨fun h => h.2, fun h => ⟨hlt x h, h⟩⟩
  have hsplit := List.length_eq_countP_add_countP (fun x => decide (x ∈ l)) (l := List.range b)
  rw [hin, List.length_range] at hsplit
  simp only [decide_eq_true_eq] at hsplit
  omega

theorem sum_map_ite (p : Nat → Bool) (c : Nat) (l : List Nat) :
    (l.map fun j => if p j then c else 0).sum = l.countP p * c := by
  induction l with
  | nil => simp
  | cons j l ih =>
      rw [List.map_cons, List.sum_cons, ih, List.countP_cons, Nat.add_mul]
      split <;> simp [Nat.add_comm]

/-- The words of `d` symbols out of `b` that are spread: a symbol has to differ from those
of the window behind it. -/
theorem countP_spread (z b d : Nat) :
    (List.range (b ^ d)).countP (fun k => decide (Spread z (digitWord b d k))) =
      ∏ i ∈ Finset.range d, (b - min i (z - 1)) := by
  induction d with
  | zero => simp [digitWord, Spread]
  | succ d ih =>
      have hrow : ∀ j, (List.range b).countP
          (fun x => decide (Spread z (digitWord b (d + 1) (x + b * j)))) =
            if Spread z (digitWord b d j) then b - min d (z - 1) else 0 := by
        intro j
        have hcons : (List.range b).countP
            (fun x => decide (Spread z (digitWord b (d + 1) (x + b * j)))) =
              (List.range b).countP (fun x => decide (x ∉ (digitWord b d j).take (z - 1) ∧
                Spread z (digitWord b d j))) := by
          apply List.countP_congr
          intro x hx
          rw [decide_eq_true_eq, decide_eq_true_eq, digitWord_cons (List.mem_range.mp hx)]
          rfl
        rw [hcons]
        split
        case isTrue hj =>
          simp only [hj, and_true]
          rcases Nat.eq_zero_or_pos b with rfl | hb
          · simp
          · rw [countP_notMem hj.nodup_take
              (fun x hx => digitWord_lt hb x (List.mem_of_mem_take hx)), List.length_take,
              length_digitWord, Nat.min_comm]
        case isFalse hj =>
          simp [hj]
      rw [Nat.pow_succ', range_mul, List.countP_flatMap, Finset.prod_range_succ, ← ih,
        ← sum_map_ite]
      congr 1
      apply List.map_congr_left
      intro j _
      rw [Function.comp_apply, List.countP_map]
      show (List.range b).countP
        (fun x => decide (Spread z (digitWord b (d + 1) (x + b * j)))) = _
      rw [hrow j]
      simp only [decide_eq_true_eq]

end RayPlatform.Lib
