import Mathlib.Algebra.BigOperators.Group.Finset.Piecewise
import Mathlib.Algebra.Order.BigOperators.Group.Finset
import Mathlib.Data.Finset.Card
import Mathlib.Order.Interval.Finset.Nat
import RayPlatform.Lib.SparseArray

/-!
# Layouts of blocks

A finite set of blocks, each with an offset and a size in cells; a block of size
zero is not live. `Placed` says that the live blocks are pairwise disjoint and
below a frontier.

* `Placed.sum_eq_rank` — the sizes add up to the number of covered cells, so they
  fit below the frontier (`Placed.sum_le`);
* `Placed.append`, `Placed.free`, `Placed.retract` — the rules of an allocator that
  only moves its frontier;
* `Placed.compact` — sending every covered cell to its rank among the covered
  cells is a stable compaction: blocks stay whole and disjoint, and they fill
  everything below the new frontier.
-/

namespace RayPlatform.Lib.Layout

open SparseArray (rank rank_zero rank_succ rank_mono rank_lt_rank rank_congr)

variable {ι : Type*} [DecidableEq ι]

/-- Cell `x` lies in a block. -/
def covered (H : Finset ι) (offset size : ι → Nat) (x : Nat) : Bool :=
  decide (∃ h ∈ H, offset h ≤ x ∧ x < offset h + size h)

/-- The live blocks are pairwise disjoint and below the frontier `F`. -/
structure Placed (H : Finset ι) (offset size : ι → Nat) (F : Nat) : Prop where
  inside : ∀ h ∈ H, size h ≠ 0 → offset h + size h ≤ F
  disjoint : ∀ h ∈ H, ∀ k ∈ H, h ≠ k → size h ≠ 0 → size k ≠ 0 →
    offset h + size h ≤ offset k ∨ offset k + size k ≤ offset h

variable {H : Finset ι} {offset size : ι → Nat} {F : Nat}

omit [DecidableEq ι] in
theorem covered_iff {x : Nat} :
    covered H offset size x = true ↔ ∃ h ∈ H, offset h ≤ x ∧ x < offset h + size h := by
  simp [covered]

omit [DecidableEq ι] in
theorem Placed.lt_of_covered (hp : Placed H offset size F) {x : Nat}
    (hx : covered H offset size x = true) : x < F := by
  obtain ⟨h, hh, hle, hlt⟩ := covered_iff.mp hx
  have := hp.inside h hh (by omega)
  omega

omit [DecidableEq ι] in
/-- No live block starts on free cells. -/
theorem offset_lt_of_free {lo hi : Nat}
    (hfree : ∀ x, lo ≤ x → x < hi → covered H offset size x = false) {h : ι} (hh : h ∈ H)
    (hlive : size h ≠ 0) (hlt : offset h < hi) : offset h < lo := by
  by_contra hno
  have hcov : covered H offset size (offset h) = true :=
    covered_iff.mpr ⟨h, hh, Nat.le_refl _, by omega⟩
  rw [hfree _ (by omega) hlt] at hcov
  exact absurd hcov (by decide)

omit [DecidableEq ι] in
/-- Two live blocks that share a cell are the same block. -/
theorem Placed.eq_of_common (hp : Placed H offset size F) {h k : ι} (hh : h ∈ H) (hk : k ∈ H)
    {x : Nat} (hx : offset h ≤ x ∧ x < offset h + size h)
    (hx' : offset k ≤ x ∧ x < offset k + size k) : h = k := by
  by_contra hne
  rcases hp.disjoint h hh k hk hne (by omega) (by omega) with hd | hd <;> omega

theorem rank_eq_card (occ : Nat → Bool) (n : Nat) :
    rank occ n = ((Finset.range n).filter fun x => occ x = true).card := by
  rw [rank, Nat.count_eq_card_filter_range]

theorem rank_le (occ : Nat → Bool) (n : Nat) : rank occ n ≤ n := by
  rw [rank_eq_card]
  exact (Finset.card_filter_le _ _).trans (by simp)

/-- No occupied cell from `m` on. -/
theorem rank_eq_of_free {occ : Nat → Bool} {m n : Nat} (hmn : m ≤ n)
    (hfree : ∀ x, m ≤ x → x < n → occ x = false) : rank occ n = rank occ m := by
  induction n, hmn using Nat.le_induction with
  | base => rfl
  | succ n hn ih =>
      rw [rank_succ, ih fun x hx hxn => hfree x hx (by omega), hfree n hn (by omega)]
      simp

/-- Only occupied cells from `m` on. -/
theorem rank_eq_add_of_full {occ : Nat → Bool} {m n : Nat}
    (hfull : ∀ x, m ≤ x → x < m + n → occ x = true) : rank occ (m + n) = rank occ m + n := by
  induction n with
  | zero => rfl
  | succ n ih =>
      rw [← Nat.add_assoc, rank_succ, ih fun x hx hxn => hfull x hx (by omega),
        hfull (m + n) (by omega) (by omega)]
      simp
      omega

omit [DecidableEq ι] in
/-- Ranks grow by one from cell to cell inside a block. -/
theorem rank_block {h : ι} (hh : h ∈ H) {i : Nat} (hi : i ≤ size h) :
    rank (covered H offset size) (offset h + i) = rank (covered H offset size) (offset h) + i := by
  apply rank_eq_add_of_full
  intro x hx hlt
  exact covered_iff.mpr ⟨h, hh, hx, by omega⟩

omit [DecidableEq ι] in
/-- The sizes add up to the number of covered cells. -/
theorem Placed.sum_eq_rank (hp : Placed H offset size F) :
    ∑ h ∈ H, size h = rank (covered H offset size) F := by
  have hcells : ((Finset.range F).filter fun x => covered H offset size x = true) =
      H.biUnion fun h => Finset.Ico (offset h) (offset h + size h) := by
    ext x
    simp only [Finset.mem_filter, Finset.mem_range, Finset.mem_biUnion, Finset.mem_Ico]
    constructor
    · rintro ⟨-, hx⟩
      exact covered_iff.mp hx
    · intro hx
      exact ⟨hp.lt_of_covered (covered_iff.mpr hx), covered_iff.mpr hx⟩
  rw [rank_eq_card, hcells, Finset.card_biUnion]
  · simp
  · intro h hh k hk hne
    show Disjoint (Finset.Ico _ _) (Finset.Ico _ _)
    rw [Finset.disjoint_left]
    intro x hx hx'
    rw [Finset.mem_Ico] at hx hx'
    exact hne (hp.eq_of_common hh hk hx hx')

omit [DecidableEq ι] in
/-- The rank of the start of a live block is the prefix sum of the sizes before it. -/
theorem Placed.rank_offset (hp : Placed H offset size F) {h : ι} (hh : h ∈ H)
    (hlive : size h ≠ 0) :
    rank (covered H offset size) (offset h) = ∑ k ∈ H with offset k < offset h, size k := by
  have hbefore : Placed (H.filter fun k => offset k < offset h) offset size (offset h) := by
    refine ⟨fun k hk hlivek => ?_, fun k hk l hl => ?_⟩
    · obtain ⟨hk, hlt⟩ := Finset.mem_filter.mp hk
      rcases hp.disjoint k hk h hh (by rintro rfl; omega) hlivek hlive with hd | hd <;> omega
    · exact hp.disjoint k (Finset.mem_of_mem_filter k hk) l (Finset.mem_of_mem_filter l hl)
  rw [hbefore.sum_eq_rank]
  apply rank_congr
  intro x hx
  rw [Bool.eq_iff_iff, covered_iff, covered_iff]
  constructor
  · rintro ⟨k, hk, hle, hlt⟩
    exact ⟨k, Finset.mem_filter.mpr ⟨hk, by omega⟩, hle, hlt⟩
  · rintro ⟨k, hk, hxk⟩
    exact ⟨k, Finset.mem_of_mem_filter k hk, hxk⟩

omit [DecidableEq ι] in
/-- Blocks as large as the frontier leave no hole. -/
theorem Placed.covered_of_sum (hp : Placed H offset size F) (hsum : ∑ h ∈ H, size h = F) {x : Nat}
    (hx : x < F) : covered H offset size x = true := by
  by_contra hfree
  have hfree := (Bool.not_eq_true _).mp hfree
  have hlow := rank_le (covered H offset size) x
  have hhigh : ∀ n, rank (covered H offset size) (x + 1 + n) ≤
      rank (covered H offset size) (x + 1) + n := by
    intro n
    induction n with
    | zero => exact Nat.le_refl _
    | succ n ih =>
        rw [← Nat.add_assoc, rank_succ]
        split <;> omega
  have hrest := hhigh (F - (x + 1))
  have hskip := rank_succ (covered H offset size) x
  rw [hfree] at hskip
  rw [hp.sum_eq_rank] at hsum
  rw [Nat.add_sub_cancel' hx] at hrest
  simp at hskip
  omega

omit [DecidableEq ι] in
theorem Placed.sum_le (hp : Placed H offset size F) : ∑ h ∈ H, size h ≤ F := by
  rw [hp.sum_eq_rank]
  exact rank_le _ F

omit [DecidableEq ι] in
/-- Fewer cells than blocks leave a block that is not live. -/
theorem Placed.exists_free (hp : Placed H offset size F) (hlt : F < H.card) :
    ∃ h ∈ H, size h = 0 := by
  by_contra hno
  simp only [not_exists, not_and] at hno
  have hone : ∑ _h ∈ H, 1 ≤ ∑ h ∈ H, size h :=
    Finset.sum_le_sum fun h hh => Nat.one_le_iff_ne_zero.mpr (hno h hh)
  have := hp.sum_le
  simp at hone
  omega

/-! ## Allocating at the frontier and freeing -/

/-- Placing a block of `n` cells at the frontier. -/
theorem Placed.append (hp : Placed H offset size F) (h : ι) (n : Nat) :
    Placed H (Function.update offset h F) (Function.update size h n) (F + n) := by
  have hother : ∀ k, k ≠ h → Function.update size h n k ≠ 0 → k ∈ H →
      Function.update offset h F k + Function.update size h n k ≤ F := by
    intro k hne hlive hk
    rw [Function.update_of_ne hne] at hlive ⊢
    rw [Function.update_of_ne hne]
    exact hp.inside k hk hlive
  refine ⟨?_, ?_⟩
  · intro k hk hlive
    by_cases hkh : k = h
    · subst hkh
      simp
    · have := hother k hkh hlive hk
      omega
  · intro k hk l hl hne hlivek hlivel
    by_cases hkh : k = h
    · subst hkh
      right
      have := hother l hne.symm hlivel hl
      simpa using this
    · by_cases hlh : l = h
      · subst hlh
        left
        have := hother k hkh hlivek hk
        simpa using this
      · rw [Function.update_of_ne hkh] at hlivek
        rw [Function.update_of_ne hlh] at hlivel
        simp only [Function.update_of_ne hkh, Function.update_of_ne hlh]
        exact hp.disjoint k hk l hl hne hlivek hlivel

theorem sum_append {h : ι} (hh : h ∈ H) (hfree : size h = 0) (n : Nat) :
    ∑ k ∈ H, Function.update size h n k = ∑ k ∈ H, size k + n := by
  rw [Finset.sum_update_of_mem hh, ← Finset.sum_erase_add _ _ hh, hfree,
    Finset.sdiff_singleton_eq_erase]
  omega

/-- Freeing a block. -/
theorem Placed.free (hp : Placed H offset size F) (h : ι) :
    Placed H offset (Function.update size h 0) F := by
  have hlive : ∀ k, Function.update size h 0 k ≠ 0 →
      Function.update size h 0 k = size k ∧ size k ≠ 0 := by
    intro k hk
    by_cases hkh : k = h
    · subst hkh
      simp at hk
    · rw [Function.update_of_ne hkh] at hk ⊢
      exact ⟨rfl, hk⟩
  refine ⟨?_, ?_⟩
  · intro k hk hne
    obtain ⟨heq, hne⟩ := hlive k hne
    rw [heq]
    exact hp.inside k hk hne
  · intro k hk l hl hkl hnek hnel
    obtain ⟨heqk, hnek⟩ := hlive k hnek
    obtain ⟨heql, hnel⟩ := hlive l hnel
    rw [heqk, heql]
    exact hp.disjoint k hk l hl hkl hnek hnel

theorem sum_free {h : ι} (hh : h ∈ H) :
    ∑ k ∈ H, Function.update size h 0 k + size h = ∑ k ∈ H, size k := by
  rw [Finset.sum_update_of_mem hh, ← Finset.sum_erase_add H size hh, Finset.sdiff_singleton_eq_erase]
  omega

/-- The frontier moves back over a freed block that touched it. -/
theorem Placed.retract (hp : Placed H offset size F) {h : ι} (hh : h ∈ H) (hlive : size h ≠ 0)
    (htouch : offset h + size h = F) :
    Placed H offset (Function.update size h 0) (offset h) := by
  refine ⟨?_, (hp.free h).disjoint⟩
  intro k hk hne
  have hkh : k ≠ h := by
    rintro rfl
    simp at hne
  rw [Function.update_of_ne hkh] at hne ⊢
  have := hp.inside k hk hne
  rcases hp.disjoint k hk h hh hkh hne hlive with hd | hd <;> omega

/-! ## Compaction -/

omit [DecidableEq ι] in
/-- Compaction keeps the blocks whole, disjoint and in order. -/
theorem Placed.compact (hp : Placed H offset size F) :
    Placed H (fun h => rank (covered H offset size) (offset h)) size
      (rank (covered H offset size) F) := by
  refine ⟨?_, ?_⟩
  · intro h hh hlive
    rw [← rank_block hh (Nat.le_refl _)]
    exact rank_mono _ (hp.inside h hh hlive)
  · intro h hh k hk hne hliveh hlivek
    rw [← rank_block hh (Nat.le_refl _), ← rank_block hk (Nat.le_refl _)]
    rcases hp.disjoint h hh k hk hne hliveh hlivek with hd | hd
    · exact .inl (rank_mono _ hd)
    · exact .inr (rank_mono _ hd)

end RayPlatform.Lib.Layout
