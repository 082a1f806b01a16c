import Mathlib.Tactic.Ring
import RayPlatform.Lib.Layout
import RayPlatform.Memory.DefragmentationGroup

/-!
# The compaction loop of DefragmentationGroup

`defragment` slides the live blocks to the left, one after the other. Seen from
the cells, it sends every occupied cell to its rank among the occupied cells, the
compaction of `Lib.Layout`.

* `copyElements_apply` — the copy loop moves whole elements, also when source and
  destination overlap;
* `Slid` — the loop invariant: the cells below `source` have been sent to their
  ranks, the cells from `source` on are as they were;
* `moveBlock_slid`, `compact_spec` — one iteration, and the loop;
* `defragment_spec` — what a call to `defragment` does.
-/

namespace RayPlatform

namespace DefragmentationGroup

open Lib.SparseArray (rank rank_zero rank_succ rank_mono rank_lt_rank)
open Lib.Layout

/-! ## Loops -/

theorem fill_apply (value offset n : Nat) (cells : Nat → Nat) (x : Nat) :
    fill value offset n cells x = if offset ≤ x ∧ x < offset + n then value else cells x := by
  induction n with
  | zero =>
      rw [if_neg (by omega)]
      rfl
  | succ n ih =>
      by_cases hx : x = offset + n
      · subst hx
        rw [fill, Function.update_self, if_pos (by omega)]
      · rw [fill, Function.update_of_ne hx, ih]
        by_cases hin : offset ≤ x ∧ x < offset + n
        · rw [if_pos hin, if_pos (by omega)]
        · rw [if_neg hin, if_neg (by omega)]

/-- Where a skipping loop stops. -/
structure SkipSpec (cells : Nat → Nat) (value i r : Nat) : Prop where
  ge : i ≤ r
  le : r ≤ ELEMENTS_PER_GROUP
  before : ∀ x, i ≤ x → x < r → cells x = value
  stop : r < ELEMENTS_PER_GROUP → cells r ≠ value

theorem skipCells_spec (cells : Nat → Nat) (value : Nat) :
    ∀ fuel i, i ≤ ELEMENTS_PER_GROUP → ELEMENTS_PER_GROUP ≤ i + fuel →
      SkipSpec cells value i (skipCells cells value fuel i) := by
  intro fuel
  induction fuel with
  | zero =>
      intro i hi hfuel
      refine ⟨Nat.le_refl i, hi, ?_, ?_⟩
      · intro x hx hlt
        rw [skipCells] at hlt
        omega
      · intro hlt
        rw [skipCells] at hlt
        omega
  | succ fuel ih =>
      intro i hi hfuel
      rw [skipCells]
      split
      · rename_i hgo
        obtain ⟨hge, hle, hbefore, hstop⟩ := ih (i + 1) (by omega) (by omega)
        refine ⟨by omega, hle, ?_, hstop⟩
        intro x hx hlt
        rcases Nat.eq_or_lt_of_le hx with rfl | hx
        · exact hgo.1
        · exact hbefore x hx hlt
      · rename_i hno
        refine ⟨Nat.le_refl i, hi, fun x hx hlt => by omega, ?_⟩
        intro hlt hvalue
        exact hno ⟨hvalue, hlt⟩

/-- Copying forward to a lower address reads every byte before overwriting it. -/
theorem copyBytes_apply {destination source : Nat} (h : destination ≤ source) (n : Nat)
    (block : Nat → UInt8) (x : Nat) :
    copyBytes destination source n block x =
      if destination ≤ x ∧ x < destination + n then block (source + (x - destination))
      else block x := by
  induction n generalizing x with
  | zero =>
      rw [if_neg (by omega)]
      rfl
  | succ n ih =>
      by_cases hx : x = destination + n
      · subst hx
        have hread : copyBytes destination source n block (source + n) = block (source + n) := by
          rw [ih, if_neg (by omega)]
        rw [copyBytes, Function.update_self, hread, if_pos (by omega), Nat.add_sub_cancel_left]
      · rw [copyBytes, Function.update_of_ne hx, ih]
        by_cases hin : destination ≤ x ∧ x < destination + n
        · rw [if_pos hin, if_pos (by omega)]
        · rw [if_neg hin, if_neg (by omega)]

/-- The bytes of element `e` are those of element `d` only if they are the same. -/
theorem element_iff {w e d k : Nat} (hk : k < w) :
    (d * w ≤ e * w + k ∧ e * w + k < d * w + w) ↔ e = d := by
  constructor
  · rintro ⟨hge, hlt⟩
    have hdiv : (e * w + k) / w = e := by
      rw [Nat.mul_comm, Nat.mul_add_div (by omega), Nat.div_eq_of_lt hk, Nat.add_zero]
    have hlow : d ≤ (e * w + k) / w := (Nat.le_div_iff_mul_le (by omega)).mpr hge
    have hhigh : (e * w + k) / w < d + 1 := by
      rw [Nat.div_lt_iff_lt_mul (by omega), Nat.succ_mul]
      exact hlt
    omega
  · rintro rfl
    omega

/-- The copy loop moves `n` whole elements. -/
theorem copyElements_apply {w destination source : Nat} (h : destination ≤ source) (n : Nat)
    (block : Nat → UInt8) (e : Nat) {k : Nat} (hk : k < w) :
    copyElements w destination source n block (e * w + k) =
      if destination ≤ e ∧ e < destination + n then
        block ((source + (e - destination)) * w + k)
      else block (e * w + k) := by
  induction n generalizing e with
  | zero =>
      rw [if_neg (by omega)]
      rfl
  | succ n ih =>
      have hle : (destination + n) * w ≤ (source + n) * w := Nat.mul_le_mul_right w (by omega)
      rw [copyElements, copyBytes_apply hle]
      by_cases he : e = destination + n
      · subst he
        have hoffset : (source + n) * w + ((destination + n) * w + k - (destination + n) * w) =
            (source + n) * w + k := by omega
        rw [if_pos ((element_iff hk).mpr rfl), hoffset, ih, if_neg (by omega), if_pos (by omega),
          Nat.add_sub_cancel_left]
      · rw [if_neg (mt (element_iff hk).mp he), ih]
        by_cases hin : destination ≤ e ∧ e < destination + n
        · rw [if_pos hin, if_pos (by omega)]
        · rw [if_neg hin, if_neg (by omega)]

/-! ## Registering the blocks -/

/-- All handles. -/
def handles : Finset Nat := Finset.range ELEMENTS_PER_GROUP

theorem mem_handles {h : Nat} : h ∈ handles ↔ h < ELEMENTS_PER_GROUP :=
  Finset.mem_range

theorem registerCells_occupancies (sizes offsets : Nat → Nat) (s : Scratch) (n x : Nat) :
    (registerCells sizes offsets n s).cellOccupancies x =
      if covered (Finset.range n) offsets sizes x then 1 else s.cellOccupancies x := by
  induction n with
  | zero =>
      rw [if_neg (by simp [covered])]
      rfl
  | succ n ih =>
      have hcovered : covered (Finset.range (n + 1)) offsets sizes x = true ↔
          (offsets n ≤ x ∧ x < offsets n + sizes n) ∨
            covered (Finset.range n) offsets sizes x = true := by
        simp only [covered_iff, Finset.mem_range]
        constructor
        · rintro ⟨h, hh, hx⟩
          rcases Nat.lt_succ_iff_lt_or_eq.mp hh with hh | rfl
          · exact .inr ⟨h, hh, hx⟩
          · exact .inl hx
        · rintro (hx | ⟨h, hh, hx⟩)
          · exact ⟨n, by omega, hx⟩
          · exact ⟨h, by omega, hx⟩
      simp only [registerCells, hcovered]
      by_cases hlive : sizes n ≠ 0
      · rw [if_pos hlive]
        show fill 1 (offsets n) (sizes n) _ x = _
        rw [fill_apply, ih]
        by_cases hin : offsets n ≤ x ∧ x < offsets n + sizes n
        · rw [if_pos hin, if_pos (.inl hin)]
        · simp only [hin, false_or, if_false]
      · have hin : ¬ (offsets n ≤ x ∧ x < offsets n + sizes n) := by omega
        rw [if_neg hlive, ih]
        simp only [hin, false_or]

/-- Live blocks start on different cells, so none overwrites another's handle. -/
theorem registerCells_contents {sizes offsets : Nat → Nat} {F : Nat}
    (hp : Placed handles offsets sizes F) (s : Scratch) {n : Nat} (hn : n ≤ ELEMENTS_PER_GROUP)
    {h : Nat} (hh : h < n) (hlive : sizes h ≠ 0) :
    (registerCells sizes offsets n s).cellContents (offsets h) = h := by
  induction n with
  | zero => omega
  | succ n ih =>
      by_cases hhn : h = n
      · subst hhn
        simp [registerCells, hlive]
      · have hold := ih (by omega) (by omega)
        rw [registerCells]
        by_cases hlive' : sizes n ≠ 0
        · have hne : offsets h ≠ offsets n := by
            intro heq
            have hsame := hp.eq_of_common (mem_handles.mpr (by omega)) (mem_handles.mpr (by omega))
              (x := offsets h) (h := h) (k := n) (by omega) (by omega)
            exact hhn hsame
          simp only [if_pos hlive']
          rw [Function.update_of_ne hne, hold]
        · simp only [if_neg hlive']
          exact hold

/-! ## The loop invariant -/

section

variable (w : Nat) (sizes offsets : Nat → Nat) (block : Nat → UInt8)

/-- The layout being compacted. -/
abbrev cells : Nat → Bool := covered handles offsets sizes

/-- The blocks that start below `source` have been slid to the left. -/
structure Slid (c : Compaction) : Prop where
  bound : c.source ≤ ELEMENTS_PER_GROUP
  destination : c.destination = rank (cells sizes offsets) c.source
  lt : c.destination < c.source
  start : c.source < ELEMENTS_PER_GROUP → cells sizes offsets c.source = true
  boundary : ∀ h ∈ handles, sizes h ≠ 0 → offsets h < c.source → offsets h + sizes h ≤ c.source
  slidOffsets : ∀ h ∈ handles, sizes h ≠ 0 → c.allocatedOffsets h =
    if offsets h < c.source then rank (cells sizes offsets) (offsets h) else offsets h
  occupancies : ∀ x < ELEMENTS_PER_GROUP, c.cellOccupancies x =
    if x < c.destination then 1
    else if x < c.source then 0 else (cells sizes offsets x).toNat
  moved : ∀ x < c.source, cells sizes offsets x = true → ∀ k < w,
    c.block (rank (cells sizes offsets) x * w + k) = block (x * w + k)
  kept : ∀ x, c.source ≤ x → ∀ k < w, c.block (x * w + k) = block (x * w + k)

variable {w sizes offsets block}

/-- The block that starts at `source`. -/
theorem Slid.exists_block {c : Compaction} (h : Slid w sizes offsets block c)
    (hlt : c.source < ELEMENTS_PER_GROUP) :
    ∃ a ∈ handles, sizes a ≠ 0 ∧ offsets a = c.source := by
  obtain ⟨a, ha, hle, hx⟩ := covered_iff.mp (h.start hlt)
  have hlive : sizes a ≠ 0 := by omega
  refine ⟨a, ha, hlive, ?_⟩
  by_contra hne
  have := h.boundary a ha hlive (by omega)
  omega

/-- The occupancy map after the two memsets of an iteration that slides `n` cells. -/
theorem Slid.fill_occupancies {c : Compaction} (h : Slid w sizes offsets block c) (n : Nat)
    {x : Nat} (hx : x < ELEMENTS_PER_GROUP) :
    fill 0 (c.destination + n) (c.source - c.destination)
        (fill 1 c.destination n c.cellOccupancies) x =
      if x < c.destination + n then 1
      else if x < c.source + n then 0 else (cells sizes offsets x).toNat := by
  have hdst := h.lt
  rw [fill_apply, fill_apply, h.occupancies x hx]
  by_cases hxd : x < c.destination
  · rw [if_neg (by omega), if_neg (by omega), if_pos hxd, if_pos (by omega)]
  by_cases hxn : x < c.destination + n
  · rw [if_neg (by omega), if_pos (by omega), if_pos hxn]
  by_cases hxs : x < c.source + n
  · rw [if_pos (by omega), if_neg hxn, if_pos hxs]
  · rw [if_neg (by omega), if_neg (by omega), if_neg hxd, if_neg (by omega), if_neg hxn,
      if_neg hxs]

/-- An iteration, as the block `a` that it slides and the place where it stops: no cell is
allocated between the block and there. -/
theorem moveBlock_eq {c : Compaction} (h : Slid w sizes offsets block c)
    {cellContents : Nat → Nat} {a : Nat} (hpointer : cellContents c.source = a)
    (hend : c.source + sizes a ≤ ELEMENTS_PER_GROUP) :
    ∃ source', c.source + sizes a ≤ source' ∧ source' ≤ ELEMENTS_PER_GROUP ∧
      (∀ x, c.source + sizes a ≤ x → x < source' → cells sizes offsets x = false) ∧
      (source' < ELEMENTS_PER_GROUP → cells sizes offsets source' = true) ∧
      moveBlock w sizes cellContents c =
        { block := copyElements w c.destination c.source (sizes a) c.block
          allocatedOffsets := Function.update c.allocatedOffsets a (c.destination % 65536)
          cellOccupancies := fill 0 (c.destination + sizes a) (c.source - c.destination)
            (fill 1 c.destination (sizes a) c.cellOccupancies)
          destination := c.destination + sizes a
          source := source' } := by
  have hdst := h.lt
  have hocc := fun x hx => h.fill_occupancies (sizes a) (x := x) hx
  generalize hoccupancies : fill 0 (c.destination + sizes a) (c.source - c.destination)
    (fill 1 c.destination (sizes a) c.cellOccupancies) = occupancies at hocc ⊢
  have hmove : moveBlock w sizes cellContents c =
      { block := copyElements w c.destination c.source (sizes a) c.block
        allocatedOffsets := Function.update c.allocatedOffsets a (c.destination % 65536)
        cellOccupancies := occupancies
        destination := skipCells occupancies 1 ELEMENTS_PER_GROUP (c.destination + sizes a)
        source := skipCells occupancies 0 ELEMENTS_PER_GROUP (c.source + sizes a) } := by
    rw [moveBlock, hpointer, ← hoccupancies]
  have hdestination := skipCells_spec occupancies 1 ELEMENTS_PER_GROUP (c.destination + sizes a)
    (by omega) (by omega)
  have hsource := skipCells_spec occupancies 0 ELEMENTS_PER_GROUP (c.source + sizes a)
    hend (by omega)
  -- the cell after the slid block is free, so the destination does not move further
  have hdest : skipCells occupancies 1 ELEMENTS_PER_GROUP (c.destination + sizes a) =
      c.destination + sizes a := by
    by_contra hne
    have hone := hdestination.before (c.destination + sizes a) (Nat.le_refl _)
      (by have := hdestination.ge; omega)
    rw [hocc _ (by omega), if_neg (by omega), if_pos (by omega)] at hone
    exact absurd hone (by decide)
  rw [hdest] at hmove
  refine ⟨_, hsource.ge, hsource.le, ?_, ?_, hmove⟩
  · intro x hx hxs
    have hzero := hsource.before x hx hxs
    rw [hocc x (by have := hsource.le; omega), if_neg (by omega), if_neg (by omega)] at hzero
    exact Bool.toNat_eq_zero.mp hzero
  · intro hs
    have hone := hsource.stop hs
    have hge := hsource.ge
    rw [hocc _ hs, if_neg (by omega), if_neg (by omega)] at hone
    exact (Bool.not_eq_false _).mp (mt Bool.toNat_eq_zero.mpr hone)

/-- The bytes of the allocated cells after the copy of an iteration that slides `n` cells, which
come to lie behind the ones that were slid before. -/
theorem Slid.moved_copy {c : Compaction} (h : Slid w sizes offsets block c) {n source' : Nat}
    (hrank : ∀ i ≤ n, rank (cells sizes offsets) (c.source + i) = c.destination + i)
    (hgap : ∀ x, c.source + n ≤ x → x < source' → cells sizes offsets x = false) {x : Nat}
    (hx : x < source') (hcov : cells sizes offsets x = true) {k : Nat} (hk : k < w) :
    copyElements w c.destination c.source n c.block (rank (cells sizes offsets) x * w + k) =
      block (x * w + k) := by
  rw [copyElements_apply (Nat.le_of_lt h.lt) _ _ _ hk]
  by_cases hxs : x < c.source
  · have hlow : rank (cells sizes offsets) x < c.destination := by
      rw [h.destination]
      exact rank_lt_rank hcov hxs
    rw [if_neg (by omega)]
    exact h.moved x hxs hcov k hk
  · have hin : x < c.source + n := by
      by_contra hno
      rw [hgap x (by omega) hx] at hcov
      exact absurd hcov (by decide)
    have hrankx : rank (cells sizes offsets) x = c.destination + (x - c.source) := by
      rw [← hrank (x - c.source) (by omega), Nat.add_sub_cancel' (by omega)]
    have hback : c.source + (c.destination + (x - c.source) - c.destination) = x := by omega
    rw [hrankx, if_pos (by omega), hback]
    exact h.kept x (by omega) k hk

/-- One iteration slides one block and stops on the next. -/
theorem moveBlock_slid {F : Nat} (hp : Placed handles offsets sizes F)
    (hF : F ≤ ELEMENTS_PER_GROUP) {cellContents : Nat → Nat}
    (hcontents : ∀ a ∈ handles, sizes a ≠ 0 → cellContents (offsets a) = a) {c : Compaction}
    (h : Slid w sizes offsets block c) (hlt : c.source < ELEMENTS_PER_GROUP) :
    Slid w sizes offsets block (moveBlock w sizes cellContents c) ∧
      c.source < (moveBlock w sizes cellContents c).source := by
  obtain ⟨a, ha, hlive, hstart⟩ := h.exists_block hlt
  have hpointer : cellContents c.source = a := by rw [← hstart, hcontents a ha hlive]
  have hend : c.source + sizes a ≤ ELEMENTS_PER_GROUP := by
    have := hp.inside a ha hlive
    omega
  have hdst := h.lt
  obtain ⟨source', hge, hle, hgap, hstop, hmove⟩ := moveBlock_eq h hpointer hend
  rw [hmove]
  have hrank : ∀ i ≤ sizes a, rank (cells sizes offsets) (c.source + i) = c.destination + i := by
    intro i hi
    rw [h.destination, ← hstart]
    exact rank_block ha hi
  have hranksource : rank (cells sizes offsets) source' = c.destination + sizes a := by
    rw [← hrank (sizes a) (Nat.le_refl _)]
    exact rank_eq_of_free hge hgap
  -- a live block below the new source is the slid one or was below the old source
  have hold : ∀ b ∈ handles, sizes b ≠ 0 → b ≠ a → offsets b < source' → offsets b < c.source := by
    intro b hb hliveb hne hbs
    have hbefore := offset_lt_of_free hgap hb hliveb hbs
    by_contra hno
    exact hne (hp.eq_of_common hb ha (x := offsets b) (by omega) (by omega))
  refine ⟨⟨hle, hranksource.symm, by show c.destination + sizes a < source'; omega, hstop, ?_, ?_,
    ?_, ?_, ?_⟩, by show c.source < source'; omega⟩
  · intro b hb hliveb hbs
    by_cases hba : b = a
    · subst hba
      show offsets b + sizes b ≤ source'
      omega
    · have := h.boundary b hb hliveb (hold b hb hliveb hba hbs)
      show offsets b + sizes b ≤ source'
      omega
  · intro b hb hliveb
    show Function.update c.allocatedOffsets a (c.destination % 65536) b = _
    by_cases hba : b = a
    · subst hba
      have hlow : offsets b < source' := by omega
      have hfits : c.destination % 65536 = c.destination :=
        Nat.mod_eq_of_lt (by unfold ELEMENTS_PER_GROUP at hlt; omega)
      rw [Function.update_self, hfits, if_pos hlow, hstart, h.destination]
    · rw [Function.update_of_ne hba, h.slidOffsets b hb hliveb]
      by_cases hbs : offsets b < source'
      · rw [if_pos hbs, if_pos (hold b hb hliveb hba hbs)]
      · rw [if_neg hbs, if_neg (by omega)]
  · intro x hx
    show fill _ _ _ _ x = if x < c.destination + sizes a then 1 else if x < source' then 0 else _
    rw [h.fill_occupancies (sizes a) hx]
    by_cases hxd : x < c.destination + sizes a
    · rw [if_pos hxd, if_pos hxd]
    · rw [if_neg hxd, if_neg hxd]
      by_cases hxs : x < c.source + sizes a
      · rw [if_pos hxs, if_pos (by omega)]
      · rw [if_neg hxs]
        by_cases hxs' : x < source'
        · rw [if_pos hxs', hgap x (by omega) hxs']
          rfl
        · rw [if_neg hxs']
  · exact fun x hx hcov k hk => h.moved_copy hrank hgap hx hcov hk
  · intro x hx k hk
    change source' ≤ x at hx
    show copyElements w c.destination c.source (sizes a) c.block _ = _
    rw [copyElements_apply (Nat.le_of_lt hdst) _ _ _ hk, if_neg (by omega)]
    exact h.kept x (by omega) k hk

/-- The loop ends with every block slid. -/
theorem compact_spec {F : Nat} (hp : Placed handles offsets sizes F)
    (hF : F ≤ ELEMENTS_PER_GROUP) {cellContents : Nat → Nat}
    (hcontents : ∀ a ∈ handles, sizes a ≠ 0 → cellContents (offsets a) = a) :
    ∀ fuel (c : Compaction), Slid w sizes offsets block c → ELEMENTS_PER_GROUP ≤ c.source + fuel →
      Slid w sizes offsets block (compact w sizes cellContents fuel c) ∧
        (compact w sizes cellContents fuel c).source = ELEMENTS_PER_GROUP := by
  intro fuel
  induction fuel with
  | zero =>
      intro c h hfuel
      have := h.bound
      exact ⟨h, by rw [compact]; omega⟩
  | succ fuel ih =>
      intro c h hfuel
      by_cases hlt : c.source < ELEMENTS_PER_GROUP
      · have hbusy : c.cellOccupancies c.source ≠ 0 := by
          have hd := h.lt
          rw [h.occupancies _ hlt, if_neg (by omega), if_neg (Nat.lt_irrefl _), h.start hlt]
          decide
        obtain ⟨hslid, hgrow⟩ := moveBlock_slid hp hF hcontents h hlt
        rw [compact, if_pos hlt, if_neg hbusy]
        exact ih _ hslid (by omega)
      · have := h.bound
        rw [compact, if_neg hlt]
        exact ⟨h, by omega⟩

/-- The two scans before the first iteration: allocated cells, then the first free ones. -/
theorem firstScans {F : Nat} (hF : F ≤ ELEMENTS_PER_GROUP) {occupancies : Nat → Nat}
    (hocc : ∀ x < ELEMENTS_PER_GROUP, occupancies x = (cells sizes offsets x).toNat)
    (hfragmented : rank (cells sizes offsets) F < F) :
    ∃ destination source, skipCells occupancies 1 ELEMENTS_PER_GROUP 0 = destination ∧
      skipCells occupancies 0 ELEMENTS_PER_GROUP (destination + 1) = source ∧
      destination < source ∧ source ≤ ELEMENTS_PER_GROUP ∧
      (∀ x < destination, cells sizes offsets x = true) ∧
      (∀ x, destination ≤ x → x < source → cells sizes offsets x = false) ∧
      (source < ELEMENTS_PER_GROUP → cells sizes offsets source = true) := by
  have hd := skipCells_spec occupancies 1 ELEMENTS_PER_GROUP 0 (Nat.zero_le _) (by omega)
  generalize skipCells occupancies 1 ELEMENTS_PER_GROUP 0 = destination at hd ⊢
  have hprefix : ∀ x < destination, cells sizes offsets x = true := by
    intro x hx
    have hone := hd.before x (Nat.zero_le _) hx
    rw [hocc x (by have := hd.le; omega)] at hone
    exact Bool.toNat_eq_one.mp hone
  have hdlt : destination < F := by
    by_contra hno
    have hfull : rank (cells sizes offsets) (0 + F) = rank (cells sizes offsets) 0 + F :=
      rank_eq_add_of_full fun y _ hy => hprefix y (by omega)
    simp only [Nat.zero_add, rank_zero] at hfull
    omega
  have hfree : cells sizes offsets destination = false := by
    have hstop := hd.stop (by omega)
    rw [hocc _ (by omega)] at hstop
    exact (Bool.not_eq_true _).mp (mt Bool.toNat_eq_one.mpr hstop)
  have hs := skipCells_spec occupancies 0 ELEMENTS_PER_GROUP (destination + 1)
    (by omega) (by omega)
  refine ⟨destination, _, rfl, rfl, hs.ge, hs.le, hprefix, fun x hx hxs => ?_,
    fun hlt => ?_⟩
  · rcases Nat.eq_or_lt_of_le hx with rfl | hx
    · exact hfree
    · have hle := hs.le
      have hzero := hs.before x hx hxs
      rw [hocc x (by omega)] at hzero
      exact Bool.toNat_eq_zero.mp hzero
  · have hstop := hs.stop hlt
    rw [hocc _ hlt] at hstop
    exact (Bool.not_eq_false _).mp (mt Bool.toNat_eq_zero.mpr hstop)

/-- Before the first iteration, the blocks below `source` are where they belong: they fill
the cells before the first free one. -/
theorem slid_start {F : Nat} (hF : F ≤ ELEMENTS_PER_GROUP) {occupancies : Nat → Nat}
    (hocc : ∀ x < ELEMENTS_PER_GROUP, occupancies x = (cells sizes offsets x).toNat)
    (hfragmented : rank (cells sizes offsets) F < F) :
    Slid w sizes offsets block
      { block := block
        allocatedOffsets := offsets
        cellOccupancies := occupancies
        destination := skipCells occupancies 1 ELEMENTS_PER_GROUP 0
        source := skipCells occupancies 0 ELEMENTS_PER_GROUP
          (skipCells occupancies 1 ELEMENTS_PER_GROUP 0 + 1) } := by
  obtain ⟨destination, source, hd, hs, hlt, hsle, hprefix, hgap, hstop⟩ :=
    firstScans hF hocc hfragmented
  rw [hd, hs]
  have hranklow : ∀ x ≤ destination, rank (cells sizes offsets) x = x := by
    intro x hx
    have hfull : rank (cells sizes offsets) (0 + x) = rank (cells sizes offsets) 0 + x :=
      rank_eq_add_of_full fun y _ hy => hprefix y (by omega)
    simpa using hfull
  have hlow : ∀ a ∈ handles, sizes a ≠ 0 → offsets a < source →
      offsets a + sizes a ≤ destination := by
    intro a ha hlive has
    have hbefore := offset_lt_of_free hgap ha hlive has
    by_contra hno
    have hcov : cells sizes offsets destination = true :=
      covered_iff.mpr ⟨a, ha, by omega, by omega⟩
    rw [hgap destination (Nat.le_refl _) hlt] at hcov
    exact absurd hcov (by decide)
  refine ⟨hsle, ?_, hlt, hstop, ?_, ?_, ?_, ?_, fun _ _ _ _ => rfl⟩
  · show destination = rank _ source
    rw [rank_eq_of_free (Nat.le_of_lt hlt) hgap, hranklow _ (Nat.le_refl _)]
  · intro a ha hlive has
    have := hlow a ha hlive has
    show _ ≤ source
    omega
  · intro a ha hlive
    show offsets a = if offsets a < source then _ else _
    by_cases has : offsets a < source
    · rw [if_pos has, hranklow _ (by have := hlow a ha hlive has; omega)]
    · rw [if_neg has]
  · intro x hx
    show occupancies x = if x < destination then 1 else if x < source then 0 else _
    rw [hocc x hx]
    by_cases hxd : x < destination
    · rw [if_pos hxd, hprefix x hxd]
      rfl
    · rw [if_neg hxd]
      by_cases hxs : x < source
      · rw [if_pos hxs, hgap x (by omega) hxs]
        rfl
      · rw [if_neg hxs]
  · intro x hx hcov k _
    have hxd : x < destination := by
      by_contra hno
      rw [hgap x (by omega) hx] at hcov
      exact absurd hcov (by decide)
    show block _ = block _
    rw [hranklow x (by omega)]

end

/-! ## A call to `defragment` -/

/-- What a call to `defragment` does: nothing, or the compaction of the layout. -/
inductive DefragmentSpec (w : Nat) (g : DefragmentationGroup) :
    DefragmentationGroup × Bool → Prop
  | nothing : DefragmentSpec w g (g, false)
  | compacted (block : Nat → UInt8) (offsets : Nat → Nat)
      (fragmented : rank (cells g.allocatedSizes g.allocatedOffsets) g.freeSliceStart <
        g.freeSliceStart)
      (offsets_eq : ∀ a ∈ handles, g.allocatedSizes a ≠ 0 → offsets a =
        rank (cells g.allocatedSizes g.allocatedOffsets) (g.allocatedOffsets a))
      (bytes : ∀ x < ELEMENTS_PER_GROUP, cells g.allocatedSizes g.allocatedOffsets x = true →
        ∀ k < w, block (rank (cells g.allocatedSizes g.allocatedOffsets) x * w + k) =
          g.block (x * w + k)) :
      DefragmentSpec w g
        ({ g with
            block := block
            allocatedOffsets := offsets
            freeSliceStart := rank (cells g.allocatedSizes g.allocatedOffsets) g.freeSliceStart },
          true)

/-- The look-up tables of a call agree with the layout. -/
structure TableSpec (g : DefragmentationGroup) (table : Scratch) : Prop where
  occupancies : ∀ x < ELEMENTS_PER_GROUP, table.cellOccupancies x =
    (cells g.allocatedSizes g.allocatedOffsets x).toNat
  contents : ∀ a ∈ handles, g.allocatedSizes a ≠ 0 →
    table.cellContents (g.allocatedOffsets a) = a

theorem registerCells_table {g : DefragmentationGroup}
    (hp : Placed handles g.allocatedOffsets g.allocatedSizes g.freeSliceStart) (s : Scratch) :
    TableSpec g (registerCells g.allocatedSizes g.allocatedOffsets ELEMENTS_PER_GROUP
      { s with cellOccupancies := fill 0 0 ELEMENTS_PER_GROUP s.cellOccupancies }) := by
  refine ⟨fun x hx => ?_, fun a ha hlive =>
    registerCells_contents hp _ (Nat.le_refl _) (mem_handles.mp ha) hlive⟩
  rw [registerCells_occupancies]
  show (if cells g.allocatedSizes g.allocatedOffsets x = true then 1
    else fill 0 0 ELEMENTS_PER_GROUP s.cellOccupancies x) = _
  cases cells g.allocatedSizes g.allocatedOffsets x with
  | true => rfl
  | false =>
      show fill 0 0 ELEMENTS_PER_GROUP s.cellOccupancies x = 0
      rw [fill_apply, if_pos (by omega)]

/-- Behind the early returns, some cell below the frontier is free. -/
theorem rank_lt_frontier {g : DefragmentationGroup}
    (hp : Placed handles g.allocatedOffsets g.allocatedSizes g.freeSliceStart)
    (havailable : g.availableElements =
      (ELEMENTS_PER_GROUP : Int) - (∑ a ∈ handles, g.allocatedSizes a : Nat))
    (hcontiguous : g.availableElements ≠ (ELEMENTS_PER_GROUP : Int) - g.freeSliceStart) :
    rank (cells g.allocatedSizes g.allocatedOffsets) g.freeSliceStart < g.freeSliceStart := by
  have hle := rank_le (cells g.allocatedSizes g.allocatedOffsets) g.freeSliceStart
  rw [hp.sum_eq_rank] at havailable
  unfold cells at hle ⊢
  omega

theorem defragment_spec {g : DefragmentationGroup} (w : Nat)
    (hp : Placed handles g.allocatedOffsets g.allocatedSizes g.freeSliceStart)
    (hF : g.freeSliceStart ≤ ELEMENTS_PER_GROUP)
    (havailable : g.availableElements =
      (ELEMENTS_PER_GROUP : Int) - (∑ a ∈ handles, g.allocatedSizes a : Nat)) (s : Scratch) :
    DefragmentSpec w g (g.defragment w s) := by
  rw [defragment]
  by_cases hnone : g.availableElements = 0
  · simp only [if_pos hnone]
    exact .nothing
  by_cases hcontiguous : g.availableElements = (ELEMENTS_PER_GROUP : Int) - g.freeSliceStart
  · simp only [if_neg hnone, if_pos hcontiguous]
    exact .nothing
  simp only [if_neg hnone, if_neg hcontiguous]
  have hfragmented := rank_lt_frontier hp havailable hcontiguous
  have htable := registerCells_table hp s
  generalize registerCells g.allocatedSizes g.allocatedOffsets ELEMENTS_PER_GROUP
    { s with cellOccupancies := fill 0 0 ELEMENTS_PER_GROUP s.cellOccupancies } = table at htable ⊢
  have hslid : Slid w g.allocatedSizes g.allocatedOffsets g.block _ :=
    slid_start hF htable.occupancies hfragmented
  obtain ⟨hfinal, hend⟩ :=
    compact_spec hp hF htable.contents ELEMENTS_PER_GROUP _ hslid (by omega)
  generalize compact w g.allocatedSizes table.cellContents ELEMENTS_PER_GROUP _ = c at hfinal hend ⊢
  have hfrontier : c.destination =
      rank (cells g.allocatedSizes g.allocatedOffsets) g.freeSliceStart := by
    rw [hfinal.destination, hend]
    apply rank_eq_of_free hF
    intro x hx _
    cases hc : cells g.allocatedSizes g.allocatedOffsets x with
    | false => rfl
    | true =>
        have := hp.lt_of_covered hc
        omega
  rw [hfrontier]
  refine .compacted c.block c.allocatedOffsets hfragmented ?_ ?_
  · intro a ha hlive
    have hin := hp.inside a ha hlive
    rw [hfinal.slidOffsets a ha hlive, if_pos (by rw [hend]; omega)]
  · intro x hx hcov k hk
    exact hfinal.moved x (hend ▸ hx) hcov k hk

/-- The bytes of a live block move with it. -/
theorem compacted_bytes {g : DefragmentationGroup} {w : Nat} (hw : 1 ≤ w)
    (hp : Placed handles g.allocatedOffsets g.allocatedSizes g.freeSliceStart)
    (hF : g.freeSliceStart ≤ ELEMENTS_PER_GROUP) {block : Nat → UInt8} {a offset : Nat}
    (ha : a ∈ handles) (hlive : g.allocatedSizes a ≠ 0)
    (hoffset : offset = rank (cells g.allocatedSizes g.allocatedOffsets) (g.allocatedOffsets a))
    (hbytes : ∀ x < ELEMENTS_PER_GROUP, cells g.allocatedSizes g.allocatedOffsets x = true →
      ∀ k < w, block (rank (cells g.allocatedSizes g.allocatedOffsets) x * w + k) =
        g.block (x * w + k)) :
    ∀ i < g.allocatedSizes a * w, block (offset * w + i) = g.block (g.getPointer a w + i) := by
  intro i hi
  -- byte `i` of the block is byte `k` of its element `e`
  obtain ⟨e, k, hk, rfl⟩ : ∃ e k, k < w ∧ i = e * w + k :=
    ⟨i / w, i % w, Nat.mod_lt i hw, (Nat.div_add_mod' i w).symm⟩
  have he : e < g.allocatedSizes a :=
    Nat.lt_of_mul_lt_mul_right (Nat.lt_of_le_of_lt (Nat.le_add_right _ k) hi)
  have hin := hp.inside a ha hlive
  have hcov : cells g.allocatedSizes g.allocatedOffsets (g.allocatedOffsets a + e) = true :=
    covered_iff.mpr ⟨a, ha, by omega, by omega⟩
  have hbyte := hbytes _ (by omega) hcov k hk
  rw [rank_block ha (Nat.le_of_lt he), ← hoffset, Nat.add_mul, Nat.add_mul, Nat.add_assoc,
    Nat.add_assoc] at hbyte
  exact hbyte

end DefragmentationGroup

end RayPlatform
