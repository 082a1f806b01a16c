import RayPlatform.Lib.MovingMemory
import RayPlatform.Memory.ChunkAllocatorWithDefragmentation

/-!
# A DefragmentationGroup as memory whose blocks move

The elements of a group are the cells of a `MovingMemory`, of `w` bytes each. `allocate` and
`deallocate`, with the defragmentation that they may trigger, are calls as its clients expect
them (`allocates_view`, `deallocates_view`).
-/

namespace RayPlatform

open Lib

namespace DefragmentationGroup

/-- The element at position `p` is the bytes from `p * w` on; `getPointer` is such a byte. -/
def view (w : Nat) (g : DefragmentationGroup) : MovingMemory (Fin w → UInt8) :=
  { size := fun a => if a < ELEMENTS_PER_GROUP then g.allocatedSizes a else 0
    pointer := g.allocatedOffsets
    cells := fun p i => g.block (p * w + i) }

variable {w : Nat} {g g' : DefragmentationGroup}

theorem size_view {a : Nat} (ha : a < ELEMENTS_PER_GROUP) :
    (g.view w).size a = g.allocatedSizes a :=
  if_pos ha

theorem size_view_of_not_lt {a : Nat} (ha : ¬a < ELEMENTS_PER_GROUP) : (g.view w).size a = 0 :=
  if_neg ha

theorem lt_of_size_view {a : Nat} (h : (g.view w).size a ≠ 0) : a < ELEMENTS_PER_GROUP := by
  by_contra ha
  exact h (size_view_of_not_lt ha)

theorem sound_view (h : WellPlaced g) : (g.view w).Sound SmartPointer_NULL := by
  refine ⟨size_view_of_not_lt (by decide), fun a b hne hlive hlive' => ?_⟩
  have ha := lt_of_size_view hlive
  have hb := lt_of_size_view hlive'
  rw [size_view ha] at hlive
  rw [size_view hb] at hlive'
  rw [MovingMemory.Disjoint, size_view ha, size_view hb]
  exact h.placed.disjoint a (mem_handles.mpr ha) b (mem_handles.mpr hb) hne hlive hlive'

/-- A call that changes the size of one handle and preserves the live ones. -/
theorem kept_view {touched : Nat}
    (hsizes : ∀ a < ELEMENTS_PER_GROUP, a ≠ touched → g'.allocatedSizes a = g.allocatedSizes a)
    (h : Preserved w g g' touched) : (g.view w).Kept (g'.view w) touched := by
  intro a hne
  by_cases ha : a < ELEMENTS_PER_GROUP
  · rw [size_view ha, size_view ha]
    refine ⟨hsizes a ha hne, fun i hi => ?_⟩
    obtain ⟨-, hbytes⟩ := h a ha hne (by omega)
    funext j
    have hlt : i * w + j < g.allocatedSizes a * w := by
      have hmul := Nat.mul_le_mul_right w hi
      rw [Nat.succ_mul] at hmul
      have hj := j.isLt
      omega
    have hbyte := hbytes (i * w + j) hlt
    unfold getPointer at hbyte
    show g'.block ((g'.allocatedOffsets a + i) * w + j) =
      g.block ((g.allocatedOffsets a + i) * w + j)
    rw [Nat.add_mul, Nat.add_mul, Nat.add_assoc, Nat.add_assoc]
    exact hbyte
  · rw [size_view_of_not_lt ha, size_view_of_not_lt ha]
    exact ⟨rfl, fun i hi => absurd hi (Nat.not_lt_zero i)⟩

theorem sizes_allocate (h : WellPlaced g) (hw : 1 ≤ w) {n : Nat} (hpos : 1 ≤ n) (hle : n ≤ 64)
    (hcan : g.canAllocate n) (s : Scratch) :
    (g.allocate n w s).1.allocatedSizes =
      Function.update g.allocatedSizes (g.allocate n w s).2 n := by
  obtain ⟨fast, a, -, -, hwell, hplace⟩ := place_spec h hpos hle hcan
  have hsizes := (hwell.trigger hw s a).2.2
  rw [allocate_eq]
  rw [hplace] at hsizes ⊢
  exact hsizes

theorem sizes_deallocate (h : WellPlaced g) (hw : 1 ≤ w) {a : Nat} (ha : a < ELEMENTS_PER_GROUP)
    (hlive : g.allocatedSizes a ≠ 0) (s : Scratch) :
    (g.deallocate a w s).allocatedSizes = Function.update g.allocatedSizes a 0 :=
  ((h.release ha hlive).trigger hw s a).2.2

/-- `allocate` as its client sees it. -/
theorem allocates_view (h : WellPlaced g) (hw : 1 ≤ w) {n : Nat} (hpos : 1 ≤ n) (hle : n ≤ 64)
    (hcan : g.canAllocate n) (s : Scratch) :
    (g.view w).Allocates SmartPointer_NULL n (g.allocate n w s).2
      ((g.allocate n w s).1.view w) := by
  have hspec := allocate_spec h hw hpos hle hcan s
  have hsizes := sizes_allocate h hw hpos hle hcan s
  refine ⟨?_, ?_, kept_view (fun a _ hne => ?_) hspec.preserved, sound_view hspec.wellPlaced⟩
  · rw [size_view hspec.lt]
    exact hspec.fresh
  · rw [size_view hspec.lt]
    exact hspec.size
  · rw [hsizes, Function.update_of_ne hne]

/-- `deallocate` as its client sees it. -/
theorem deallocates_view (h : WellPlaced g) (hw : 1 ≤ w) {a : Nat} (hlive : (g.view w).size a ≠ 0)
    (s : Scratch) :
    (g.view w).Deallocates SmartPointer_NULL a ((g.deallocate a w s).view w) := by
  have ha := lt_of_size_view hlive
  rw [size_view ha] at hlive
  have hspec := deallocate_spec h hw ha hlive s
  have hsizes := sizes_deallocate h hw ha hlive s
  refine ⟨?_, kept_view (fun b _ hne => ?_) hspec.preserved, sound_view hspec.wellPlaced⟩
  · rw [size_view ha]
    exact hspec.freed
  · rw [hsizes, Function.update_of_ne hne]

/-- Assigning the `w` bytes of the element at position `p`. -/
def writeElement (g : DefragmentationGroup) (w p : Nat) (value : Fin w → UInt8) :
    DefragmentationGroup :=
  { g with
    block := fun k =>
      if h : p * w ≤ k ∧ k < p * w + w then value ⟨k - p * w, by omega⟩ else g.block k }

/-- Elements do not share bytes. -/
theorem view_writeElement (g : DefragmentationGroup) (w p : Nat) (value : Fin w → UInt8) :
    (g.writeElement w p value).view w = (g.view w).write p value := by
  have hcells : ((g.writeElement w p value).view w).cells =
      Function.update (g.view w).cells p value := by
    funext q i
    have hi := i.isLt
    by_cases hq : q = p
    · subst hq
      rw [Function.update_self]
      show (if h : q * w ≤ q * w + i ∧ q * w + i < q * w + w then _ else _) = _
      rw [dif_pos (by omega)]
      congr 1
      exact Fin.ext (Nat.add_sub_cancel_left _ _)
    · rw [Function.update_of_ne hq]
      have houtside : ¬(p * w ≤ q * w + i ∧ q * w + i < p * w + w) := by
        rcases Nat.lt_or_gt_of_ne hq with hlt | hlt
        · have hmul := Nat.mul_le_mul_right w hlt
          rw [Nat.succ_mul] at hmul
          omega
        · have hmul := Nat.mul_le_mul_right w hlt
          rw [Nat.succ_mul] at hmul
          omega
      exact dif_neg houtside
  rw [MovingMemory.write, ← hcells]
  rfl

end DefragmentationGroup

end RayPlatform
