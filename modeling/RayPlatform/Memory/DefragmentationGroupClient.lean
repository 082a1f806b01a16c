import RayPlatform.Lib.TransitionSystem
import RayPlatform.Memory.DefragmentationGroupCompaction

/-!
# Clients of DefragmentationGroup

`groupSystem` is the runs of a group: allocations that `canAllocate` permits,
deallocations of live handles and writes to the memory of live handles, with any
contents of the work arrays. Its invariant is `WellPlaced`.

* `getAvailableSmallSmartPointer_spec` — the returned handle is available;
* `allocate_spec`, `deallocate_spec` — one lemma per call: the invariant is kept
  and the other handles keep their size and bytes (`Preserved`), whether or not
  the call defragments;
* `groupSystem_intact` — what holds in every reachable state.
-/

namespace RayPlatform

open Lib (TransitionSystem)
open Lib.Layout

namespace DefragmentationGroup

/-! ## Available handles -/

theorem findFastPointer_some {sizes fast : Nat → Nat} {fuel i a : Nat}
    (h : findFastPointer sizes fast fuel i = some a) :
    sizes a = 0 ∧ ∃ j < i + fuel, a = fast j := by
  induction fuel generalizing i with
  | zero => exact absurd h (by simp [findFastPointer])
  | succ fuel ih =>
      rw [findFastPointer] at h
      split at h
      · rename_i hfree
        injection h with h
        subst h
        exact ⟨hfree, i, by omega, rfl⟩
      · obtain ⟨hfree, j, hj, ha⟩ := ih h
        exact ⟨hfree, j, by omega, ha⟩

theorem findFastPointer_none {sizes fast : Nat → Nat} {fuel i : Nat}
    (h : findFastPointer sizes fast fuel i = none) :
    ∀ j, i ≤ j → j < i + fuel → sizes (fast j) ≠ 0 := by
  induction fuel generalizing i with
  | zero =>
      intro j hj hlt
      omega
  | succ fuel ih =>
      intro j hj hlt
      rw [findFastPointer] at h
      split at h
      · exact absurd h (by simp)
      · rename_i hbusy
        rcases Nat.eq_or_lt_of_le hj with rfl | hj
        · exact hbusy
        · exact ih h j hj (by omega)

/-- Nothing is skipped when the fast pointers from `fast` on are taken. -/
theorem skipFastPointers_eq {sizes fastPointers : Nat → Nat} {fast : Nat}
    (h : ∀ j, fast ≤ j → j < FAST_POINTERS → sizes (fastPointers j) ≠ 0) (fuel : Nat) :
    skipFastPointers sizes fastPointers fuel fast = fast := by
  cases fuel with
  | zero => rfl
  | succ fuel =>
      rw [skipFastPointers, if_neg]
      rintro ⟨hfree, hlt⟩
      exact h fast (Nat.le_refl _) hlt hfree

/-- The loop over all handles returns an available one, and records handles only. -/
theorem refillFastPointers_spec {sizes : Nat → Nat} :
    ∀ fuel i (fastPointers : Nat → Nat) fast returnValue, fast < FAST_POINTERS →
      (∀ j, fast ≤ j → j < FAST_POINTERS → sizes (fastPointers j) ≠ 0) →
      (∀ j, fastPointers j < i + fuel ∨ FAST_POINTERS ≤ j) →
      ((sizes returnValue = 0 ∧ returnValue < i) ∨ ∃ h, i ≤ h ∧ h < i + fuel ∧ sizes h = 0) →
      (∀ j, (refillFastPointers sizes fuel i fastPointers fast returnValue).1 j < i + fuel ∨
        FAST_POINTERS ≤ j) ∧
      sizes (refillFastPointers sizes fuel i fastPointers fast returnValue).2 = 0 ∧
      (refillFastPointers sizes fuel i fastPointers fast returnValue).2 < i + fuel := by
  intro fuel
  induction fuel with
  | zero =>
      intro i fastPointers fast returnValue _ _ hbound hsome
      refine ⟨hbound, ?_⟩
      rcases hsome with hfree | ⟨h, hge, hlt, -⟩
      · exact hfree
      · omega
  | succ fuel ih =>
      intro i fastPointers fast returnValue hlt htaken hbound hsome
      have hsum : i + (fuel + 1) = i + 1 + fuel := by omega
      by_cases hi : sizes i = 0
      · -- handle `i` is available: it is recorded and becomes the value to return
        have htaken' : ∀ j, fast + 1 ≤ j → j < FAST_POINTERS →
            sizes (Function.update fastPointers fast i j) ≠ 0 := by
          intro j hj hjlt
          rw [Function.update_of_ne (by omega)]
          exact htaken j (by omega) hjlt
        have hbound' : ∀ j, Function.update fastPointers fast i j < i + 1 + fuel ∨
            FAST_POINTERS ≤ j := by
          intro j
          by_cases hj : j = fast
          · subst hj
            rw [Function.update_self]
            exact .inl (by omega)
          · rw [Function.update_of_ne hj, ← hsum]
            exact hbound j
        rw [refillFastPointers]
        simp only [hi, if_true, skipFastPointers_eq htaken', hsum]
        split
        · exact ⟨hbound', hi, by omega⟩
        · rename_i hne
          exact ih (i + 1) _ (fast + 1) i (by omega) htaken' hbound' (.inl ⟨hi, by omega⟩)
      · rw [refillFastPointers]
        simp only [hi, if_false, skipFastPointers_eq htaken, hsum]
        rw [if_neg (by omega)]
        refine ih (i + 1) fastPointers fast returnValue hlt htaken (hsum ▸ hbound) ?_
        rcases hsome with ⟨hfree, hri⟩ | ⟨h, hge, hhlt, hfree⟩
        · exact .inl ⟨hfree, by omega⟩
        · have hne : h ≠ i := by
            rintro rfl
            exact hi hfree
          exact .inr ⟨h, by omega, by omega, hfree⟩

/-! ## The invariant -/

/-- The live blocks are disjoint and below the frontier, and the number of
available elements is exact. -/
structure WellPlaced (g : DefragmentationGroup) : Prop where
  placed : Placed handles g.allocatedOffsets g.allocatedSizes g.freeSliceStart
  frontier : g.freeSliceStart ≤ ELEMENTS_PER_GROUP
  available : g.availableElements =
    (ELEMENTS_PER_GROUP : Int) - (∑ a ∈ handles, g.allocatedSizes a : Nat)
  fast : ∀ j, g.fastPointers j < ELEMENTS_PER_GROUP ∨ FAST_POINTERS ≤ j

/-- Every live handle but `touched` keeps its size and its bytes. -/
def Preserved (w : Nat) (g g' : DefragmentationGroup) (touched : Nat) : Prop :=
  ∀ a < ELEMENTS_PER_GROUP, a ≠ touched → g.allocatedSizes a ≠ 0 →
    g'.allocatedSizes a = g.allocatedSizes a ∧
      ∀ i < g.allocatedSizes a * w,
        g'.block (g'.getPointer a w + i) = g.block (g.getPointer a w + i)

theorem constructor_wellPlaced (block : Nat → UInt8) : WellPlaced (constructor block) := by
  refine ⟨⟨fun _ _ h => absurd rfl h, fun _ _ _ _ _ h => absurd rfl h⟩, Nat.zero_le _, ?_, ?_⟩
  · simp [constructor]
  · intro j
    by_cases hj : FAST_POINTERS ≤ j
    · exact .inr hj
    · refine .inl ?_
      show j < ELEMENTS_PER_GROUP
      unfold FAST_POINTERS at hj
      unfold ELEMENTS_PER_GROUP
      omega

/-- A handle is available as long as an element can be allocated. -/
theorem WellPlaced.exists_available {g : DefragmentationGroup} (h : WellPlaced g)
    (hroom : g.freeSliceStart < ELEMENTS_PER_GROUP) :
    ∃ a < ELEMENTS_PER_GROUP, g.allocatedSizes a = 0 := by
  obtain ⟨a, ha, hfree⟩ := h.placed.exists_free (by simpa [handles] using hroom)
  exact ⟨a, mem_handles.mp ha, hfree⟩

theorem getAvailableSmallSmartPointer_spec {g : DefragmentationGroup} (h : WellPlaced g)
    (hroom : g.freeSliceStart < ELEMENTS_PER_GROUP) :
    ∃ fast a, g.getAvailableSmallSmartPointer = ({ g with fastPointers := fast }, a) ∧
      g.allocatedSizes a = 0 ∧ a < ELEMENTS_PER_GROUP ∧
      ∀ j, fast j < ELEMENTS_PER_GROUP ∨ FAST_POINTERS ≤ j := by
  rw [getAvailableSmallSmartPointer]
  cases hfind : findFastPointer g.allocatedSizes g.fastPointers FAST_POINTERS 0 with
  | some a =>
      obtain ⟨hfree, j, hj, ha⟩ := findFastPointer_some hfind
      refine ⟨g.fastPointers, a, rfl, hfree, ?_, h.fast⟩
      rcases h.fast j with hlt | hge
      · exact ha ▸ hlt
      · omega
  | none =>
      have htaken := findFastPointer_none hfind
      have htaken' : ∀ j, 0 ≤ j → j < FAST_POINTERS → g.allocatedSizes (g.fastPointers j) ≠ 0 :=
        fun j hj hlt => htaken j hj (by omega)
      obtain ⟨a, ha, hfree⟩ := h.exists_available hroom
      have hspec := refillFastPointers_spec ELEMENTS_PER_GROUP 0
        g.fastPointers 0 0 (by decide) htaken' (by simpa using h.fast)
        (.inr ⟨a, Nat.zero_le _, by omega, hfree⟩)
      rw [Nat.zero_add] at hspec
      obtain ⟨hfast, hfree', hlt⟩ := hspec
      exact ⟨_, _, by simp only [skipFastPointers_eq htaken'], hfree', hlt, hfast⟩

/-! ## Defragmenting -/

theorem preserved_self (w : Nat) (g : DefragmentationGroup) (touched : Nat) :
    Preserved w g g touched :=
  fun _ _ _ _ => ⟨rfl, fun _ _ => rfl⟩

theorem WellPlaced.defragment {g : DefragmentationGroup} (h : WellPlaced g) {w : Nat}
    (hw : 1 ≤ w) (s : Scratch) (touched : Nat) :
    WellPlaced (g.defragment w s).1 ∧ Preserved w g (g.defragment w s).1 touched ∧
      (g.defragment w s).1.allocatedSizes = g.allocatedSizes := by
  have hspec := defragment_spec w h.placed h.frontier h.available s
  generalize g.defragment w s = r at hspec
  cases hspec with
  | nothing => exact ⟨h, preserved_self w g touched, rfl⟩
  | compacted block offsets hfragmented hoffsets hbytes =>
      have hcompact := h.placed.compact
      refine ⟨⟨?_, ?_, h.available, h.fast⟩, ?_, rfl⟩
      · refine ⟨fun a ha hlive => ?_, fun a ha b hb hne hlivea hliveb => ?_⟩
        · show offsets a + g.allocatedSizes a ≤ _
          rw [hoffsets a ha hlive]
          exact hcompact.inside a ha hlive
        · show offsets a + g.allocatedSizes a ≤ offsets b ∨ offsets b + g.allocatedSizes b ≤ offsets a
          rw [hoffsets a ha hlivea, hoffsets b hb hliveb]
          exact hcompact.disjoint a ha b hb hne hlivea hliveb
      · have hle := h.frontier
        show Lib.SparseArray.rank _ g.freeSliceStart ≤ ELEMENTS_PER_GROUP
        omega
      · intro a ha _ hlive
        have hmem := mem_handles.mpr ha
        exact ⟨rfl,
          compacted_bytes hw h.placed h.frontier hmem hlive (hoffsets a hmem hlive) hbytes⟩

theorem WellPlaced.trigger {g : DefragmentationGroup} (h : WellPlaced g) {w : Nat} (hw : 1 ≤ w)
    (s : Scratch) (touched : Nat) :
    WellPlaced (g.triggerDefragmentationRoutine w s) ∧
      Preserved w g (g.triggerDefragmentationRoutine w s) touched ∧
      (g.triggerDefragmentationRoutine w s).allocatedSizes = g.allocatedSizes := by
  rw [triggerDefragmentationRoutine]
  split
  · exact h.defragment hw s touched
  · exact ⟨h, preserved_self w g touched, rfl⟩

/-- `Preserved` goes through a change of the touched handle only. -/
theorem Preserved.of_eq {w : Nat} {g g₁ g' : DefragmentationGroup} {touched : Nat}
    (h : Preserved w g₁ g' touched)
    (hsizes : ∀ a, a ≠ touched → g₁.allocatedSizes a = g.allocatedSizes a)
    (hoffsets : ∀ a, a ≠ touched → g₁.allocatedOffsets a = g.allocatedOffsets a)
    (hblock : g₁.block = g.block) : Preserved w g g' touched := by
  intro a ha hne hlive
  rw [← hsizes a hne] at hlive ⊢
  obtain ⟨hsize, hbytes⟩ := h a ha hne hlive
  refine ⟨hsize, fun i hi => ?_⟩
  rw [hbytes i hi, hblock, getPointer, getPointer, hoffsets a hne]

/-! ## Allocating and deallocating -/

/-- `allocate`, up to its call to `__triggerDefragmentationRoutine`. -/
def place (g : DefragmentationGroup) (n : Nat) : DefragmentationGroup × Nat :=
  let r := g.getAvailableSmallSmartPointer
  let g := r.1
  let returnValue := r.2
  ({ g with
      allocatedOffsets :=
        Function.update g.allocatedOffsets returnValue (g.freeSliceStart % 65536)
      allocatedSizes := Function.update g.allocatedSizes returnValue (n % 256)
      freeSliceStart := g.freeSliceStart + n
      availableElements := g.availableElements - n }, returnValue)

/-- `deallocate`, up to its call to `__triggerDefragmentationRoutine`. -/
def release (g : DefragmentationGroup) (a : Nat) : DefragmentationGroup :=
  { g with
    allocatedSizes := Function.update g.allocatedSizes a 0
    freeSliceStart :=
      if g.allocatedOffsets a + g.allocatedSizes a = g.freeSliceStart then g.allocatedOffsets a
      else g.freeSliceStart
    availableElements := g.availableElements + g.allocatedSizes a }

theorem allocate_eq (g : DefragmentationGroup) (n w : Nat) (s : Scratch) :
    g.allocate n w s = ((g.place n).1.triggerDefragmentationRoutine w s, (g.place n).2) :=
  rfl

theorem deallocate_eq (g : DefragmentationGroup) (a w : Nat) (s : Scratch) :
    g.deallocate a w s = (g.release a).triggerDefragmentationRoutine w s :=
  rfl

/-- An available handle gets the first elements of the free slice. -/
theorem place_spec {g : DefragmentationGroup} (h : WellPlaced g) {n : Nat} (hpos : 1 ≤ n)
    (hle : n ≤ 64) (hcan : g.canAllocate n) :
    ∃ fast a, g.allocatedSizes a = 0 ∧ a < ELEMENTS_PER_GROUP ∧ WellPlaced (g.place n).1 ∧
      g.place n =
        ({ g with
            fastPointers := fast
            allocatedOffsets := Function.update g.allocatedOffsets a g.freeSliceStart
            allocatedSizes := Function.update g.allocatedSizes a n
            freeSliceStart := g.freeSliceStart + n
            availableElements := g.availableElements - n }, a) := by
  have hroom : g.freeSliceStart + n ≤ ELEMENTS_PER_GROUP := by
    unfold canAllocate at hcan
    omega
  obtain ⟨fast, a, hget, hfree, ha, hfast⟩ :=
    getAvailableSmallSmartPointer_spec h (by omega : g.freeSliceStart < ELEMENTS_PER_GROUP)
  have hplace : g.place n =
      ({ g with
          fastPointers := fast
          allocatedOffsets := Function.update g.allocatedOffsets a g.freeSliceStart
          allocatedSizes := Function.update g.allocatedSizes a n
          freeSliceStart := g.freeSliceStart + n
          availableElements := g.availableElements - n }, a) := by
    have hsize : n % 256 = n := Nat.mod_eq_of_lt (by omega)
    have hoffset : g.freeSliceStart % 65536 = g.freeSliceStart :=
      Nat.mod_eq_of_lt (by unfold ELEMENTS_PER_GROUP at hroom; omega)
    rw [place, hget]
    simp only [hsize, hoffset]
  refine ⟨fast, a, hfree, ha, ?_, hplace⟩
  rw [hplace]
  refine ⟨h.placed.append a n, hroom, ?_, hfast⟩
  have hsum := sum_append (mem_handles.mpr ha) hfree n
  show g.availableElements - n = (ELEMENTS_PER_GROUP : Int) -
    (∑ k ∈ handles, Function.update g.allocatedSizes a n k : Nat)
  rw [hsum, h.available]
  push_cast
  omega

theorem WellPlaced.release {g : DefragmentationGroup} (h : WellPlaced g) {a : Nat}
    (ha : a < ELEMENTS_PER_GROUP) (hlive : g.allocatedSizes a ≠ 0) : WellPlaced (g.release a) := by
  have hmem := mem_handles.mpr ha
  have hin := h.placed.inside a hmem hlive
  have hF := h.frontier
  refine ⟨?_, ?_, ?_, h.fast⟩
  · show Placed handles g.allocatedOffsets (Function.update g.allocatedSizes a 0) (if _ then _ else _)
    split
    · rename_i htouch
      exact h.placed.retract hmem hlive htouch
    · exact h.placed.free a
  · show (if _ then _ else _) ≤ ELEMENTS_PER_GROUP
    split <;> omega
  · have hsum : ∑ k ∈ handles, Function.update g.allocatedSizes a 0 k + g.allocatedSizes a =
        ∑ k ∈ handles, g.allocatedSizes k := sum_free hmem
    show g.availableElements + g.allocatedSizes a = (ELEMENTS_PER_GROUP : Int) -
      (∑ k ∈ handles, Function.update g.allocatedSizes a 0 k : Nat)
    rw [h.available, ← hsum]
    push_cast
    omega

/-- What `allocate` does for its client. -/
structure AllocateSpec (w n : Nat) (g : DefragmentationGroup) (r : DefragmentationGroup × Nat) :
    Prop where
  wellPlaced : WellPlaced r.1
  lt : r.2 < ELEMENTS_PER_GROUP
  fresh : g.allocatedSizes r.2 = 0
  size : r.1.allocatedSizes r.2 = n
  preserved : Preserved w g r.1 r.2

theorem allocate_spec {g : DefragmentationGroup} (h : WellPlaced g) {w n : Nat} (hw : 1 ≤ w)
    (hpos : 1 ≤ n) (hle : n ≤ 64) (hcan : g.canAllocate n) (s : Scratch) :
    AllocateSpec w n g (g.allocate n w s) := by
  obtain ⟨fast, a, hfree, ha, hwell, hplace⟩ := place_spec h hpos hle hcan
  obtain ⟨hwell', hpres, hsizes⟩ := hwell.trigger hw s a
  rw [allocate_eq]
  rw [hplace] at hwell' hpres hsizes ⊢
  refine ⟨hwell', ha, hfree, ?_, ?_⟩
  · show (triggerDefragmentationRoutine _ w s).allocatedSizes a = n
    rw [hsizes]
    exact Function.update_self ..
  · exact hpres.of_eq (fun b hb => Function.update_of_ne hb _ _)
      (fun b hb => Function.update_of_ne hb _ _) rfl

/-- What `deallocate` does for its client. -/
structure DeallocateSpec (w a : Nat) (g g' : DefragmentationGroup) : Prop where
  wellPlaced : WellPlaced g'
  freed : g'.allocatedSizes a = 0
  preserved : Preserved w g g' a

theorem deallocate_spec {g : DefragmentationGroup} (h : WellPlaced g) {w a : Nat} (hw : 1 ≤ w)
    (ha : a < ELEMENTS_PER_GROUP) (hlive : g.allocatedSizes a ≠ 0) (s : Scratch) :
    DeallocateSpec w a g (g.deallocate a w s) := by
  obtain ⟨hwell', hpres, hsizes⟩ := (h.release ha hlive).trigger hw s a
  rw [deallocate_eq]
  refine ⟨hwell', ?_, ?_⟩
  · rw [hsizes]
    exact Function.update_self ..
  · exact hpres.of_eq (fun b hb => Function.update_of_ne hb _ _) (fun _ _ => rfl) rfl

/-! ## Runs -/

/-- The calls of a client. -/
inductive GroupCall
  | allocate (n : Nat) (scratch : Scratch)
  | deallocate (a : Nat) (scratch : Scratch)
  /-- write a byte of the memory of a handle -/
  | write (a position : Nat) (value : UInt8)

/-- The runs of a group of elements of `w` bytes. -/
def groupSystem (w : Nat) : TransitionSystem DefragmentationGroup GroupCall :=
  { init := fun g => ∃ block, g = constructor block
    step := fun g call g' =>
      match call with
      | .allocate n s => 1 ≤ n ∧ n ≤ 64 ∧ g.canAllocate n ∧ g' = (g.allocate n w s).1
      | .deallocate a s =>
          a < ELEMENTS_PER_GROUP ∧ g.allocatedSizes a ≠ 0 ∧ g' = g.deallocate a w s
      | .write a position value =>
          a < ELEMENTS_PER_GROUP ∧ position < g.allocatedSizes a * w ∧
            g' = { g with block := Function.update g.block (g.getPointer a w + position) value } }

theorem wellPlaced_inductive {w : Nat} (hw : 1 ≤ w) :
    (groupSystem w).Inductive WellPlaced where
  init := by
    rintro _ ⟨block, rfl⟩
    exact constructor_wellPlaced block
  step := by
    intro g call g' h hstep
    cases call with
    | allocate n s =>
        obtain ⟨hpos, hle, hcan, rfl⟩ := hstep
        exact (allocate_spec h hw hpos hle hcan s).wellPlaced
    | deallocate a s =>
        obtain ⟨ha, hlive, rfl⟩ := hstep
        exact (deallocate_spec h hw ha hlive s).wellPlaced
    | write a position value =>
        obtain ⟨-, -, rfl⟩ := hstep
        exact ⟨h.placed, h.frontier, h.available, h.fast⟩

/-- What a client relies on. -/
structure Intact (w : Nat) (g : DefragmentationGroup) : Prop where
  disjoint : ∀ a < ELEMENTS_PER_GROUP, ∀ b < ELEMENTS_PER_GROUP, a ≠ b →
    g.allocatedSizes a ≠ 0 → g.allocatedSizes b ≠ 0 →
    g.allocatedOffsets a + g.allocatedSizes a ≤ g.allocatedOffsets b ∨
      g.allocatedOffsets b + g.allocatedSizes b ≤ g.allocatedOffsets a
  inside : ∀ a < ELEMENTS_PER_GROUP, g.allocatedSizes a ≠ 0 →
    g.allocatedOffsets a + g.allocatedSizes a ≤ g.freeSliceStart
  frontier : g.freeSliceStart ≤ ELEMENTS_PER_GROUP
  available : g.availableElements =
    (ELEMENTS_PER_GROUP : Int) - (∑ a ∈ Finset.range ELEMENTS_PER_GROUP, g.allocatedSizes a : Nat)
  enough : (ELEMENTS_PER_GROUP : Int) - g.freeSliceStart ≤ g.availableElements
  allocate : ∀ (n : Nat) s, 1 ≤ n → n ≤ 64 → g.canAllocate n →
    (g.allocate n w s).2 < ELEMENTS_PER_GROUP ∧ g.allocatedSizes (g.allocate n w s).2 = 0 ∧
      (g.allocate n w s).1.allocatedSizes (g.allocate n w s).2 = n ∧
      Preserved w g (g.allocate n w s).1 (g.allocate n w s).2
  deallocate : ∀ a s, a < ELEMENTS_PER_GROUP → g.allocatedSizes a ≠ 0 →
    (g.deallocate a w s).allocatedSizes a = 0 ∧ Preserved w g (g.deallocate a w s) a

/-- The products of `getPointer`, of the copy loop and of the size of the block
fit an `int` for elements of less than 32768 bytes. -/
theorem Intact.byte_lt {w : Nat} {g : DefragmentationGroup} (h : Intact w g) (hw : w < 32768)
    {a i : Nat} (ha : a < ELEMENTS_PER_GROUP) (hlive : g.allocatedSizes a ≠ 0)
    (hi : i < g.allocatedSizes a * w) :
    g.getPointer a w + i < ELEMENTS_PER_GROUP * w ∧ ELEMENTS_PER_GROUP * w < 2 ^ 31 := by
  have hin := h.inside a ha hlive
  have hF := h.frontier
  have hmul := Nat.mul_le_mul_right w (hin.trans hF)
  rw [Nat.add_mul] at hmul
  unfold getPointer
  unfold ELEMENTS_PER_GROUP at *
  omega

end DefragmentationGroup

end RayPlatform
