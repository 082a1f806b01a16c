import RayPlatform.Memory.RingAllocator
import RayPlatform.Memory.ScanBounds

/-!
# The scanning loops of the allocators

When the array indices of the loops of `DefragmentationGroup` and of `RingAllocator`
are in bounds, in every state of their runs (`scans_inBounds_iff`). None of the three
conditions always holds: the list of fast pointers is refilled completely, a
defragmentation moves blocks, and the last slots of a ring are dirty in ordinary runs.
-/

namespace RayPlatform

open Lib (TransitionSystem)

/-! ## Rings -/

namespace RingAllocator

/-- The calls of the clients of a ring. -/
inductive RingCall
  | allocate
  | salvageBuffer (buffer : Nat)
  | markBufferAsDirty (buffer : Nat)
  | registerBuffer (buffer : Nat)
  | setRequest (handle : Nat) (value : Option Nat)
  | checkDirtyBuffer (index : Nat) (flag : Bool)
  | initializeDirtyBuffers
  | resetCount

def call (r : RingAllocator) : RingCall → RingAllocator
  | .allocate => r.allocate.1
  | .salvageBuffer buffer => r.salvageBuffer buffer
  | .markBufferAsDirty buffer => r.markBufferAsDirty buffer
  | .registerBuffer buffer => r.registerBuffer buffer
  | .setRequest handle value => r.setRequest handle value
  | .checkDirtyBuffer index flag => r.checkDirtyBuffer index flag
  | .initializeDirtyBuffers => r.initializeDirtyBuffers
  | .resetCount => r.resetCount

/-- The runs of a ring of at least one buffer. -/
def ringSystem : TransitionSystem RingAllocator RingCall :=
  { init := fun r => ∃ memory chunks size, 0 < chunks ∧ r = constructor memory chunks size
    step := fun r c r' => r' = r.call c }

/-- `while(m_bufferStates[m_current]==BUFFER_STATE_DIRTY && m_current<limit)`: the indices. -/
def skipDirtyAccesses (bufferStates : Nat → BufferState) (limit : Nat) : Nat → Nat → List Nat
  | 0, _ => []
  | fuel + 1, current =>
      current ::
        if bufferStates current = .dirty ∧ current < limit then
          skipDirtyAccesses bufferStates limit fuel (current + 1)
        else []

/-- The indices of `m_bufferStates` that `allocate` evaluates. -/
def allocateAccesses (r : RingAllocator) : List Nat :=
  let origin := r.current
  let current := skipDirty r.bufferStates r.chunks r.chunks origin
  let next := if current = r.chunks then 0 else current
  skipDirtyAccesses r.bufferStates r.chunks (r.chunks + 1) origin ++
    skipDirtyAccesses r.bufferStates origin (r.chunks + 1) next

/-- The head is on the ring. -/
theorem current_inductive : ringSystem.Inductive fun r => r.current < r.chunks where
  init := by
    rintro _ ⟨memory, chunks, size, hchunks, rfl⟩
    exact hchunks
  step := by
    rintro r c _ hlt rfl
    cases c with
    | allocate =>
        have hscan := scan_lt hlt
        show (if r.scan + 1 = r.chunks then 0 else r.scan + 1) < r.chunks
        split <;> omega
    | registerBuffer buffer =>
        simp only [call, registerBuffer]
        split <;> exact hlt
    | checkDirtyBuffer index flag =>
        simp only [call, checkDirtyBuffer]
        split
        · exact hlt
        · split <;> exact hlt
    | salvageBuffer buffer => exact hlt
    | markBufferAsDirty buffer => exact hlt
    | setRequest handle value => exact hlt
    | initializeDirtyBuffers => exact hlt
    | resetCount => exact hlt

variable {states : Nat → BufferState} {limit : Nat}

/-- The loop evaluates the index it stops on. -/
theorem mem_skipDirtyAccesses {fuel i c : Nat} (hc : SkipSpec states limit i c) (hle : i ≤ limit)
    (hfuel : limit < i + fuel) : c ∈ skipDirtyAccesses states limit fuel i := by
  induction fuel generalizing i with
  | zero =>
      have := hc.ge
      have := hc.le hle
      omega
  | succ fuel ih =>
      rw [skipDirtyAccesses]
      rcases Nat.eq_or_lt_of_le hc.ge with rfl | hlt
      · exact List.mem_cons_self
      · have hlimit := hc.le hle
        rw [if_pos ⟨hc.before i (Nat.le_refl i) hlt, by omega⟩]
        apply List.mem_cons_of_mem
        exact ih ⟨hlt, fun _ => hlimit, fun j hj => hc.before j (by omega), hc.stop⟩ (by omega)
          (by omega)

/-- The loop does not evaluate an index behind a clean slot. -/
theorem le_of_mem_skipDirtyAccesses {fuel i slot : Nat} (hi : i ≤ slot)
    (hclean : states slot ≠ .dirty) : ∀ a ∈ skipDirtyAccesses states limit fuel i, a ≤ slot := by
  induction fuel generalizing i with
  | zero => exact fun a ha => absurd ha List.not_mem_nil
  | succ fuel ih =>
      intro a ha
      rw [skipDirtyAccesses] at ha
      rcases List.mem_cons.mp ha with rfl | ha
      · exact hi
      · split at ha
        · rename_i hgo
          rcases Nat.eq_or_lt_of_le hi with rfl | hlt
          · exact absurd hgo.1 hclean
          · exact ih hlt a ha
        · exact absurd ha List.not_mem_nil

/-- The loop does not evaluate an index behind its limit, but for the first one. -/
theorem le_limit_of_mem_skipDirtyAccesses {fuel i : Nat} :
    ∀ a ∈ skipDirtyAccesses states limit fuel i, a ≤ i ∨ a ≤ limit := by
  induction fuel generalizing i with
  | zero => exact fun a ha => absurd ha List.not_mem_nil
  | succ fuel ih =>
      intro a ha
      rw [skipDirtyAccesses] at ha
      rcases List.mem_cons.mp ha with rfl | ha
      · exact .inl (Nat.le_refl _)
      · split at ha
        · rename_i hgo
          have := ih a ha
          omega
        · exact absurd ha List.not_mem_nil

/-- `m_bufferStates` is read behind its end when the slots from the head on are all dirty. -/
theorem allocate_inBounds_iff {r : RingAllocator} (hlt : r.current < r.chunks) :
    (∀ i ∈ r.allocateAccesses, i < r.chunks) ↔
      ∃ slot, r.current ≤ slot ∧ slot < r.chunks ∧ r.bufferStates slot ≠ .dirty := by
  have hfirst := skipDirty_spec r.bufferStates r.chunks r.chunks r.current (Nat.le_add_left _ _)
  have hle := hfirst.le (Nat.le_of_lt hlt)
  unfold allocateAccesses
  simp only
  generalize skipDirty r.bufferStates r.chunks r.chunks r.current = c at hfirst hle ⊢
  constructor
  · intro hall
    have hmem := mem_skipDirtyAccesses hfirst (Nat.le_of_lt hlt)
      (show r.chunks < r.current + (r.chunks + 1) by omega)
    have hc := hall c (List.mem_append_left _ hmem)
    exact ⟨c, hfirst.ge, hc, hfirst.stop hc⟩
  · rintro ⟨slot, hge, hslot, hclean⟩ i hi
    have hc : c ≤ slot := by
      by_contra hno
      exact hclean (hfirst.before slot hge (Nat.lt_of_not_le hno))
    rw [if_neg (by omega)] at hi
    rcases List.mem_append.mp hi with hi | hi
    · have := le_of_mem_skipDirtyAccesses hge hclean i hi
      omega
    · have := le_limit_of_mem_skipDirtyAccesses i hi
      omega

end RingAllocator

/-! ## Groups -/

namespace DefragmentationGroup

/-- The states of the runs of a group, and those in which `allocate` and `deallocate` call
`__triggerDefragmentationRoutine`. -/
inductive Visited (w : Nat) : DefragmentationGroup → Prop
  | state {g : DefragmentationGroup} : (groupSystem w).Reachable g → Visited w g
  | placed {g : DefragmentationGroup} {n : Nat} : (groupSystem w).Reachable g → 1 ≤ n → n ≤ 64 →
      g.canAllocate n → Visited w (g.place n).1
  | released {g : DefragmentationGroup} {a : Nat} : (groupSystem w).Reachable g →
      a < ELEMENTS_PER_GROUP → g.allocatedSizes a ≠ 0 → Visited w (g.release a)

theorem Visited.wellPlaced {w : Nat} (hw : 1 ≤ w) {g : DefragmentationGroup} (h : Visited w g) :
    WellPlaced g := by
  cases h with
  | state hreach => exact (wellPlaced_inductive hw).holds hreach
  | placed hreach hpos hle hcan =>
      obtain ⟨-, -, -, -, hwell, -⟩ :=
        place_spec ((wellPlaced_inductive hw).holds hreach) hpos hle hcan
      exact hwell
  | released hreach ha hlive => exact ((wellPlaced_inductive hw).holds hreach).release ha hlive

/-- A defragmentation that the thresholds trigger is never one of the early returns, so it reads
the occupancy table behind its end. -/
theorem triggered_not_inBounds {w : Nat} {g : DefragmentationGroup} (h : WellPlaced g)
    (hfragmented : g.getFragmentedElements ≥ 2048) (s : Scratch) :
    ¬ InBounds w (g.defragmentAccesses w s) := by
  have hF := h.frontier
  rw [defragment_inBounds_iff h]
  unfold getFragmentedElements getContiguousElements at hfragmented
  omega

/-! ## A group whose fast pointers are taken -/

/-- A group after `k` allocations of one element. -/
def ones (k : Nat) : DefragmentationGroup :=
  { constructor (fun _ => 0) with
    availableElements := ELEMENTS_PER_GROUP - k
    freeSliceStart := k
    allocatedSizes := fun a => if a < k then 1 else 0
    allocatedOffsets := fun a => if a < k then a else 0 }

theorem findFastPointer_ones {k i fuel : Nat} (hi : i ≤ k) (hfuel : k < i + fuel) :
    findFastPointer (ones k).allocatedSizes (fun j => j) fuel i = some k := by
  induction fuel generalizing i with
  | zero => omega
  | succ fuel ih =>
      have hsize : (ones k).allocatedSizes i = if i < k then 1 else 0 := rfl
      rw [findFastPointer, hsize]
      rcases Nat.eq_or_lt_of_le hi with rfl | hlt
      · rw [if_neg (Nat.lt_irrefl i), if_pos rfl]
      · rw [if_pos hlt, if_neg (by decide)]
        exact ih hlt (by omega)

theorem allocate_ones {k : Nat} (hk : k < FAST_POINTERS) (s : Scratch) :
    (ones k).allocate 1 1 s = (ones (k + 1), k) := by
  have hget : (ones k).getAvailableSmallSmartPointer = (ones k, k) := by
    have hfind : findFastPointer (ones k).allocatedSizes (ones k).fastPointers FAST_POINTERS 0 =
        some k := findFastPointer_ones (Nat.zero_le k) (by omega)
    rw [getAvailableSmallSmartPointer, hfind]
  have hlast : ∀ (f : Nat → Nat) (value : Nat), f k = value →
      Function.update (fun a => if a < k then f a else 0) k value =
        fun a => if a < k + 1 then f a else 0 := by
    intro f value hvalue
    funext a
    by_cases ha : a = k
    · rw [ha, Function.update_self, if_pos (Nat.lt_succ_self k), hvalue]
    · rw [Function.update_of_ne ha]
      by_cases hlt : a < k
      · rw [if_pos hlt, if_pos (Nat.lt_succ_of_lt hlt)]
      · rw [if_neg hlt, if_neg (by omega)]
  have hmod : k % 65536 = k := Nat.mod_eq_of_lt (by unfold FAST_POINTERS at hk; omega)
  have havailable : (ELEMENTS_PER_GROUP : Int) - k - (1 : Nat) =
      (ELEMENTS_PER_GROUP : Int) - (k + 1 : Nat) := by
    push_cast
    omega
  have hplace : (ones k).place 1 = (ones (k + 1), k) := by
    rw [place, hget]
    unfold ones
    simp only [hmod, havailable, hlast (fun a => a) k rfl, hlast (fun _ => 1) (1 % 256) rfl]
  have hquiet : ¬ ((ones (k + 1)).getFragmentedElements ≥ 2048 ∧
      (ones (k + 1)).getContiguousElements ≤ 128) := by
    show ¬ ((ELEMENTS_PER_GROUP : Int) - (k + 1 : Nat) -
      ((ELEMENTS_PER_GROUP : Int) - (k + 1 : Nat)) ≥ 2048 ∧ _)
    omega
  rw [allocate_eq, hplace, triggerDefragmentationRoutine]
  simp only [if_neg hquiet]

theorem ones_reachable : ∀ k ≤ FAST_POINTERS, (groupSystem 1).Reachable (ones k) := by
  intro k
  induction k with
  | zero =>
      intro _
      refine .init ⟨fun _ => 0, ?_⟩
      unfold ones constructor
      simp
  | succ k ih =>
      intro hk
      refine (ih (Nat.le_of_succ_le hk)).step (l := .allocate 1 ⟨fun _ => 0, fun _ => 0⟩)
        ⟨Nat.le_refl 1, by decide, ?_, ?_⟩
      · show (1 : Int) ≤ (ELEMENTS_PER_GROUP : Int) - k
        unfold FAST_POINTERS at hk
        unfold ELEMENTS_PER_GROUP
        omega
      · rw [allocate_ones hk]

/-- With 256 handles taken, the list is refilled to its end. -/
theorem ones_not_inBounds {w : Nat} :
    ¬ InBounds w (ones FAST_POINTERS).getAvailableSmallSmartPointerAccesses := by
  have hwell := (wellPlaced_inductive (Nat.le_refl 1)).holds (ones_reachable _ (Nat.le_refl _))
  rw [getAvailableSmallSmartPointer_inBounds_iff hwell]
  rintro (⟨j, hj, hfree⟩ | hfew)
  · change (if j < FAST_POINTERS then 1 else 0) = 0 at hfree
    rw [if_pos hj] at hfree
    exact absurd hfree (by decide)
  · have hsplit : List.range' 0 ELEMENTS_PER_GROUP =
        List.range' 0 FAST_POINTERS ++ List.range' FAST_POINTERS 65280 :=
      (@List.range'_append_1 0 FAST_POINTERS 65280).symm
    have hall : (List.range' FAST_POINTERS 65280).countP
        (fun a => (ones FAST_POINTERS).allocatedSizes a = 0) = 65280 := by
      have hfree : ∀ a ∈ List.range' FAST_POINTERS 65280,
          decide ((ones FAST_POINTERS).allocatedSizes a = 0) = true := by
        intro a ha
        rw [List.mem_range'_1] at ha
        exact decide_eq_true (if_neg (Nat.not_lt.mpr ha.1))
      rw [List.countP_eq_length.mpr hfree, List.length_range']
    rw [availableFrom, hsplit, List.countP_append, hall] at hfew
    unfold FAST_POINTERS at hfew
    omega

end DefragmentationGroup

open DefragmentationGroup (Visited InBounds availableFrom groupSystem ones)
open RingAllocator (ringSystem)

/-- When the indices are in bounds: a fast pointer or few handles are available, a call to
`defragment` returns at once, a slot from the head of the ring on is clean. -/
theorem scans_inBounds_iff (bytesPerElement : Nat) (hw : 1 ≤ bytesPerElement) :
    (∀ g, Visited bytesPerElement g →
      (InBounds bytesPerElement g.getAvailableSmallSmartPointerAccesses ↔
        (∃ j < FAST_POINTERS, g.allocatedSizes (g.fastPointers j) = 0) ∨
          availableFrom g.allocatedSizes 0 ELEMENTS_PER_GROUP < FAST_POINTERS) ∧
      ∀ s, InBounds bytesPerElement (g.defragmentAccesses bytesPerElement s) ↔
        g.availableElements = 0 ∨
          g.availableElements = (ELEMENTS_PER_GROUP : Int) - g.freeSliceStart) ∧
    ∀ r, ringSystem.Reachable r → ((∀ i ∈ r.allocateAccesses, i < r.chunks) ↔
      ∃ slot, r.current ≤ slot ∧ slot < r.chunks ∧ r.bufferStates slot ≠ .dirty) :=
  ⟨fun _ hg => ⟨DefragmentationGroup.getAvailableSmallSmartPointer_inBounds_iff (hg.wellPlaced hw),
      DefragmentationGroup.defragment_inBounds_iff (hg.wellPlaced hw)⟩,
    fun _ hr => RingAllocator.allocate_inBounds_iff (RingAllocator.current_inductive.holds hr)⟩

/-- In a group with one element and in a new ring, all indices are in bounds. -/
theorem scans_inBounds_iff_one :
    InBounds 1 (ones 1).getAvailableSmallSmartPointerAccesses ∧
      ∀ i ∈ (RingAllocator.constructor 1 2 8).allocateAccesses, i < 2 := by
  obtain ⟨hgroup, hring⟩ := scans_inBounds_iff 1 (Nat.le_refl 1)
  have hvisited : Visited 1 (ones 1) :=
    .state (DefragmentationGroup.ones_reachable 1 (by decide))
  refine ⟨(hgroup _ hvisited).1.mpr (.inl ⟨1, by decide, rfl⟩), ?_⟩
  have hreach : ringSystem.Reachable (RingAllocator.constructor 1 2 8) :=
    .init ⟨1, 2, 8, by decide, rfl⟩
  exact (hring _ hreach).mpr ⟨0, Nat.le_refl 0, by decide, by decide⟩

/-- A ring of two buffers that has handed out both, the second one dirty, and the first one
again. -/
def dirtyTail : RingAllocator :=
  let r := RingAllocator.constructor 1 2 8
  let r := r.allocate.1.allocate.1
  (r.markBufferAsDirty (r.address 1)).allocate.1

theorem dirtyTail_reachable : ringSystem.Reachable dirtyTail := by
  have hstart : ringSystem.Reachable (RingAllocator.constructor 1 2 8) :=
    .init ⟨1, 2, 8, by decide, rfl⟩
  have hfirst := hstart.step (show ringSystem.step _ .allocate _ from rfl)
  have hsecond := hfirst.step (show ringSystem.step _ .allocate _ from rfl)
  have hdirty := hsecond.step (show ringSystem.step _ (.markBufferAsDirty 9) _ from rfl)
  exact hdirty.step (show ringSystem.step _ .allocate _ from rfl)

/-- The 257th allocation of a group reads the fast pointers behind their end, and an allocation
of a ring whose last slot is dirty its states. -/
theorem scans_out_of_bounds :
    ((groupSystem 1).Reachable (ones FAST_POINTERS) ∧ (ones FAST_POINTERS).canAllocate 1 ∧
      ¬ InBounds 1 (ones FAST_POINTERS).getAvailableSmallSmartPointerAccesses) ∧
    ringSystem.Reachable dirtyTail ∧ dirtyTail.bufferStates 0 = .available ∧
      ¬ ∀ i ∈ dirtyTail.allocateAccesses, i < dirtyTail.chunks := by
  refine ⟨⟨DefragmentationGroup.ones_reachable _ (Nat.le_refl _), ?_,
    DefragmentationGroup.ones_not_inBounds⟩, dirtyTail_reachable, by decide, fun hall => ?_⟩
  · show (1 : Int) ≤ (ELEMENTS_PER_GROUP : Int) - (FAST_POINTERS : Nat)
    decide
  · exact absurd (hall 2 (by decide)) (by decide)

end RayPlatform
