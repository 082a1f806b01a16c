import RayPlatform.Memory.RingAllocator

/-!
# Consecutive calls to `allocate`

Between two registrations or salvages the dirty pattern of a ring stays, and the calls to
`allocate` scan it one after another: they go round the available slots
(`allocate_cycles`), whatever the head and the pattern were.
-/

namespace RayPlatform

namespace RingAllocator

open Lib.SparseArray (rank)
open Lib.CyclicScan

/-- The ring after `k` calls to `allocate`. -/
def after (r : RingAllocator) : Nat → RingAllocator
  | 0 => r
  | k + 1 => (r.after k).allocate.1

/-- The address that call number `k` returns, counted from 0. -/
def returned (r : RingAllocator) (k : Nat) : Nat :=
  (r.after k).allocate.2

/-- The slot that call number `k` stops on. -/
def slotOf (r : RingAllocator) (k : Nat) : Nat :=
  (r.after k).scan

/-- `allocate` moves the head and counts. -/
structure SameBuffers (r r' : RingAllocator) : Prop where
  chunks : r'.chunks = r.chunks
  max : r'.max = r.max
  memory : r'.memory = r.memory
  bufferStates : r'.bufferStates = r.bufferStates

theorem sameBuffers_after (r : RingAllocator) (k : Nat) : SameBuffers r (r.after k) := by
  induction k with
  | zero => exact ⟨rfl, rfl, rfl, rfl⟩
  | succ k ih => exact ⟨ih.chunks, ih.max, ih.memory, ih.bufferStates⟩

theorem SameBuffers.isAvailable {r r' : RingAllocator} (h : SameBuffers r r') :
    r'.isAvailable = r.isAvailable := by
  funext slot
  rw [RingAllocator.isAvailable, RingAllocator.isAvailable, h.bufferStates]

theorem SameBuffers.address {r r' : RingAllocator} (h : SameBuffers r r') (slot : Nat) :
    r'.address slot = r.address slot := by
  rw [RingAllocator.address, RingAllocator.address, h.memory, h.max]

variable {r : RingAllocator}

theorem current_after (hcurrent : r.current < r.chunks) (k : Nat) :
    (r.after k).current < r.chunks := by
  induction k with
  | zero => exact hcurrent
  | succ k ih =>
      have hchunks := (sameBuffers_after r k).chunks
      have hscan := scan_lt (r := r.after k) (hchunks ▸ ih)
      rw [← hchunks]
      exact next_lt hscan

theorem exists_available (hsome : 0 < rank r.isAvailable r.chunks) :
    ∃ slot < r.chunks, r.isAvailable slot = true := by
  rw [← length_selected (Nat.zero_le r.chunks)] at hsome
  obtain ⟨slot, hslot⟩ := List.exists_mem_of_length_pos hsome
  exact ⟨slot, (mem_selected (Nat.zero_le r.chunks) slot).mp hslot⟩

/-- The calls are consecutive scans of the pattern. -/
theorem scans_after (hcurrent : r.current < r.chunks)
    (hsome : 0 < rank r.isAvailable r.chunks) :
    Scans r.isAvailable r.chunks (fun k => (r.after k).current) r.slotOf := by
  refine ⟨Nat.le_of_lt hcurrent, fun k => ?_, fun k => ?_⟩
  · have hsame := sameBuffers_after r k
    have hlt := current_after hcurrent k
    have hnext := scan_isNext (r := r.after k)
    rw [hsame.chunks, hsame.isAvailable] at hnext
    exact hnext hlt (exists_available hsome)
  · show (if r.slotOf k + 1 = (r.after k).chunks then 0 else r.slotOf k + 1) = _
    rw [(sameBuffers_after r k).chunks]
    rfl

theorem returned_eq (r : RingAllocator) (k : Nat) : r.returned k = r.address (r.slotOf k) :=
  (sameBuffers_after r k).address (r.slotOf k)

/-- From any head and any dirty pattern with an available buffer: each call returns the first
available buffer after the one before it, and as many consecutive calls as there are available
buffers return distinct ones. -/
theorem allocate_cycles (hmax : 0 < r.max) (hcurrent : r.current < r.chunks)
    (hsome : 1 ≤ rank r.isAvailable r.chunks) :
    (∀ k, r.returned k = r.address (r.slotOf k) ∧ r.slotOf k < r.chunks ∧
      r.bufferStates (r.slotOf k) = .available) ∧
    IsNext r.isAvailable r.chunks r.current (r.slotOf 0) ∧
    (∀ k, IsNext r.isAvailable r.chunks (next r.chunks (r.slotOf k)) (r.slotOf (k + 1))) ∧
    ∀ i j, i < j → j < i + rank r.isAvailable r.chunks → r.returned i ≠ r.returned j := by
  have hscans := scans_after hcurrent hsome
  refine ⟨fun k => ⟨returned_eq r k, (hscans.takes k).lt, ?_⟩, hscans.takes 0, fun k => ?_,
    fun i j hij hj heq => ?_⟩
  · exact of_decide_eq_true (hscans.takes k).hit
  · rw [← hscans.advances k]
    exact hscans.takes (k + 1)
  · rw [returned_eq, returned_eq] at heq
    have hmul : r.slotOf i * r.max = r.slotOf j * r.max := Nat.add_left_cancel heq
    exact hscans.slot_ne hij hj (Nat.eq_of_mul_eq_mul_right hmax hmul)

/-- Three buffers, of which the last is dirty, and the head on it. -/
def dirtyHead : RingAllocator :=
  { constructor 64 3 8 with
    current := 2
    bufferStates := fun slot => if slot = 2 then .dirty else .available }

theorem allocate_cycles_dirtyHead :
    rank dirtyHead.isAvailable dirtyHead.chunks = 2 ∧
      IsNext dirtyHead.isAvailable dirtyHead.chunks dirtyHead.current (dirtyHead.slotOf 0) ∧
      dirtyHead.returned 5 ≠ dirtyHead.returned 6 := by
  have hcycles := allocate_cycles (r := dirtyHead) (by decide) (by decide) (by decide)
  exact ⟨by decide, hcycles.2.1, hcycles.2.2.2 5 6 (by decide) (by decide)⟩

example : (List.range 4).map dirtyHead.returned = [64, 72, 64, 72] := by decide

end RingAllocator

end RayPlatform
