import Mathlib.Logic.Function.Basic
import Mathlib.Algebra.Order.Ring.Int
import RayPlatform.Lib.CyclicScan

/-!
# RingAllocator

A ring of equal buffers for outgoing messages. A buffer handed to `MPI_Isend` is
registered: its state becomes dirty, and its entry in the table of dirty buffers
holds the request. Sweeps ask MPI about the requests and salvage the buffers of
the finished ones.

* An address is a natural number, 0 is `NULL`; a request handle is the number of
  a send, and `none` is `MPI_REQUEST_NULL`.
* `bufferStates` and the table are functions of the slot; what they say past the
  last slot is never used.
* The answer of `MPI_Test` is an argument of `checkDirtyBuffer`.

The attributes of a dirty buffer and the counters that only the printing
functions read are left out.
-/

namespace RayPlatform

inductive BufferState
  | available
  | dirty
  deriving DecidableEq, Repr

structure DirtyBuffer where
  /-- This entry is occupied if the buffer is not NULL. -/
  buffer : Option Nat
  messageRequest : Option Nat

structure RingAllocator where
  /-- the number of calls to `allocate` since the last reset -/
  count : Nat
  chunks : Nat
  /-- the size of a buffer in bytes -/
  max : Nat
  /-- the head -/
  current : Nat
  memory : Nat
  availableBuffers : Int
  bufferStates : Nat → BufferState
  minimumNumberOfDirtyBuffersForSweep : Int
  numberOfDirtyBuffers : Int
  dirtyBufferSlots : Nat
  /-- `none` is NULL -/
  dirtyBuffers : Option (Nat → DirtyBuffer)

namespace RingAllocator

/-- `constructor`: `memory` is the address of the allocated block. -/
def constructor (memory chunks size : Nat) : RingAllocator :=
  { count := 0
    chunks := chunks
    max := size
    current := 0
    memory := memory
    availableBuffers := chunks
    bufferStates := fun _ => .available
    minimumNumberOfDirtyBuffersForSweep := -1
    numberOfDirtyBuffers := 0
    dirtyBufferSlots := 0
    dirtyBuffers := none }

/-- `while(m_bufferStates[m_current]==BUFFER_STATE_DIRTY && m_current<limit) m_current++;` -/
def skipDirty (bufferStates : Nat → BufferState) (limit : Nat) : Nat → Nat → Nat
  | 0, current => current
  | fuel + 1, current =>
      if bufferStates current = .dirty ∧ current < limit then
        skipDirty bufferStates limit fuel (current + 1)
      else current

/-- The slot `allocate` stops on. -/
def scan (r : RingAllocator) : Nat :=
  let origin := r.current
  -- from origin to N-1
  let current := skipDirty r.bufferStates r.chunks r.chunks origin
  let current := if current = r.chunks then 0 else current
  -- from 0 to origin-1
  skipDirty r.bufferStates origin r.chunks current

/-- `m_memory+m_current*m_max` -/
def address (r : RingAllocator) (slot : Nat) : Nat :=
  r.memory + slot * r.max

def allocate (r : RingAllocator) : RingAllocator × Nat :=
  let current := r.scan
  ({ r with
      count := r.count + 1
      current := if current + 1 = r.chunks then 0 else current + 1 }, r.address current)

def getBufferHandle (r : RingAllocator) (buffer : Nat) : Nat :=
  (buffer - r.memory) / r.max

def salvageBuffer (r : RingAllocator) (buffer : Nat) : RingAllocator :=
  { r with
    bufferStates := Function.update r.bufferStates (r.getBufferHandle buffer) .available
    availableBuffers := r.availableBuffers + 1 }

def markBufferAsDirty (r : RingAllocator) (buffer : Nat) : RingAllocator :=
  { r with
    bufferStates := Function.update r.bufferStates (r.getBufferHandle buffer) .dirty
    availableBuffers := r.availableBuffers - 1 }

def resetCount (r : RingAllocator) : RingAllocator :=
  { r with count := 0 }

def initializeDirtyBuffers (r : RingAllocator) : RingAllocator :=
  { r with
    dirtyBufferSlots := r.chunks
    dirtyBuffers := some fun _ => { buffer := none, messageRequest := none }
    minimumNumberOfDirtyBuffersForSweep := (r.chunks / 4 : Nat) }

/-- `m_dirtyBuffers[handle]` -/
def dirtyBuffer (r : RingAllocator) (handle : Nat) : DirtyBuffer :=
  match r.dirtyBuffers with
  | some table => table handle
  | none => { buffer := none, messageRequest := none }

def setDirtyBuffer (r : RingAllocator) (handle : Nat) (entry : DirtyBuffer) : RingAllocator :=
  { r with dirtyBuffers := r.dirtyBuffers.map fun table => Function.update table handle entry }

def isRegistered (r : RingAllocator) (handle : Nat) : Bool :=
  (r.dirtyBuffer handle).buffer.isSome

/-- `checkDirtyBuffer`; `flag` is the answer of `MPI_Test`, which frees a finished
request. -/
def checkDirtyBuffer (r : RingAllocator) (index : Nat) (flag : Bool) : RingAllocator :=
  match (r.dirtyBuffer index).buffer with
  | none => r
  | some buffer =>
      if flag then
        let r := r.salvageBuffer buffer
        let r := { r with numberOfDirtyBuffers := r.numberOfDirtyBuffers - 1 }
        r.setDirtyBuffer index { buffer := none, messageRequest := none }
      else r

/-- `cleanDirtyBuffers` does not sweep when there are still plenty of free cells. -/
def mustSweep (r : RingAllocator) : Bool :=
  !decide (r.numberOfDirtyBuffers < r.minimumNumberOfDirtyBuffersForSweep)

/-- The buffer becomes dirty; the request of its entry is written by `MPI_Isend`. -/
def registerBuffer (r : RingAllocator) (buffer : Nat) : RingAllocator :=
  let handle := r.getBufferHandle buffer
  if (r.dirtyBuffer handle).buffer.isNone then
    let r := r.setDirtyBuffer handle { r.dirtyBuffer handle with buffer := some buffer }
    let r := r.markBufferAsDirty buffer
    { r with numberOfDirtyBuffers := r.numberOfDirtyBuffers + 1 }
  else r

/-- `*request = value`, for the request of an entry of the table. -/
def setRequest (r : RingAllocator) (handle : Nat) (value : Option Nat) : RingAllocator :=
  r.setDirtyBuffer handle { r.dirtyBuffer handle with messageRequest := value }

/-! ## The invariant of a ring -/

open Lib.SparseArray (rank rank_zero rank_succ rank_update rank_congr)
open Lib.CyclicScan

/-- The slots that are available. -/
def isAvailable (r : RingAllocator) (slot : Nat) : Bool :=
  decide (r.bufferStates slot = .available)

/-- The counters and the table agree with the states of the buffers. -/
structure Wf (r : RingAllocator) : Prop where
  memory_pos : 0 < r.memory
  max_pos : 0 < r.max
  current_lt : r.current < r.chunks
  available : r.availableBuffers = rank r.isAvailable r.chunks
  total : r.availableBuffers + r.numberOfDirtyBuffers = r.chunks
  entries : ∀ slot < r.chunks, (r.dirtyBuffer slot).buffer =
    if r.isAvailable slot then none else some (r.address slot)

/-- The available slots, in the order `allocate` meets them. -/
def upcoming (r : RingAllocator) : List Nat :=
  selected r.isAvailable r.chunks r.current

theorem constructor_wf {memory chunks size : Nat} (hmemory : 0 < memory) (hchunks : 0 < chunks)
    (hsize : 0 < size) : Wf (constructor memory chunks size) := by
  have hall : ∀ n, rank (constructor memory chunks size).isAvailable n = n := by
    intro n
    induction n with
    | zero => exact rank_zero _
    | succ n ih =>
        rw [rank_succ, ih]
        rfl
  refine ⟨hmemory, hsize, hchunks, ?_, ?_, fun _ _ => rfl⟩
  · show (chunks : Int) = (rank (constructor memory chunks size).isAvailable chunks : Nat)
    rw [hall]
  · show (chunks : Int) + 0 = chunks
    omega

theorem Wf.handle_address {r : RingAllocator} (h : Wf r) (slot : Nat) :
    r.getBufferHandle (r.address slot) = slot := by
  unfold getBufferHandle address
  rw [Nat.add_sub_cancel_left, Nat.mul_div_cancel _ h.max_pos]

theorem Wf.address_injective {r : RingAllocator} (h : Wf r) {i j : Nat}
    (hij : r.address i = r.address j) : i = j := by
  rw [← h.handle_address i, hij, h.handle_address]

theorem Wf.registered_iff {r : RingAllocator} (h : Wf r) {slot : Nat} (hlt : slot < r.chunks) :
    r.isRegistered slot = true ↔ r.isAvailable slot = false := by
  rw [isRegistered, h.entries slot hlt]
  cases r.isAvailable slot <;> simp

/-- The number of available buffers is the length of the scan. -/
theorem Wf.length_upcoming {r : RingAllocator} (h : Wf r) :
    (r.upcoming.length : Int) = r.availableBuffers := by
  rw [upcoming, length_selected (Nat.le_of_lt h.current_lt), h.available]

theorem Wf.mem_upcoming {r : RingAllocator} (h : Wf r) (slot : Nat) :
    slot ∈ r.upcoming ↔ slot < r.chunks ∧ r.isAvailable slot = true :=
  mem_selected (Nat.le_of_lt h.current_lt) slot

/-! ## Scanning -/

structure SkipSpec (states : Nat → BufferState) (limit i c : Nat) : Prop where
  ge : i ≤ c
  le : i ≤ limit → c ≤ limit
  before : ∀ j, i ≤ j → j < c → states j = .dirty
  stop : c < limit → states c ≠ .dirty

theorem skipDirty_spec (states : Nat → BufferState) (limit : Nat) :
    ∀ fuel i, limit ≤ i + fuel → SkipSpec states limit i (skipDirty states limit fuel i) := by
  intro fuel
  induction fuel with
  | zero =>
      intro i hfuel
      refine ⟨Nat.le_refl i, fun hi => hi, fun j hj hlt => ?_, fun hlt => ?_⟩
      · rw [skipDirty] at hlt
        omega
      · rw [skipDirty] at hlt
        omega
  | succ fuel ih =>
      intro i hfuel
      rw [skipDirty]
      split
      · rename_i hgo
        obtain ⟨hge, hle, hbefore, hstop⟩ := ih (i + 1) (by omega)
        refine ⟨by omega, fun _ => hle (by omega), fun j hj hlt => ?_, hstop⟩
        rcases Nat.eq_or_lt_of_le hj with rfl | hj
        · exact hgo.1
        · exact hbefore j hj hlt
      · rename_i hno
        exact ⟨Nat.le_refl i, fun hi => hi, fun j hj hlt => by omega,
          fun hlt hdirty => hno ⟨hdirty, hlt⟩⟩

/-- The scan stays on the ring. -/
theorem scan_lt {r : RingAllocator} (hcurrent : r.current < r.chunks) : r.scan < r.chunks := by
  have hfirst := skipDirty_spec r.bufferStates r.chunks r.chunks r.current (by omega)
  unfold scan
  simp only
  have hle := hfirst.le (by omega)
  generalize skipDirty r.bufferStates r.chunks r.chunks r.current = c at hfirst hle
  have hstart : (if c = r.chunks then 0 else c) < r.chunks := by
    split <;> omega
  have hsecond := skipDirty_spec r.bufferStates r.current r.chunks (if c = r.chunks then 0 else c)
    (by omega)
  by_cases hbig : (if c = r.chunks then 0 else c) ≤ r.current
  · have := hsecond.le hbig
    omega
  · -- the second loop does not start past the origin
    have hstay : skipDirty r.bufferStates r.current r.chunks (if c = r.chunks then 0 else c) =
        (if c = r.chunks then 0 else c) := by
      cases hchunks : r.chunks with
      | zero => omega
      | succ n =>
          rw [hchunks] at hbig
          rw [skipDirty, if_neg (by omega)]
    rw [hstay]
    exact hstart

/-- As long as a buffer is available, the scan stops on the next one. -/
theorem scan_isNext {r : RingAllocator} (hcurrent : r.current < r.chunks)
    (hsome : ∃ slot < r.chunks, r.isAvailable slot = true) :
    IsNext r.isAvailable r.chunks r.current r.scan := by
  have hfirst := skipDirty_spec r.bufferStates r.chunks r.chunks r.current (by omega)
  have hdirty : ∀ i, r.bufferStates i = .dirty → r.isAvailable i = false := by
    intro i hi
    simp [isAvailable, hi]
  have hclean : ∀ i, r.bufferStates i ≠ .dirty → r.isAvailable i = true := by
    intro i hi
    unfold isAvailable
    cases hs : r.bufferStates i with
    | available => rfl
    | dirty => exact absurd hs hi
  unfold scan
  simp only
  have hle := hfirst.le (by omega)
  generalize skipDirty r.bufferStates r.chunks r.chunks r.current = c at hfirst hle
  by_cases hend : c = r.chunks
  · -- nothing is available from the origin on: the second loop finds the next one
    subst hend
    rw [if_pos rfl]
    have hsecond := skipDirty_spec r.bufferStates r.current r.chunks 0 (by omega)
    have hle2 := hsecond.le (Nat.zero_le _)
    generalize skipDirty r.bufferStates r.current r.chunks 0 = c at hsecond hle2
    have hhigh : ∀ i, r.current ≤ i → i < r.chunks → r.isAvailable i = false :=
      fun i hi hlt => hdirty i (hfirst.before i hi hlt)
    have hlt : c < r.current := by
      by_contra hno
      obtain ⟨slot, hslot, havailable⟩ := hsome
      have hnone : r.isAvailable slot = false := by
        by_cases hlow : slot < r.current
        · exact hdirty slot (hsecond.before slot (Nat.zero_le _) (by omega))
        · exact hhigh slot (by omega) hslot
      rw [hnone] at havailable
      exact absurd havailable (by decide)
    exact ⟨by omega, hclean c (hsecond.stop hlt),
      .inr ⟨hlt, hhigh, fun i hi => hdirty i (hsecond.before i (Nat.zero_le _) hi)⟩⟩
  · have hstop := hfirst.stop (by omega)
    have hstay : skipDirty r.bufferStates r.current r.chunks c = c := by
      cases hchunks : r.chunks with
      | zero => omega
      | succ n => rw [skipDirty, if_neg (fun hgo => hstop hgo.1)]
    rw [if_neg hend, hstay]
    exact ⟨by omega, hclean c hstop,
      .inl ⟨hfirst.ge, fun i hi hlt => hdirty i (hfirst.before i hi hlt)⟩⟩

/-- When no buffer is available, the scan comes back to the head. -/
theorem scan_depleted {r : RingAllocator} (hcurrent : r.current < r.chunks)
    (hnone : ∀ slot < r.chunks, r.isAvailable slot = false) : r.scan = r.current := by
  have hfirst := skipDirty_spec r.bufferStates r.chunks r.chunks r.current (by omega)
  have hdirty : ∀ slot < r.chunks, r.bufferStates slot = .dirty := by
    intro slot hslot
    have havailable := hnone slot hslot
    unfold isAvailable at havailable
    cases hs : r.bufferStates slot with
    | available =>
        rw [hs] at havailable
        exact absurd havailable (by simp)
    | dirty => rfl
  unfold scan
  simp only
  have hle := hfirst.le (by omega)
  generalize skipDirty r.bufferStates r.chunks r.chunks r.current = c at hfirst hle
  have hend : c = r.chunks := by
    by_contra hno
    exact hfirst.stop (by omega) (hdirty c (by omega))
  rw [if_pos hend]
  have hsecond := skipDirty_spec r.bufferStates r.current r.chunks 0 (by omega)
  have hle2 := hsecond.le (Nat.zero_le _)
  by_contra hno
  exact hsecond.stop (by omega) (hdirty _ (by omega))

/-! ## One lemma per operation -/

/-- `allocate` changes the head and the count only. -/
theorem Wf.allocate {r : RingAllocator} (h : Wf r) : Wf r.allocate.1 := by
  refine ⟨h.memory_pos, h.max_pos, ?_, h.available, h.total, h.entries⟩
  exact next_lt (scan_lt h.current_lt)

/-- As long as a buffer is available, `allocate` takes the first one of the scan
and leaves it last. -/
theorem Wf.allocate_upcoming {r : RingAllocator} (h : Wf r) (hsome : 0 < r.availableBuffers) :
    ∃ slot rest, r.upcoming = slot :: rest ∧ r.allocate.1.upcoming = rest ++ [slot] ∧
      r.allocate.2 = r.address slot := by
  have hpos : 0 < r.upcoming.length := by
    have := h.length_upcoming
    omega
  obtain ⟨slot, hslot⟩ := List.exists_mem_of_length_pos hpos
  have hnext := scan_isNext h.current_lt ⟨slot, (h.mem_upcoming slot).mp hslot⟩
  obtain ⟨rest, hbefore, hafter⟩ := hnext.rotate (Nat.le_of_lt h.current_lt)
  exact ⟨r.scan, rest, hbefore, hafter, rfl⟩

theorem Wf.resetCount {r : RingAllocator} (h : Wf r) : Wf r.resetCount :=
  ⟨h.memory_pos, h.max_pos, h.current_lt, h.available, h.total, h.entries⟩

/-- The table is created when no buffer has been registered. -/
theorem Wf.initializeDirtyBuffers {r : RingAllocator} (h : Wf r) (hnull : r.dirtyBuffers = none) :
    Wf r.initializeDirtyBuffers := by
  refine ⟨h.memory_pos, h.max_pos, h.current_lt, h.available, h.total, ?_⟩
  intro slot hslot
  have hentry := h.entries slot hslot
  rw [dirtyBuffer, hnull] at hentry
  exact hentry

theorem dirtyBuffer_setDirtyBuffer {r : RingAllocator} (hinit : r.dirtyBuffers ≠ none)
    (handle : Nat) (entry : DirtyBuffer) (slot : Nat) :
    (r.setDirtyBuffer handle entry).dirtyBuffer slot =
      if slot = handle then entry else r.dirtyBuffer slot := by
  obtain ⟨table, htable⟩ := Option.ne_none_iff_exists'.mp hinit
  simp only [setDirtyBuffer, dirtyBuffer, htable, Option.map_some]
  by_cases hs : slot = handle
  · subst hs
    rw [Function.update_self, if_pos rfl]
  · rw [Function.update_of_ne hs, if_neg hs]

/-- Registering an available buffer. -/
structure RegisterSpec (r r' : RingAllocator) (slot : Nat) : Prop where
  wf : Wf r'
  available : r'.isAvailable = Function.update r.isAvailable slot false
  others : ∀ j, j ≠ slot → r'.dirtyBuffer j = r.dirtyBuffer j
  initialized : r'.dirtyBuffers ≠ none
  address : r'.address = r.address
  chunks : r'.chunks = r.chunks
  slots : r'.dirtyBufferSlots = r.dirtyBufferSlots

theorem Wf.registerBuffer {r : RingAllocator} (h : Wf r) (hinit : r.dirtyBuffers ≠ none)
    {slot : Nat} (hslot : slot < r.chunks) (havailable : r.isAvailable slot = true) :
    RegisterSpec r (r.registerBuffer (r.address slot)) slot := by
  have hentry : (r.dirtyBuffer slot).buffer = none := by rw [h.entries slot hslot, if_pos havailable]
  let r₁ := r.setDirtyBuffer slot { r.dirtyBuffer slot with buffer := some (r.address slot) }
  have hregister : r.registerBuffer (r.address slot) =
      { r₁ with
        bufferStates := Function.update r.bufferStates slot .dirty
        availableBuffers := r.availableBuffers - 1
        numberOfDirtyBuffers := r.numberOfDirtyBuffers + 1 } := by
    have hhandle : r₁.getBufferHandle (r.address slot) = slot := h.handle_address slot
    rw [RingAllocator.registerBuffer, h.handle_address]
    simp only [hentry, Option.isNone_none, if_true]
    show ({ r₁.markBufferAsDirty (r.address slot) with
      numberOfDirtyBuffers := _ } : RingAllocator) = _
    rw [markBufferAsDirty, hhandle]
    rfl
  rw [hregister]
  have htable : ∀ j, ({ r₁ with
      bufferStates := Function.update r.bufferStates slot .dirty
      availableBuffers := r.availableBuffers - 1
      numberOfDirtyBuffers := r.numberOfDirtyBuffers + 1 } : RingAllocator).dirtyBuffer j =
      if j = slot then { r.dirtyBuffer slot with buffer := some (r.address slot) }
      else r.dirtyBuffer j := dirtyBuffer_setDirtyBuffer hinit slot _
  have hstates : ({ r₁ with
      bufferStates := Function.update r.bufferStates slot .dirty
      availableBuffers := r.availableBuffers - 1
      numberOfDirtyBuffers := r.numberOfDirtyBuffers + 1 } : RingAllocator).isAvailable =
      Function.update r.isAvailable slot false := by
    funext j
    show decide (Function.update r.bufferStates slot .dirty j = .available) = _
    by_cases hj : j = slot
    · subst hj
      simp
    · rw [Function.update_of_ne hj, Function.update_of_ne hj]
      rfl
  have hrank : rank r.isAvailable r.chunks =
      rank (Function.update r.isAvailable slot false) r.chunks + 1 := by
    have hback : Function.update (Function.update r.isAvailable slot false) slot true =
        r.isAvailable := by
      rw [Function.update_idem, ← havailable, Function.update_eq_self]
    have hup : rank (Function.update (Function.update r.isAvailable slot false) slot true)
        r.chunks = rank (Function.update r.isAvailable slot false) r.chunks +
          if slot < r.chunks then 1 else 0 := rank_update (Function.update_self ..) r.chunks
    rw [hback, if_pos hslot] at hup
    exact hup
  refine ⟨⟨h.memory_pos, h.max_pos, h.current_lt, ?_, ?_, ?_⟩, hstates, ?_, ?_, rfl, rfl, rfl⟩
  · rw [hstates]
    show r.availableBuffers - 1 = (rank _ r.chunks : Nat)
    rw [h.available, hrank]
    omega
  · show r.availableBuffers - 1 + (r.numberOfDirtyBuffers + 1) = r.chunks
    have := h.total
    omega
  · intro j hj
    rw [htable, hstates]
    by_cases hjs : j = slot
    · subst hjs
      rw [if_pos rfl, Function.update_self]
      rfl
    · rw [if_neg hjs, Function.update_of_ne hjs]
      exact h.entries j hj
  · intro j hj
    rw [htable, if_neg hj]
  · simpa [r₁, setDirtyBuffer] using hinit

/-- Writing the request of an entry. -/
theorem Wf.setRequest {r : RingAllocator} (h : Wf r) (hinit : r.dirtyBuffers ≠ none)
    (handle : Nat) (value : Option Nat) : Wf (r.setRequest handle value) := by
  refine ⟨h.memory_pos, h.max_pos, h.current_lt, h.available, h.total, ?_⟩
  intro slot hslot
  rw [RingAllocator.setRequest, dirtyBuffer_setDirtyBuffer hinit]
  by_cases hs : slot = handle
  · subst hs
    rw [if_pos rfl]
    exact h.entries slot hslot
  · rw [if_neg hs]
    exact h.entries slot hslot

/-- The request of a registered buffer does not matter to the others. -/
theorem RegisterSpec.setRequest {r r' : RingAllocator} {slot : Nat} (h : RegisterSpec r r' slot)
    (value : Option Nat) :
    RegisterSpec r (r'.setRequest slot value) slot ∧
      ((r'.setRequest slot value).dirtyBuffer slot).messageRequest = value := by
  have htable := dirtyBuffer_setDirtyBuffer h.initialized slot
    { r'.dirtyBuffer slot with messageRequest := value }
  refine ⟨⟨h.wf.setRequest h.initialized slot _, h.available, ?_, ?_, h.address, h.chunks,
    h.slots⟩, ?_⟩
  · intro j hj
    rw [RingAllocator.setRequest, htable, if_neg hj]
    exact h.others j hj
  · have hinit := h.initialized
    simpa [RingAllocator.setRequest, setDirtyBuffer] using hinit
  · rw [RingAllocator.setRequest, htable, if_pos rfl]

/-- What salvaging a dirty buffer does. -/
structure SalvageSpec (r r' : RingAllocator) (slot : Nat) : Prop where
  wf : Wf r'
  available : r'.isAvailable = Function.update r.isAvailable slot true
  others : ∀ j, j ≠ slot → r'.dirtyBuffer j = r.dirtyBuffer j
  initialized : r'.dirtyBuffers ≠ none
  address : r'.address = r.address
  chunks : r'.chunks = r.chunks
  slots : r'.dirtyBufferSlots = r.dirtyBufferSlots

theorem Wf.salvage {r : RingAllocator} (h : Wf r) (hinit : r.dirtyBuffers ≠ none) {slot : Nat}
    (hslot : slot < r.chunks) (hdirty : r.isAvailable slot = false) :
    SalvageSpec r (r.checkDirtyBuffer slot true) slot := by
  have hentry : (r.dirtyBuffer slot).buffer = some (r.address slot) := by
    rw [h.entries slot hslot, hdirty]
    rfl
  let r₁ : RingAllocator :=
    { r with
      bufferStates := Function.update r.bufferStates slot .available
      availableBuffers := r.availableBuffers + 1
      numberOfDirtyBuffers := r.numberOfDirtyBuffers - 1 }
  have hcheck : r.checkDirtyBuffer slot true =
      r₁.setDirtyBuffer slot { buffer := none, messageRequest := none } := by
    rw [checkDirtyBuffer, hentry]
    simp only [if_true]
    rw [salvageBuffer, h.handle_address]
  have htable : ∀ j,
      (r₁.setDirtyBuffer slot { buffer := none, messageRequest := none }).dirtyBuffer j =
      if j = slot then { buffer := none, messageRequest := none } else r.dirtyBuffer j :=
    dirtyBuffer_setDirtyBuffer (r := r₁) hinit slot _
  have hstates : (r₁.setDirtyBuffer slot { buffer := none, messageRequest := none }).isAvailable =
      Function.update r.isAvailable slot true := by
    funext j
    show decide (Function.update r.bufferStates slot .available j = .available) = _
    by_cases hj : j = slot
    · subst hj
      simp
    · rw [Function.update_of_ne hj, Function.update_of_ne hj]
      rfl
  rw [hcheck]
  refine ⟨⟨h.memory_pos, h.max_pos, h.current_lt, ?_, ?_, ?_⟩, hstates, ?_, ?_, rfl, rfl, rfl⟩
  · rw [hstates]
    show r.availableBuffers + 1 = (rank _ r.chunks : Nat)
    rw [rank_update hdirty, if_pos hslot, h.available]
    push_cast
    rfl
  · show r.availableBuffers + 1 + (r.numberOfDirtyBuffers - 1) = r.chunks
    have := h.total
    omega
  · intro j hj
    rw [htable, hstates]
    by_cases hjs : j = slot
    · subst hjs
      rw [if_pos rfl, Function.update_self]
      rfl
    · rw [if_neg hjs, Function.update_of_ne hjs]
      exact h.entries j hj
  · intro j hj
    rw [htable, if_neg hj]
  · simpa [r₁, setDirtyBuffer] using hinit

/-- An empty entry, or a request that is not finished, leaves the ring as it is. -/
theorem Wf.checkDirtyBuffer_keep {r : RingAllocator} (h : Wf r) {slot : Nat} {flag : Bool}
    (hslot : slot < r.chunks) (hkeep : r.isAvailable slot = true ∨ flag = false) :
    r.checkDirtyBuffer slot flag = r := by
  rcases hkeep with havailable | rfl
  · rw [checkDirtyBuffer, h.entries slot hslot, if_pos havailable]
  · rw [checkDirtyBuffer]
    cases (r.dirtyBuffer slot).buffer <;> rfl

/-! ## A ring whose buffers are never registered -/

/-- The ring after `k` allocations, when nothing is dirty. -/
structure Rotates (r : RingAllocator) (chunks k : Nat) : Prop where
  size : r.chunks = chunks
  head : r.current = k % chunks
  clean : ∀ slot, r.bufferStates slot = .available

theorem constructor_rotates (memory chunks size : Nat) :
    Rotates (constructor memory chunks size) chunks 0 :=
  ⟨rfl, (Nat.zero_mod chunks).symm, fun _ => rfl⟩

theorem skipDirty_clean {states : Nat → BufferState} (hclean : ∀ slot, states slot = .available)
    (limit fuel current : Nat) : skipDirty states limit fuel current = current := by
  cases fuel with
  | zero => rfl
  | succ fuel =>
      rw [skipDirty, if_neg]
      rintro ⟨hdirty, -⟩
      rw [hclean current] at hdirty
      cases hdirty

/-- The buffers come in turn, whatever they are used for. -/
theorem Rotates.allocate {r : RingAllocator} {chunks k : Nat} (h : Rotates r chunks k)
    (hpos : 0 < chunks) :
    Rotates r.allocate.1 chunks (k + 1) ∧ r.allocate.2 = r.address (k % chunks) := by
  have hlt : k % chunks < chunks := Nat.mod_lt k hpos
  have hscan : r.scan = k % chunks := by
    unfold scan
    simp only [skipDirty_clean h.clean]
    rw [h.head, h.size, if_neg (Nat.ne_of_lt hlt)]
  refine ⟨⟨h.size, ?_, h.clean⟩, ?_⟩
  · show (if r.scan + 1 = r.chunks then 0 else r.scan + 1) = (k + 1) % chunks
    rw [hscan, h.size, ← Nat.mod_add_mod]
    split
    · next hend => rw [hend, Nat.mod_self]
    · next hend =>
        have hfits : k % chunks + 1 < chunks := by omega
        exact (Nat.mod_eq_of_lt hfits).symm
  · show r.address r.scan = _
    rw [hscan]

theorem address_disjoint (r : RingAllocator) {i j : Nat} (hij : i ≠ j) :
    r.address i + r.max ≤ r.address j ∨ r.address j + r.max ≤ r.address i := by
  unfold address
  rcases Nat.lt_or_gt_of_ne hij with hlt | hlt
  · have hmul := Nat.mul_le_mul_right r.max hlt
    rw [Nat.succ_mul] at hmul
    omega
  · have hmul := Nat.mul_le_mul_right r.max hlt
    rw [Nat.succ_mul] at hmul
    omega

end RingAllocator

end RayPlatform
