import RayPlatform.Lib.TransitionSystem
import RayPlatform.Memory.RingAllocator

/-!
# Outbox buffers in mini-rank mode

The communication thread of a process sends the messages of its mini-ranks, one
micro-step at a time: a call to `MessagesHandler::sendMessagesForMiniRank` sweeps
the dirty buffers of the ring of the mini-rank, then copies each message in a
buffer of that ring and calls `MPI_Isend`. Sends complete at any point in between.

`registeredAlready` is true when the request is to be freed, whichever way the
buffer became registered: every entry of the table holds `MPI_REQUEST_NULL`, on
which `MPI_Test` reports done.
-/

namespace RayPlatform

open RingAllocator
open Lib (TransitionSystem)

/-- Where the communication thread is. -/
inductive MiniRankPhase (ι : Type)
  | idle
  /-- `cleanDirtyBuffers` checks entry `i` of the ring of a mini-rank -/
  | sweeping (core : ι) (i : Nat)
  /-- the messages of a mini-rank are sent -/
  | sending (core : ι)
  deriving DecidableEq

/-- A call to `MPI_Isend` that has not completed: MPI reads `buffer`, in the ring
of mini-rank `core`. -/
structure MiniRankSend (ι : Type) where
  request : Nat
  core : ι
  buffer : Nat

structure MiniRankState (ι : Type) where
  rings : ι → RingAllocator
  phase : MiniRankPhase ι
  outstanding : List (MiniRankSend ι)
  /-- the number of calls to `MPI_Isend` -/
  requests : Nat

inductive MiniRankStep (ι : Type)
  | sendMessagesForMiniRank (core : ι)
  | checkDirtyBuffer (flag : Bool)
  | endSweep
  | isend
  | endCall
  | complete (request : Nat)

/-- The ring after a message is sent from a copy. -/
def RingAllocator.sendCopy (r : RingAllocator) (request : Nat) : RingAllocator :=
  let copiedBuffer := r.allocate.2
  let r := r.allocate.1
  let bufferHandle := r.getBufferHandle copiedBuffer
  if r.isRegistered bufferHandle then r
  else
    let r := r.registerBuffer copiedBuffer
    -- `registeredAlready = true`: `MPI_Isend` writes the request, `MPI_Request_free` frees it
    (r.setRequest bufferHandle (some request)).setRequest bufferHandle none

namespace MiniRankState

variable {ι : Type} [DecidableEq ι]

def constructor (memory : ι → Nat) (chunks size : Nat) : MiniRankState ι :=
  { rings := fun core => RingAllocator.constructor (memory core) chunks size
    phase := .idle
    outstanding := []
    requests := 0 }

/-- `MPI_Test` reports done on a null request, and on another one only after its
completion. -/
def mayTest (s : MiniRankState ι) (core : ι) (i : Nat) (flag : Bool) : Bool :=
  match (s.rings core).dirtyBuffer i with
  | { buffer := none, messageRequest := _ } => true
  | { buffer := some _, messageRequest := none } => flag
  | { buffer := some _, messageRequest := some request } =>
      !flag || !(s.outstanding.map MiniRankSend.request).contains request

def exec (s : MiniRankState ι) : MiniRankStep ι → Option (MiniRankState ι)
  | .sendMessagesForMiniRank core =>
      match s.phase with
      | .idle =>
          let ring := s.rings core
          let ring := if ring.dirtyBuffers.isNone then ring.initializeDirtyBuffers else ring
          some
            { s with
              rings := Function.update s.rings core ring
              phase := if ring.mustSweep then .sweeping core 0 else .sending core }
      | _ => none
  | .checkDirtyBuffer flag =>
      match s.phase with
      | .sweeping core i =>
          let ring := s.rings core
          if i < ring.dirtyBufferSlots ∧ ring.numberOfDirtyBuffers ≠ 0 ∧
              s.mayTest core i flag = true then
            some
              { s with
                rings := Function.update s.rings core (ring.checkDirtyBuffer i flag)
                phase := .sweeping core (i + 1) }
          else none
      | _ => none
  | .endSweep =>
      match s.phase with
      | .sweeping core i =>
          let ring := s.rings core
          if i = ring.dirtyBufferSlots ∨ ring.numberOfDirtyBuffers = 0 then
            some { s with phase := .sending core }
          else none
      | _ => none
  | .isend =>
      match s.phase with
      | .sending core =>
          some
            { s with
              rings := Function.update s.rings core ((s.rings core).sendCopy s.requests)
              outstanding :=
                { request := s.requests, core := core, buffer := (s.rings core).allocate.2 } ::
                  s.outstanding
              requests := s.requests + 1 }
      | _ => none
  | .endCall =>
      match s.phase with
      | .sending _ => some { s with phase := .idle }
      | _ => none
  | .complete request =>
      some { s with outstanding := s.outstanding.filter fun send => send.request ≠ request }

end MiniRankState

/-! ## What is claimed, and when it holds -/

/-- The buffer at an address of a ring is dirty. -/
def DirtyAt (r : RingAllocator) (buffer : Nat) : Prop :=
  ∃ slot < r.chunks, buffer = r.address slot ∧ r.isAvailable slot = false

variable {ι : Type} [DecidableEq ι]

namespace MiniRankState

/-- The copy of every outstanding message is in a dirty buffer. -/
def Kept (s : MiniRankState ι) : Prop :=
  ∀ send ∈ s.outstanding, DirtyAt (s.rings send.core) send.buffer

/-- MPI does not read a buffer of the ring of a mini-rank. -/
def Unread (s : MiniRankState ι) (core : ι) (buffer : Nat) : Prop :=
  ∀ send ∈ s.outstanding, send.core = core → send.buffer ≠ buffer

/-- A step does not hand out a buffer that MPI reads. -/
def NotReused (s : MiniRankState ι) : MiniRankStep ι → Prop
  | .isend => ∀ core, s.phase = .sending core → s.Unread core (s.rings core).allocate.2
  | _ => True

/-- The sends of the buffers that a sweep finds in the table have completed, and so
has the send of the buffer at the head when no buffer of the ring is available. -/
def Completed (s : MiniRankState ι) : MiniRankStep ι → Prop
  | .checkDirtyBuffer _ => ∀ core i, s.phase = .sweeping core i →
      (s.rings core).isRegistered i = true → s.Unread core ((s.rings core).address i)
  | .isend => ∀ core, s.phase = .sending core → (s.rings core).availableBuffers = 0 →
      s.Unread core ((s.rings core).address (s.rings core).current)
  | _ => True

end MiniRankState

def miniRankSystem (memory : ι → Nat) (chunks size : Nat) :
    TransitionSystem (MiniRankState ι) (MiniRankStep ι) :=
  .ofExec (MiniRankState.constructor memory chunks size) MiniRankState.exec

/-! ## One ring -/

variable {chunks : Nat} {r r' : RingAllocator}

/-- A ring whose table holds null requests only. -/
structure NullRing (chunks : Nat) (r : RingAllocator) : Prop where
  wf : Wf r
  chunks_eq : r.chunks = chunks
  slots : r.dirtyBuffers ≠ none → r.dirtyBufferSlots = chunks
  null : ∀ slot, (r.dirtyBuffer slot).messageRequest = none

theorem NullRing.constructor {memory size : Nat} (hmemory : 0 < memory) (hchunks : 0 < chunks)
    (hsize : 0 < size) : NullRing chunks (RingAllocator.constructor memory chunks size) :=
  ⟨constructor_wf hmemory hchunks hsize, rfl, fun hinit => absurd rfl hinit, fun _ => rfl⟩

theorem NullRing.initializeDirtyBuffers (h : NullRing chunks r) (hnull : r.dirtyBuffers = none) :
    NullRing chunks r.initializeDirtyBuffers :=
  ⟨h.wf.initializeDirtyBuffers hnull, h.chunks_eq, fun _ => h.chunks_eq, fun _ => rfl⟩

/-- Salvaging makes one buffer available. -/
theorem NullRing.salvage (h : NullRing chunks r) (hinit : r.dirtyBuffers ≠ none) {slot : Nat}
    (hslot : slot < chunks) (hdirty : r.isAvailable slot = false) :
    NullRing chunks (r.checkDirtyBuffer slot true) := by
  have hspec := h.wf.salvage hinit (h.chunks_eq ▸ hslot) hdirty
  refine ⟨hspec.wf, hspec.chunks.trans h.chunks_eq, fun _ => hspec.slots.trans (h.slots hinit),
    fun j => ?_⟩
  by_cases hj : j = slot
  · have hentry : (r.dirtyBuffer slot).buffer = some (r.address slot) := by
      rw [h.wf.entries slot (h.chunks_eq ▸ hslot), hdirty]
      rfl
    rw [hj, checkDirtyBuffer, hentry]
    simp only [if_true]
    rw [dirtyBuffer_setDirtyBuffer (by simpa [salvageBuffer] using hinit), if_pos rfl]
  · rw [hspec.others j hj]
    exact h.null j

/-- What a send does to a ring. -/
structure SendSpec (chunks : Nat) (r r' : RingAllocator) : Prop where
  ring : NullRing chunks r'
  initialized : r'.dirtyBuffers ≠ none
  address : r'.address = r.address
  dirty : ∀ slot, r.isAvailable slot = false → r'.isAvailable slot = false
  copied : DirtyAt r' r.allocate.2

/-- With a buffer available, the copy is in a buffer that was not dirty. -/
theorem NullRing.sendCopy_available (h : NullRing chunks r) (hinit : r.dirtyBuffers ≠ none)
    (hsome : 0 < r.availableBuffers) (request : Nat) :
    SendSpec chunks r (r.sendCopy request) ∧
      ∃ slot < r.chunks, r.allocate.2 = r.address slot ∧ r.isAvailable slot = true := by
  obtain ⟨slot, rest, hbefore, _, haddress⟩ := h.wf.allocate_upcoming hsome
  have hmem : slot ∈ r.upcoming := by
    rw [hbefore]
    exact List.mem_cons_self
  obtain ⟨hslot, havailable⟩ := (h.wf.mem_upcoming slot).mp hmem
  have hwf : Wf r.allocate.1 := h.wf.allocate
  have hhandle : r.allocate.1.getBufferHandle (r.address slot) = slot := hwf.handle_address slot
  have hfree : ¬ r.allocate.1.isRegistered slot = true := by
    rw [hwf.registered_iff hslot, show r.allocate.1.isAvailable slot = true from havailable]
    simp
  have hregister : RegisterSpec r.allocate.1 (r.allocate.1.registerBuffer (r.address slot)) slot :=
    hwf.registerBuffer hinit hslot havailable
  have hnull := ((hregister.setRequest (some request)).1.setRequest none)
  have hring : r.sendCopy request =
      ((r.allocate.1.registerBuffer (r.address slot)).setRequest slot (some request)).setRequest
        slot none := by
    rw [RingAllocator.sendCopy]
    simp only [haddress, hhandle, if_neg hfree]
  rw [hring]
  obtain ⟨hspec, hrequest⟩ := hnull
  refine ⟨⟨⟨hspec.wf, hspec.chunks.trans h.chunks_eq, fun _ => hspec.slots.trans (h.slots hinit),
    fun j => ?_⟩, hspec.initialized, hspec.address, fun j hj => ?_, slot, ?_, ?_, ?_⟩,
    slot, hslot, haddress, havailable⟩
  · by_cases hj : j = slot
    · rw [hj]
      exact hrequest
    · rw [hspec.others j hj]
      exact h.null j
  · rw [hspec.available]
    by_cases hjs : j = slot
    · rw [hjs, Function.update_self]
    · rw [Function.update_of_ne hjs]
      exact hj
  · rw [hspec.chunks]
    exact hslot
  · rw [hspec.address]
    exact haddress
  · rw [hspec.available, Function.update_self]

/-- With no buffer available, the copy is in the dirty buffer at the head. -/
theorem NullRing.sendCopy_depleted (h : NullRing chunks r) (hinit : r.dirtyBuffers ≠ none)
    (hnone : r.availableBuffers = 0) (request : Nat) :
    SendSpec chunks r (r.sendCopy request) ∧ r.allocate.2 = r.address r.current := by
  have hdirty : ∀ slot < r.chunks, r.isAvailable slot = false := by
    intro slot hslot
    have hlength := h.wf.length_upcoming
    have hnil : r.upcoming = [] := List.eq_nil_of_length_eq_zero (by omega)
    have hmem := (h.wf.mem_upcoming slot).not
    rw [hnil] at hmem
    simpa [hslot] using hmem
  have haddress : r.allocate.2 = r.address r.current :=
    congrArg r.address (scan_depleted h.wf.current_lt hdirty)
  have hregistered : r.allocate.1.isRegistered r.current = true :=
    (h.wf.allocate.registered_iff h.wf.current_lt).mpr (hdirty _ h.wf.current_lt)
  have hring : r.sendCopy request = r.allocate.1 := by
    rw [RingAllocator.sendCopy]
    simp only [haddress, show r.allocate.1.getBufferHandle (r.address r.current) = r.current from
      h.wf.handle_address _, hregistered, if_true]
  rw [hring]
  exact ⟨⟨⟨h.wf.allocate, h.chunks_eq, h.slots, h.null⟩, hinit, rfl, fun _ hslot => hslot,
    r.current, h.wf.current_lt, haddress, hdirty _ h.wf.current_lt⟩, haddress⟩

/-! ## One lemma per step -/

namespace MiniRankState

variable {s s' : MiniRankState ι}

structure Inv (chunks : Nat) (s : MiniRankState ι) : Prop where
  ring : ∀ core, NullRing chunks (s.rings core)
  /-- the table exists once a call has begun -/
  initialized : ∀ core, (s.phase = .sending core ∨ ∃ i, s.phase = .sweeping core i) →
    (s.rings core).dirtyBuffers ≠ none
  kept : s.Kept

omit [DecidableEq ι] in
theorem constructor_inv {memory : ι → Nat} {size : Nat} (hmemory : ∀ core, 0 < memory core)
    (hchunks : 0 < chunks) (hsize : 0 < size) : Inv chunks (constructor memory chunks size) := by
  refine ⟨fun core => NullRing.constructor (hmemory core) hchunks hsize, fun core hcall => ?_,
    fun send hsend => ?_⟩
  · rcases hcall with hcall | ⟨i, hcall⟩
    · cases hcall
    · cases hcall
  · simp [constructor] at hsend

/-- A step that changes the ring of one mini-rank. -/
theorem Inv.update (h : Inv chunks s) {core : ι} {ring : RingAllocator}
    (hring : NullRing chunks ring) (hinit : ring.dirtyBuffers ≠ none) {phase : MiniRankPhase ι}
    (hphase : ∀ other, (phase = .sending other ∨ ∃ i, phase = .sweeping other i) → other = core)
    {outstanding : List (MiniRankSend ι)}
    (hkept : ∀ send ∈ outstanding, if send.core = core then DirtyAt ring send.buffer
      else send ∈ s.outstanding) (requests : Nat) :
    Inv chunks
      { rings := Function.update s.rings core ring, phase := phase, outstanding := outstanding,
        requests := requests } := by
  refine ⟨fun other => ?_, fun other hcall => ?_, fun send hsend => ?_⟩
  · by_cases hcore : other = core
    · subst hcore
      simpa using hring
    · simpa [Function.update_of_ne hcore] using h.ring other
  · have hcore := hphase other hcall
    subst hcore
    simpa using hinit
  · have hnew := hkept send hsend
    show DirtyAt (Function.update s.rings core ring send.core) send.buffer
    by_cases hcore : send.core = core
    · rw [if_pos hcore] at hnew
      rw [hcore, Function.update_self]
      exact hnew
    · rw [if_neg hcore] at hnew
      rw [Function.update_of_ne hcore]
      exact h.kept send hnew

omit [DecidableEq ι] in
/-- A call works on the ring of its mini-rank, whether it sweeps or not. -/
theorem firstPhase {core other : ι} (sweep : Bool)
    (hcall : (if sweep = true then MiniRankPhase.sweeping core 0 else .sending core) =
        .sending other ∨
      ∃ i, (if sweep = true then MiniRankPhase.sweeping core 0 else .sending core) =
        .sweeping other i) : other = core := by
  cases sweep with
  | false =>
      rcases hcall with hcall | ⟨i, hcall⟩
      · injection hcall with hcore
        exact hcore.symm
      · cases hcall
  | true =>
      rcases hcall with hcall | ⟨i, hcall⟩
      · cases hcall
      · injection hcall with hcore
        exact hcore.symm

theorem Inv.call_step (h : Inv chunks s) {core : ι}
    (hstep : s.exec (.sendMessagesForMiniRank core) = some s') : Inv chunks s' := by
  simp only [exec] at hstep
  split at hstep
  · cases hstep
    refine h.update ?_ ?_ (fun other hcall => ?_) (fun send hsend => ?_) _
    · cases htable : (s.rings core).dirtyBuffers with
      | none =>
          simp only [Option.isNone_none, if_true]
          exact (h.ring core).initializeDirtyBuffers htable
      | some table => exact h.ring core
    · cases htable : (s.rings core).dirtyBuffers with
      | none => simp [RingAllocator.initializeDirtyBuffers]
      | some table => simp [htable]
    · exact firstPhase _ hcall
    · split
      · rename_i hcore
        obtain ⟨slot, hslot, hbuffer, hdirty⟩ := h.kept send hsend
        rw [hcore] at hslot hbuffer hdirty
        -- the new table changes no state
        cases (s.rings core).dirtyBuffers with
        | none => exact ⟨slot, hslot, hbuffer, hdirty⟩
        | some table => exact ⟨slot, hslot, hbuffer, hdirty⟩
      · exact hsend
  · cases hstep

omit [DecidableEq ι] in
/-- What a check does to the ring that is swept. -/
theorem Inv.check_cases (h : Inv chunks s) {core : ι} {i : Nat} {flag : Bool}
    (hphase : s.phase = .sweeping core i) (hlt : i < (s.rings core).dirtyBufferSlots)
    (htest : s.mayTest core i flag = true) :
    i < (s.rings core).chunks ∧
      (((s.rings core).isRegistered i = false ∧
          (s.rings core).checkDirtyBuffer i flag = s.rings core) ∨
        ((s.rings core).isRegistered i = true ∧ flag = true ∧
          (s.rings core).isAvailable i = false)) := by
  have hinit := h.initialized core (.inr ⟨i, hphase⟩)
  have hring := h.ring core
  have hchunks : i < (s.rings core).chunks := by
    rw [hring.chunks_eq, ← hring.slots hinit]
    exact hlt
  refine ⟨hchunks, ?_⟩
  have hentry := hring.wf.entries i hchunks
  have hnull := hring.null i
  have hregistered := hring.wf.registered_iff hchunks
  cases havailable : (s.rings core).isAvailable i with
  | true =>
      left
      refine ⟨?_, hring.wf.checkDirtyBuffer_keep hchunks (.inl havailable)⟩
      rw [← Bool.not_eq_true, hregistered, havailable]
      simp
  | false =>
      right
      refine ⟨hregistered.mpr havailable, ?_, rfl⟩
      -- the entry holds the null request, on which `MPI_Test` reports done
      rw [havailable] at hentry
      unfold mayTest at htest
      cases hdirty : (s.rings core).dirtyBuffer i with
      | mk buffer request =>
          rw [hdirty] at hentry hnull htest
          simp only at hnull
          subst hnull
          simp only [Bool.false_eq_true, if_false] at hentry
          subst hentry
          exact htest

theorem Inv.check_step (h : Inv chunks s) {flag : Bool}
    (hcompleted : s.Completed (.checkDirtyBuffer flag))
    (hstep : s.exec (.checkDirtyBuffer flag) = some s') : Inv chunks s' := by
  simp only [exec] at hstep
  split at hstep
  · rename_i core i hphase
    split at hstep
    · rename_i hguard
      cases hstep
      have hinit := h.initialized core (.inr ⟨i, hphase⟩)
      obtain ⟨hlt, hcases⟩ := h.check_cases hphase hguard.1 hguard.2.2
      have hcall : ∀ other, ((MiniRankPhase.sweeping core (i + 1) = .sending other) ∨
          ∃ j, MiniRankPhase.sweeping core (i + 1) = .sweeping other j) → other = core := by
        intro other hother
        rcases hother with hother | ⟨j, hother⟩
        · cases hother
        · injection hother with hcore
          exact hcore.symm
      rcases hcases with ⟨_, hkeep⟩ | ⟨hregistered, rfl, hdirty⟩
      · rw [hkeep]
        refine h.update (h.ring core) hinit hcall (fun send hsend => ?_) _
        split
        · rename_i hcore
          rw [← hcore]
          exact h.kept send hsend
        · exact hsend
      · have hspec := (h.ring core).wf.salvage hinit hlt hdirty
        refine h.update ((h.ring core).salvage hinit ((h.ring core).chunks_eq ▸ hlt) hdirty)
          hspec.initialized hcall (fun send hsend => ?_) _
        split
        · rename_i hcore
          obtain ⟨slot, hslot, hbuffer, hbusy⟩ := h.kept send hsend
          rw [hcore] at hslot hbuffer hbusy
          have hne : slot ≠ i := by
            rintro rfl
            exact hcompleted core slot hphase hregistered send hsend hcore hbuffer
          refine ⟨slot, ?_, ?_, ?_⟩
          · rw [hspec.chunks]
            exact hslot
          · rw [hspec.address]
            exact hbuffer
          · rw [hspec.available, Function.update_of_ne hne]
            exact hbusy
        · exact hsend
    · cases hstep
  · cases hstep

omit [DecidableEq ι] in
/-- What a send does, and where its copy is. -/
theorem Inv.send_cases (h : Inv chunks s) {core : ι} (hphase : s.phase = .sending core)
    (request : Nat) :
    SendSpec chunks (s.rings core) ((s.rings core).sendCopy request) ∧
      ((∃ slot < (s.rings core).chunks, (s.rings core).allocate.2 = (s.rings core).address slot ∧
          (s.rings core).isAvailable slot = true ∧ (s.rings core).availableBuffers ≠ 0) ∨
        ((s.rings core).allocate.2 = (s.rings core).address (s.rings core).current ∧
          (s.rings core).availableBuffers = 0)) := by
  have hinit := h.initialized core (.inl hphase)
  have hring := h.ring core
  have hlength := hring.wf.length_upcoming
  by_cases hnone : (s.rings core).availableBuffers = 0
  · obtain ⟨hspec, haddress⟩ := hring.sendCopy_depleted hinit hnone request
    exact ⟨hspec, .inr ⟨haddress, hnone⟩⟩
  · obtain ⟨hspec, slot, hslot, haddress, havailable⟩ :=
      hring.sendCopy_available hinit (by omega) request
    exact ⟨hspec, .inl ⟨slot, hslot, haddress, havailable, hnone⟩⟩

theorem Inv.isend_step (h : Inv chunks s) (hstep : s.exec .isend = some s') : Inv chunks s' := by
  simp only [exec] at hstep
  split at hstep
  · rename_i core hphase
    cases hstep
    obtain ⟨hspec, _⟩ := h.send_cases hphase s.requests
    refine h.update hspec.ring hspec.initialized (fun other hother => ?_) (fun send hsend => ?_) _
    · rcases hother with hother | ⟨j, hother⟩
      · rw [hphase] at hother
        injection hother with hcore
        exact hcore.symm
      · rw [hphase] at hother
        cases hother
    · rcases List.mem_cons.mp hsend with rfl | hold
      · rw [if_pos rfl]
        exact hspec.copied
      · split
        · rename_i hcore
          obtain ⟨slot, hslot, hbuffer, hdirty⟩ := h.kept send hold
          rw [hcore] at hslot hbuffer hdirty
          refine ⟨slot, ?_, ?_, hspec.dirty slot hdirty⟩
          · rw [hspec.ring.chunks_eq, ← (h.ring core).chunks_eq]
            exact hslot
          · rw [hspec.address]
            exact hbuffer
        · exact hold
  · cases hstep

theorem Inv.complete_step (h : Inv chunks s) {request : Nat}
    (hstep : s.exec (.complete request) = some s') : Inv chunks s' := by
  simp only [exec, Option.some.injEq] at hstep
  subst hstep
  exact ⟨h.ring, h.initialized, fun send hsend => h.kept send (List.mem_of_mem_filter hsend)⟩

theorem Inv.endSweep_step (h : Inv chunks s) (hstep : s.exec .endSweep = some s') :
    Inv chunks s' := by
  simp only [exec] at hstep
  split at hstep
  · rename_i core i hphase
    split at hstep
    · cases hstep
      refine ⟨h.ring, fun other hcall => ?_, h.kept⟩
      rcases hcall with hcall | ⟨j, hcall⟩
      · injection hcall with hcore
        subst hcore
        exact h.initialized core (.inr ⟨i, hphase⟩)
      · cases hcall
    · cases hstep
  · cases hstep

theorem Inv.endCall_step (h : Inv chunks s) (hstep : s.exec .endCall = some s') :
    Inv chunks s' := by
  simp only [exec] at hstep
  split at hstep
  · cases hstep
    refine ⟨h.ring, fun other hcall => ?_, h.kept⟩
    rcases hcall with hcall | ⟨j, hcall⟩
    · cases hcall
    · cases hcall
  · cases hstep

theorem Inv.step (h : Inv chunks s) {step : MiniRankStep ι} (hcompleted : s.Completed step)
    (hstep : s.exec step = some s') : Inv chunks s' := by
  cases step with
  | sendMessagesForMiniRank core => exact h.call_step hstep
  | checkDirtyBuffer flag => exact h.check_step hcompleted hstep
  | endSweep => exact h.endSweep_step hstep
  | isend => exact h.isend_step hstep
  | endCall => exact h.endCall_step hstep
  | complete request => exact h.complete_step hstep

/-- In a state that keeps the copies, the step that waits for the completions is the
step that keeps them and reuses none. -/
theorem Inv.step_iff (h : Inv chunks s) {step : MiniRankStep ι} (hstep : s.exec step = some s') :
    (s'.Kept ∧ s.NotReused step) ↔ s.Completed step := by
  constructor
  · intro hkept
    cases step with
    | checkDirtyBuffer flag =>
        intro core i hphase hregistered send hsend hcore hbuffer
        simp only [exec, hphase] at hstep
        split at hstep
        · rename_i hguard
          obtain ⟨hlt, hcases⟩ := h.check_cases hphase hguard.1 hguard.2.2
          rcases hcases with ⟨hempty, _⟩ | ⟨_, rfl, hdirty⟩
          · rw [hempty] at hregistered
            exact absurd hregistered (by simp)
          · cases hstep
            have hinit := h.initialized core (.inr ⟨i, hphase⟩)
            have hspec := (h.ring core).wf.salvage hinit hlt hdirty
            obtain ⟨slot, _, haddress, hbusy⟩ := hkept.1 send hsend
            -- the check has made the buffer of the send available
            simp only [hcore, Function.update_self] at haddress hbusy
            rw [hspec.address, hbuffer] at haddress
            rw [← (h.ring core).wf.address_injective haddress, hspec.available,
              Function.update_self] at hbusy
            exact absurd hbusy (by simp)
        · cases hstep
    | isend =>
        intro core hphase hnone
        obtain ⟨_, hcopy⟩ := h.send_cases hphase s.requests
        rcases hcopy with ⟨_, _, _, _, hsome⟩ | ⟨haddress, _⟩
        · exact absurd hnone hsome
        · rw [← haddress]
          exact hkept.2 core hphase
    | _ => trivial
  · intro hcompleted
    refine ⟨(h.step hcompleted hstep).kept, ?_⟩
    cases step with
    | isend =>
        intro core hphase send hsend hcore hbuffer
        obtain ⟨_, hcopy⟩ := h.send_cases hphase s.requests
        rcases hcopy with ⟨slot, _, haddress, havailable, _⟩ | ⟨haddress, hnone⟩
        · obtain ⟨busy, _, hbusy, hdirty⟩ := h.kept send hsend
          rw [hcore] at hbusy hdirty
          rw [hbuffer, haddress] at hbusy
          rw [← (h.ring core).wf.address_injective hbusy, havailable] at hdirty
          exact absurd hdirty (by simp)
        · exact hcompleted core hphase hnone send hsend hcore (hbuffer.trans haddress)
    | _ => trivial

end MiniRankState

/-! ## Runs -/

variable {memory : ι → Nat} {size : Nat}

theorem miniRankSystem_inductive (hmemory : ∀ core, 0 < memory core) (hchunks : 0 < chunks)
    (hsize : 0 < size) :
    ((miniRankSystem memory chunks size).restrict MiniRankState.Completed).Inductive
      (MiniRankState.Inv chunks) := by
  refine ⟨fun s hs => ?_, fun s step s' h hstep => h.step hstep.1 hstep.2⟩
  rw [show s = MiniRankState.constructor memory chunks size from hs]
  exact MiniRankState.constructor_inv hmemory hchunks hsize

/-- `n` messages of mini-rank 0, none of which completes, and the sweep of the next call. -/
def earlySweep (n : Nat) : List (MiniRankStep (Fin 2)) :=
  .sendMessagesForMiniRank 0 :: List.replicate n .isend ++
    [.endCall, .sendMessagesForMiniRank 0, .checkDirtyBuffer true]

end RayPlatform
