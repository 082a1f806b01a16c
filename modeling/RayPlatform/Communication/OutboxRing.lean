import RayPlatform.Lib.TransitionSystem
import RayPlatform.Memory.RingAllocator

/-!
# Outbox buffers in direct mode

The ticks of a rank, one micro-step at a time: `allocate` calls and messages of the
application, `ComputeCore::sendMessages` with its new buffer for every message and
its check of the number of allocations, `MessagesHandler::sendMessages` with its
sweep of the dirty buffers, its registrations and its calls to `MPI_Isend`, and
completions of outstanding requests at any point in between.
-/

namespace RayPlatform

/-- Where a tick is. -/
inductive OutboxPhase
  /-- the application handles messages and processes data -/
  | application
  /-- `ComputeCore::sendMessages` allocates the buffer of message `i` -/
  | reallocating (i : Nat)
  /-- `cleanDirtyBuffers` checks entry `i` -/
  | sweeping (i : Nat)
  /-- `MessagesHandler::sendMessages` sends message `i` -/
  | sending (i : Nat)
  deriving DecidableEq, Repr

structure OutboxState where
  ring : RingAllocator
  /-- the buffers of the messages of the outbox -/
  outbox : List (Option Nat)
  phase : OutboxPhase
  /-- the buffers allocated in this tick, the last one first -/
  handed : List Nat
  /-- the sends that have not completed, with the buffer MPI reads -/
  outstanding : List (Nat × Nat)
  /-- the number of calls to `MPI_Isend` -/
  requests : Nat

inductive OutboxStep
  | allocate
  | push (buffer : Option Nat)
  | sendMessages
  | reallocate
  | cleanDirtyBuffers
  | checkDirtyBuffer (flag : Bool)
  | endSweep
  | isend
  | endTick
  | complete (request : Nat)
  deriving DecidableEq, Repr

namespace OutboxState

def constructor (memory chunks size : Nat) : OutboxState :=
  { ring := RingAllocator.constructor memory chunks size
    outbox := []
    phase := .application
    handed := []
    outstanding := []
    requests := 0 }

/-- A call to `allocate`. -/
def allocated (s : OutboxState) : OutboxState :=
  { s with
    ring := s.ring.allocate.1
    handed := s.ring.allocate.2 :: s.handed }

/-- `resetCount` at the end of a tick. -/
def nextTick (s : OutboxState) : OutboxState :=
  { s with
    ring := s.ring.resetCount
    outbox := []
    phase := .application
    handed := [] }

/-- `MPI_Test` reports done only after completion. -/
def mayTest (s : OutboxState) (i : Nat) (flag : Bool) : Bool :=
  !flag || match (s.ring.dirtyBuffer i).messageRequest with
    | some request => !(s.outstanding.map Prod.fst).contains request
    | none => true

/-- The ring after `MPI_Isend` of a buffer: it is registered if it was not, and the
request is written in its entry; otherwise a dummy request is freed. -/
def isendRing (r : RingAllocator) (buffer request : Nat) : RingAllocator :=
  let handle := r.getBufferHandle buffer
  if r.isRegistered handle then r
  else (r.registerBuffer buffer).setRequest handle (some request)

def exec (s : OutboxState) : OutboxStep → Option OutboxState
  | .allocate => if s.phase = .application then some s.allocated else none
  | .push buffer =>
      if s.phase = .application then some { s with outbox := s.outbox ++ [buffer] } else none
  | .sendMessages =>
      if s.phase = .application then
        -- nothing is done when there are no messages at all
        if s.outbox.length = 0 then some s.nextTick else some { s with phase := .reallocating 0 }
      else none
  | .reallocate =>
      match s.phase with
      | .reallocating i =>
          if i < s.outbox.length then
            some
              { s.allocated with
                outbox := s.outbox.set i (some s.ring.allocate.2)
                phase := .reallocating (i + 1) }
          else none
      | _ => none
  | .cleanDirtyBuffers =>
      match s.phase with
      | .reallocating i =>
          -- the allocations of the tick did not overflow the ring
          if i = s.outbox.length ∧ s.ring.count ≤ s.ring.chunks then
            let ring := if s.ring.dirtyBuffers.isNone then s.ring.initializeDirtyBuffers else s.ring
            some { s with ring := ring, phase := if ring.mustSweep then .sweeping 0 else .sending 0 }
          else none
      | _ => none
  | .checkDirtyBuffer flag =>
      match s.phase with
      | .sweeping i =>
          if i < s.ring.dirtyBufferSlots ∧ s.ring.numberOfDirtyBuffers ≠ 0 ∧
              s.mayTest i flag = true then
            some { s with ring := s.ring.checkDirtyBuffer i flag, phase := .sweeping (i + 1) }
          else none
      | _ => none
  | .endSweep =>
      match s.phase with
      | .sweeping i =>
          if i = s.ring.dirtyBufferSlots ∨ s.ring.numberOfDirtyBuffers = 0 then
            some { s with phase := .sending 0 }
          else none
      | _ => none
  | .isend =>
      match s.phase with
      | .sending i =>
          match s.outbox[i]? with
          | some (some buffer) =>
              some
                { s with
                  ring := isendRing s.ring buffer s.requests
                  outstanding := (s.requests, buffer) :: s.outstanding
                  requests := s.requests + 1
                  phase := .sending (i + 1) }
          | some none => some { s with requests := s.requests + 1, phase := .sending (i + 1) }
          | none => none
      | _ => none
  | .endTick =>
      match s.phase with
      | .sending i => if i = s.outbox.length then some s.nextTick else none
      | _ => none
  | .complete request =>
      some { s with outstanding := s.outstanding.filter fun send => send.1 ≠ request }

end OutboxState

end RayPlatform
