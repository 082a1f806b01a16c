import RayPlatform.Communication.VirtualCommunicatorAnswers
import RayPlatform.Lib.Lifecycle

/-!
# VirtualProcessor

The workers of a rank take turns: an iterator goes through the set of the active ones, and
when it is at the end the workers that are done leave, those that wait are put to sleep and
those that were answered become active again. What a worker does when `work()` is called is
a parameter. The operations also tell what happened to the workers (`PoolHistory`).
-/

namespace RayPlatform

open Lib (Map LifeEvent)
open Lib.Map (first?)
open VirtualCommunicator

instance linearOrderUInt64 : LinearOrder UInt64 where
  le_refl _ := UInt64.le_refl _
  le_trans _ _ _ := UInt64.le_trans
  le_antisymm _ _ := UInt64.le_antisymm
  le_total := UInt64.le_total
  lt_iff_le_not_ge a b := by
    simp only [UInt64.lt_iff_toNat_lt, UInt64.le_iff_toNat_le]
    omega
  toDecidableLE := inferInstance
  min_def _ _ := rfl
  max_def _ _ := rfl

/-- A query of a worker. -/
structure WorkerQuery where
  group : Group
  content : List MessageUnit
  deriving DecidableEq, Repr

/-- What a worker does in one call of `work()`, and what it says of itself afterwards. -/
structure Work where
  /-- it takes its response, if it has one -/
  collects : Bool
  query : Option WorkerQuery
  isDone : Bool
  /-- `pushMessage` asserts that the worker has taken its last response -/
  collected : query.isSome = true → collects = true
  /-- a worker is not done while its query is outstanding -/
  answered : isDone = true → query = none

/-- `Worker::work` -/
def Work.perform (registry : TagRegistry) (vc : VirtualCommunicator) (workerId : WorkerHandle)
    (work : Work) : VirtualCommunicator :=
  let vc :=
    if work.collects ∧ vc.isMessageProcessed workerId then
      (vc.getMessageResponseElements workerId []).1
    else vc
  match work.query with
  | none => vc
  | some query =>
      vc.pushMessage registry workerId
        { content := query.content
          destination := query.group.destination
          tag := query.group.tag
          source := vc.rank }

structure VirtualProcessor where
  currentWorker : WorkerHandle
  moreTasksAreComing : Bool
  initiatedIterator : Bool
  activeWorkers : Finset WorkerHandle
  /-- `none` at the end -/
  activeWorkerIterator : Option WorkerHandle
  completedJobs : Nat
  maximumAliveWorkers : Nat
  workersDone : List WorkerHandle
  waitingWorkers : List WorkerHandle
  activeWorkersToRestore : List WorkerHandle
  /-- the numbers of the workers stand for the pointers -/
  aliveWorkers : Map WorkerHandle Nat

/-- The history of the workers of a pool. -/
abbrev PoolHistory := List (Nat × LifeEvent)

namespace VirtualProcessor

variable (vp : VirtualProcessor)

def reset : VirtualProcessor :=
  { vp with
    moreTasksAreComing := true
    initiatedIterator := false
    completedJobs := 0 }

/-- The current worker is not initialised. -/
def constructor (currentWorker : WorkerHandle) : VirtualProcessor :=
  reset
    { currentWorker := currentWorker
      moreTasksAreComing := false
      initiatedIterator := false
      activeWorkers := ∅
      activeWorkerIterator := none
      completedJobs := 0
      maximumAliveWorkers := 32768
      workersDone := []
      waitingWorkers := []
      activeWorkersToRestore := []
      aliveWorkers := ∅ }

def canAddWorker : Bool :=
  decide (vp.aliveWorkers.keys.card < vp.maximumAliveWorkers)

def hasWorkToDo : Bool :=
  decide (0 < vp.aliveWorkers.keys.card)

def noMoreTasksAreComing : VirtualProcessor :=
  { vp with moreTasksAreComing := false }

def addWorker (workerId : WorkerHandle) (worker : Nat) : VirtualProcessor :=
  { vp with
    aliveWorkers := vp.aliveWorkers.insert workerId worker
    activeWorkers := insert workerId vp.activeWorkers }

def getCurrentWorker : Option Nat :=
  vp.aliveWorkers.lookup vp.currentWorker

/-- `m_activeWorkers.begin()` -/
def begin : Option WorkerHandle :=
  first? vp.activeWorkers

/-- `m_activeWorkerIterator++` -/
def next (workerId : WorkerHandle) : Option WorkerHandle :=
  first? (vp.activeWorkers.filter (workerId < ·))

/-- What happens to those of the workers that are alive. -/
def eventsOf (event : LifeEvent) (workers : List WorkerHandle) : PoolHistory :=
  workers.filterMap fun workerId => (vp.aliveWorkers.lookup workerId).map fun n => (n, event)

/-- "erase completed jobs" -/
def eraseDone : VirtualProcessor :=
  { vp with
    activeWorkers := vp.workersDone.foldl Finset.erase vp.activeWorkers
    aliveWorkers := vp.workersDone.foldl (fun alive workerId => alive.erase workerId)
      vp.aliveWorkers
    completedJobs := vp.completedJobs + vp.workersDone.length
    workersDone := [] }

/-- "make some worker sleep" -/
def sleepWaiting : VirtualProcessor :=
  { vp with
    activeWorkers := vp.waitingWorkers.foldl Finset.erase vp.activeWorkers
    waitingWorkers := [] }

/-- "wake up some workers" -/
def wakeAnswered : VirtualProcessor :=
  { vp with
    activeWorkers := vp.activeWorkersToRestore.foldl (fun active workerId => insert workerId active)
      vp.activeWorkers
    activeWorkersToRestore := [] }

/-- `updateStates`, but for the status of the VirtualCommunicator. -/
def updateStates : VirtualProcessor × PoolHistory :=
  let slept := vp.eraseDone.sleepWaiting
  (slept.wakeAnswered,
    vp.eventsOf .leave vp.workersDone ++ slept.eventsOf .reactivate slept.activeWorkersToRestore)

/-- The iterator of the first call. -/
def initiateIterator : VirtualProcessor :=
  if vp.initiatedIterator then vp
  else
    { vp with
      activeWorkerIterator := vp.begin
      initiatedIterator := true }

/-- The turn of a worker. A worker that is not alive is a null pointer. -/
def workCurrent (registry : TagRegistry) (vc : VirtualCommunicator) (workerId : WorkerHandle)
    (work : Work) : Option (VirtualProcessor × VirtualCommunicator × PoolHistory) := do
  let worker ← vp.aliveWorkers.lookup workerId
  let vc := work.perform registry { vc with localPushedMessageStatus := false } workerId
  let pushed := vc.localPushedMessageStatus
  let moved :=
    { vp with
      currentWorker := workerId
      waitingWorkers := if pushed then vp.waitingWorkers ++ [workerId] else vp.waitingWorkers
      workersDone :=
        if !pushed && work.isDone then vp.workersDone ++ [workerId] else vp.workersDone
      activeWorkerIterator := vp.next workerId }
  return (moved, vc, (worker, .work) :: if pushed then [(worker, .ask)] else [])

/-- The end of a round. A message is always flushed, for the status was just reset. -/
def endRound (vc : VirtualCommunicator) :
    Option (VirtualProcessor × VirtualCommunicator × PoolHistory) := do
  let (vp, events) := vp.updateStates
  let vc := { vc with globalPushedMessageStatus := false }
  let vc ← if !vc.globalPushedMessageStatus then vc.forceFlush else some vc
  return ({ vp with activeWorkerIterator := vp.begin }, vc, events)

/-- `run`, which tells whether a worker worked. -/
def run (registry : TagRegistry) (vc : VirtualCommunicator) (inbox : List UnitMessage)
    (work : Work) : Option (VirtualProcessor × VirtualCommunicator × Bool × PoolHistory) := do
  let vp := vp.initiateIterator
  let (vc, activeWorkersToRestore) ← vc.processInbox registry inbox vp.activeWorkersToRestore
  let vp := { vp with activeWorkersToRestore := activeWorkersToRestore }
  if !vc.isReady then return (vp, vc, false, [])
  else
    match vp.activeWorkerIterator with
    | some workerId => do
        let (vp, vc, events) ← vp.workCurrent registry vc workerId work
        return (vp, vc, true, events)
    | none => do
        let (vp, vc, events) ← vp.endRound vc
        return (vp, vc, false, events)

end VirtualProcessor

end RayPlatform
