import RayPlatform.Lib.OrderedMap
import RayPlatform.Communication.Message

/-!
# VirtualCommunicator

Queries of workers are grouped by tag and destination and travel as one message.
The content of a group, the workers that wait for it and its place in the priority
queue are three maps; a reply is cut in blocks, one for each worker.

The operations return `none` where the code would read outside a buffer or a set.
The messages stay in `outbox`.
-/

namespace RayPlatform

open Lib (Map)

abbrev MessageTag := Int32

abbrev MessageUnit := UInt64

abbrev WorkerHandle := UInt64

def MAX_NUMBER_OF_MPI_PROCESSES : Nat := 1000000

def sizeofMessageUnit : Nat := 8

/-- A message with its buffer, counted in `MessageUnit`. -/
structure UnitMessage where
  content : List MessageUnit
  destination : Rank
  tag : MessageTag
  source : Rank
  deriving DecidableEq, Repr

/-- What `setElementsPerQuery` and `setReplyType` have registered. -/
structure TagRegistry where
  elementSizes : MessageTag → Nat
  replyTagToQueryTag : MessageTag → Option MessageTag

structure VirtualCommunicator where
  pushedMessages : Nat
  flushedMessages : Nat
  priorityQueue : Map Nat (Finset Nat)
  workerCurrentIdentifiers : Map MessageTag (Map Rank (List WorkerHandle))
  messageContent : Map MessageTag (Map Rank (List MessageUnit))
  elementsForWorkers : Map WorkerHandle (List MessageUnit)
  rank : Rank
  activeDestination : Rank
  activeTag : MessageTag
  pendingMessages : Int
  localPushedMessageStatus : Bool
  globalPushedMessageStatus : Bool
  outbox : List UnitMessage

/-- A tag and a destination. -/
structure Group where
  tag : MessageTag
  destination : Rank
  deriving DecidableEq, Repr

namespace VirtualCommunicator

/-- The active tag and destination are not initialised. -/
def constructor (rank activeDestination : Rank) (activeTag : MessageTag) : VirtualCommunicator :=
  { pushedMessages := 0
    flushedMessages := 0
    priorityQueue := ∅
    workerCurrentIdentifiers := ∅
    messageContent := ∅
    elementsForWorkers := ∅
    rank := rank
    activeDestination := activeDestination
    activeTag := activeTag
    pendingMessages := 0
    localPushedMessageStatus := false
    globalPushedMessageStatus := false
    outbox := [] }

/-- In `uint64_t`. -/
def getMessageUniqueId (destination : Rank) (tag : MessageTag) : Nat :=
  ((tag.toInt * MAX_NUMBER_OF_MPI_PROCESSES + destination.toInt) % 2 ^ 64).toNat

def getTagFromMessageUniqueId (a : Nat) : MessageTag :=
  Int32.ofNat (a / MAX_NUMBER_OF_MPI_PROCESSES)

def getDestinationFromMessageUniqueId (a : Nat) : Rank :=
  Int32.ofNat (a % MAX_NUMBER_OF_MPI_PROCESSES)

def isReady (vc : VirtualCommunicator) : Bool :=
  decide (vc.pendingMessages = 0)

def flushMessage (vc : VirtualCommunicator) (tag : MessageTag) (destination : Rank) :
    VirtualCommunicator :=
  let content := (vc.messageContent.get tag).get destination
  let priority := content.length
  let elementId := getMessageUniqueId destination tag
  { vc with
    flushedMessages := vc.flushedMessages + 1
    priorityQueue := vc.priorityQueue.eraseFrom priority elementId
    activeDestination := destination
    activeTag := tag
    messageContent := vc.messageContent.eraseInner tag destination
    outbox := vc.outbox ++
      [{ content := content, destination := destination, tag := tag, source := vc.rank }]
    pendingMessages := vc.pendingMessages + 1 }

/-- The number of queries that fill a message. -/
def queryThreshold (period : Nat) : Nat :=
  MAXIMUM_MESSAGE_SIZE_IN_BYTES / sizeofMessageUnit / period

/-- The priority a group has, and the queue without it. -/
def deleteOldPriority (vc : VirtualCommunicator) (tag : MessageTag) (destination : Rank) :
    Nat × Map Nat (Finset Nat) :=
  match (vc.messageContent.get tag).lookup destination with
  | some content =>
      (content.length,
        vc.priorityQueue.eraseFrom content.length (getMessageUniqueId destination tag))
  | none => (0, vc.priorityQueue)

/-- `push_back` of the units of a query, one by one. -/
def pushUnits (messageContent : Map MessageTag (Map Rank (List MessageUnit))) (tag : MessageTag)
    (destination : Rank) (buffer : List MessageUnit) :
    Map MessageTag (Map Rank (List MessageUnit)) :=
  buffer.foldl
    (fun messageContent element =>
      messageContent.modifyInner tag destination (· ++ [element]))
    messageContent

/-- `pushMessage`, until the size of the group is checked. -/
def groupMessage (vc : VirtualCommunicator) (workerId : WorkerHandle) (message : UnitMessage) :
    VirtualCommunicator :=
  let tag := message.tag
  let destination := message.destination
  let count := message.content.length
  let elementId := getMessageUniqueId destination tag
  let (oldPriority, priorityQueue) := vc.deleteOldPriority tag destination
  let newPriority := oldPriority + count
  { vc with
    pushedMessages := vc.pushedMessages + 1
    globalPushedMessageStatus := true
    localPushedMessageStatus := true
    priorityQueue := priorityQueue.insertIn newPriority elementId
    messageContent := pushUnits vc.messageContent tag destination message.content
    workerCurrentIdentifiers :=
      vc.workerCurrentIdentifiers.modifyInner tag destination (· ++ [workerId]) }

def pushMessage (registry : TagRegistry) (vc : VirtualCommunicator) (workerId : WorkerHandle)
    (message : UnitMessage) : VirtualCommunicator :=
  let tag := message.tag
  let destination := message.destination
  let period := registry.elementSizes tag
  let vc := vc.groupMessage workerId message
  let currentSize := ((vc.workerCurrentIdentifiers.get tag).get destination).length
  -- check if the current size is good enough to flush the whole thing
  if currentSize ≥ queryThreshold period then vc.flushMessage tag destination else vc

def isMessageProcessed (vc : VirtualCommunicator) (workerId : WorkerHandle) : Bool :=
  (vc.elementsForWorkers.lookup workerId).isSome

def getMessageResponseElements (vc : VirtualCommunicator) (workerId : WorkerHandle)
    (out : List MessageUnit) : VirtualCommunicator × List MessageUnit :=
  ({ vc with elementsForWorkers := vc.elementsForWorkers.erase workerId },
    out ++ vc.elementsForWorkers.get workerId)

/-- The units of the block at `basePosition`, for a worker. -/
def classify (buffer : List MessageUnit) (basePosition : Nat) (workerId : WorkerHandle) :
    Nat → Map WorkerHandle (List MessageUnit) → Option (Map WorkerHandle (List MessageUnit))
  | 0, elements => some elements
  | j + 1, elements => do
      let elements ← classify buffer basePosition workerId j elements
      let element ← buffer[basePosition + j]?
      return elements.modify workerId (· ++ [element])

/-- The block of each worker, from worker `i` on. -/
def demultiplex (buffer : List MessageUnit) (elementsPerWorker : Nat) :
    Nat → List WorkerHandle → Map WorkerHandle (List MessageUnit) →
      Option (Map WorkerHandle (List MessageUnit))
  | _, [], elements => some elements
  | i, workerId :: workers, elements => do
      let elements ←
        classify buffer (i * elementsPerWorker) workerId elementsPerWorker elements
      demultiplex buffer elementsPerWorker (i + 1) workers elements

def processInbox (registry : TagRegistry) (vc : VirtualCommunicator) (inbox : List UnitMessage)
    (activeWorkers : List WorkerHandle) : Option (VirtualCommunicator × List WorkerHandle) :=
  if 0 < vc.pendingMessages then
    match inbox with
    | [] => some (vc, activeWorkers)
    | message :: _ =>
        match registry.replyTagToQueryTag message.tag with
        | none => some (vc, activeWorkers)
        | some queryTag =>
            if vc.activeTag = queryTag ∧ vc.activeDestination = message.source then do
              let workers := (vc.workerCurrentIdentifiers.get vc.activeTag).get vc.activeDestination
              let elements ←
                demultiplex message.content (registry.elementSizes queryTag) 0 workers
                  vc.elementsForWorkers
              let vc' : VirtualCommunicator :=
                { vc with
                  pendingMessages := vc.pendingMessages - 1
                  workerCurrentIdentifiers :=
                    vc.workerCurrentIdentifiers.modifyInner vc.activeTag vc.activeDestination
                      fun _ => []
                  elementsForWorkers := elements }
              return (vc', activeWorkers ++ workers)
            else some (vc, activeWorkers)
  else some (vc, activeWorkers)

/-- It flushes the first group of the highest priority. -/
def forceFlush (vc : VirtualCommunicator) : Option VirtualCommunicator :=
  if vc.priorityQueue.keys.card = 0 then some vc
  else do
    let elementId ← vc.priorityQueue.top?
    return vc.flushMessage (getTagFromMessageUniqueId elementId)
      (getDestinationFromMessageUniqueId elementId)

def hasMessagesToFlush (vc : VirtualCommunicator) : Bool :=
  decide (vc.messageContent.keys.card ≠ 0)

end VirtualCommunicator

/-! ## Identifiers of groups -/

open VirtualCommunicator

/-- The key of a group in the priority queue. -/
def Group.elementId (g : Group) : Nat :=
  getMessageUniqueId g.destination g.tag

/-- Groups whose identifiers can be decoded. -/
structure Group.Addressable (g : Group) : Prop where
  tag : 0 ≤ g.tag
  destination : 0 ≤ g.destination
  bounded : g.destination.toInt < MAX_NUMBER_OF_MPI_PROCESSES

/-- The bounds, in the integers. -/
theorem Group.Addressable.bounds {g : Group} (h : g.Addressable) :
    0 ≤ g.tag.toInt ∧ g.tag.toInt < 2 ^ 31 ∧ 0 ≤ g.destination.toInt ∧
      g.destination.toInt < 1000000 :=
  ⟨Int32.le_iff_toInt_le.mp h.tag, g.tag.toInt_lt, Int32.le_iff_toInt_le.mp h.destination,
    h.bounded⟩

theorem Group.Addressable.elementId_eq {g : Group} (h : g.Addressable) :
    g.elementId = g.tag.toInt.toNat * 1000000 + g.destination.toInt.toNat := by
  obtain ⟨htag, htagMax, hdestination, hbounded⟩ := h.bounds
  have hmaximum : (MAX_NUMBER_OF_MPI_PROCESSES : Int) = 1000000 := rfl
  unfold Group.elementId getMessageUniqueId
  rw [hmaximum, Int.emod_eq_of_lt (by omega) (by omega)]
  omega

/-- The tag and the destination can be read from the identifier. -/
theorem Group.Addressable.decode {g : Group} (h : g.Addressable) :
    getTagFromMessageUniqueId g.elementId = g.tag ∧
      getDestinationFromMessageUniqueId g.elementId = g.destination := by
  obtain ⟨htag, htagMax, hdestination, hbounded⟩ := h.bounds
  have hid := h.elementId_eq
  have hdiv : g.elementId / MAX_NUMBER_OF_MPI_PROCESSES = g.tag.toInt.toNat := by
    show g.elementId / 1000000 = _
    omega
  have hmod : g.elementId % MAX_NUMBER_OF_MPI_PROCESSES = g.destination.toInt.toNat := by
    show g.elementId % 1000000 = _
    omega
  unfold getTagFromMessageUniqueId getDestinationFromMessageUniqueId
  rw [hdiv, hmod, ← Int32.toInt_inj, ← Int32.toInt_inj]
  rw [Int32.toInt_ofNat_of_lt (by omega), Int32.toInt_ofNat_of_lt (by omega)]
  omega

/-- Groups with the rank of a job as destination, whatever their tag. -/
structure Group.HasRank (g : Group) : Prop where
  destination : 0 ≤ g.destination
  bounded : g.destination.toInt < MAX_NUMBER_OF_MPI_PROCESSES

theorem Group.Addressable.hasRank {g : Group} (h : g.Addressable) : g.HasRank :=
  ⟨h.destination, h.bounded⟩

theorem Group.HasRank.bounds {g : Group} (h : g.HasRank) :
    -2 ^ 31 ≤ g.tag.toInt ∧ g.tag.toInt < 2 ^ 31 ∧ 0 ≤ g.destination.toInt ∧
      g.destination.toInt < 1000000 :=
  ⟨g.tag.le_toInt, g.tag.toInt_lt, Int32.le_iff_toInt_le.mp h.destination, h.bounded⟩

/-- No two of them have the same identifier. -/
theorem Group.HasRank.elementId_inj {g g' : Group} (h : g.HasRank) (h' : g'.HasRank)
    (heq : g.elementId = g'.elementId) : g = g' := by
  obtain ⟨htagMin, htagMax, hdestination, hbounded⟩ := h.bounds
  obtain ⟨htagMin', htagMax', hdestination', hbounded'⟩ := h'.bounds
  have hmaximum : (MAX_NUMBER_OF_MPI_PROCESSES : Int) = 1000000 := rfl
  unfold Group.elementId getMessageUniqueId at heq
  rw [hmaximum] at heq
  -- the identifiers are far from a whole turn of the 64-bit words apart
  have hsame : ∀ x x' : Int, -2 ^ 52 < x → x < 2 ^ 52 → -2 ^ 52 < x' → x' < 2 ^ 52 →
      (x % 2 ^ 64).toNat = (x' % 2 ^ 64).toNat → x = x' := by omega
  have hword := hsame _ _ (by omega) (by omega) (by omega) (by omega) heq
  have hboth : g.tag.toInt = g'.tag.toInt ∧ g.destination.toInt = g'.destination.toInt := by
    clear heq
    omega
  cases g
  cases g'
  rw [Group.mk.injEq, ← Int32.toInt_inj, ← Int32.toInt_inj]
  exact hboth

theorem Group.Addressable.elementId_inj {g g' : Group} (h : g.Addressable) (h' : g'.Addressable)
    (heq : g.elementId = g'.elementId) : g = g' :=
  h.hasRank.elementId_inj h'.hasRank heq

end RayPlatform
