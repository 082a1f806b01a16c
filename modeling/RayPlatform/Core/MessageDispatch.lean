import RayPlatform.Actors.Playground
import RayPlatform.Communication.MessageRouter
import RayPlatform.Scheduling.SwitchMan

/-!
# The dispatch of messages

`ComputeCore::processMessages` relays the message of the inbox, or gives it to an actor,
to the switchman and to the handler of its tag. `callHandler` reads the table of handlers
without a check; a read outside the table fails here. A message that was given to an actor
goes on to the table as well, hence a message is delivered once only if its tag is in the
table and is the tag of no handler (`processMessages_deliversOnce`).
-/

namespace RayPlatform

open MessageRouter

def MAXIMUM_NUMBER_OF_TAG_HANDLERS : Nat := 256

def INVALID_HANDLE : Int := -9876

/-- The table of the handlers, and the cache in front of it, which nothing ever fills. -/
structure MessageTagExecutor (η : Type) where
  objects : Vector (Option η) MAXIMUM_NUMBER_OF_TAG_HANDLERS
  cachedOperationCode : Int
  cachedOperationHandler : Option η

namespace MessageTagExecutor

variable {η : Type}

def constructor : MessageTagExecutor η :=
  { objects := Vector.replicate MAXIMUM_NUMBER_OF_TAG_HANDLERS none
    cachedOperationCode := INVALID_HANDLE
    cachedOperationHandler := none }

def InTable (messageTag : Int) : Prop :=
  0 ≤ messageTag ∧ messageTag < MAXIMUM_NUMBER_OF_TAG_HANDLERS

instance (messageTag : Int) : Decidable (InTable messageTag) :=
  inferInstanceAs (Decidable (_ ∧ _))

/-- `m_objects[messageTag]` -/
def readObject (e : MessageTagExecutor η) (messageTag : Int) : Option (Option η) :=
  if 0 ≤ messageTag then e.objects[messageTag.toNat]? else none

/-- The object that `callHandler` calls, if any. -/
def callHandler (e : MessageTagExecutor η) (messageTag : Int) : Option (Option η) :=
  if messageTag ≠ e.cachedOperationCode then e.readObject messageTag
  else some e.cachedOperationHandler

/-- The handler of a tag. -/
def handlerOf (e : MessageTagExecutor η) (messageTag : Int) : Option η :=
  (e.callHandler messageTag).join

/-- The tag is in the cache or in the table. -/
def Callable (e : MessageTagExecutor η) (messageTag : Int) : Prop :=
  messageTag = e.cachedOperationCode ∨ InTable messageTag

theorem readObject_isSome_iff {e : MessageTagExecutor η} {messageTag : Int} :
    (e.readObject messageTag).isSome = true ↔ InTable messageTag := by
  unfold readObject InTable
  split
  · rename_i hnonneg
    rw [Option.isSome_iff_ne_none, ne_eq, Vector.getElem?_eq_none_iff]
    omega
  · simp
    omega

theorem callHandler_isSome_iff {e : MessageTagExecutor η} {messageTag : Int} :
    (e.callHandler messageTag).isSome = true ↔ e.Callable messageTag := by
  unfold callHandler Callable
  split
  · rename_i hcode
    rw [readObject_isSome_iff]
    simp [hcode]
  · rename_i hcode
    simp [not_not.mp hcode]

end MessageTagExecutor

/-- The parts of a `ComputeCore` that see the message of the inbox. -/
structure ComputeCore (α η : Type) where
  job : RankOfJob
  router : MessageRouter
  playground : Playground α
  switchMan : SwitchMan
  messageTagExecutor : MessageTagExecutor η
  inbox : Option Message
  outbox : List Message

/-- What the actors and the handlers do with a message. -/
structure Behaviour (α η : Type) where
  receive : Actor α → Message → Received α
  /-- what a handler sends -/
  call : η → Message → List Message

/-- Who gets a message. -/
inductive MessageReceiver (η : Type)
  | actor (slot : Int32)
  | handler (object : η)
  deriving DecidableEq, Repr

namespace ComputeCore

variable {α η : Type} (behaviour : Behaviour α η) (core : ComputeCore α η)

/-- `routeIncomingMessages`, where the router is enabled. -/
def routed (message : Message) : Routed :=
  if core.router.enabled then core.router.routeIncomingMessage core.job.rank message
  else .dispatch message

/-- The message that the router does not keep, for the actor it is for. -/
def dispatchToActor (message : Message) : Option (ComputeCore α η × List (MessageReceiver η)) :=
  if message.isActorModelMessage core.job.size then do
    let (playground, sent, slot) ←
      core.playground.receiveActorMessage behaviour.receive core.job message
    return ({ core with
      playground := playground
      outbox := core.outbox ++ sent }, slot.toList.map .actor)
  else return (core, [])

/-- The switches are between the tags of the handlers, which are not negative. -/
def openSlaveModeLocally (messageTag : Int) : SwitchMan :=
  if 0 ≤ messageTag then core.switchMan.openSlaveModeLocally messageTag.toNat else core.switchMan

/-- The same message for the handler of its tag. -/
def dispatchToHandler (message : Message) :
    Option (ComputeCore α η × List (MessageReceiver η)) := do
  let object ← core.messageTagExecutor.callHandler message.tag
  return ({ core with outbox := core.outbox ++ (object.map (behaviour.call · message)).getD [] },
    object.toList.map .handler)

/-- `processMessages`, with the receivers that the message of the inbox was given to. -/
def processMessages : Option (ComputeCore α η × List (MessageReceiver η)) :=
  match core.inbox with
  | none => some (core, [])
  | some arrived =>
      match core.routed arrived with
      | .relay next => some ({ core with inbox := none, outbox := core.outbox ++ [next] }, [])
      | .dispatch message => do
          let core := { core with inbox := some message }
          -- there is no return behind the actor
          let (core, actors) ← core.dispatchToActor behaviour message
          let core := { core with switchMan := core.openSlaveModeLocally message.tag }
          let (core, handlers) ← core.dispatchToHandler behaviour message
          return (core, actors ++ handlers)

/-! ## One receiver -/

/-- The receiver of a message: the actor it is for, or the handler of its tag. -/
def receiverOf (message : Message) : Option (MessageReceiver η) :=
  let slot := Playground.slotOf core.job message.destinationActor
  if message.isActorModelMessage core.job.size then
    (core.playground.actorAt slot).map fun _ => .actor slot
  else (core.messageTagExecutor.handlerOf message.tag).map .handler

/-- A message that arrives is sent on by the router, or is delivered once, to its receiver,
and the table of handlers is read inside its bounds. -/
def DeliversOnce (arrived : Message) : Prop :=
  ∃ core' receivers,
    { core with inbox := some arrived }.processMessages behaviour = some (core', receivers) ∧
      match core.routed arrived with
      | .relay next => core'.outbox = core.outbox ++ [next] ∧ receivers = []
      | .dispatch message => ∃ receiver, core.receiverOf message = some receiver ∧
          receivers = [receiver]

/-- The tag can be looked up; an actor message is for a living actor and has the tag of no
handler, another message has the tag of a handler. -/
structure Deliverable (message : Message) : Prop where
  callable : core.messageTagExecutor.Callable message.tag
  actor : message.isActorModelMessage core.job.size = true →
    (core.playground.actorAt (Playground.slotOf core.job message.destinationActor)).isSome ∧
      core.messageTagExecutor.handlerOf message.tag = none
  handler : message.isActorModelMessage core.job.size = false →
    (core.messageTagExecutor.handlerOf message.tag).isSome

variable {behaviour core} {message : Message}

/-- Only the actor that a message is for gets it, and the table of handlers stays. -/
theorem dispatchToActor_spec (behaviour : Behaviour α η) (core : ComputeCore α η)
    (message : Message) :
    ∃ core', core.dispatchToActor behaviour message = some (core',
        if message.isActorModelMessage core.job.size then (core.receiverOf message).toList
        else []) ∧
      core'.messageTagExecutor = core.messageTagExecutor := by
  unfold dispatchToActor
  split
  · rename_i h
    obtain ⟨playground, sent, hreceive⟩ :=
      Playground.receiveActorMessage_spec behaviour.receive core.playground h
    refine ⟨{ core with playground := playground, outbox := core.outbox ++ sent }, ?_, rfl⟩
    simp only [hreceive, receiverOf, h]
    cases core.playground.actorAt (Playground.slotOf core.job message.destinationActor) with
    | none => rfl
    | some actor => rfl
  · exact ⟨core, rfl, rfl⟩

/-- Any message is looked up in the table, and given to the handler that is found. -/
theorem dispatchToHandler_eq (behaviour : Behaviour α η) (core : ComputeCore α η)
    (message : Message) :
    ∃ core', core.dispatchToHandler behaviour message =
      (core.messageTagExecutor.callHandler message.tag).map fun object =>
        (core', object.toList.map .handler) := by
  unfold dispatchToHandler
  cases core.messageTagExecutor.callHandler message.tag with
  | none => exact ⟨core, rfl⟩
  | some object => exact ⟨_, rfl⟩

/-- The receivers of a message that the router does not keep. -/
theorem processMessages_dispatch (behaviour : Behaviour α η) {core : ComputeCore α η}
    {arrived message : Message} (h : core.routed arrived = .dispatch message) :
    ∃ core', { core with inbox := some arrived }.processMessages behaviour =
      (core.messageTagExecutor.callHandler message.tag).map fun object =>
        (core', (if message.isActorModelMessage core.job.size then (core.receiverOf message).toList
          else []) ++ object.toList.map .handler) := by
  obtain ⟨served, hactor, hexecutor⟩ :=
    dispatchToActor_spec behaviour { core with inbox := some message } message
  obtain ⟨core', hhandler⟩ := dispatchToHandler_eq behaviour
    { served with switchMan := served.openSlaveModeLocally message.tag } message
  refine ⟨core', ?_⟩
  have hrouted : { core with inbox := some arrived }.routed arrived = .dispatch message := h
  simp only [processMessages, hrouted]
  rw [hactor]
  simp only [Option.bind_eq_bind, Option.bind_some]
  rw [hhandler, hexecutor]
  cases core.messageTagExecutor.callHandler message.tag with
  | none => rfl
  | some object => rfl

/-- A message that the router does not keep is delivered once exactly when it is
deliverable. -/
theorem deliversOnce_dispatch (behaviour : Behaviour α η) {core : ComputeCore α η}
    {arrived message : Message} (h : core.routed arrived = .dispatch message) :
    core.DeliversOnce behaviour arrived ↔ core.Deliverable message := by
  obtain ⟨core', hprocess⟩ := processMessages_dispatch behaviour h
  unfold DeliversOnce
  rw [hprocess]
  simp only [h]
  constructor
  · rintro ⟨core', receivers, hcall, receiver, hreceiver, hone⟩
    obtain ⟨object, hobject, hout⟩ := Option.map_eq_some_iff.mp hcall
    obtain ⟨-, hout⟩ := Prod.mk.inj hout
    have hhandlerOf : core.messageTagExecutor.handlerOf message.tag = object := by
      simp [MessageTagExecutor.handlerOf, hobject]
    refine ⟨?_, ?_, ?_⟩
    · rw [← MessageTagExecutor.callHandler_isSome_iff, hobject]
      rfl
    · intro hactor
      rw [hone, if_pos hactor, hreceiver] at hout
      simp only [receiverOf, hactor, if_true] at hreceiver
      constructor
      · obtain ⟨actor, hactor, -⟩ := Option.map_eq_some_iff.mp hreceiver
        rw [hactor]
        rfl
      · -- a handler would be a second receiver
        rw [hhandlerOf]
        cases object with
        | none => rfl
        | some object => simp at hout
    · intro hactor
      simp only [receiverOf, hactor] at hreceiver
      cases hhandler : core.messageTagExecutor.handlerOf message.tag with
      | none => simp [hhandler] at hreceiver
      | some object => rfl
  · rintro ⟨hcallable, hactor, hhandler⟩
    obtain ⟨object, hobject⟩ := Option.isSome_iff_exists.mp
      (MessageTagExecutor.callHandler_isSome_iff.mpr hcallable)
    have hhandlerOf : core.messageTagExecutor.handlerOf message.tag = object := by
      simp [MessageTagExecutor.handlerOf, hobject]
    rw [hobject]
    refine ⟨core', _, rfl, ?_⟩
    cases hkind : message.isActorModelMessage core.job.size with
    | true =>
        obtain ⟨hlives, hnone⟩ := hactor hkind
        obtain ⟨actor, hactor⟩ := Option.isSome_iff_exists.mp hlives
        rw [hhandlerOf] at hnone
        refine ⟨.actor (Playground.slotOf core.job message.destinationActor), ?_, ?_⟩
        · simp [receiverOf, hkind, hactor]
        · simp [receiverOf, hkind, hactor, hnone]
    | false =>
        obtain ⟨handler, hsome⟩ := Option.isSome_iff_exists.mp (hhandler hkind)
        refine ⟨.handler handler, ?_, ?_⟩
        · simp [receiverOf, hkind, hsome]
        · rw [hhandlerOf] at hsome
          simp [hsome]

/-- A message that the router sends on is given to no receiver of the rank. -/
theorem deliversOnce_relay (behaviour : Behaviour α η) {core : ComputeCore α η}
    {arrived next : Message} (h : core.routed arrived = .relay next) :
    core.DeliversOnce behaviour arrived := by
  refine ⟨{ core with inbox := none, outbox := core.outbox ++ [next] }, [], ?_, ?_⟩
  · have hrouted : { core with inbox := some arrived }.routed arrived = .relay next := h
    simp only [processMessages, hrouted]
  · simp [h]

/-- The tags of the actors are behind the table of the handlers. -/
theorem Deliverable.tag_lt (h : core.Deliverable message)
    (hcode : core.messageTagExecutor.cachedOperationCode = INVALID_HANDLE) :
    message.tag < Actor.FIRST_TAG := by
  have hcallable := h.callable
  simp only [MessageTagExecutor.Callable, hcode, MessageTagExecutor.InTable, INVALID_HANDLE,
    MAXIMUM_NUMBER_OF_TAG_HANDLERS] at hcallable
  simp only [Actor.FIRST_TAG]
  omega

/-- A message that arrives is delivered once exactly when the router sends it on or when
what the router makes of it is deliverable. -/
theorem processMessages_deliversOnce (behaviour : Behaviour α η) (core : ComputeCore α η)
    (arrived : Message) :
    core.DeliversOnce behaviour arrived ↔
      ∀ message, core.routed arrived = .dispatch message → core.Deliverable message := by
  cases h : core.routed arrived with
  | dispatch message =>
      rw [deliversOnce_dispatch behaviour h]
      constructor
      · intro hdeliverable m hm
        cases hm
        exact hdeliverable
      · intro hdeliverable
        exact hdeliverable message rfl
  | relay next =>
      simp only [deliversOnce_relay behaviour h, true_iff]
      intro m hm
      cases hm

/-- Rank 0 of two, with an actor whose name is 2. -/
def actorCore : ComputeCore Unit Unit :=
  let job : RankOfJob := ⟨0, 2, by decide⟩
  let tables : SwitchTables := ⟨0, 0, 0, fun _ => none, fun _ => none, fun _ => none⟩
  { job := job
    router := ⟨false, ⟨fun _ _ => true, fun _ destination _ => destination⟩⟩
    playground := Playground.constructor.spawnActor job ()
    switchMan := SwitchMan.constructor tables 2
    messageTagExecutor := MessageTagExecutor.constructor
    inbox := none
    outbox := [] }

/-- The actor gets a message from itself, and the table of the handlers is read at 10002. -/
theorem processMessages_outsideTable :
    let greeting :=
      { Message.new 0 0 (Actor.BOOT + 1) 0 with sourceActor := 2, destinationActor := 2 }
    let behaviour : Behaviour Unit Unit := ⟨fun _ _ => ⟨[], [], (), false⟩, fun _ _ => []⟩
    actorCore.receiverOf greeting = some (.actor 1) ∧
      ¬ actorCore.DeliversOnce behaviour greeting := by
  refine ⟨by decide, ?_⟩
  rw [deliversOnce_dispatch _ rfl]
  intro hdeliverable
  have hlt := hdeliverable.tag_lt rfl
  exact absurd hlt (by decide)

end ComputeCore

end RayPlatform
