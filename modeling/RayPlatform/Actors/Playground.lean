import RayPlatform.Communication.Message

/-!
# Playground

The actors of a rank: slot `i` of rank `r` holds the actor whose name is `r + i * size`.
What an actor does with a message is a parameter; it may spawn, send, and die.
-/

namespace RayPlatform

namespace Message

/-- The destination actor is not a rank. -/
def isActorModelMessage (m : Message) (size : Int32) : Bool :=
  !decide (m.destinationActor < size)

end Message

/-- An actor with the name of `configureStuff`. -/
structure Actor (α : Type) where
  name : Int32
  state : α

namespace Actor

def FIRST_TAG : Int := 10000

def BOOT : Int := FIRST_TAG + 1

end Actor

/-- What an actor does in `receive`. -/
structure Received (α : Type) where
  spawned : List α
  sent : List Message
  state : α
  isDead : Bool

structure Playground (α : Type) where
  actors : List (Option (Actor α))
  actorIterator : Int32
  aliveActors : Int
  deadActors : Int
  bornActors : Int

/-- The rank and the size that a playground asks its `ComputeCore` for. -/
structure RankOfJob where
  rank : Rank
  size : Int32
  /-- a job has a rank -/
  size_pos : 0 < size

namespace Playground

variable {α : Type}

def constructor : Playground α :=
  { actors := []
    actorIterator := 0
    aliveActors := 0
    deadActors := 0
    bornActors := 0 }

/-- Slot 0 is for the rank itself. -/
def reserve (p : Playground α) : Playground α :=
  if p.actorIterator = 0 then
    { p with
      actorIterator := p.actorIterator + 1
      actors := p.actors ++ [none] }
  else p

def spawnActor (job : RankOfJob) (p : Playground α) (actor : α) : Playground α :=
  let p := p.reserve
  let identifier := job.rank + p.actorIterator * job.size
  { actors := p.actors ++ [some ⟨identifier, actor⟩]
    actorIterator := p.actorIterator + 1
    aliveActors := p.aliveActors + 1
    deadActors := p.deadActors
    bornActors := p.bornActors + 1 }

def getActorRank (job : RankOfJob) (name : Int32) : Rank :=
  name % job.size

/-- The message as `sendActorMessage` gives it to `ComputeCore::send`. -/
def sendActorMessage (job : RankOfJob) (message : Message) : Message :=
  { message with
    source := getActorRank job message.sourceActor
    destination := getActorRank job message.destinationActor }

def slotOf (job : RankOfJob) (actorName : Int32) : Int32 :=
  actorName / job.size

/-- The living actor in a slot. -/
def actorAt (p : Playground α) (index : Int32) : Option (Actor α) :=
  (p.actors[index.toInt.toNat]?).join

/-- The table after `receive`: the actor dies or lives on. -/
def settle (p : Playground α) (index : Int32) (actor : Actor α) (received : Received α) :
    Playground α :=
  if received.isDead then
    { p with
      actors := p.actors.set index.toInt.toNat none
      aliveActors := p.aliveActors - 1
      deadActors := p.deadActors + 1 }
  else
    let survivor := { actor with state := received.state }
    { p with actors := p.actors.set index.toInt.toNat (some survivor) }

/-- `receiveActorMessage`, with what the actor sends and its slot. A message without a
living actor is dropped; a negative slot is outside the table. -/
def receiveActorMessage (receive : Actor α → Message → Received α) (job : RankOfJob)
    (p : Playground α) (message : Message) : Option (Playground α × List Message × Option Int32) :=
  let index := slotOf job message.destinationActor
  if index < 0 then none
  else
    match p.actorAt index with
    | none => some (p, [], none)
    | some actor =>
        let received := receive actor message
        let spawned := received.spawned.foldl (spawnActor job) p
        some (spawned.settle index actor received, received.sent.map (sendActorMessage job),
          some index)

/-- The slot of an actor message is in the table or behind its end. -/
theorem slotOf_nonneg {job : RankOfJob} {message : Message}
    (h : message.isActorModelMessage job.size = true) :
    ¬ slotOf job message.destinationActor < 0 := by
  have hsize := job.size_pos
  have hname : ¬ message.destinationActor < job.size := by
    simpa [Message.isActorModelMessage] using h
  have hzero : (0 : Int32).toInt = 0 := rfl
  have hmin : Int32.minValue.toInt = -2147483648 := rfl
  rw [Int32.lt_iff_toInt_lt] at hsize hname
  have hne : message.destinationActor ≠ Int32.minValue := by
    intro heq
    rw [heq] at hname
    omega
  have hdiv : 0 ≤ message.destinationActor.toInt.tdiv job.size.toInt :=
    Int.tdiv_nonneg (by omega) (by omega)
  rw [slotOf, Int32.lt_iff_toInt_lt, Int32.toInt_div_of_ne_left _ _ hne]
  omega

/-- An actor message is given to the living actor of its slot, and to no other. -/
theorem receiveActorMessage_spec (receive : Actor α → Message → Received α) {job : RankOfJob}
    (p : Playground α) {message : Message}
    (h : message.isActorModelMessage job.size = true) :
    ∃ p' sent, receiveActorMessage receive job p message =
      some (p', sent, (p.actorAt (slotOf job message.destinationActor)).map
        fun _ => slotOf job message.destinationActor) := by
  simp only [receiveActorMessage]
  rw [if_neg (slotOf_nonneg h)]
  cases p.actorAt (slotOf job message.destinationActor) with
  | none => exact ⟨p, [], rfl⟩
  | some actor => exact ⟨_, _, rfl⟩

end Playground

end RayPlatform
