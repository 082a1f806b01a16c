import RayPlatform.Lib.MemoryBlock

/-!
# Message

A message and the metadata that travels behind its payload. The buffer a message
points to is passed beside it, as a block of memory; accesses outside the block
fail. The metadata of a payload of `n` bytes are six integers from byte `n` on:
the actors, the ends of the route and the mini-ranks (`Envelope`). The four bytes
of `MESSAGE_META_DATA_CHECKSUM` are counted but never written.
-/

namespace RayPlatform

open Lib (MemoryBlock intBytes bytesInt length_intBytes bytesInt_intBytes)
open Lib.MemoryBlock

abbrev Rank := Int32

def MAXIMUM_MESSAGE_SIZE_IN_BYTES : Nat := 4000

def MESSAGE_META_DATA_ACTOR_SOURCE : Nat := 0
def MESSAGE_META_DATA_ACTOR_DESTINATION : Nat := MESSAGE_META_DATA_ACTOR_SOURCE + 4
def MESSAGE_META_DATA_ROUTE_SOURCE : Nat := MESSAGE_META_DATA_ACTOR_DESTINATION + 4
def MESSAGE_META_DATA_ROUTE_DESTINATION : Nat := MESSAGE_META_DATA_ROUTE_SOURCE + 4
def MESSAGE_META_DATA_MINIRANK_SOURCE : Nat := MESSAGE_META_DATA_ROUTE_DESTINATION + 4
def MESSAGE_META_DATA_MINIRANK_DESTINATION : Nat := MESSAGE_META_DATA_MINIRANK_SOURCE + 4
def MESSAGE_META_DATA_CHECKSUM : Nat := MESSAGE_META_DATA_MINIRANK_DESTINATION + 4
def MESSAGE_META_DATA_SIZE : Nat := MESSAGE_META_DATA_CHECKSUM + 4

/-- `NO_VALUE`, `ACTOR_MODEL_NOBODY` and `ROUTING_NO_VALUE` -/
def NO_VALUE : Int32 := -1

structure Message where
  bytes : Nat
  tag : Int
  source : Rank
  destination : Rank
  sourceActor : Int32
  destinationActor : Int32
  routingSource : Int32
  routingDestination : Int32
  miniRankSource : Int32
  miniRankDestination : Int32
  deriving DecidableEq, Repr

namespace Message

/-- The constructor followed by `setNumberOfBytes`. -/
def new (bytes : Nat) (destination : Rank) (tag : Int) (source : Rank) : Message :=
  { bytes := bytes
    tag := tag
    source := source
    destination := destination
    sourceActor := NO_VALUE
    destinationActor := NO_VALUE
    routingSource := NO_VALUE
    routingDestination := NO_VALUE
    miniRankSource := NO_VALUE
    miniRankDestination := NO_VALUE }

def setMiniRanks (m : Message) (source destination : Int32) : Message :=
  { m with miniRankSource := source, miniRankDestination := destination }

/-- A message without actors is between the actors of its ranks. -/
def defaultActors (m : Message) : Message :=
  if m.sourceActor < 0 ∧ m.destinationActor < 0 then
    { m with sourceActor := m.source, destinationActor := m.destination }
  else m

variable {size : Nat}

/-- `memcpy` of an integer behind the payload. -/
def putInt (m : Message) (memory : MemoryBlock size) (position : Nat) (value : Int32) :
    Option (MemoryBlock size) :=
  memory.write (m.bytes + position) (intBytes value)

def getInt (m : Message) (memory : MemoryBlock size) (position : Nat) : Option Int32 :=
  (memory.read (m.bytes + position) 4).map bytesInt

def saveActorMetaData (m : Message) (memory : MemoryBlock size) :
    Option (Message × MemoryBlock size) := do
  let m := m.defaultActors
  let memory ← m.putInt memory MESSAGE_META_DATA_ACTOR_SOURCE m.sourceActor
  let memory ← m.putInt memory MESSAGE_META_DATA_ACTOR_DESTINATION m.destinationActor
  return (m, memory)

def loadActorMetaData (m : Message) (memory : MemoryBlock size) : Option Message := do
  let sourceActor ← m.getInt memory MESSAGE_META_DATA_ACTOR_SOURCE
  let destinationActor ← m.getInt memory MESSAGE_META_DATA_ACTOR_DESTINATION
  return { m with sourceActor := sourceActor, destinationActor := destinationActor }

def saveRoutingMetaData (m : Message) (memory : MemoryBlock size) :
    Option (MemoryBlock size) := do
  let memory ← m.putInt memory MESSAGE_META_DATA_ROUTE_SOURCE m.routingSource
  m.putInt memory MESSAGE_META_DATA_ROUTE_DESTINATION m.routingDestination

def loadRoutingMetaData (m : Message) (memory : MemoryBlock size) : Option Message := do
  let routingSource ← m.getInt memory MESSAGE_META_DATA_ROUTE_SOURCE
  let routingDestination ← m.getInt memory MESSAGE_META_DATA_ROUTE_DESTINATION
  return { m with routingSource := routingSource, routingDestination := routingDestination }

def saveMiniRankMetaData (m : Message) (memory : MemoryBlock size) :
    Option (MemoryBlock size) := do
  let memory ← m.putInt memory MESSAGE_META_DATA_MINIRANK_SOURCE m.miniRankSource
  m.putInt memory MESSAGE_META_DATA_MINIRANK_DESTINATION m.miniRankDestination

def loadMiniRankMetaData (m : Message) (memory : MemoryBlock size) : Option Message := do
  let sourceMiniRank ← m.getInt memory MESSAGE_META_DATA_MINIRANK_SOURCE
  let destinationMiniRank ← m.getInt memory MESSAGE_META_DATA_MINIRANK_DESTINATION
  return m.setMiniRanks sourceMiniRank destinationMiniRank

def saveMetaData (m : Message) (memory : MemoryBlock size) :
    Option (Message × MemoryBlock size) := do
  let memory ← m.saveMiniRankMetaData memory
  let (m, memory) ← m.saveActorMetaData memory
  let memory ← m.saveRoutingMetaData memory
  -- we need this for the transfer
  return ({ m with bytes := m.bytes + MESSAGE_META_DATA_SIZE }, memory)

/-- `loadMetaData`; a message too short to have metadata fails. -/
def loadMetaData (m : Message) (memory : MemoryBlock size) : Option Message :=
  if MESSAGE_META_DATA_SIZE ≤ m.bytes then do
    let m := { m with bytes := m.bytes - MESSAGE_META_DATA_SIZE }
    let m ← m.loadRoutingMetaData memory
    let m ← m.loadActorMetaData memory
    m.loadMiniRankMetaData memory
  else none

/-! ## The envelope -/

/-- The metadata of a message are in the memory from an offset on. -/
structure Envelope (m : Message) (memory : MemoryBlock size) (offset : Nat) : Prop where
  sourceActor : memory.Holds (offset + MESSAGE_META_DATA_ACTOR_SOURCE) (intBytes m.sourceActor)
  destinationActor :
    memory.Holds (offset + MESSAGE_META_DATA_ACTOR_DESTINATION) (intBytes m.destinationActor)
  routingSource :
    memory.Holds (offset + MESSAGE_META_DATA_ROUTE_SOURCE) (intBytes m.routingSource)
  routingDestination :
    memory.Holds (offset + MESSAGE_META_DATA_ROUTE_DESTINATION) (intBytes m.routingDestination)
  miniRankSource :
    memory.Holds (offset + MESSAGE_META_DATA_MINIRANK_SOURCE) (intBytes m.miniRankSource)
  miniRankDestination :
    memory.Holds (offset + MESSAGE_META_DATA_MINIRANK_DESTINATION)
      (intBytes m.miniRankDestination)

/-- The metadata of a message, for another one. -/
def withMetaData (m other : Message) : Message :=
  { m with
    sourceActor := other.sourceActor
    destinationActor := other.destinationActor
    routingSource := other.routingSource
    routingDestination := other.routingDestination
    miniRankSource := other.miniRankSource
    miniRankDestination := other.miniRankDestination }

/-- The positions of the six integers. -/
theorem positions :
    MESSAGE_META_DATA_ACTOR_SOURCE = 0 ∧ MESSAGE_META_DATA_ACTOR_DESTINATION = 4 ∧
      MESSAGE_META_DATA_ROUTE_SOURCE = 8 ∧ MESSAGE_META_DATA_ROUTE_DESTINATION = 12 ∧
      MESSAGE_META_DATA_MINIRANK_SOURCE = 16 ∧ MESSAGE_META_DATA_MINIRANK_DESTINATION = 20 ∧
      MESSAGE_META_DATA_SIZE = 28 :=
  ⟨rfl, rfl, rfl, rfl, rfl, rfl, rfl⟩

theorem defaultActors_bytes (m : Message) : m.defaultActors.bytes = m.bytes := by
  unfold defaultActors
  split <;> rfl

theorem defaultActors_ranks (m : Message) :
    m.defaultActors.source = m.source ∧ m.defaultActors.destination = m.destination ∧
      m.defaultActors.tag = m.tag := by
  unfold defaultActors
  split <;> exact ⟨rfl, rfl, rfl⟩

theorem defaultActors_setBytes (m : Message) (bytes : Nat) :
    defaultActors { m with bytes := bytes } = { m.defaultActors with bytes := bytes } := by
  unfold defaultActors
  by_cases hnobody : m.sourceActor < 0 ∧ m.destinationActor < 0
  · simp only [if_pos hnobody]
  · simp only [if_neg hnobody]

variable {m other : Message} {memory : MemoryBlock size}

theorem getInt_of_holds {position : Nat} {value : Int32}
    (h : memory.Holds (m.bytes + position) (intBytes value))
    (hfit : m.bytes + position + 4 ≤ size) : m.getInt memory position = some value := by
  have hread := read_of_holds h (by rw [length_intBytes]; exact hfit)
  rw [length_intBytes] at hread
  rw [getInt, hread, Option.map_some, bytesInt_intBytes]

/-- What `saveMetaData` writes. -/
structure Saved (m : Message) (memory memory' : MemoryBlock size) : Prop where
  envelope : m.defaultActors.Envelope memory' m.bytes
  elsewhere : ∀ i, i < m.bytes ∨ m.bytes + 24 ≤ i → memory'.byte i = memory.byte i

/-- The writes of `saveMetaData`, in its order. -/
def metaDataWrites (m : Message) (offset : Nat) : List (Nat × List UInt8) :=
  [(offset + MESSAGE_META_DATA_MINIRANK_SOURCE, intBytes m.miniRankSource),
    (offset + MESSAGE_META_DATA_MINIRANK_DESTINATION, intBytes m.miniRankDestination),
    (offset + MESSAGE_META_DATA_ACTOR_SOURCE, intBytes m.sourceActor),
    (offset + MESSAGE_META_DATA_ACTOR_DESTINATION, intBytes m.destinationActor),
    (offset + MESSAGE_META_DATA_ROUTE_SOURCE, intBytes m.routingSource),
    (offset + MESSAGE_META_DATA_ROUTE_DESTINATION, intBytes m.routingDestination)]

theorem saveMetaData_eq (m : Message) (memory : MemoryBlock size) :
    m.saveMetaData memory = (memory.writeAll (m.defaultActors.metaDataWrites m.bytes)).map
      fun memory => ({ m.defaultActors with bytes := m.bytes + MESSAGE_META_DATA_SIZE }, memory) := by
  have hmini : m.defaultActors.miniRankSource = m.miniRankSource ∧
      m.defaultActors.miniRankDestination = m.miniRankDestination := by
    unfold defaultActors
    split
    · exact ⟨rfl, rfl⟩
    · exact ⟨rfl, rfl⟩
  simp only [saveMetaData, saveMiniRankMetaData, saveActorMetaData, saveRoutingMetaData, putInt,
    metaDataWrites, writeAll, defaultActors_bytes, hmini, Option.bind_eq_bind, Option.pure_def,
    Option.map_bind, Option.bind_assoc, Option.map_some, Function.comp_def, Option.bind_some]

/-- With room for the metadata, saving them succeeds. -/
theorem saveMetaData_spec (m : Message) (memory : MemoryBlock size) (hfit : m.bytes + 24 ≤ size) :
    ∃ memory', m.saveMetaData memory =
        some ({ m.defaultActors with bytes := m.bytes + MESSAGE_META_DATA_SIZE }, memory') ∧
      Saved m memory memory' := by
  obtain ⟨hactor, hactor', hroute, hroute', hmini, hmini', _⟩ := positions
  have hrange : ∀ w ∈ m.defaultActors.metaDataWrites m.bytes,
      m.bytes ≤ w.1 ∧ w.1 + w.2.length ≤ m.bytes + 24 := by
    simp only [metaDataWrites, List.forall_mem_cons, length_intBytes]
    refine ⟨?_, ?_, ?_, ?_, ?_, ?_, fun w hw => by simp at hw⟩ <;> omega
  -- the six integers are next to one another
  have hapart : (m.defaultActors.metaDataWrites m.bytes).Pairwise Apart := by
    simp only [metaDataWrites, List.pairwise_cons, List.mem_cons, List.not_mem_nil, or_false,
      forall_eq_or_imp, forall_eq, Apart, length_intBytes, List.Pairwise.nil, false_imp_iff,
      implies_true, and_true]
    omega
  obtain ⟨memory', hwrite, hholds, _, hsame⟩ :=
    writeAll_spec memory (fun w hw => Nat.le_trans (hrange w hw).2 hfit) hapart
  refine ⟨memory', by rw [saveMetaData_eq, hwrite, Option.map_some], ?_, fun i hi => ?_⟩
  · simp only [metaDataWrites, List.forall_mem_cons] at hholds
    obtain ⟨hms, hmd, has, had, hrs, hrd, _⟩ := hholds
    exact ⟨has, had, hrs, hrd, hms, hmd⟩
  · apply hsame
    intro w hw
    have := hrange w hw
    omega

/-- Loading reads the envelope back. -/
theorem loadMetaData_spec {m other : Message} {memory : MemoryBlock size} {payload : Nat}
    (hbytes : m.bytes = payload + MESSAGE_META_DATA_SIZE)
    (henvelope : other.Envelope memory payload) (hfit : payload + 24 ≤ size) :
    m.loadMetaData memory = some { m.withMetaData other with bytes := payload } := by
  obtain ⟨hactor, hactor', hroute, hroute', hmini, hmini', hsize⟩ := positions
  have hpayload : m.bytes - MESSAGE_META_DATA_SIZE = payload := by omega
  rw [loadMetaData, if_pos (by omega), hpayload]
  have hget : ∀ (m : Message) position value, m.bytes = payload →
      memory.Holds (payload + position) (intBytes value) → position ≤ 20 →
      m.getInt memory position = some value := by
    intro m position value hm hholds hposition
    exact getInt_of_holds (hm ▸ hholds) (by omega)
  simp only [loadRoutingMetaData, loadActorMetaData, loadMiniRankMetaData, Option.bind_eq_bind,
    Option.pure_def]
  rw [hget _ _ _ rfl henvelope.routingSource (by omega), Option.bind_some,
    hget _ _ _ rfl henvelope.routingDestination (by omega), Option.bind_some, Option.bind_some,
    hget _ _ _ rfl henvelope.sourceActor (by omega), Option.bind_some,
    hget _ _ _ rfl henvelope.destinationActor (by omega), Option.bind_some, Option.bind_some,
    hget _ _ _ rfl henvelope.miniRankSource (by omega), Option.bind_some,
    hget _ _ _ rfl henvelope.miniRankDestination (by omega), Option.bind_some]
  rfl

theorem Envelope.agree {third : Nat} {memory : MemoryBlock size} {copied : MemoryBlock third}
    {m : Message} {offset length : Nat} (h : m.Envelope memory offset)
    (hagree : Agree memory copied length) (hle : offset + 24 ≤ length) :
    m.Envelope copied offset := by
  obtain ⟨hactor, hactor', hroute, hroute', hmini, hmini', _⟩ := positions
  have hint : ∀ position value, memory.Holds (offset + position) (intBytes value) →
      position ≤ 20 → copied.Holds (offset + position) (intBytes value) := by
    intro position value hholds hposition
    exact hagree.holds hholds (by rw [length_intBytes]; omega)
  exact ⟨hint _ _ h.sourceActor (by omega), hint _ _ h.destinationActor (by omega),
    hint _ _ h.routingSource (by omega), hint _ _ h.routingDestination (by omega),
    hint _ _ h.miniRankSource (by omega), hint _ _ h.miniRankDestination (by omega)⟩

/-- A receiver between the same ranks leaves the actors as the sender saved them. -/
theorem withMetaData_defaultActors {m other : Message} (hsource : m.source = other.source)
    (hdestination : m.destination = other.destination) :
    (m.withMetaData other.defaultActors).defaultActors = m.withMetaData other.defaultActors := by
  unfold defaultActors
  by_cases hnobody : other.sourceActor < 0 ∧ other.destinationActor < 0
  · rw [if_pos hnobody]
    simp [withMetaData, hsource, hdestination]
  · rw [if_neg hnobody]
    exact if_neg hnobody

/-- Saving metadata that are already there changes nothing. -/
theorem Saved.same {m : Message} {memory memory' : MemoryBlock size} (h : Saved m memory memory')
    (henvelope : m.defaultActors.Envelope memory m.bytes) (i : Nat) :
    memory'.byte i = memory.byte i := by
  obtain ⟨hactor, hactor', hroute, hroute', hmini, hmini', _⟩ := positions
  have hint : ∀ position value, memory.Holds (m.bytes + position) (intBytes value) →
      memory'.Holds (m.bytes + position) (intBytes value) →
      m.bytes + position ≤ i → i < m.bytes + position + 4 → memory'.byte i = memory.byte i := by
    intro position value hbefore hafter hge hlt
    rw [holds_iff, length_intBytes] at hbefore hafter
    have hsame := (hbefore (i - (m.bytes + position)) (by omega)).symm.trans
      (hafter (i - (m.bytes + position)) (by omega))
    rw [(by omega : m.bytes + position + (i - (m.bytes + position)) = i)] at hsame
    exact (Option.some.inj hsame).symm
  have hnew := h.envelope
  by_cases hout : i < m.bytes ∨ m.bytes + 24 ≤ i
  · exact h.elsewhere i hout
  · have hcases : i < m.bytes + 4 ∨ (m.bytes + 4 ≤ i ∧ i < m.bytes + 8) ∨
        (m.bytes + 8 ≤ i ∧ i < m.bytes + 12) ∨ (m.bytes + 12 ≤ i ∧ i < m.bytes + 16) ∨
        (m.bytes + 16 ≤ i ∧ i < m.bytes + 20) ∨ m.bytes + 20 ≤ i := by omega
    rcases hcases with hi | hi | hi | hi | hi | hi
    · exact hint _ _ henvelope.sourceActor hnew.sourceActor (by omega) (by omega)
    · exact hint _ _ henvelope.destinationActor hnew.destinationActor (by omega) (by omega)
    · exact hint _ _ henvelope.routingSource hnew.routingSource (by omega) (by omega)
    · exact hint _ _ henvelope.routingDestination hnew.routingDestination (by omega) (by omega)
    · exact hint _ _ henvelope.miniRankSource hnew.miniRankSource (by omega) (by omega)
    · exact hint _ _ henvelope.miniRankDestination hnew.miniRankDestination (by omega) (by omega)

end Message

end RayPlatform
