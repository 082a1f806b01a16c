import RayPlatform.Communication.Message
import RayPlatform.Cryptography.Crypto

/-!
# ComputeCore: the envelope of a message

`sendMessage` is what `ComputeCore::sendMessages` does to one message of the
outbox: a new buffer, the router, the metadata and the checksum. `receiveMessage`
is what `ComputeCore::receiveMessages` does to the message of the inbox: "messages
are like onions, you have to peel them from the outside to the inside".
-/

namespace RayPlatform

open Lib (MemoryBlock intBytes wordBytes bytesWord length_wordBytes bytesWord_wordBytes)
open Lib.MemoryBlock

/-- The size of the metadata, aligned on 8 bytes. -/
def headerSize : Nat :=
  let base := 8
  let remainder := MESSAGE_META_DATA_SIZE % base
  if remainder ≠ 0 then MESSAGE_META_DATA_SIZE + (base - remainder) else MESSAGE_META_DATA_SIZE

/-- The size of the buffers of the inbox and of the outbox. -/
def maximumMessageSizeInBytes : Nat :=
  MAXIMUM_MESSAGE_SIZE_IN_BYTES + headerSize

/-- A buffer of a ring allocator. -/
abbrev Chunk := MemoryBlock maximumMessageSizeInBytes

namespace ComputeCore

variable {size : Nat}

/-- `addMessageChecksums`, for one message. -/
def addMessageChecksum (m : Message) (memory : MemoryBlock size) :
    Option (Message × MemoryBlock size) := do
  let data ← memory.read 0 m.bytes
  let crc32 := computeCyclicRedundancyCode32 data
  let memory ← memory.write m.bytes (wordBytes 4 crc32.toNat)
  return ({ m with bytes := m.bytes + 4 }, memory)

/-- `verifyMessageChecksums`, for one message, with true when a corruption is reported. -/
def verifyMessageChecksum (m : Message) (memory : MemoryBlock size) : Option (Message × Bool) :=
  if 4 ≤ m.bytes then do
    let m := { m with bytes := m.bytes - 4 }
    let data ← memory.read 0 m.bytes
    let crc32 := computeCyclicRedundancyCode32 data
    let expectedChecksum ← memory.read m.bytes 4
    return (m, decide (crc32.toNat ≠ bytesWord expectedChecksum))
  else none

/-- The message whose metadata are saved: after `routeOutcomingMessages` where the
router is enabled, and with its mini-ranks where they are enabled. -/
def prepared (route : Message → Message) (miniRanksAreEnabled : Bool) (m : Message) : Message :=
  let m := route m
  if miniRanksAreEnabled then m.setMiniRanks m.source m.destination else m

/-- One message of the outbox: `payload` is what its buffer holds, `chunk` is the new
buffer. -/
def sendMessage (route : Message → Message) (miniRanksAreEnabled doChecksum : Bool) (m : Message)
    (payload : List UInt8) (chunk : Chunk) : Option (Message × Chunk) := do
  -- copy the old stuff too
  let chunk ← chunk.write 0 payload
  let m := prepared route miniRanksAreEnabled m
  let (m, chunk) ← m.saveMetaData chunk
  if doChecksum then addMessageChecksum m chunk else return (m, chunk)

/-- The checksum is verified and removed where checksums are enabled. -/
def peelChecksum (doChecksum : Bool) (m : Message) (memory : MemoryBlock size) :
    Option (Message × Bool) :=
  if doChecksum then verifyMessageChecksum m memory else some (m, false)

/-- The message of the inbox, without its envelope, and whether a corruption is reported. -/
def receiveMessage (doChecksum : Bool) (m : Message) (chunk : Chunk) :
    Option (Message × Chunk × Bool) := do
  let (m, corrupted) ← peelChecksum doChecksum m chunk
  let m ← m.loadMetaData chunk
  let (m, chunk) ← m.saveMetaData chunk
  -- remove the header now
  let m ← m.loadMetaData chunk
  return (m, chunk, corrupted)

/-- The bytes of a message that `MPI_Isend` sends. -/
def transported (m : Message) (chunk : Chunk) : Option (List UInt8) :=
  chunk.read 0 m.bytes

/-- `MPI_Recv` in a buffer of the inbox: `source` sent the bytes. -/
def receiveBytes (rank source : Rank) (tag : Int) (data : List UInt8) (chunk : Chunk) :
    Option (Message × Chunk) := do
  let chunk ← chunk.write 0 data
  return (Message.new data.length rank tag source, chunk)

/-! ## Checksums -/

theorem chunk_size : maximumMessageSizeInBytes = 4032 := rfl

/-- The checksum of the first bytes is behind them. -/
def Checksummed (memory : MemoryBlock size) (length : Nat) : Prop :=
  ∃ data, memory.Holds 0 data ∧ data.length = length ∧
    memory.Holds length (wordBytes 4 (computeCyclicRedundancyCode32 data).toNat)

theorem addMessageChecksum_spec (m : Message) (memory : MemoryBlock size) (hfit : m.bytes + 4 ≤ size) :
    ∃ memory', addMessageChecksum m memory = some ({ m with bytes := m.bytes + 4 }, memory') ∧
      Agree memory memory' m.bytes ∧ Checksummed memory' m.bytes := by
  obtain ⟨data, hread, hlength, hholds⟩ := read_zero memory (Nat.le_of_add_right_le hfit)
  have hroom : m.bytes + (wordBytes 4 (computeCyclicRedundancyCode32 data).toNat).length ≤ size := by
    rw [length_wordBytes]
    exact hfit
  obtain ⟨memory', hwrite, hwritten⟩ := write_spec memory hroom
  refine ⟨memory', ?_, fun i hi => hwritten.elsewhere i (.inl hi), data, ?_, hlength,
    hwritten.here⟩
  · simp [addMessageChecksum, hread, hwrite]
  · exact hwritten.holds hholds (.inl (by omega))

variable {m : Message} {memory : MemoryBlock size}

/-- The same bytes have the same checksum: nothing is reported. -/
theorem verifyMessageChecksum_spec {length : Nat} (hbytes : m.bytes = length + 4)
    (h : Checksummed memory length) (hfit : length + 4 ≤ size) :
    verifyMessageChecksum m memory = some ({ m with bytes := length }, false) := by
  obtain ⟨data, hholds, hlength, hcrc⟩ := h
  have hread : memory.read 0 length = some data := by
    rw [← hlength]
    exact read_of_holds hholds (by omega)
  have hexpected : memory.read length 4 =
      some (wordBytes 4 (computeCyclicRedundancyCode32 data).toNat) := by
    have hread := read_of_holds hcrc (by rw [length_wordBytes]; exact hfit)
    rw [length_wordBytes] at hread
    exact hread
  rw [verifyMessageChecksum, if_pos (by omega), hbytes]
  simp [hread, hexpected, bytesWord_wordBytes]

/-! ## The layers -/

/-- What a message looks like in memory when it is sent: the payload, the metadata
and the checksum. -/
structure Wrapped (memory : MemoryBlock size) (payload : List UInt8) (sent : Message)
    (doChecksum : Bool) : Prop where
  contents : memory.Holds 0 payload
  envelope : sent.Envelope memory payload.length
  checksum : doChecksum = true → Checksummed memory (payload.length + MESSAGE_META_DATA_SIZE)

/-- The number of bytes sent. -/
def wrappedLength (payload : List UInt8) (doChecksum : Bool) : Nat :=
  payload.length + MESSAGE_META_DATA_SIZE + if doChecksum then 4 else 0

theorem Checksummed.agree {other : Nat} {copied : MemoryBlock other} {length total : Nat}
    (h : Checksummed memory length) (hagree : Agree memory copied total)
    (hle : length + 4 ≤ total) : Checksummed copied length := by
  obtain ⟨data, hholds, hlength, hcrc⟩ := h
  exact ⟨data, hagree.holds hholds (by omega), hlength,
    hagree.holds hcrc (by rw [length_wordBytes]; exact hle)⟩

/-- A copy of all the bytes sent is wrapped too. -/
theorem Wrapped.agree {other : Nat} {copied : MemoryBlock other} {payload : List UInt8}
    {sent : Message} {doChecksum : Bool} (h : Wrapped memory payload sent doChecksum)
    (hagree : Agree memory copied (wrappedLength payload doChecksum)) :
    Wrapped copied payload sent doChecksum := by
  have hsize : MESSAGE_META_DATA_SIZE = 28 := rfl
  unfold wrappedLength at hagree
  refine ⟨hagree.holds h.contents (by omega), h.envelope.agree hagree (by omega), fun hdo => ?_⟩
  rw [if_pos hdo] at hagree
  exact (h.checksum hdo).agree hagree (Nat.le_refl _)

theorem sendMessage_spec (route : Message → Message) (miniRanksAreEnabled doChecksum : Bool)
    (m : Message) (payload : List UInt8) (chunk : Chunk)
    (hbytes : (prepared route miniRanksAreEnabled m).bytes = payload.length)
    (hmax : payload.length ≤ MAXIMUM_MESSAGE_SIZE_IN_BYTES) :
    ∃ chunk', sendMessage route miniRanksAreEnabled doChecksum m payload chunk =
        some ({ (prepared route miniRanksAreEnabled m).defaultActors with
          bytes := wrappedLength payload doChecksum }, chunk') ∧
      Wrapped chunk' payload (prepared route miniRanksAreEnabled m).defaultActors doChecksum ∧
      ∀ i, payload.length + 24 ≤ i → i < payload.length + 28 → chunk'.byte i = chunk.byte i := by
  have hmaximum : MAXIMUM_MESSAGE_SIZE_IN_BYTES = 4000 := rfl
  have hmeta : MESSAGE_META_DATA_SIZE = 28 := rfl
  have hsize := chunk_size
  obtain ⟨c₁, hcopy, hcopied⟩ := write_spec chunk
    (by omega : 0 + payload.length ≤ maximumMessageSizeInBytes)
  generalize hsent : prepared route miniRanksAreEnabled m = sent at *
  obtain ⟨c₂, hsave, hsaved⟩ := sent.saveMetaData_spec c₁ (by omega)
  have hkept : Agree c₁ c₂ payload.length := fun i hi => hsaved.elsewhere i (.inl (by omega))
  have hpayload : c₂.Holds 0 payload := hkept.holds hcopied.here (by omega)
  have hhole : ∀ i, payload.length + 24 ≤ i → c₂.byte i = chunk.byte i := by
    intro i hi
    rw [hsaved.elsewhere i (.inr (by omega)), hcopied.elsewhere i (.inr (by omega))]
  have henvelope := hsaved.envelope
  rw [hbytes] at henvelope
  cases doChecksum with
  | false =>
      refine ⟨c₂, ?_, ⟨hpayload, henvelope, fun hdo => absurd hdo (by simp)⟩,
        fun i hi _ => hhole i hi⟩
      simp [sendMessage, hcopy, hsent, hsave, wrappedLength, hbytes]
  | true =>
      let saved : Message :=
        { sent.defaultActors with bytes := sent.bytes + MESSAGE_META_DATA_SIZE }
      have hbytes' : saved.bytes = payload.length + 28 := by
        show sent.bytes + MESSAGE_META_DATA_SIZE = _
        omega
      obtain ⟨c₃, hadd, hagree, hcrc⟩ := addMessageChecksum_spec saved c₂ (by omega)
      rw [hbytes'] at hagree hcrc
      refine ⟨c₃, ?_, ⟨hagree.holds hpayload (by omega), henvelope.agree hagree (by omega),
        fun _ => hcrc⟩, fun i hi hlt => ?_⟩
      · simp only [sendMessage, hcopy, hsent, hsave, Option.bind_eq_bind, Option.bind_some, if_true]
        rw [show wrappedLength payload true = saved.bytes + 4 by
          rw [hbytes', wrappedLength, if_pos rfl, hmeta]]
        exact hadd
      · rw [hagree i hlt, hhole i hi]

/-- Peeling the layers off gives the metadata and the payload back. -/
theorem receiveMessage_spec {m sent : Message} {payload : List UInt8} {doChecksum : Bool}
    {chunk : Chunk} (h : Wrapped chunk payload sent doChecksum)
    (hbytes : m.bytes = wrappedLength payload doChecksum)
    (hmax : payload.length ≤ MAXIMUM_MESSAGE_SIZE_IN_BYTES)
    (hactors : (m.withMetaData sent).defaultActors = m.withMetaData sent) :
    ∃ chunk', receiveMessage doChecksum m chunk =
        some ({ m.withMetaData sent with bytes := payload.length }, chunk', false) ∧
      chunk'.Holds 0 payload := by
  have hmaximum : MAXIMUM_MESSAGE_SIZE_IN_BYTES = 4000 := rfl
  have hmeta : MESSAGE_META_DATA_SIZE = 28 := rfl
  have hsize := chunk_size
  -- the checksum first
  have hverify : peelChecksum doChecksum m chunk =
      some ({ m with bytes := payload.length + MESSAGE_META_DATA_SIZE }, false) := by
    cases doChecksum with
    | false =>
        show some (m, false) =
          some ({ m with bytes := payload.length + MESSAGE_META_DATA_SIZE }, false)
        rw [← show m.bytes = payload.length + MESSAGE_META_DATA_SIZE from hbytes]
    | true => exact verifyMessageChecksum_spec hbytes (h.checksum rfl) (by omega)
  -- then the metadata, twice
  let peeled : Message := { m.withMetaData sent with bytes := payload.length }
  have hload : ({ m with bytes := payload.length + MESSAGE_META_DATA_SIZE } : Message).loadMetaData
      chunk = some peeled := Message.loadMetaData_spec rfl h.envelope (by omega)
  have hstable : peeled.defaultActors = peeled := by
    show Message.defaultActors { m.withMetaData sent with bytes := payload.length } = _
    rw [Message.defaultActors_setBytes, hactors]
  obtain ⟨chunk', hsave, hsaved⟩ := peeled.saveMetaData_spec chunk
    (by show payload.length + 24 ≤ _; omega)
  have hsaved' := hsaved.envelope
  rw [hstable] at hsave hsaved'
  have henvelope : sent.Envelope chunk' payload.length :=
    ⟨hsaved'.sourceActor, hsaved'.destinationActor, hsaved'.routingSource,
      hsaved'.routingDestination, hsaved'.miniRankSource, hsaved'.miniRankDestination⟩
  have hreload : ({ peeled with bytes := peeled.bytes + MESSAGE_META_DATA_SIZE } :
      Message).loadMetaData chunk' = some peeled :=
    Message.loadMetaData_spec rfl henvelope (by omega)
  have hkept : Agree chunk chunk' payload.length :=
    fun i hi => hsaved.elsewhere i (.inl hi)
  refine ⟨chunk', ?_, hkept.holds h.contents (by omega)⟩
  rw [receiveMessage, hverify]
  simp only [Option.bind_eq_bind, Option.bind_some, hload, hsave, hreload]
  rfl

/-- The bytes sent arrive in a chunk of the receiver. -/
theorem transported_spec {sent m : Message} {payload : List UInt8} {doChecksum : Bool}
    {chunk : Chunk} (h : Wrapped chunk payload sent doChecksum)
    (hbytes : m.bytes = wrappedLength payload doChecksum)
    (hmax : payload.length ≤ MAXIMUM_MESSAGE_SIZE_IN_BYTES) (rank source : Rank) (tag : Int)
    (inbox : Chunk) :
    ∃ data inbox', transported m chunk = some data ∧
      data.length = wrappedLength payload doChecksum ∧
      receiveBytes rank source tag data inbox =
        some (Message.new (wrappedLength payload doChecksum) rank tag source, inbox') ∧
      Wrapped inbox' payload sent doChecksum := by
  have hfit : wrappedLength payload doChecksum ≤ maximumMessageSizeInBytes := by
    have hmaximum : MAXIMUM_MESSAGE_SIZE_IN_BYTES = 4000 := rfl
    have hmeta : MESSAGE_META_DATA_SIZE = 28 := rfl
    rw [chunk_size, wrappedLength]
    split <;> omega
  obtain ⟨data, hread, hlength, hholds⟩ := read_zero chunk hfit
  obtain ⟨inbox', hwrite, hwritten⟩ := write_spec inbox
    (by omega : 0 + data.length ≤ maximumMessageSizeInBytes)
  have hagree := hholds.agree hwritten.here
  rw [hlength] at hagree
  refine ⟨data, inbox', ?_, hlength, ?_, h.agree hagree⟩
  · rw [transported, hbytes]
    exact hread
  · simp [receiveBytes, hwrite, hlength]

/-! ## Direct mode -/

/-- A message from the outbox of its source to the inbox of its destination. -/
def directTransfer (doChecksum : Bool) (m : Message) (payload : List UInt8)
    (outbox inbox : Chunk) : Option (Message × Chunk × Bool) := do
  let (sent, outbox) ← sendMessage id false doChecksum m payload outbox
  let data ← transported sent outbox
  let (received, inbox) ← receiveBytes sent.destination sent.source sent.tag data inbox
  receiveMessage doChecksum received inbox

/-- What the receiver has of a message. -/
structure Received (m : Message) (payload : List UInt8) (received : Message) (inbox : Chunk) :
    Prop where
  bytes : received.bytes = payload.length
  payload : inbox.read 0 received.bytes = some payload
  tag : received.tag = m.tag
  source : received.source = m.source
  destination : received.destination = m.destination
  actors : (received.sourceActor, received.destinationActor) =
    if m.sourceActor < 0 ∧ m.destinationActor < 0 then (m.source, m.destination)
    else (m.sourceActor, m.destinationActor)
  route : (received.routingSource, received.routingDestination) =
    (m.routingSource, m.routingDestination)
  miniRanks : (received.miniRankSource, received.miniRankDestination) =
    (m.miniRankSource, m.miniRankDestination)

/-- Every message of at most 4000 bytes gets through, whatever its metadata and
whatever the buffers held, and no corruption is reported. -/
theorem directTransfer_received (doChecksum : Bool) (m : Message) (payload : List UInt8)
    (outbox inbox : Chunk) (hbytes : m.bytes = payload.length)
    (hmax : payload.length ≤ MAXIMUM_MESSAGE_SIZE_IN_BYTES) :
    ∃ received inbox', directTransfer doChecksum m payload outbox inbox =
        some (received, inbox', false) ∧ Received m payload received inbox' := by
  obtain ⟨outbox', hsend, hwrapped, _⟩ :=
    sendMessage_spec id false doChecksum m payload outbox hbytes hmax
  have hprepared : prepared id false m = m := rfl
  rw [hprepared] at hsend hwrapped
  obtain ⟨hsource, hdestination, htag⟩ := m.defaultActors_ranks
  obtain ⟨data, inbox₁, htransported, _, hbytesReceived, hwrapped₁⟩ :=
    transported_spec hwrapped
      (rfl : ({ m.defaultActors with bytes := wrappedLength payload doChecksum } : Message).bytes =
        wrappedLength payload doChecksum) hmax m.destination m.source m.tag inbox
  have hactors :
      ((Message.new (wrappedLength payload doChecksum) m.destination m.tag m.source).withMetaData
        m.defaultActors).defaultActors = Message.withMetaData _ m.defaultActors :=
    Message.withMetaData_defaultActors rfl rfl
  obtain ⟨inbox', hreceive, hpayload⟩ := receiveMessage_spec hwrapped₁ rfl hmax hactors
  let received : Message :=
    { (Message.new (wrappedLength payload doChecksum) m.destination m.tag m.source).withMetaData
        m.defaultActors with bytes := payload.length }
  refine ⟨received, inbox', ?_, ⟨rfl, ?_, rfl, rfl, rfl, ?_, ?_, ?_⟩⟩
  · rw [directTransfer, hsend]
    simp only [Option.bind_eq_bind, Option.bind_some, htransported]
    rw [hsource, hdestination, htag, hbytesReceived, Option.bind_some, hreceive]
  · exact read_of_holds hpayload (by
      have hmaximum : MAXIMUM_MESSAGE_SIZE_IN_BYTES = 4000 := rfl
      rw [chunk_size]
      omega)
  · show (m.defaultActors.sourceActor, m.defaultActors.destinationActor) = _
    unfold Message.defaultActors
    split <;> rfl
  · show (m.defaultActors.routingSource, m.defaultActors.routingDestination) = _
    unfold Message.defaultActors
    split <;> rfl
  · show (m.defaultActors.miniRankSource, m.defaultActors.miniRankDestination) = _
    unfold Message.defaultActors
    split <;> rfl

theorem directTransfer_received_three :
    ∃ received inbox, directTransfer true (Message.new 3 1 5 0) [7, 8, 9] (zero _) (zero _) =
      some (received, inbox, false) ∧ Received (Message.new 3 1 5 0) [7, 8, 9] received inbox :=
  directTransfer_received true (Message.new 3 1 5 0) [7, 8, 9] (zero _) (zero _) rfl
    (Nat.le_of_ble_eq_true rfl)

end ComputeCore

end RayPlatform
