import RayPlatform.Core.ComputeCore

/-!
# MessagesHandler: the envelope in mini-rank mode

The communication thread of a process copies a message of a mini-rank in a buffer
of its own and sends it to the process of the destination. The receiving process
loads the metadata from the end of what it received, before the checksum is
removed, to find the mini-rank. With a checksum the metadata are read four bytes
too far (`Shifted`).
-/

namespace RayPlatform

open Lib (MemoryBlock intBytes bytesInt bytesInt_intBytes intBytes_bytesInt)
open Lib.MemoryBlock
open ComputeCore

/-- The buffer that `receiveMessagesForMiniRanks` allocates once. -/
abbrev StaticBuffer := MemoryBlock (MAXIMUM_MESSAGE_SIZE_IN_BYTES + MESSAGE_META_DATA_SIZE)

namespace MessagesHandler

/-- `sendMessagesForMiniRank`, for one message: the process of its destination, and
the bytes sent. -/
def sendMessagesForMiniRank (miniRanksPerRank : Int32) (m : Message) (buffer copiedBuffer : Chunk) :
    Option (Int32 × List UInt8) := do
  let miniRankDestination := m.destination
  let destination := miniRankDestination / miniRanksPerRank
  let copiedBuffer ← buffer.copy copiedBuffer m.bytes
  let data ← transported m copiedBuffer
  return (destination, data)

/-- `receiveMessagesForMiniRanks`: the index of a mini-rank of the process, and the
message pushed in its queue. -/
def receiveMessagesForMiniRanks (miniRanksPerRank : Int32) (tag : Int) (data : List UInt8)
    (staticBuffer : StaticBuffer) (incoming : Chunk) : Option (Int32 × Message × Chunk) := do
  let count := data.length
  let staticBuffer ← staticBuffer.write 0 data
  let newMessage := Message.new count (-1) tag (-1)
  let newMessage ← newMessage.loadMetaData staticBuffer
  let (newMessage, staticBuffer) ← newMessage.saveMetaData staticBuffer
  let miniRankSource := newMessage.miniRankSource
  let miniRankDestination := newMessage.miniRankDestination
  let miniRankIndex := miniRankDestination % miniRanksPerRank
  -- `cores[miniRankIndex]`
  if 0 ≤ miniRankIndex ∧ miniRankIndex < miniRanksPerRank then do
    let incoming ← staticBuffer.copy incoming count
    return (miniRankIndex, Message.new count miniRankDestination tag miniRankSource, incoming)
  else none

/-- `receiveMessagesForComputeCore` copies the message of the queue in the inbox. -/
def receiveMessagesForComputeCore (m : Message) (incoming inbox : Chunk) : Option Chunk :=
  incoming.copy inbox m.bytes

/-- The buffers a message goes through, with what they held before. -/
structure MiniRankBuffers where
  outbox : Chunk
  copiedBuffer : Chunk
  staticBuffer : StaticBuffer
  incoming : Chunk
  inbox : Chunk

structure MiniRankDelivery where
  /-- the process that receives the message -/
  process : Int32
  /-- the mini-rank of the process that gets it -/
  index : Int32
  message : Message
  inbox : Chunk
  corrupted : Bool

/-- A message from the outbox of a mini-rank to the inbox of another one. -/
def miniRankTransfer (miniRanksPerRank : Int32) (doChecksum : Bool) (m : Message)
    (payload : List UInt8) (buffers : MiniRankBuffers) : Option MiniRankDelivery := do
  let (sent, outbox) ← sendMessage id true doChecksum m payload buffers.outbox
  let (process, data) ←
    sendMessagesForMiniRank miniRanksPerRank sent outbox buffers.copiedBuffer
  let (index, message, incoming) ← receiveMessagesForMiniRanks miniRanksPerRank sent.tag data
    buffers.staticBuffer buffers.incoming
  let inbox ← receiveMessagesForComputeCore message incoming buffers.inbox
  let (message, inbox, corrupted) ← receiveMessage doChecksum message inbox
  return { process, index, message, inbox, corrupted }

/-- The message got to the mini-rank it was addressed to, as it was sent. -/
structure Delivered (miniRanksPerRank : Int32) (m : Message) (payload : List UInt8)
    (delivery : MiniRankDelivery) : Prop where
  process : delivery.process = m.destination / miniRanksPerRank
  index : delivery.index = m.destination % miniRanksPerRank
  source : delivery.message.source = m.source
  destination : delivery.message.destination = m.destination
  tag : delivery.message.tag = m.tag
  bytes : delivery.message.bytes = payload.length
  contents : delivery.inbox.read 0 delivery.message.bytes = some payload
  intact : delivery.corrupted = false

/-! ## The metadata the process reads -/

theorem miniRankIndex_bounds {destination miniRanksPerRank : Int32} (hdestination : 0 ≤ destination)
    (hper : 0 < miniRanksPerRank) :
    0 ≤ destination % miniRanksPerRank ∧ destination % miniRanksPerRank < miniRanksPerRank := by
  rw [Int32.le_iff_toInt_le] at *
  rw [Int32.lt_iff_toInt_lt] at *
  rw [Int32.toInt_mod]
  simp only [Int32.toInt_zero] at *
  exact ⟨Int.tmod_nonneg _ hdestination, Int.tmod_lt_of_pos _ hper⟩

variable {miniRanksPerRank : Int32} {tag : Int} {data : List UInt8}

/-- The receiving process keeps the bytes it received, and sees the metadata that are
28 bytes before their end. -/
theorem receiveMessagesForMiniRanks_spec (miniRanksPerRank : Int32) (tag : Int) {seen : Message}
    {chunk : Chunk} {offset : Nat}
    (hholds : chunk.Holds 0 data) (hlength : data.length = offset + MESSAGE_META_DATA_SIZE)
    (hfit : data.length ≤ MAXIMUM_MESSAGE_SIZE_IN_BYTES + MESSAGE_META_DATA_SIZE)
    (hseen : seen.Envelope chunk offset)
    (hstable : ((Message.new data.length (-1) tag (-1)).withMetaData seen).defaultActors =
      (Message.new data.length (-1) tag (-1)).withMetaData seen)
    (staticBuffer : StaticBuffer) (incoming : Chunk) :
    ∃ incoming', Agree chunk incoming' data.length ∧
      receiveMessagesForMiniRanks miniRanksPerRank tag data staticBuffer incoming =
        if 0 ≤ seen.miniRankDestination % miniRanksPerRank ∧
            seen.miniRankDestination % miniRanksPerRank < miniRanksPerRank then
          some (seen.miniRankDestination % miniRanksPerRank,
            Message.new data.length seen.miniRankDestination tag seen.miniRankSource, incoming')
        else none := by
  have hmaximum : MAXIMUM_MESSAGE_SIZE_IN_BYTES = 4000 := rfl
  have hmeta : MESSAGE_META_DATA_SIZE = 28 := rfl
  have hsize := chunk_size
  obtain ⟨static₁, hwrite, hwritten⟩ := write_spec staticBuffer
    (by omega : 0 + data.length ≤ MAXIMUM_MESSAGE_SIZE_IN_BYTES + MESSAGE_META_DATA_SIZE)
  have hagree := hholds.agree hwritten.here
  have hseen₁ := hseen.agree hagree (by omega)
  let preloaded : Message :=
    { (Message.new data.length (-1) tag (-1)).withMetaData seen with bytes := offset }
  have hload : (Message.new data.length (-1) tag (-1)).loadMetaData static₁ = some preloaded :=
    Message.loadMetaData_spec hlength hseen₁ (by omega)
  have hpreloaded : preloaded.defaultActors = preloaded := by
    show Message.defaultActors
      { (Message.new data.length (-1) tag (-1)).withMetaData seen with bytes := offset } = _
    rw [Message.defaultActors_setBytes, hstable]
  obtain ⟨static₂, hsave, hsaved⟩ := preloaded.saveMetaData_spec static₁
    (by show offset + 24 ≤ _; omega)
  rw [hpreloaded] at hsave
  -- the metadata are saved where they were loaded from
  have hsame := hsaved.same (by
    rw [hpreloaded]
    exact ⟨hseen₁.sourceActor, hseen₁.destinationActor, hseen₁.routingSource,
      hseen₁.routingDestination, hseen₁.miniRankSource, hseen₁.miniRankDestination⟩)
  obtain ⟨incoming', hcopy, hcopied, _⟩ := copy_spec static₂ incoming hfit (by omega)
  refine ⟨incoming', ?_, ?_⟩
  · exact (hagree.trans fun i _ => hsame i).trans hcopied
  · rw [receiveMessagesForMiniRanks]
    simp only [Option.bind_eq_bind, Option.bind_some, hwrite, hload, hsave, hcopy]
    rfl

/-- The bytes that do not fit in the static buffer are not received. -/
theorem receiveMessagesForMiniRanks_overflow (miniRanksPerRank : Int32) (tag : Int)
    (staticBuffer : StaticBuffer) (incoming : Chunk)
    (hlong : MAXIMUM_MESSAGE_SIZE_IN_BYTES + MESSAGE_META_DATA_SIZE < data.length) :
    receiveMessagesForMiniRanks miniRanksPerRank tag data staticBuffer incoming = none := by
  have hwrite : staticBuffer.write 0 data = none := if_neg (by omega)
  simp [receiveMessagesForMiniRanks, hwrite]

/-! ## The transfer -/

variable {m sent seen : Message} {payload : List UInt8} {doChecksum : Bool}
  {buffers : MiniRankBuffers} {outbox : Chunk}

/-- Where a process looks for the metadata: the checksum is still behind them. -/
def seenOffset (payload : List UInt8) (doChecksum : Bool) : Nat :=
  payload.length + if doChecksum then 4 else 0

theorem wrappedLength_eq (payload : List UInt8) (doChecksum : Bool) :
    wrappedLength payload doChecksum =
      seenOffset payload doChecksum + MESSAGE_META_DATA_SIZE := by
  unfold wrappedLength seenOffset
  omega

/-- The delivery of a message is decided by the metadata the process sees. -/
theorem miniRankTransfer_eq (miniRanksPerRank : Int32)
    (hsend : sendMessage id true doChecksum m payload buffers.outbox =
      some ({ sent with bytes := wrappedLength payload doChecksum }, outbox))
    (hwrapped : Wrapped outbox payload sent doChecksum)
    (hmax : payload.length ≤ MAXIMUM_MESSAGE_SIZE_IN_BYTES)
    (hactors : ¬ (sent.sourceActor < 0 ∧ sent.destinationActor < 0))
    (hfit : seenOffset payload doChecksum ≤ MAXIMUM_MESSAGE_SIZE_IN_BYTES)
    (hseen : seen.Envelope outbox (seenOffset payload doChecksum))
    (hstable : ((Message.new (wrappedLength payload doChecksum) (-1) sent.tag (-1)).withMetaData
        seen).defaultActors =
      (Message.new (wrappedLength payload doChecksum) (-1) sent.tag (-1)).withMetaData seen) :
    ∃ inbox : Chunk, inbox.read 0 payload.length = some payload ∧
      miniRankTransfer miniRanksPerRank doChecksum m payload buffers =
        if 0 ≤ seen.miniRankDestination % miniRanksPerRank ∧
            seen.miniRankDestination % miniRanksPerRank < miniRanksPerRank then
          some
            { process := sent.destination / miniRanksPerRank
              index := seen.miniRankDestination % miniRanksPerRank
              message :=
                { (Message.new (wrappedLength payload doChecksum) seen.miniRankDestination sent.tag
                    seen.miniRankSource).withMetaData sent with bytes := payload.length }
              inbox := inbox
              corrupted := false }
        else none := by
  have hmaximum : MAXIMUM_MESSAGE_SIZE_IN_BYTES = 4000 := rfl
  have hmeta : MESSAGE_META_DATA_SIZE = 28 := rfl
  have hsize := chunk_size
  have hlength := wrappedLength_eq payload doChecksum
  -- the copy of the communication thread
  obtain ⟨copied, hcopy, hcopied, _⟩ := copy_spec outbox buffers.copiedBuffer
    (by omega : wrappedLength payload doChecksum ≤ maximumMessageSizeInBytes) (by omega)
  obtain ⟨data, hread, hdata, hholds⟩ := read_zero copied
    (by omega : wrappedLength payload doChecksum ≤ maximumMessageSizeInBytes)
  have hsendRank : sendMessagesForMiniRank miniRanksPerRank
      { sent with bytes := wrappedLength payload doChecksum } outbox buffers.copiedBuffer =
        some (sent.destination / miniRanksPerRank, data) := by
    simp [sendMessagesForMiniRank, hcopy, transported, hread]
  obtain ⟨incoming, hincoming, hreceive⟩ := receiveMessagesForMiniRanks_spec
    miniRanksPerRank sent.tag hholds (hdata.trans hlength) (by omega)
    (hseen.agree hcopied (by omega)) (by rw [hdata]; exact hstable)
    buffers.staticBuffer buffers.incoming
  rw [hdata] at hincoming hreceive
  obtain ⟨inbox, hinbox, hinboxed, _⟩ := copy_spec incoming buffers.inbox
    (by omega : wrappedLength payload doChecksum ≤ maximumMessageSizeInBytes) (by omega)
  have hwrapped' : Wrapped inbox payload sent doChecksum :=
    hwrapped.agree ((hcopied.trans hincoming).trans hinboxed)
  have hkeep : ((Message.new (wrappedLength payload doChecksum) seen.miniRankDestination sent.tag
      seen.miniRankSource).withMetaData sent).defaultActors = Message.withMetaData _ sent :=
    if_neg hactors
  obtain ⟨inbox', hpeel, hpayload⟩ := receiveMessage_spec hwrapped' rfl hmax hkeep
  refine ⟨inbox', read_of_holds hpayload (by omega), ?_⟩
  rw [miniRankTransfer, hsend]
  simp only [Option.bind_eq_bind, Option.bind_some, hsendRank, hreceive]
  split
  · have hcore : receiveMessagesForComputeCore (Message.new (wrappedLength payload doChecksum)
        seen.miniRankDestination sent.tag seen.miniRankSource) incoming buffers.inbox =
          some inbox := hinbox
    simp only [Option.bind_some, hcore, hpeel]
    rfl
  · rfl

/-- A message that is too long with its checksum is not delivered. -/
theorem miniRankTransfer_overflow (miniRanksPerRank : Int32)
    (hsend : sendMessage id true doChecksum m payload buffers.outbox =
      some ({ sent with bytes := wrappedLength payload doChecksum }, outbox))
    (hmax : payload.length ≤ MAXIMUM_MESSAGE_SIZE_IN_BYTES)
    (hlong : MAXIMUM_MESSAGE_SIZE_IN_BYTES < seenOffset payload doChecksum) :
    miniRankTransfer miniRanksPerRank doChecksum m payload buffers = none := by
  have hmaximum : MAXIMUM_MESSAGE_SIZE_IN_BYTES = 4000 := rfl
  have hmeta : MESSAGE_META_DATA_SIZE = 28 := rfl
  have hsize := chunk_size
  have hlength := wrappedLength_eq payload doChecksum
  have hfit : wrappedLength payload doChecksum ≤ maximumMessageSizeInBytes := by
    rw [wrappedLength, hmeta, hsize]
    split <;> omega
  obtain ⟨copied, hcopy, _⟩ := copy_spec outbox buffers.copiedBuffer hfit hfit
  obtain ⟨data, hread, hdata, _⟩ := read_zero copied hfit
  have hnone := receiveMessagesForMiniRanks_overflow miniRanksPerRank sent.tag
    buffers.staticBuffer buffers.incoming
    (by omega : MAXIMUM_MESSAGE_SIZE_IN_BYTES + MESSAGE_META_DATA_SIZE < data.length)
  rw [miniRankTransfer, hsend]
  simp [sendMessagesForMiniRank, hcopy, transported, hread, hnone]

/-- Without checksums, or when the checksum does not matter: the message fits in the
static buffer with it, a mini-rank writes to itself, and the four bytes that nobody
writes happen to hold its number. -/
def LayersMatch (doChecksum : Bool) (m : Message) (payload : List UInt8) (outbox : Chunk) : Prop :=
  doChecksum = false ∨
    (payload.length + 4 ≤ MAXIMUM_MESSAGE_SIZE_IN_BYTES ∧ m.source = m.destination ∧
      outbox.read (payload.length + MESSAGE_META_DATA_CHECKSUM) 4 =
        some (intBytes m.destination))

/-- The metadata four bytes too far. -/
def shifted (sent : Message) (stale : Int32) : Message :=
  { sent with
    sourceActor := sent.destinationActor
    destinationActor := sent.routingSource
    routingSource := sent.routingDestination
    routingDestination := sent.miniRankSource
    miniRankSource := sent.miniRankDestination
    miniRankDestination := stale }

theorem shifted_envelope {stale : Int32} (h : sent.Envelope outbox payload.length)
    (hstale : outbox.Holds (payload.length + MESSAGE_META_DATA_CHECKSUM) (intBytes stale)) :
    (shifted sent stale).Envelope outbox (payload.length + 4) := by
  have hshift : ∀ position value,
      outbox.Holds (payload.length + (position + 4)) (intBytes value) →
      outbox.Holds (payload.length + 4 + position) (intBytes value) := by
    intro position value hholds
    rw [Nat.add_assoc, Nat.add_comm 4]
    exact hholds
  exact ⟨hshift _ _ h.destinationActor, hshift _ _ h.routingSource,
    hshift _ _ h.routingDestination, hshift _ _ h.miniRankSource,
    hshift _ _ h.miniRankDestination, hshift _ _ hstale⟩

theorem eq_neg_one {n : Int32} (hge : -1 ≤ n) (hlt : n < 0) : n = -1 := by
  rw [← Int32.toInt_inj]
  rw [Int32.le_iff_toInt_le] at hge
  rw [Int32.lt_iff_toInt_lt] at hlt
  have hone : (-1 : Int32).toInt = -1 := rfl
  have hzero : (0 : Int32).toInt = 0 := rfl
  omega

/-- What the metadata of a message of a mini-rank are when it is sent. -/
structure SentBy (m sent : Message) : Prop where
  tag : sent.tag = m.tag
  source : sent.source = m.source
  destination : sent.destination = m.destination
  routingSource : sent.routingSource = m.routingSource
  miniRankSource : sent.miniRankSource = m.source
  miniRankDestination : sent.miniRankDestination = m.destination
  actors : ¬ (sent.sourceActor < 0 ∧ sent.destinationActor < 0)
  destinationActor : -1 ≤ sent.destinationActor

theorem prepared_sentBy (hsource : 0 ≤ m.source) (hdestination : 0 ≤ m.destination)
    (hactor : -1 ≤ m.destinationActor) : SentBy m (prepared id true m).defaultActors := by
  have hprepared : prepared id true m = m.setMiniRanks m.source m.destination := rfl
  have hge : (-1 : Int32) ≤ m.destination := Int32.le_trans (by decide) hdestination
  rw [hprepared]
  unfold Message.defaultActors Message.setMiniRanks
  split
  · refine ⟨rfl, rfl, rfl, rfl, rfl, rfl, fun hnobody => ?_, hge⟩
    exact Int32.not_lt.mpr hsource hnobody.1
  · rename_i hsome
    exact ⟨rfl, rfl, rfl, rfl, rfl, rfl, hsome, hactor⟩

/-- Saving the metadata that are read too far changes nothing either. -/
theorem shifted_stable (hsent : SentBy m sent) (hroute : -1 ≤ m.routingSource) (bytes : Nat)
    (tag : Int) (stale : Int32) :
    ((Message.new bytes (-1) tag (-1)).withMetaData (shifted sent stale)).defaultActors =
      (Message.new bytes (-1) tag (-1)).withMetaData (shifted sent stale) := by
  unfold Message.defaultActors
  split
  · rename_i hnobody
    have hfirst : sent.destinationActor = -1 := eq_neg_one hsent.destinationActor hnobody.1
    have hsecond : sent.routingSource = -1 :=
      eq_neg_one (hsent.routingSource ▸ hroute) hnobody.2
    simp [Message.withMetaData, shifted, hfirst, hsecond, Message.new]
  · rfl

/-- Without checksums, the process reads the metadata that were sent. -/
theorem miniRankTransfer_delivered (miniRanksPerRank : Int32)
    (hper : 0 < miniRanksPerRank) (hdestination : 0 ≤ m.destination)
    (hmax : payload.length ≤ MAXIMUM_MESSAGE_SIZE_IN_BYTES) (hsent : SentBy m sent)
    (hsend : sendMessage id true false m payload buffers.outbox =
      some ({ sent with bytes := wrappedLength payload false }, outbox))
    (hwrapped : Wrapped outbox payload sent false) :
    ∃ delivery, miniRankTransfer miniRanksPerRank false m payload buffers = some delivery ∧
      Delivered miniRanksPerRank m payload delivery := by
  obtain ⟨inbox, hpayload, htransfer⟩ := miniRankTransfer_eq miniRanksPerRank hsend hwrapped hmax
    hsent.actors hmax hwrapped.envelope (if_neg hsent.actors)
  rw [hsent.miniRankDestination, if_pos (miniRankIndex_bounds hdestination hper),
    hsent.destination, hsent.miniRankSource] at htransfer
  exact ⟨_, htransfer, rfl, rfl, rfl, rfl, hsent.tag, rfl, hpayload, rfl⟩

/-- With checksums, the process takes the destination for the source, and the four
bytes `stale` that nobody writes for the destination. -/
theorem miniRankTransfer_checksum_iff (miniRanksPerRank : Int32)
    (hper : 0 < miniRanksPerRank) (hdestination : 0 ≤ m.destination)
    (hmax : payload.length + 4 ≤ MAXIMUM_MESSAGE_SIZE_IN_BYTES) (hroute : -1 ≤ m.routingSource)
    (hsent : SentBy m sent)
    (hsend : sendMessage id true true m payload buffers.outbox =
      some ({ sent with bytes := wrappedLength payload true }, outbox))
    (hwrapped : Wrapped outbox payload sent true) {stale : Int32}
    (hstale : outbox.Holds (payload.length + MESSAGE_META_DATA_CHECKSUM) (intBytes stale)) :
    (∃ delivery, miniRankTransfer miniRanksPerRank true m payload buffers = some delivery ∧
      Delivered miniRanksPerRank m payload delivery) ↔
        m.source = m.destination ∧ stale = m.destination := by
  obtain ⟨inbox, hpayload, htransfer⟩ := miniRankTransfer_eq miniRanksPerRank hsend hwrapped
    (Nat.le_of_add_right_le hmax) hsent.actors hmax (shifted_envelope hwrapped.envelope hstale)
    (shifted_stable hsent hroute _ _ _)
  have hseenSource : (shifted sent stale).miniRankSource = m.destination :=
    hsent.miniRankDestination
  have hseenDestination : (shifted sent stale).miniRankDestination = stale := rfl
  rw [hseenSource, hseenDestination, hsent.destination] at htransfer
  constructor
  · intro hdelivered
    obtain ⟨delivery, hdelivery, hright⟩ := hdelivered
    rw [htransfer] at hdelivery
    split at hdelivery
    · cases hdelivery
      exact ⟨hright.source.symm, hright.destination⟩
    · cases hdelivery
  · intro hmatch
    obtain ⟨hself, rfl⟩ := hmatch
    rw [if_pos (miniRankIndex_bounds hdestination hper)] at htransfer
    exact ⟨_, htransfer, rfl, rfl, hself.symm, rfl, hsent.tag, rfl, hpayload, rfl⟩

/-- A message is delivered as it was sent exactly when the layers that the process
reads are those that the sender wrote, or the difference does not matter. -/
theorem miniRankTransfer_delivered_iff (miniRanksPerRank : Int32) (doChecksum : Bool)
    (m : Message) (payload : List UInt8) (buffers : MiniRankBuffers)
    (hper : 0 < miniRanksPerRank) (hsource : 0 ≤ m.source) (hdestination : 0 ≤ m.destination)
    (hbytes : m.bytes = payload.length) (hmax : payload.length ≤ MAXIMUM_MESSAGE_SIZE_IN_BYTES)
    (hactor : -1 ≤ m.destinationActor) (hroute : -1 ≤ m.routingSource) :
    (∃ delivery, miniRankTransfer miniRanksPerRank doChecksum m payload buffers = some delivery ∧
      Delivered miniRanksPerRank m payload delivery) ↔
        LayersMatch doChecksum m payload buffers.outbox := by
  have hmaximum : MAXIMUM_MESSAGE_SIZE_IN_BYTES = 4000 := rfl
  have hchecksum : MESSAGE_META_DATA_CHECKSUM = 24 := rfl
  have hsize := chunk_size
  obtain ⟨outbox, hsend, hwrapped, hhole⟩ :=
    sendMessage_spec id true doChecksum m payload buffers.outbox hbytes hmax
  have hsent := prepared_sentBy hsource hdestination hactor
  generalize (prepared id true m).defaultActors = sent at hsend hwrapped hsent
  cases doChecksum with
  | false =>
      exact ⟨fun _ => .inl rfl, fun _ =>
        miniRankTransfer_delivered miniRanksPerRank hper hdestination hmax hsent hsend hwrapped⟩
  | true =>
      by_cases hlong : payload.length + 4 ≤ MAXIMUM_MESSAGE_SIZE_IN_BYTES
      · -- the four bytes that nobody writes are what the outbox held before
        obtain ⟨hole, hread⟩ : ∃ hole,
            buffers.outbox.read (payload.length + MESSAGE_META_DATA_CHECKSUM) 4 = some hole :=
          ⟨_, if_pos (by omega)⟩
        obtain ⟨hholds, hlength, _⟩ := holds_of_read hread
        have hstale : outbox.Holds (payload.length + MESSAGE_META_DATA_CHECKSUM)
            (intBytes (bytesInt hole)) := by
          rw [intBytes_bytesInt hlength]
          rw [holds_iff] at *
          intro i hi
          rw [hhole _ (by omega) (by omega)]
          exact hholds i hi
        have hnumber : bytesInt hole = m.destination ↔ hole = intBytes m.destination := by
          constructor
          · intro heq
            rw [← heq, intBytes_bytesInt hlength]
          · intro heq
            rw [heq, bytesInt_intBytes]
        rw [miniRankTransfer_checksum_iff miniRanksPerRank hper hdestination hlong hroute hsent
          hsend hwrapped hstale, hnumber, LayersMatch, hread]
        simp [hlong]
      · rw [miniRankTransfer_overflow miniRanksPerRank hsend hmax
          (by rw [seenOffset, if_pos rfl]; omega), LayersMatch]
        simp [hlong]

/-- Buffers that were never used. -/
def MiniRankBuffers.zero : MiniRankBuffers :=
  { outbox := MemoryBlock.zero _
    copiedBuffer := MemoryBlock.zero _
    staticBuffer := MemoryBlock.zero _
    incoming := MemoryBlock.zero _
    inbox := MemoryBlock.zero _ }

theorem miniRankTransfer_delivered_plain :
    (∃ delivery, miniRankTransfer 2 false (Message.new 2 1 5 0) [7, 8] .zero = some delivery ∧
      Delivered 2 (Message.new 2 1 5 0) [7, 8] delivery) ↔
        LayersMatch false (Message.new 2 1 5 0) [7, 8] (MemoryBlock.zero _) :=
  miniRankTransfer_delivered_iff 2 false (Message.new 2 1 5 0) [7, 8] .zero (by decide)
    (by decide) (by decide) rfl (Nat.le_of_ble_eq_true rfl) (by decide) (by decide)

/-- Mini-rank 0 writes to mini-rank 1 with checksums: mini-rank 0 gets the message. -/
theorem miniRankTransfer_misdelivered :
    ¬ ∃ delivery, miniRankTransfer 2 true (Message.new 2 1 5 0) [7, 8] .zero = some delivery ∧
      Delivered 2 (Message.new 2 1 5 0) [7, 8] delivery := by
  intro hdelivered
  obtain ⟨delivery, hdelivery, hright⟩ := hdelivered
  have hindex : (miniRankTransfer 2 true (Message.new 2 1 5 0) [7, 8] .zero).map
      MiniRankDelivery.index = some 0 := by decide +kernel
  rw [hdelivery, Option.map_some, hright.index] at hindex
  exact absurd hindex (by decide)

end MessagesHandler

end RayPlatform
