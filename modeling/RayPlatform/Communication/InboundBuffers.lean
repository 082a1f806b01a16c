import RayPlatform.Communication.BufferHandover
import RayPlatform.Memory.RingAllocator

/-!
# Inbound buffers of a mini-rank

The communication thread runs `MessagesHandler::receiveMessagesForMiniRanks`: it
allocates a chunk of the ring of the mini-rank, copies the payload in it, and pushes
the message in the buffered inbox until the queue accepts it. The thread of the
mini-rank runs `receiveMessagesForComputeCore`: it pops a message, then copies its
payload. The ring and the queue have room for the same number of messages, and no chunk
is ever marked as dirty.
-/

namespace RayPlatform

open Lib
open scoped Words

/-! ## `ComputeCore::configureEngine` -/

/-- `m_maximumAllocatedOutboxBuffers`, for a number of ranks. -/
def maximumAllocatedOutboxBuffers (size : Nat) : Nat :=
  let minimumNumberOfBuffers := 128
  let availableBuffers := size * 2
  -- this will occur when using the virtual router with a few processes
  if availableBuffers < minimumNumberOfBuffers then minimumNumberOfBuffers else availableBuffers

/-- `m_maximumNumberOfOutboxMessages`, also the capacity of the buffered inbox and outbox. -/
def maximumNumberOfOutboxMessages (size : Nat) : Nat :=
  let availableBuffers := maximumAllocatedOutboxBuffers size
  if availableBuffers < size then size else availableBuffers

/-- The rings have as many chunks as the queues have messages. -/
theorem maximumNumberOfOutboxMessages_eq (size : Nat) :
    maximumNumberOfOutboxMessages size = maximumAllocatedOutboxBuffers size := by
  have hge : size ≤ maximumAllocatedOutboxBuffers size := by
    unfold maximumAllocatedOutboxBuffers
    simp only
    split <;> omega
  exact if_neg (Nat.not_lt.mpr hge)

theorem maximumAllocatedOutboxBuffers_pos (size : Nat) :
    0 < maximumAllocatedOutboxBuffers size := by
  unfold maximumAllocatedOutboxBuffers
  simp only
  split <;> omega

/-! ## The two threads -/

/-- Where the communication thread stands. -/
inductive Receiver
  | idle
  /-- `memcpy` from `m_staticBuffer`, which holds the payload -/
  | copying (payload : List UInt8) (incoming copied : Nat)
  /-- the message is pushed until the queue takes it -/
  | pushing (payload : List UInt8) (message : Words 2 Nat)

structure InboundBuffers where
  /-- `m_bufferedInboxAllocator` -/
  allocator : RingAllocator
  receiver : Receiver
  inbox : Handover
  /-- the payloads that were received for this mini-rank -/
  received : List (List UInt8)

inductive InboundStep
  /-- a message is in `m_staticBuffer` -/
  | arrive (payload : List UInt8)
  | copyIn
  | push (access : PushAccess)
  | pop (access : PopAccess)
  | copyOut
  | deliver

namespace InboundBuffers

def start (memory size chunkSize : Nat) (bins : Nat → Words 2 Nat) (bytes : Nat → UInt8) :
    InboundBuffers :=
  { allocator := .constructor memory (maximumAllocatedOutboxBuffers size) chunkSize
    receiver := .idle
    inbox := .start (maximumNumberOfOutboxMessages size) bins bytes
    received := [] }

/-- `receiveMessagesForMiniRanks` up to the copy: `MPI_Recv` gives no more bytes than a
buffer has. -/
def arrive (s : InboundBuffers) (payload : List UInt8) : Option InboundBuffers :=
  match s.receiver with
  | .idle =>
      if payload.length ≤ s.allocator.max then
        if 0 < payload.length then
          some { s with
            allocator := s.allocator.allocate.1
            receiver := .copying payload s.allocator.allocate.2 0
            received := s.received ++ [payload] }
        else
          some { s with
            receiver := .pushing payload (header 0 0)
            received := s.received ++ [payload] }
      else none
  | _ => none

/-- A byte of the copy, after the last one the message is made. -/
def copyIn (s : InboundBuffers) : Option InboundBuffers :=
  match s.receiver with
  | .copying payload incoming copied =>
      match payload[copied]? with
      | some byte =>
          some { s with
            inbox := s.inbox.store (incoming + copied) byte
            receiver := .copying payload incoming (copied + 1) }
      | none => some { s with receiver := .pushing payload (header incoming payload.length) }
  | _ => none

/-- `while(!inbox->push(&aMessage))`: a push that fails is made again. -/
def push (s : InboundBuffers) (access : PushAccess) : Option InboundBuffers :=
  match s.receiver with
  | .pushing payload message =>
      (s.inbox.queue.exec (access.access message)).map fun next =>
        { s with
          inbox := s.inbox.advance next.1 next.2
          receiver := match next.2 with
            | some (.pushed _) => .idle
            | _ => .pushing payload message }
  | _ => none

def exec (s : InboundBuffers) : InboundStep → Option InboundBuffers
  | .arrive payload => s.arrive payload
  | .copyIn => s.copyIn
  | .push access => s.push access
  | .pop access => (s.inbox.pop access).map fun inbox => { s with inbox := inbox }
  | .copyOut => s.inbox.copyByte.map fun inbox => { s with inbox := inbox }
  | .deliver => s.inbox.finish.map fun inbox => { s with inbox := inbox }

/-- The payload that each message is copied with is the one received for it. -/
def Exact (s : InboundBuffers) : Prop :=
  s.inbox.taken <+: s.received

/-- The messages with a payload that were received and are not yet copied. -/
def unconsumed (s : InboundBuffers) : Nat :=
  (s.received.drop s.inbox.taken.length).countP (0 < ·.length)

/-- A message with a payload finds a chunk that no message waits in. -/
def FindsChunk (size : Nat) (s : InboundBuffers) : InboundStep → Prop
  | .arrive payload => 0 < payload.length → s.unconsumed < maximumAllocatedOutboxBuffers size
  | _ => True

/-! ## The chunks of the messages that wait -/

variable {size : Nat} {s s' : InboundBuffers}

/-- The number of chunks allocated for the first payloads. -/
def allocated (payloads : List (List UInt8)) : Nat :=
  payloads.countP (0 < ·.length)

/-- The chunk of payload `i`. -/
def chunkOf (size : Nat) (s : InboundBuffers) (i : Nat) : Nat :=
  s.allocator.address (allocated (s.received.take i) % maximumAllocatedOutboxBuffers size)

/-- No message that waits is in a chunk. -/
def Fresh (s : InboundBuffers) (chunk : Nat) : Prop :=
  ∀ message ∈ s.inbox.waiting, 0 < message 1 →
    message 0 + message 1 ≤ chunk ∨ chunk + s.allocator.max ≤ message 0

/-- Where the communication thread stands, for the message it delivers. -/
def Delivering (size : Nat) (s : InboundBuffers) : Receiver → Prop
  | .idle => s.received = s.inbox.given ∧ ∀ m n c, s.inbox.queue.producer ≠ .writing m n c
  | .copying payload incoming copied =>
      s.received = s.inbox.given ++ [payload] ∧
      (∀ m n c, s.inbox.queue.producer ≠ .writing m n c) ∧
      0 < payload.length ∧ payload.length ≤ s.allocator.max ∧
      incoming = s.chunkOf size s.inbox.given.length ∧ s.Fresh incoming ∧
      ∀ j byte, j < copied → payload[j]? = some byte → s.inbox.bytes (incoming + j) = byte
  | .pushing payload message =>
      s.received = s.inbox.given ++ [payload] ∧
      (∀ m n c, s.inbox.queue.producer = .writing m n c → m = message) ∧
      message 1 = payload.length ∧ message 1 ≤ s.allocator.max ∧
      (0 < message 1 → message 0 = s.chunkOf size s.inbox.given.length) ∧
      snapshot s.inbox.bytes message = payload

structure Inv (size : Nat) (s : InboundBuffers) : Prop where
  sound : s.inbox.Sound (maximumNumberOfOutboxMessages size)
  ring : s.allocator.Rotates (maximumAllocatedOutboxBuffers size) (allocated s.received)
  buffers : ∀ i message, s.inbox.queue.log.pushed[i]? = some message → 0 < message 1 →
    message 0 = s.chunkOf size i ∧ message 1 ≤ s.allocator.max
  delivering : s.Delivering size s.receiver

theorem allocated_take_mono {payloads : List (List UInt8)} {i j : Nat} (hij : i ≤ j) :
    allocated (payloads.take i) ≤ allocated (payloads.take j) :=
  (List.take_sublist_take_left hij).countP_le

theorem allocated_take_lt {payloads : List (List UInt8)} {i : Nat} {payload : List UInt8}
    (hi : payloads[i]? = some payload) (hpos : 0 < payload.length) :
    allocated (payloads.take i) < allocated payloads := by
  have hnext : allocated (payloads.take (i + 1)) = allocated (payloads.take i) + 1 := by
    rw [List.take_add_one, hi, allocated, List.countP_append]
    simp [allocated, hpos]
  have hle : allocated (payloads.take (i + 1)) ≤ allocated payloads :=
    (List.take_sublist _ _).countP_le
  omega

/-- A chunk holds one payload of a window no wider than the ring. -/
theorem Inv.fresh (h : Inv size s) (hidle : s.receiver = .idle)
    (hroom : s.unconsumed < maximumAllocatedOutboxBuffers size) :
    s.Fresh (s.chunkOf size s.received.length) := by
  have hdelivering := h.delivering
  rw [hidle] at hdelivering
  obtain ⟨hgiven, -⟩ := hdelivering
  intro message hmem hpos
  obtain ⟨k, hk⟩ := List.mem_iff_getElem?.mp hmem
  rw [Handover.waiting, List.getElem?_drop] at hk
  obtain ⟨hchunk, hfits⟩ := h.buffers _ message hk hpos
  have hpayload := h.sound.tracks.stored _ message (Nat.le_add_right _ k) hk
  rw [← hgiven] at hpayload
  have hlt := allocated_take_lt hpayload (by rw [Handover.length_snapshot]; exact hpos)
  have hwindow : allocated s.received ≤
      allocated (s.received.take (s.inbox.taken.length + k)) + s.unconsumed := by
    have hsplit := List.take_append_drop s.inbox.taken.length s.received
    have hcount : allocated s.received =
        allocated (s.received.take s.inbox.taken.length) + s.unconsumed := by
      conv_lhs => rw [← hsplit]
      exact List.countP_append
    have hmono : allocated (s.received.take s.inbox.taken.length) ≤
        allocated (s.received.take (s.inbox.taken.length + k)) :=
      allocated_take_mono (Nat.le_add_right _ k)
    omega
  have hne : allocated (s.received.take (s.inbox.taken.length + k)) %
      maximumAllocatedOutboxBuffers size ≠
      allocated s.received % maximumAllocatedOutboxBuffers size := by
    intro heq
    have hsame := mod_window (Nat.le_of_lt hlt) (by omega) heq
    omega
  rw [chunkOf, List.take_length, hchunk, chunkOf]
  rcases s.allocator.address_disjoint hne with hbelow | habove
  · exact .inl (by omega)
  · exact .inr habove

theorem allocated_concat (payloads : List (List UInt8)) (payload : List UInt8) :
    allocated (payloads ++ [payload]) =
      allocated payloads + if 0 < payload.length then 1 else 0 := by
  simp [allocated, List.countP_append, List.countP_singleton]

/-- The chunks of the payloads that came before. -/
theorem chunkOf_concat {i : Nat} (hi : i ≤ s.received.length) (payload : List UInt8) :
    s.allocator.address (allocated ((s.received ++ [payload]).take i) %
      maximumAllocatedOutboxBuffers size) = s.chunkOf size i := by
  rw [chunkOf, List.take_append_of_le_length hi]

/-! ## The steps of the communication thread -/

theorem Inv.arrive (h : Inv size s) {payload : List UInt8}
    (hroom : FindsChunk size s (.arrive payload)) (hexec : s.arrive payload = some s') :
    Inv size s' := by
  unfold InboundBuffers.arrive at hexec
  split at hexec
  · next hidle =>
      have hdelivering := h.delivering
      rw [hidle] at hdelivering
      obtain ⟨hgiven, hproducer⟩ := hdelivering
      have hlength : s.inbox.queue.log.pushed.length = s.received.length := by
        rw [hgiven, h.sound.tracks.given]
      split at hexec
      · next hfits =>
          split at hexec
          · next hpos =>
              cases hexec
              obtain ⟨hring, hchunk⟩ := h.ring.allocate (maximumAllocatedOutboxBuffers_pos size)
              refine ⟨h.sound, ?_, ?_, ?_⟩
              · show RingAllocator.Rotates _ _ (allocated (s.received ++ [payload]))
                rw [allocated_concat, if_pos hpos]
                exact hring
              · intro i message hi hmessage
                have hlt : i < s.inbox.queue.log.pushed.length :=
                  (List.getElem?_eq_some_iff.mp hi).1
                obtain ⟨hbuffer, hmax⟩ := h.buffers i message hi hmessage
                exact ⟨hbuffer.trans (chunkOf_concat (by omega) payload).symm, hmax⟩
              · have hincoming : s.allocator.allocate.2 = s.chunkOf size s.received.length := by
                  rw [hchunk, chunkOf, List.take_length]
                refine ⟨by rw [hgiven], hproducer, hpos, hfits, ?_, ?_,
                  fun j byte hj => absurd hj (Nat.not_lt_zero _)⟩
                · rw [← hgiven]
                  exact hincoming.trans (chunkOf_concat (Nat.le_refl _) payload).symm
                · rw [hincoming]
                  exact h.fresh hidle (hroom hpos)
          · next hempty =>
              cases hexec
              refine ⟨h.sound, ?_, ?_, ?_⟩
              · show RingAllocator.Rotates _ _ (allocated (s.received ++ [payload]))
                rw [allocated_concat, if_neg hempty]
                exact h.ring
              · intro i message hi hmessage
                have hlt : i < s.inbox.queue.log.pushed.length :=
                  (List.getElem?_eq_some_iff.mp hi).1
                obtain ⟨hbuffer, hmax⟩ := h.buffers i message hi hmessage
                exact ⟨hbuffer.trans (chunkOf_concat (by omega) payload).symm, hmax⟩
              · have hnil : payload = [] := List.eq_nil_of_length_eq_zero (by omega)
                subst hnil
                exact ⟨by rw [hgiven], fun m n c hwriting => absurd hwriting (hproducer m n c),
                  rfl, Nat.zero_le _, fun hlt => absurd hlt (Nat.lt_irrefl 0), rfl⟩
      · cases hexec
  · cases hexec

theorem Inv.copyIn (h : Inv size s) (hexec : s.copyIn = some s') : Inv size s' := by
  unfold InboundBuffers.copyIn at hexec
  split at hexec
  · next payload incoming copied hreceiver =>
      have hdelivering := h.delivering
      rw [hreceiver] at hdelivering
      obtain ⟨hgiven, hproducer, hpos, hfits, hchunk, hfresh, hcopied⟩ := hdelivering
      split at hexec
      · next byte hbyte =>
          cases hexec
          obtain ⟨hlt, -⟩ := List.getElem?_eq_some_iff.mp hbyte
          refine ⟨h.sound.store byte ?_, h.ring, h.buffers, ?_⟩
          · intro message hmem
            by_cases hzero : 0 < message 1
            · have hout := hfresh message hmem hzero
              omega
            · omega
          · refine ⟨hgiven, hproducer, hpos, hfits, hchunk, hfresh, fun j b hj hb => ?_⟩
            show Function.update s.inbox.bytes (incoming + copied) byte (incoming + j) = b
            by_cases hlast : j = copied
            · subst hlast
              rw [hbyte] at hb
              cases hb
              exact Function.update_self _ _ _
            · rw [Function.update_of_ne (by omega)]
              exact hcopied j b (by omega) hb
      · next hend =>
          cases hexec
          have hle : payload.length ≤ copied := List.getElem?_eq_none_iff.mp hend
          refine ⟨h.sound, h.ring, h.buffers, hgiven,
            fun m n c hwriting => absurd hwriting (hproducer m n c), rfl, hfits,
            fun _ => hchunk, ?_⟩
          apply List.ext_getElem?
          intro j
          show (snapshot s.inbox.bytes (header incoming payload.length))[j]? = payload[j]?
          by_cases hj : j < payload.length
          · have hbyte := List.getElem?_eq_getElem hj
            rw [hbyte, ← hcopied j _ (by omega) hbyte, snapshot, List.getElem?_map]
            show Option.map _ (List.range payload.length)[j]? = _
            rw [List.getElem?_range hj]
            rfl
          · rw [List.getElem?_eq_none (Nat.le_of_not_lt hj), List.getElem?_eq_none]
            rw [Handover.length_snapshot]
            exact Nat.le_of_not_lt hj
  · cases hexec

theorem Inv.push (h : Inv size s) (hbins : maximumNumberOfOutboxMessages size + 1 < 2 ^ 32)
    {access : PushAccess} (hexec : s.push access = some s') : Inv size s' := by
  unfold InboundBuffers.push at hexec
  split at hexec
  · next payload message hreceiver =>
      have hdelivering := h.delivering
      rw [hreceiver] at hdelivering
      obtain ⟨hgiven, hwriting, hbytes, hfits, hchunk, hpayload⟩ := hdelivering
      obtain ⟨⟨queue, event⟩, hqueue, rfl⟩ := Option.map_eq_some_iff.mp hexec
      have hpushes := pushes hwriting hqueue
      have hsound := h.sound.advance hbins hqueue
        fun m hm => absurd hm (hpushes.not_popped m)
      by_cases hdone : ∃ m, event = some (.pushed m)
      · obtain ⟨m, rfl⟩ := hdone
        obtain ⟨rfl, hidle, hpushed⟩ := hpushes.pushed m rfl
        refine ⟨hsound, h.ring, ?_, ?_, fun m' n c hw => ?_⟩
        · intro i m' hi hpos
          have hi' : queue.log.pushed[i]? = some m' := hi
          rw [hpushed] at hi'
          by_cases hlt : i < s.inbox.queue.log.pushed.length
          · rw [List.getElem?_append_left hlt] at hi'
            exact h.buffers i m' hi' hpos
          · rw [List.getElem?_append_right (by omega), List.getElem?_singleton] at hi'
            split at hi'
            · next hzero =>
                cases hi'
                have hlast : i = s.inbox.given.length := by
                  rw [h.sound.tracks.given]
                  omega
                rw [hlast]
                exact ⟨hchunk hpos, hfits⟩
            · cases hi'
        · show s.received = s.inbox.given ++ [snapshot s.inbox.bytes m]
          rw [hpayload]
          exact hgiven
        · have hw' : queue.producer = .writing m' n c := hw
          rw [hidle] at hw'
          cases hw'
      · have hquiet : ∀ m, event ≠ some (.pushed m) := fun m hm => hdone ⟨m, hm⟩
        have hsame : s.inbox.advance queue event = { s.inbox with queue := queue } :=
          Handover.advance_quiet hquiet hpushes.not_popped
        have hlog := hpushes.not_pushed hquiet
        simp only [hsame] at hsound
        -- `hquiet` decides the phase
        simp only [hsame]
        refine ⟨hsound, h.ring, ?_, hgiven, hpushes.writing, hbytes, hfits, hchunk, hpayload⟩
        intro i m hi hpos
        have hi' : queue.log.pushed[i]? = some m := hi
        rw [hlog] at hi'
        exact h.buffers i m hi' hpos
  · cases hexec

/-! ## The steps of the mini-rank -/

theorem Inv.read (h : Inv size s) {inbox : Handover}
    (hsound : inbox.Sound (maximumNumberOfOutboxMessages size))
    (hstep : Handover.ReaderStep s.inbox inbox) : Inv size { s with inbox := inbox } := by
  refine ⟨hsound, h.ring, ?_, ?_⟩
  · intro i message hi
    have hi' : inbox.queue.log.pushed[i]? = some message := hi
    rw [hstep.pushed] at hi'
    exact h.buffers i message hi'
  · have hdelivering := h.delivering
    show Delivering size { s with inbox := inbox } s.receiver
    cases hreceiver : s.receiver with
    | idle =>
        rw [hreceiver] at hdelivering
        simp only [Delivering, hstep.given, hstep.producer]
        exact hdelivering
    | copying payload incoming copied =>
        rw [hreceiver] at hdelivering
        obtain ⟨hgiven, hproducer, hpos, hfits, hchunk, hfresh, hcopied⟩ := hdelivering
        simp only [Delivering, hstep.given, hstep.producer, hstep.bytes]
        exact ⟨hgiven, hproducer, hpos, hfits, hchunk,
          fun message hmem => hfresh message (hstep.waiting hmem), hcopied⟩
    | pushing payload message =>
        rw [hreceiver] at hdelivering
        simp only [Delivering, hstep.given, hstep.producer, hstep.bytes]
        exact hdelivering

theorem Inv.exec (h : Inv size s) (hbins : maximumNumberOfOutboxMessages size + 1 < 2 ^ 32)
    {step : InboundStep} (hroom : FindsChunk size s step) (hexec : s.exec step = some s') :
    Inv size s' := by
  cases step with
  | arrive payload => exact h.arrive hroom hexec
  | copyIn => exact h.copyIn hexec
  | push access => exact h.push hbins hexec
  | pop access =>
      obtain ⟨inbox, hpop, rfl⟩ := Option.map_eq_some_iff.mp hexec
      obtain ⟨hsound, hstep⟩ := h.sound.pop hbins hpop
      exact h.read hsound hstep
  | copyOut =>
      obtain ⟨inbox, hcopy, rfl⟩ := Option.map_eq_some_iff.mp hexec
      exact h.read (h.sound.copyByte hcopy) (Handover.readerStep_copyByte hcopy)
  | deliver =>
      obtain ⟨inbox, hfinish, rfl⟩ := Option.map_eq_some_iff.mp hexec
      exact h.read (h.sound.finish hfinish) (Handover.readerStep_finish hfinish)

theorem start_inv (hbins : maximumNumberOfOutboxMessages size + 1 < 2 ^ 32)
    (memory chunkSize : Nat) (bins : Nat → Words 2 Nat) (bytes : Nat → UInt8) :
    Inv size (start memory size chunkSize bins bytes) :=
  { sound := Handover.start_sound hbins bins bytes
    ring := RingAllocator.constructor_rotates memory _ chunkSize
    buffers := fun _ _ hi => nomatch hi
    delivering := ⟨rfl, fun _ _ _ hwriting => nomatch hwriting⟩ }

/-- What is copied out is what was received, for as long as the chunks suffice. -/
theorem Inv.exact (h : Inv size s) : s.Exact := by
  have hgiven := h.sound.tracks.taken
  have hdelivering := h.delivering
  unfold Exact
  cases hreceiver : s.receiver with
  | idle =>
      rw [hreceiver] at hdelivering
      rw [hdelivering.1]
      exact hgiven
  | copying _ _ _ =>
      rw [hreceiver] at hdelivering
      rw [hdelivering.1]
      exact hgiven.trans (List.prefix_append _ _)
  | pushing _ _ =>
      rw [hreceiver] at hdelivering
      rw [hdelivering.1]
      exact hgiven.trans (List.prefix_append _ _)

instance (size : Nat) (s : InboundBuffers) (step : InboundStep) :
    Decidable (FindsChunk size s step) :=
  match step with
  | .arrive payload =>
      inferInstanceAs (Decidable (0 < payload.length → s.unconsumed < _))
  | .copyIn | .push _ | .pop _ | .copyOut | .deliver => isTrue trivial

end InboundBuffers

/-- The two threads of one mini-rank among `size` ranks. -/
def inboundSystem (size memory chunkSize : Nat) (bins : Nat → Words 2 Nat)
    (bytes : Nat → UInt8) : TransitionSystem InboundBuffers InboundStep :=
  .ofExec (.start memory size chunkSize bins bytes) InboundBuffers.exec

section MiniRanks

variable {ι : Type} {size : Nat} {memory : ι → Nat} {chunkSize : Nat}
  {bins : ι → Nat → Words 2 Nat} {bytes : ι → Nat → UInt8}

/-- In a run where each arrival with a payload finds fewer messages that wait than there
are chunks, every mini-rank copies what was received for it. -/
theorem inboundBuffers_exact (hsize : size * 2 < 2 ^ 31) {s : ι → InboundBuffers}
    (hs : (TransitionSystem.indexed fun i =>
      (inboundSystem size (memory i) chunkSize (bins i) (bytes i)).restrict
        (InboundBuffers.FindsChunk size)).Reachable s) (i : ι) : (s i).Exact := by
  have hbins : maximumNumberOfOutboxMessages size + 1 < 2 ^ 32 := by
    rw [maximumNumberOfOutboxMessages_eq, maximumAllocatedOutboxBuffers]
    split <;> omega
  have hinv : ((inboundSystem size (memory i) chunkSize (bins i) (bytes i)).restrict
      (InboundBuffers.FindsChunk size)).Inductive (InboundBuffers.Inv size) := by
    refine ⟨fun s hinit => ?_, fun s step s' h hstep => h.exec hbins hstep.1 hstep.2⟩
    rw [show s = _ from hinit]
    exact InboundBuffers.start_inv hbins _ _ _ _
  exact (hinv.holds (hs.component i)).exact

end MiniRanks

/-- A payload of one byte is received and its message pushed. -/
def receiveByte (byte : UInt8) : List InboundStep :=
  [.arrive [byte], .copyIn, .copyIn, .push .readHead, .push .writeWord, .push .writeWord,
    .push .publishTail]

/-- A message of one byte is popped and copied. -/
def consumeByte : List InboundStep :=
  [.pop .readTail, .pop .readWord, .pop .readWord, .pop .publishHead, .copyOut, .deliver]

/-- Two mini-ranks; a message is copied before the second one arrives. -/
theorem inboundBuffers_exact_two : ∃ s : Fin 2 → InboundBuffers,
    (s 0).inbox.taken = [[7]] ∧ (s 0).received = [[7], [8]] ∧ (s 0).Exact := by
  let start := InboundBuffers.start 1 1 4032 (fun _ => header 0 0) fun _ => 0
  let exec := TransitionSystem.guarded (InboundBuffers.FindsChunk 1) InboundBuffers.exec
  let steps := receiveByte 7 ++ consumeByte ++ receiveByte 8
  have hrun : (TransitionSystem.runAll exec start steps).map
      (fun s => (s.inbox.taken, s.received)) = some ([[7]], [[7], [8]]) := by decide +kernel
  obtain ⟨last, hlast, hresult⟩ := Option.map_eq_some_iff.mp hrun
  have hreach : ((inboundSystem 1 1 4032 (fun _ => header 0 0) fun _ => 0).restrict
      (InboundBuffers.FindsChunk 1)).Reachable last :=
    .of_guarded (.runAll (.init rfl) hlast)
  have hstart : ∀ _ : Fin 2, ((inboundSystem 1 1 4032 (fun _ => header 0 0) fun _ => 0).restrict
      (InboundBuffers.FindsChunk 1)).init start := fun _ => rfl
  obtain ⟨s, hs, hzero⟩ := TransitionSystem.Reachable.exists_indexed hstart (i := 0) hreach
  injection hresult with htaken hreceived
  rw [← hzero] at htaken hreceived
  exact ⟨s, htaken, hreceived, inboundBuffers_exact (by decide) hs 0⟩

/-- 128 chunks: the 129th message arrives before the first is copied, and is copied in its
place. -/
theorem inboundBuffers_overwritten : ∃ s : Fin 2 → InboundBuffers,
    (TransitionSystem.indexed fun _ : Fin 2 =>
      inboundSystem 1 1 4032 (fun _ => header 0 0) fun _ => 0).Reachable s ∧ ¬ (s 0).Exact := by
  let start := InboundBuffers.start 1 1 4032 (fun _ => header 0 0) fun _ => 0
  let steps := (List.replicate 128 (receiveByte 0)).flatten ++ [.arrive [1], .copyIn] ++
    consumeByte
  have hrun : (TransitionSystem.runAll InboundBuffers.exec start steps).map
      (fun s => (s.inbox.taken, s.received.take 1)) = some ([[1]], [[0]]) := by decide +kernel
  obtain ⟨last, hlast, hresult⟩ := Option.map_eq_some_iff.mp hrun
  have hreach : (inboundSystem 1 1 4032 (fun _ => header 0 0) fun _ => 0).Reachable last :=
    .runAll (.init rfl) hlast
  have hstart : ∀ _ : Fin 2, (inboundSystem 1 1 4032 (fun _ => header 0 0) fun _ => 0).init start :=
    fun _ => rfl
  obtain ⟨s, hs, rfl⟩ := TransitionSystem.Reachable.exists_indexed hstart (i := 0) hreach
  injection hresult with htaken hreceived
  refine ⟨s, hs, fun hexact => ?_⟩
  have hfirst := hexact.take 1
  rw [htaken, hreceived] at hfirst
  exact absurd hfirst (by decide)

end RayPlatform
