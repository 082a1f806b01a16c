import RayPlatform.Communication.InboundBuffers

/-!
# Outbound buffers of a mini-rank

The ticks of a mini-rank: the application allocates chunks and writes in them,
`ComputeCore::sendMessages` copies each message in a new chunk, checks the number of
allocations and appends the metadata, and `MessagesHandler::sendMessagesForComputeCore`
pushes the messages in the buffered outbox. The communication thread runs
`sendMessagesForMiniRank`: it pops a message, then copies its bytes in a buffer for MPI.
No chunk is marked as dirty in this mode.
-/

namespace RayPlatform

open Lib
open scoped Words

/-- Where the tick of the mini-rank is. -/
inductive TickPhase
  /-- the application handles messages and processes data -/
  | application
  /-- `sendMessages` comes to message `i` -/
  | reallocating (i : Nat)
  /-- `memcpy` of message `i` in its new chunk -/
  | copying (i buffer copied : Nat)
  /-- the router, the metadata and the checksums -/
  | preparing
  /-- `sendMessagesForComputeCore` pushes message `i` -/
  | pushing (i : Nat)
  deriving DecidableEq, Repr

structure OutboundBuffers where
  /-- `m_outboxAllocator` -/
  allocator : RingAllocator
  /-- `m_outbox` -/
  messages : List (Words 2 Nat)
  phase : TickPhase
  /-- the chunks allocated in this tick -/
  handed : List Nat
  outbox : Handover

inductive OutboundStep
  | allocate
  | write (address : Nat) (byte : UInt8)
  | pushBack (message : Words 2 Nat)
  | sendMessages
  | reallocate
  | copyOld
  | check
  | resize (i bytes : Nat)
  | sendMessagesForComputeCore
  | push (access : PushAccess)
  | endTick
  | pop (access : PopAccess)
  | copyOut
  | isend
  deriving DecidableEq, Repr

namespace OutboundBuffers

def start (memory size chunkSize : Nat) (bins : Nat → Words 2 Nat) (bytes : Nat → UInt8) :
    OutboundBuffers :=
  { allocator := .constructor memory (maximumAllocatedOutboxBuffers size) chunkSize
    messages := []
    phase := .application
    handed := []
    outbox := .start (maximumNumberOfOutboxMessages size) bins bytes }

/-- A call to `allocate`. -/
def allocated (s : OutboundBuffers) : OutboundBuffers :=
  { s with
    allocator := s.allocator.allocate.1
    handed := s.allocator.allocate.2 :: s.handed }

/-- `resetCount` at the end of a tick. -/
def nextTick (s : OutboundBuffers) : OutboundBuffers :=
  { s with
    allocator := s.allocator.resetCount
    messages := []
    phase := .application
    handed := [] }

/-- The application, the router and the metadata write in the chunks of the tick. -/
def mayWrite (s : OutboundBuffers) (address : Nat) : Bool :=
  decide (s.phase = .application ∨ s.phase = .preparing) &&
    s.handed.any fun chunk => chunk ≤ address && address < chunk + s.allocator.max

/-- A step of the application. -/
def execApplication (s : OutboundBuffers) : OutboundStep → Option OutboundBuffers
  | .allocate => if s.phase = .application then some s.allocated else none
  | .write address byte =>
      if s.mayWrite address then some { s with outbox := s.outbox.store address byte } else none
  | .pushBack message =>
      if s.phase = .application ∧ message 1 ≤ s.allocator.max then
        some { s with messages := s.messages ++ [message] }
      else none
  | .sendMessages =>
      if s.phase = .application then
        -- nothing is done when there are no messages at all
        if s.messages.length = 0 then some s.nextTick else some { s with phase := .reallocating 0 }
      else none
  | _ => none

/-- A step of `ComputeCore::sendMessages`. -/
def execSend (s : OutboundBuffers) : OutboundStep → TickPhase → Option OutboundBuffers
  | .reallocate, .reallocating i =>
      if i < s.messages.length then
        some { s.allocated with phase := .copying i s.allocator.allocate.2 0 }
      else none
  | .copyOld, .copying i buffer copied =>
      match s.messages[i]? with
      | some message =>
          -- copy the old stuff too
          if message 0 ≠ 0 ∧ copied < message 1 then
            some { s with
              outbox := s.outbox.store (buffer + copied) (s.outbox.bytes (message 0 + copied))
              phase := .copying i buffer (copied + 1) }
          else
            some { s with
              messages := s.messages.set i (header buffer (message 1))
              phase := .reallocating (i + 1) }
      | none => none
  | .check, .reallocating i =>
      -- both limits are the number of chunks (`maximumNumberOfOutboxMessages_eq`)
      if i = s.messages.length ∧ s.allocator.count ≤ s.allocator.chunks ∧
          s.messages.length ≤ s.allocator.chunks then
        some { s with phase := .preparing }
      else none
  | .resize i bytes, .preparing =>
      match s.messages[i]? with
      | some message =>
          if bytes ≤ s.allocator.max then
            some { s with messages := s.messages.set i (header (message 0) bytes) }
          else none
      | none => none
  | .sendMessagesForComputeCore, .preparing => some { s with phase := .pushing 0 }
  | _, _ => none

/-- A step of `sendMessagesForComputeCore`: a push that fails is made again. -/
def execPush (s : OutboundBuffers) (access : PushAccess) : Option OutboundBuffers :=
  match s.phase with
  | .pushing i =>
      match s.messages[i]? with
      | some message =>
          (s.outbox.queue.exec (access.access message)).map fun next =>
            { s with
              outbox := s.outbox.advance next.1 next.2
              phase := match next.2 with
                | some (.pushed _) => .pushing (i + 1)
                | _ => .pushing i }
      | none => none
  | _ => none

def exec (s : OutboundBuffers) (step : OutboundStep) : Option OutboundBuffers :=
  match step with
  | .allocate | .write _ _ | .pushBack _ | .sendMessages => s.execApplication step
  | .reallocate | .copyOld | .check | .resize _ _ | .sendMessagesForComputeCore =>
      s.execSend step s.phase
  | .push access => s.execPush access
  | .endTick =>
      match s.phase with
      | .pushing i => if i = s.messages.length then some s.nextTick else none
      | _ => none
  | .pop access => (s.outbox.pop access).map fun outbox => { s with outbox := outbox }
  | .copyOut => s.outbox.copyByte.map fun outbox => { s with outbox := outbox }
  | .isend => s.outbox.finish.map fun outbox => { s with outbox := outbox }

/-- MPI is given the bytes that each message had when it was sent. -/
def Exact (s : OutboundBuffers) : Prop :=
  s.outbox.taken <+: s.outbox.given

/-- The chunk that is handed out is not the buffer of a message that waits. -/
def FindsChunk (s : OutboundBuffers) : OutboundStep → Prop
  | .allocate | .reallocate =>
      ∀ message ∈ s.outbox.waiting, 0 < message 1 → message 0 ≠ s.allocator.allocate.2
  | _ => True

/-! ## The messages that wait and the chunks of the tick -/

variable {size : Nat} {s s' : OutboundBuffers}

/-- No message that waits is in a chunk. -/
def Fresh (s : OutboundBuffers) (chunk : Nat) : Prop :=
  ∀ message ∈ s.outbox.waiting, 0 < message 1 →
    message 0 + message 1 ≤ chunk ∨ chunk + s.allocator.max ≤ message 0

/-- A message is in a chunk. -/
def InChunk (s : OutboundBuffers) (message : Words 2 Nat) : Prop :=
  (∃ slot, message 0 = s.allocator.address slot) ∧ message 1 ≤ s.allocator.max

/-- What holds before the messages of the tick are pushed. -/
structure Quiet (s : OutboundBuffers) : Prop where
  fresh : ∀ chunk ∈ s.handed, s.Fresh chunk
  producer : ∀ m n c, s.outbox.queue.producer ≠ .writing m n c
  fits : ∀ message ∈ s.messages, message 1 ≤ s.allocator.max

/-- Where the mini-rank stands in its tick. -/
def InTick (s : OutboundBuffers) : TickPhase → Prop
  | .application => s.Quiet
  | .reallocating i => s.Quiet ∧ ∀ j m, j < i → s.messages[j]? = some m → s.InChunk m
  | .copying i buffer _ => s.Quiet ∧ (∀ j m, j < i → s.messages[j]? = some m → s.InChunk m) ∧
      buffer ∈ s.handed ∧ ∃ slot, buffer = s.allocator.address slot
  | .preparing => s.Quiet ∧ ∀ m ∈ s.messages, s.InChunk m
  | .pushing i => (∀ m ∈ s.messages, s.InChunk m) ∧
      ∀ m n c, s.outbox.queue.producer = .writing m n c → s.messages[i]? = some m

structure Inv (size : Nat) (s : OutboundBuffers) : Prop where
  sound : s.outbox.Sound (maximumNumberOfOutboxMessages size)
  waiting : ∀ message ∈ s.outbox.waiting, s.InChunk message
  phase : s.InTick s.phase

/-- The chunk that is handed out is fresh. -/
theorem Inv.fresh (h : Inv size s)
    (hfree : ∀ message ∈ s.outbox.waiting, 0 < message 1 → message 0 ≠ s.allocator.allocate.2) :
    s.Fresh s.allocator.allocate.2 := by
  intro message hmem hpos
  obtain ⟨⟨slot, hslot⟩, hfits⟩ := h.waiting message hmem
  have hne : slot ≠ s.allocator.scan := by
    intro heq
    refine hfree message hmem hpos ?_
    rw [hslot, heq]
    rfl
  rw [hslot]
  show _ ≤ s.allocator.address s.allocator.scan ∨ s.allocator.address s.allocator.scan + _ ≤ _
  rcases s.allocator.address_disjoint hne with hbelow | habove
  · exact .inl (by omega)
  · exact .inr habove

theorem Quiet.allocated (h : Quiet s) (hfresh : s.Fresh s.allocator.allocate.2) :
    Quiet s.allocated := by
  refine ⟨fun chunk hmem => ?_, h.producer, h.fits⟩
  rcases List.mem_cons.mp hmem with rfl | hmem
  · exact hfresh
  · exact h.fresh chunk hmem

/-- A byte written in a chunk of the tick. -/
theorem Inv.store (h : Inv size s) (hquiet : Quiet s) {chunk address : Nat}
    (hchunk : chunk ∈ s.handed) (hle : chunk ≤ address)
    (hlt : address < chunk + s.allocator.max) (byte : UInt8) :
    (s.outbox.store address byte).Sound (maximumNumberOfOutboxMessages size) := by
  refine h.sound.store byte fun message hmem => ?_
  by_cases hpos : 0 < message 1
  · have hout := hquiet.fresh chunk hchunk message hmem hpos
    omega
  · omega

/-! ## One lemma per step -/

theorem Inv.nextTick (h : Inv size s) (hidle : ∀ m n c, s.outbox.queue.producer ≠ .writing m n c) :
    Inv size s.nextTick :=
  { sound := h.sound
    waiting := h.waiting
    phase := ⟨(fun _ hmem => nomatch hmem), hidle, fun _ hmem => nomatch hmem⟩ }

theorem Inv.execApplication (h : Inv size s) {step : OutboundStep} (hfree : s.FindsChunk step)
    (hexec : s.execApplication step = some s') : Inv size s' := by
  have hphase := h.phase
  cases step with
  | allocate =>
      simp only [OutboundBuffers.execApplication] at hexec
      split at hexec
      · next happlication =>
          cases hexec
          rw [happlication] at hphase
          refine ⟨h.sound, h.waiting, ?_⟩
          show InTick s.allocated s.phase
          rw [happlication]
          exact Quiet.allocated hphase (h.fresh hfree)
      · cases hexec
  | write address byte =>
      simp only [OutboundBuffers.execApplication] at hexec
      split at hexec
      · next hmay =>
          cases hexec
          simp only [mayWrite, Bool.and_eq_true, decide_eq_true_eq, List.any_eq_true] at hmay
          obtain ⟨hwhen, chunk, hchunk, hle, hlt⟩ := hmay
          rcases hwhen with happlication | hpreparing
          · rw [happlication] at hphase
            refine ⟨h.store hphase hchunk hle hlt byte, h.waiting, ?_⟩
            show InTick _ s.phase
            rw [happlication]
            exact ⟨hphase.fresh, hphase.producer, hphase.fits⟩
          · rw [hpreparing] at hphase
            refine ⟨h.store hphase.1 hchunk hle hlt byte, h.waiting, ?_⟩
            show InTick _ s.phase
            rw [hpreparing]
            exact ⟨⟨hphase.1.fresh, hphase.1.producer, hphase.1.fits⟩, hphase.2⟩
      · cases hexec
  | pushBack message =>
      simp only [OutboundBuffers.execApplication] at hexec
      split at hexec
      · next hguard =>
          cases hexec
          rw [hguard.1] at hphase
          refine ⟨h.sound, h.waiting, ?_⟩
          show InTick _ s.phase
          rw [hguard.1]
          refine ⟨hphase.fresh, hphase.producer, fun m hmem => ?_⟩
          rcases List.mem_append.mp hmem with hmem | hmem
          · exact hphase.fits m hmem
          · rw [List.mem_singleton.mp hmem]
            exact hguard.2
      · cases hexec
  | sendMessages =>
      simp only [OutboundBuffers.execApplication] at hexec
      split at hexec
      · next happlication =>
          rw [happlication] at hphase
          split at hexec
          · cases hexec
            exact h.nextTick hphase.producer
          · cases hexec
            exact ⟨h.sound, h.waiting, ⟨hphase.fresh, hphase.producer, hphase.fits⟩,
              fun j m hj => absurd hj (Nat.not_lt_zero j)⟩
      · cases hexec
  | _ => cases hexec

/-- Message `i` moves to its new chunk. -/
theorem inChunk_set {messages : List (Words 2 Nat)} {i : Nat} {message : Words 2 Nat}
    (hbefore : ∀ j m, j < i → messages[j]? = some m → s.InChunk m) (hnew : s.InChunk message) :
    ∀ j m, j < i + 1 → (messages.set i message)[j]? = some m → s.InChunk m := by
  intro j m hj hm
  rw [List.getElem?_set] at hm
  split at hm
  · split at hm
    · cases hm
      exact hnew
    · cases hm
  · exact hbefore j m (by omega) hm

theorem Inv.execSend (h : Inv size s) {step : OutboundStep} (hfree : s.FindsChunk step)
    (hexec : s.execSend step s.phase = some s') : Inv size s' := by
  have hphase := h.phase
  unfold OutboundBuffers.execSend at hexec
  split at hexec
  · -- reallocate
    next i hreallocating =>
      rw [hreallocating] at hphase
      obtain ⟨hquiet, hbefore⟩ := hphase
      split at hexec
      · cases hexec
        have hallocated := hquiet.allocated (h.fresh hfree)
        exact ⟨h.sound, h.waiting, ⟨hallocated.fresh, hallocated.producer, hallocated.fits⟩,
          hbefore, List.mem_cons_self, s.allocator.scan, rfl⟩
      · cases hexec
  · -- copyOld
    next i buffer copied hcopying =>
      rw [hcopying] at hphase
      obtain ⟨hquiet, hbefore, hhanded, hslot⟩ := hphase
      split at hexec
      · next message hmessage =>
          have hfits := hquiet.fits message (List.mem_of_getElem? hmessage)
          split at hexec
          · next hmore =>
              cases hexec
              exact ⟨h.store hquiet hhanded (Nat.le_add_right _ _) (by omega) _, h.waiting,
                ⟨hquiet.fresh, hquiet.producer, hquiet.fits⟩, hbefore, hhanded, hslot⟩
          · cases hexec
            refine ⟨h.sound, h.waiting, ⟨hquiet.fresh, hquiet.producer, fun m hmem => ?_⟩,
              inChunk_set hbefore ⟨hslot, hfits⟩⟩
            rcases List.mem_or_eq_of_mem_set hmem with hold | hnew
            · exact hquiet.fits m hold
            · rw [hnew]
              exact hfits
      · cases hexec
  · -- check
    next i hreallocating =>
      rw [hreallocating] at hphase
      obtain ⟨hquiet, hbefore⟩ := hphase
      split at hexec
      · next hchecked =>
          cases hexec
          refine ⟨h.sound, h.waiting, ⟨hquiet.fresh, hquiet.producer, hquiet.fits⟩, ?_⟩
          intro m hmem
          obtain ⟨j, hj⟩ := List.mem_iff_getElem?.mp hmem
          obtain ⟨hlt, -⟩ := List.getElem?_eq_some_iff.mp hj
          exact hbefore j m (hchecked.1 ▸ hlt) hj
      · cases hexec
  · -- resize
    next i bytes hpreparing =>
      rw [hpreparing] at hphase
      obtain ⟨hquiet, hall⟩ := hphase
      split at hexec
      · next message hmessage =>
          split at hexec
          · next hfits =>
              cases hexec
              have hold := hall message (List.mem_of_getElem? hmessage)
              have hnext : ∀ m ∈ s.messages.set i (header (message 0) bytes), s.InChunk m := by
                intro m hmem
                rcases List.mem_or_eq_of_mem_set hmem with hmem | rfl
                · exact hall m hmem
                · exact ⟨hold.1, hfits⟩
              refine ⟨h.sound, h.waiting, ?_⟩
              show InTick _ s.phase
              rw [hpreparing]
              exact ⟨⟨hquiet.fresh, hquiet.producer, fun m hmem => (hnext m hmem).2⟩, hnext⟩
          · cases hexec
      · cases hexec
  · -- sendMessagesForComputeCore
    next hpreparing =>
      cases hexec
      rw [hpreparing] at hphase
      obtain ⟨hquiet, hall⟩ := hphase
      exact ⟨h.sound, h.waiting, hall, fun m n c hwriting =>
        absurd hwriting (hquiet.producer m n c)⟩
  · cases hexec

theorem Inv.execPush (h : Inv size s) (hbins : maximumNumberOfOutboxMessages size + 1 < 2 ^ 32)
    {access : PushAccess} (hexec : s.execPush access = some s') : Inv size s' := by
  have hphase := h.phase
  unfold OutboundBuffers.execPush at hexec
  split at hexec
  · next i hpushing =>
      rw [hpushing] at hphase
      obtain ⟨hall, hwriting⟩ := hphase
      split at hexec
      · next message hmessage =>
          have hown : ∀ m n c, s.outbox.queue.producer = .writing m n c → m = message := by
            intro m n c hw
            have hm := hwriting m n c hw
            rw [hmessage] at hm
            cases hm
            rfl
          obtain ⟨⟨queue, event⟩, hqueue, rfl⟩ := Option.map_eq_some_iff.mp hexec
          have hpushes := pushes hown hqueue
          have hsound := h.sound.advance hbins hqueue
            fun m hm => absurd hm (hpushes.not_popped m)
          by_cases hdone : ∃ m, event = some (.pushed m)
          · obtain ⟨m, rfl⟩ := hdone
            obtain ⟨rfl, hidle, hpushed⟩ := hpushes.pushed m rfl
            refine ⟨hsound, fun m' hmem => ?_, hall, fun m' n c hw => ?_⟩
            · -- the messages that waited, and the new one
              have hmem' : m' ∈ queue.log.pushed.drop s.outbox.taken.length := hmem
              have hle : s.outbox.taken.length ≤ s.outbox.queue.log.pushed.length := by
                rw [← h.sound.tracks.given]
                exact h.sound.tracks.taken.length_le
              rw [hpushed, List.drop_append_of_le_length hle] at hmem'
              rcases List.mem_append.mp hmem' with hmem' | hmem'
              · exact h.waiting m' hmem'
              · rw [List.mem_singleton.mp hmem']
                exact hall m (List.mem_of_getElem? hmessage)
            · have hw' : queue.producer = .writing m' n c := hw
              rw [hidle] at hw'
              cases hw'
          · have hquiet : ∀ m, event ≠ some (.pushed m) := fun m hm => hdone ⟨m, hm⟩
            have hsame : s.outbox.advance queue event = { s.outbox with queue := queue } :=
              Handover.advance_quiet hquiet hpushes.not_popped
            have hlog := hpushes.not_pushed hquiet
            simp only [hsame] at hsound
            -- `hquiet` decides the phase
            simp only [hsame]
            refine ⟨hsound, fun m hmem => ?_, hall, fun m n c hw => ?_⟩
            · have hmem' : m ∈ queue.log.pushed.drop s.outbox.taken.length := hmem
              rw [hlog] at hmem'
              exact h.waiting m hmem'
            · rw [hpushes.writing m n c hw]
              exact hmessage
      · cases hexec
  · cases hexec

/-! ## The steps of the communication thread -/

theorem Quiet.read {outbox : Handover} (h : Quiet s)
    (hstep : Handover.ReaderStep s.outbox outbox) : Quiet { s with outbox := outbox } := by
  refine ⟨fun chunk hmem message hwaiting => ?_, ?_, h.fits⟩
  · exact h.fresh chunk hmem message (hstep.waiting hwaiting)
  · show ∀ m n c, outbox.queue.producer ≠ .writing m n c
    rw [hstep.producer]
    exact h.producer

theorem Inv.read (h : Inv size s) {outbox : Handover}
    (hsound : outbox.Sound (maximumNumberOfOutboxMessages size))
    (hstep : Handover.ReaderStep s.outbox outbox) : Inv size { s with outbox := outbox } := by
  refine ⟨hsound, fun message hmem => h.waiting message (hstep.waiting hmem), ?_⟩
  have hphase := h.phase
  let next : OutboundBuffers := { s with outbox := outbox }
  show next.InTick s.phase
  cases hcases : s.phase with
  | application =>
      rw [hcases] at hphase
      exact Quiet.read hphase hstep
  | reallocating i =>
      rw [hcases] at hphase
      exact ⟨hphase.1.read hstep, hphase.2⟩
  | copying i buffer copied =>
      rw [hcases] at hphase
      exact ⟨hphase.1.read hstep, hphase.2⟩
  | preparing =>
      rw [hcases] at hphase
      exact ⟨hphase.1.read hstep, hphase.2⟩
  | pushing i =>
      rw [hcases] at hphase
      refine ⟨hphase.1, ?_⟩
      show ∀ m n c, outbox.queue.producer = .writing m n c → s.messages[i]? = some m
      rw [hstep.producer]
      exact hphase.2

theorem Inv.exec (h : Inv size s) (hbins : maximumNumberOfOutboxMessages size + 1 < 2 ^ 32)
    {step : OutboundStep} (hfree : s.FindsChunk step) (hexec : s.exec step = some s') :
    Inv size s' := by
  cases step with
  | allocate => exact h.execApplication hfree hexec
  | write address byte => exact h.execApplication hfree hexec
  | pushBack message => exact h.execApplication hfree hexec
  | sendMessages => exact h.execApplication hfree hexec
  | reallocate => exact h.execSend hfree hexec
  | copyOld => exact h.execSend hfree hexec
  | check => exact h.execSend hfree hexec
  | resize i bytes => exact h.execSend hfree hexec
  | sendMessagesForComputeCore => exact h.execSend hfree hexec
  | push access => exact h.execPush hbins hexec
  | endTick =>
      simp only [OutboundBuffers.exec] at hexec
      split at hexec
      · next i hpushing =>
          split at hexec
          · next hend =>
              cases hexec
              have hphase := h.phase
              rw [hpushing] at hphase
              refine h.nextTick fun m n c hwriting => ?_
              have hm := hphase.2 m n c hwriting
              rw [List.getElem?_eq_none (by omega)] at hm
              cases hm
          · cases hexec
      · cases hexec
  | pop access =>
      obtain ⟨outbox, hpop, rfl⟩ := Option.map_eq_some_iff.mp hexec
      obtain ⟨hsound, hstep⟩ := h.sound.pop hbins hpop
      exact h.read hsound hstep
  | copyOut =>
      obtain ⟨outbox, hcopy, rfl⟩ := Option.map_eq_some_iff.mp hexec
      exact h.read (h.sound.copyByte hcopy) (Handover.readerStep_copyByte hcopy)
  | isend =>
      obtain ⟨outbox, hfinish, rfl⟩ := Option.map_eq_some_iff.mp hexec
      exact h.read (h.sound.finish hfinish) (Handover.readerStep_finish hfinish)

theorem start_inv (hbins : maximumNumberOfOutboxMessages size + 1 < 2 ^ 32)
    (memory chunkSize : Nat) (bins : Nat → Words 2 Nat) (bytes : Nat → UInt8) :
    Inv size (start memory size chunkSize bins bytes) :=
  { sound := Handover.start_sound hbins bins bytes
    waiting := fun _ hmem => nomatch hmem
    phase := ⟨(fun _ hmem => nomatch hmem), (fun _ _ _ hwriting => nomatch hwriting),
      fun _ hmem => nomatch hmem⟩ }

instance (s : OutboundBuffers) (step : OutboundStep) : Decidable (s.FindsChunk step) :=
  match step with
  | .allocate | .reallocate =>
      inferInstanceAs (Decidable (∀ message ∈ s.outbox.waiting, 0 < message 1 → message 0 ≠ _))
  | .write _ _ | .pushBack _ | .sendMessages | .copyOld | .check | .resize _ _
  | .sendMessagesForComputeCore | .push _ | .endTick | .pop _ | .copyOut | .isend => isTrue trivial

end OutboundBuffers

/-- The mini-rank and the communication thread, among `size` ranks. -/
def outboundSystem (size memory chunkSize : Nat) (bins : Nat → Words 2 Nat)
    (bytes : Nat → UInt8) : TransitionSystem OutboundBuffers OutboundStep :=
  .ofExec (.start memory size chunkSize bins bytes) OutboundBuffers.exec

/-- A tick that sends one byte, written in the new chunk of the message. -/
def sendByte (chunk : Nat) (byte : UInt8) : List OutboundStep :=
  [.pushBack (header 0 0), .sendMessages, .reallocate, .copyOld, .check, .resize 0 1,
    .write chunk byte, .sendMessagesForComputeCore, .push .readHead, .push .writeWord,
    .push .writeWord, .push .publishTail, .endTick]

/-- A message of one byte is popped, copied and given to MPI. -/
def isendByte : List OutboundStep :=
  [.pop .readTail, .pop .readWord, .pop .readWord, .pop .publishHead, .copyOut, .isend]

end RayPlatform
