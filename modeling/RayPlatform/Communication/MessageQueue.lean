import Mathlib.Data.Int.ModEq
import RayPlatform.Lib.BoundedFifo

/-!
# The lock-free message queue

`MessageQueue`: a ring with one bin more than its capacity, one thread that pushes
and one that pops. Each access of a thread to the shared ring, head or tail is a
step, a message is copied word by word, and the steps of the two threads interleave
freely.

* `QueueRepresents` — the ring as the sequences of what was pushed and popped, with the
  copies that are under way;
* `queueSystem_simulates` — the queue refines the bounded queue of its capacity.
-/

namespace RayPlatform

open Lib

variable {width : Nat} {ω : Type}

/-- The words of a message. -/
abbrev Words (width : Nat) (ω : Type) := Fin width → ω

namespace Words

/-- Messages of two words have a word 0 and a word 1. -/
scoped instance neZero_two : NeZero 2 := ⟨by decide⟩

end Words

structure MessageQueue (width : Nat) (ω : Type) where
  size : Nat
  headForPopOperations : Nat
  tailForPushOperations : Nat
  ring : Nat → Words width ω

namespace MessageQueue

/-- `constructor`: the ring has an extra slot; `memory` is what the allocated bins hold. -/
def constructor (bins : Nat) (memory : Nat → Words width ω) : MessageQueue width ω :=
  { size := (bins + 1) % 2 ^ 32
    headForPopOperations := 0
    tailForPushOperations := 0
    ring := memory }

def increment (queue : MessageQueue width ω) (index : Nat) : Nat :=
  (index + 1) % 2 ^ 32 % queue.size

/-- One word of a bin. -/
def write (queue : MessageQueue width ω) (index : Nat) (k : Fin width) (word : ω) :
    MessageQueue width ω :=
  { queue with
    ring := Function.update queue.ring index (Function.update (queue.ring index) k word) }

end MessageQueue

/-- Where the thread that pushes stands. -/
inductive Producer (width : Nat) (ω : Type)
  | idle
  | writing (message : Words width ω) (nextTail copied : Nat)

/-- Where the thread that pops stands; `message` is the caller's. -/
inductive Consumer (width : Nat) (ω : Type)
  | idle
  | reading (message : Words width ω) (copied : Nat)

/-- The queue with its two threads; `log` is what their calls returned so far. -/
structure QueueThreads (width : Nat) (ω : Type) where
  queue : MessageQueue width ω
  producer : Producer width ω
  consumer : Consumer width ω
  log : Fifo (Words width ω)

/-- An access of a thread to the queue. -/
inductive Access (width : Nat) (ω : Type)
  | readHead (message : Words width ω)
  | writeWord
  | publishTail
  | readTail (message : Words width ω)
  | readWord
  | publishHead

namespace QueueThreads

/-- `push`, one access at a time. -/
def execPush (s : QueueThreads width ω) :
    Access width ω → Producer width ω →
      Option (QueueThreads width ω × Option (FifoEvent (Words width ω)))
  | .readHead message, .idle =>
      if s.queue.increment s.queue.tailForPushOperations = s.queue.headForPopOperations then
        some (s, some .refused)
      else
        some ({ s with producer := .writing message
                        (s.queue.increment s.queue.tailForPushOperations) 0 }, none)
  | .writeWord, .writing message nextTail copied =>
      if h : copied < width then
        some ({ s with
                queue := s.queue.write s.queue.tailForPushOperations ⟨copied, h⟩
                  (message ⟨copied, h⟩)
                producer := .writing message nextTail (copied + 1) }, none)
      else
        none
  | .publishTail, .writing message nextTail copied =>
      if copied = width then
        some ({ s with
                queue := { s.queue with tailForPushOperations := nextTail }
                producer := .idle
                log := { s.log with pushed := s.log.pushed ++ [message] } },
              some (.pushed message))
      else
        none
  | _, _ => none

/-- `pop`, one access at a time. -/
def execPop (s : QueueThreads width ω) :
    Access width ω → Consumer width ω →
      Option (QueueThreads width ω × Option (FifoEvent (Words width ω)))
  | .readTail message, .idle =>
      if s.queue.headForPopOperations = s.queue.tailForPushOperations then
        some (s, some .missed)
      else
        some ({ s with consumer := .reading message 0 }, none)
  | .readWord, .reading message copied =>
      if h : copied < width then
        some ({ s with
                consumer := .reading (Function.update message ⟨copied, h⟩
                  (s.queue.ring s.queue.headForPopOperations ⟨copied, h⟩)) (copied + 1) }, none)
      else
        none
  | .publishHead, .reading message copied =>
      if copied = width then
        some ({ s with
                queue := { s.queue with
                  headForPopOperations := s.queue.increment s.queue.headForPopOperations }
                consumer := .idle
                log := { s.log with popped := s.log.popped ++ [message] } },
              some (.popped message))
      else
        none
  | _, _ => none

def exec (s : QueueThreads width ω) (access : Access width ω) :
    Option (QueueThreads width ω × Option (FifoEvent (Words width ω))) :=
  match access with
  | .readHead _ | .writeWord | .publishTail => s.execPush access s.producer
  | .readTail _ | .readWord | .publishHead => s.execPop access s.consumer

def start (bins : Nat) (memory : Nat → Words width ω) : QueueThreads width ω :=
  { queue := .constructor bins memory
    producer := .idle
    consumer := .idle
    log := .empty }

end QueueThreads

/-- A queue of `bins` messages, used by one thread that pushes and one that pops. -/
def queueSystem (bins : Nat) (memory : Nat → Words width ω) :
    TransitionSystem (QueueThreads width ω)
      (Access width ω × Option (FifoEvent (Words width ω))) :=
  { init := fun s => s = .start bins memory
    step := fun s l s' => s.exec l.1 = some (s', l.2) }

/-! ## The ring as a bounded queue -/

/-- A bin holds one position of a window no wider than the ring. -/
theorem mod_window {n i j : Nat} (hij : i ≤ j) (hj : j < i + n) (h : i % n = j % n) :
    i = j := by
  have hdvd : n ∣ j - i := (Nat.modEq_iff_dvd' hij).mp h
  have hzero : j - i = 0 := Nat.eq_zero_of_dvd_of_lt hdvd (by omega)
  omega

/-- The ring holds what was pushed and not popped, and each thread a copy of the
words it went through. -/
structure QueueRepresents (bins : Nat) (s : QueueThreads width ω) (q : Fifo (Words width ω)) :
    Prop where
  log : s.log = q
  sound : q.Sound bins
  size : s.queue.size = bins + 1
  head : s.queue.headForPopOperations = q.popped.length % (bins + 1)
  tail : s.queue.tailForPushOperations = q.pushed.length % (bins + 1)
  stored : ∀ i message, q.popped.length ≤ i → q.pushed[i]? = some message →
    s.queue.ring (i % (bins + 1)) = message
  writing : ∀ message nextTail copied, s.producer = .writing message nextTail copied →
    q.pushed.length < q.popped.length + bins ∧
    nextTail = (q.pushed.length + 1) % (bins + 1) ∧ copied ≤ width ∧
    ∀ k : Fin width, k < copied → s.queue.ring s.queue.tailForPushOperations k = message k
  reading : ∀ message copied, s.consumer = .reading message copied →
    q.popped.length < q.pushed.length ∧ copied ≤ width ∧
    ∀ k : Fin width, k < copied →
      message k = s.queue.ring s.queue.headForPopOperations k

section Steps

variable {bins : Nat} {s s' : QueueThreads width ω} {q : Fifo (Words width ω)}

theorem QueueRepresents.increment (h : QueueRepresents bins s q) (hbins : bins + 1 < 2 ^ 32)
    (i : Nat) : s.queue.increment (i % (bins + 1)) = (i + 1) % (bins + 1) := by
  have hlt : i % (bins + 1) < bins + 1 := Nat.mod_lt i (Nat.succ_pos bins)
  have hfits : i % (bins + 1) + 1 < 2 ^ 32 := by omega
  rw [MessageQueue.increment, h.size, Nat.mod_eq_of_lt hfits, Nat.mod_add_mod]

/-- The push finds the queue full exactly when it is. -/
theorem QueueRepresents.full_iff (h : QueueRepresents bins s q) (hbins : bins + 1 < 2 ^ 32) :
    s.queue.increment s.queue.tailForPushOperations = s.queue.headForPopOperations ↔
      q.pushed.length = q.popped.length + bins := by
  have hbounded := h.sound.bounded
  have horder := h.sound.in_order.length_le
  rw [h.tail, h.head, h.increment hbins]
  refine ⟨fun heq => ?_, fun heq => ?_⟩
  · by_contra hne
    have hwindow := mod_window (by omega) (by omega) heq.symm
    omega
  · rw [heq, Nat.add_assoc, Nat.add_mod_right]

/-- The pop finds the queue empty exactly when it is. -/
theorem QueueRepresents.empty_iff (h : QueueRepresents bins s q) :
    s.queue.headForPopOperations = s.queue.tailForPushOperations ↔
      q.pushed.length = q.popped.length := by
  have hbounded := h.sound.bounded
  have horder := h.sound.in_order.length_le
  rw [h.tail, h.head]
  refine ⟨fun heq => ?_, fun heq => by rw [heq]⟩
  exact (mod_window horder (by omega) heq).symm

/-! ## The accesses of the thread that pushes -/

theorem QueueRepresents.startPush (h : QueueRepresents bins s q) (hbins : bins + 1 < 2 ^ 32)
    (hroom : q.pushed.length ≠ q.popped.length + bins) (message : Words width ω) :
    QueueRepresents bins { s with
      producer := .writing message (s.queue.increment s.queue.tailForPushOperations) 0 } q := by
  have hbounded := h.sound.bounded
  refine { h with writing := ?_ }
  intro m nextTail copied hwriting
  cases hwriting
  refine ⟨by omega, ?_, Nat.zero_le _, fun k hk => absurd hk (Nat.not_lt_zero _)⟩
  rw [h.tail, h.increment hbins]

/-- The bin that is written holds no message that waits. -/
theorem QueueRepresents.free_bin (h : QueueRepresents bins s q)
    (hroom : q.pushed.length < q.popped.length + bins) {i : Nat} (hi : q.popped.length ≤ i)
    (hlt : i < q.pushed.length) : i % (bins + 1) ≠ s.queue.tailForPushOperations := by
  intro heq
  rw [h.tail] at heq
  have hwindow := mod_window (Nat.le_of_lt hlt) (by omega) heq
  omega

theorem QueueRepresents.writeWord (h : QueueRepresents bins s q) {message : Words width ω}
    {nextTail copied : Nat} (hproducer : s.producer = .writing message nextTail copied)
    (hcopied : copied < width) :
    QueueRepresents bins { s with
      queue := s.queue.write s.queue.tailForPushOperations ⟨copied, hcopied⟩
        (message ⟨copied, hcopied⟩)
      producer := .writing message nextTail (copied + 1) } q := by
  obtain ⟨hroom, hnext, -, hwritten⟩ := h.writing _ _ _ hproducer
  refine { h with stored := ?_, writing := ?_, reading := ?_ }
  · intro i m hi hm
    obtain ⟨hlt, -⟩ := List.getElem?_eq_some_iff.mp hm
    rw [← h.stored i m hi hm]
    exact Function.update_of_ne (h.free_bin hroom hi hlt) _ _
  · intro m n c hwriting
    cases hwriting
    refine ⟨hroom, hnext, hcopied, fun k hk => ?_⟩
    simp only [MessageQueue.write, Function.update_self]
    by_cases hlast : k = ⟨copied, hcopied⟩
    · rw [hlast, Function.update_self]
    · have hne : k.val ≠ copied := fun heq => hlast (Fin.ext heq)
      rw [Function.update_of_ne hlast]
      exact hwritten k (by omega)
  · intro m c hreading
    obtain ⟨hlt, hle, hread⟩ := h.reading m c hreading
    refine ⟨hlt, hle, fun k hk => ?_⟩
    have hne := h.free_bin hroom (Nat.le_refl _) hlt
    rw [← h.head] at hne
    simp only [MessageQueue.write, Function.update_of_ne hne]
    exact hread k hk

theorem QueueRepresents.publishTail (h : QueueRepresents bins s q) {message : Words width ω}
    {nextTail : Nat} (hproducer : s.producer = .writing message nextTail width) :
    Fifo.Step bins q (.pushed message) { q with pushed := q.pushed ++ [message] } ∧
    QueueRepresents bins { s with
      queue := { s.queue with tailForPushOperations := nextTail }
      producer := .idle
      log := { s.log with pushed := s.log.pushed ++ [message] } }
      { q with pushed := q.pushed ++ [message] } := by
  obtain ⟨hroom, hnext, -, hwritten⟩ := h.writing _ _ _ hproducer
  have hstep : Fifo.Step bins q (.pushed message) { q with pushed := q.pushed ++ [message] } :=
    .pushed hroom
  have hlength : (q.pushed ++ [message]).length = q.pushed.length + 1 := by simp
  refine ⟨hstep, ?_⟩
  refine { h with
    log := by simp only [h.log]
    sound := h.sound.step hstep
    tail := ?_
    stored := ?_
    writing := fun _ _ _ hwriting => nomatch hwriting
    reading := ?_ }
  · show nextTail = (q.pushed ++ [message]).length % (bins + 1)
    rw [hlength, hnext]
  · intro i m hi hm
    have hm' : (q.pushed ++ [message])[i]? = some m := hm
    by_cases hlt : i < q.pushed.length
    · rw [List.getElem?_append_left hlt] at hm'
      exact h.stored i m hi hm'
    · obtain ⟨hlt', -⟩ := List.getElem?_eq_some_iff.mp hm'
      have hi' : i = q.pushed.length := by omega
      rw [hi', List.getElem?_append_right (Nat.le_refl _), Nat.sub_self] at hm'
      cases hm'
      rw [hi', ← h.tail]
      exact funext fun k => hwritten k k.isLt
  · intro m c hreading
    obtain ⟨hlt, hle, hread⟩ := h.reading m c hreading
    refine ⟨?_, hle, hread⟩
    show q.popped.length < (q.pushed ++ [message]).length
    omega

/-! ## The accesses of the thread that pops -/

theorem QueueRepresents.startPop (h : QueueRepresents bins s q)
    (hcontent : q.pushed.length ≠ q.popped.length) (message : Words width ω) :
    QueueRepresents bins { s with consumer := .reading message 0 } q := by
  have horder := h.sound.in_order.length_le
  refine { h with reading := ?_ }
  intro m copied hreading
  cases hreading
  exact ⟨by omega, Nat.zero_le _, fun k hk => absurd hk (Nat.not_lt_zero _)⟩

theorem QueueRepresents.readWord (h : QueueRepresents bins s q) {message : Words width ω}
    {copied : Nat} (hconsumer : s.consumer = .reading message copied) (hcopied : copied < width) :
    QueueRepresents bins { s with
      consumer := .reading (Function.update message ⟨copied, hcopied⟩
        (s.queue.ring s.queue.headForPopOperations ⟨copied, hcopied⟩)) (copied + 1) } q := by
  obtain ⟨hcontent, -, hread⟩ := h.reading _ _ hconsumer
  refine { h with reading := ?_ }
  intro m c hreading
  cases hreading
  refine ⟨hcontent, hcopied, fun k hk => ?_⟩
  by_cases hlast : k = ⟨copied, hcopied⟩
  · rw [hlast, Function.update_self]
  · have hne : k.val ≠ copied := fun heq => hlast (Fin.ext heq)
    rw [Function.update_of_ne hlast]
    exact hread k (by omega)

theorem QueueRepresents.publishHead (h : QueueRepresents bins s q) (hbins : bins + 1 < 2 ^ 32)
    {message : Words width ω} (hconsumer : s.consumer = .reading message width) :
    Fifo.Step bins q (.popped message) { q with popped := q.popped ++ [message] } ∧
    QueueRepresents bins { s with
      queue := { s.queue with
        headForPopOperations := s.queue.increment s.queue.headForPopOperations }
      consumer := .idle
      log := { s.log with popped := s.log.popped ++ [message] } }
      { q with popped := q.popped ++ [message] } := by
  obtain ⟨hcontent, -, hread⟩ := h.reading _ _ hconsumer
  have hfront : q.pushed[q.popped.length]? = some message := by
    have hsome := List.getElem?_eq_getElem hcontent
    rw [hsome, ← h.stored _ _ (Nat.le_refl _) hsome, ← h.head]
    exact congrArg some (funext fun k => (hread k k.isLt).symm)
  have hstep : Fifo.Step bins q (.popped message) { q with popped := q.popped ++ [message] } :=
    .popped hfront
  have hlength : (q.popped ++ [message]).length = q.popped.length + 1 := by simp
  refine ⟨hstep, ?_⟩
  refine { h with
    log := by simp only [h.log]
    sound := h.sound.step hstep
    head := ?_
    stored := ?_
    writing := ?_
    reading := fun _ _ hreading => nomatch hreading }
  · show s.queue.increment s.queue.headForPopOperations =
      (q.popped ++ [message]).length % (bins + 1)
    rw [h.head, h.increment hbins, hlength]
  · intro i m hi hm
    have hi' : (q.popped ++ [message]).length ≤ i := hi
    exact h.stored i m (by omega) hm
  · intro m n c hwriting
    obtain ⟨hroom, hrest⟩ := h.writing m n c hwriting
    refine ⟨?_, hrest⟩
    show q.pushed.length < (q.popped ++ [message]).length + bins
    omega

/-! ## The refinement -/

/-- Each access is a step of the bounded queue or none. -/
theorem QueueRepresents.exec (h : QueueRepresents bins s q) (hbins : bins + 1 < 2 ^ 32)
    {access : Access width ω} {event : Option (FifoEvent (Words width ω))}
    (hexec : s.exec access = some (s', event)) :
    ∃ q', Fifo.Moves bins q event q' ∧ QueueRepresents bins s' q' := by
  cases access with
  | readHead message =>
      cases hproducer : s.producer with
      | writing _ _ _ => simp [QueueThreads.exec, QueueThreads.execPush, hproducer] at hexec
      | idle =>
          simp only [QueueThreads.exec, QueueThreads.execPush, hproducer] at hexec
          split at hexec
          · next hfull =>
              cases hexec
              exact ⟨q, .refused ((h.full_iff hbins).mp hfull), h⟩
          · next hroom =>
              cases hexec
              rw [h.full_iff hbins] at hroom
              exact ⟨q, rfl, h.startPush hbins hroom message⟩
  | writeWord =>
      cases hproducer : s.producer with
      | idle => simp [QueueThreads.exec, QueueThreads.execPush, hproducer] at hexec
      | writing message nextTail copied =>
          simp only [QueueThreads.exec, QueueThreads.execPush, hproducer] at hexec
          split at hexec
          · next hcopied =>
              cases hexec
              exact ⟨q, rfl, h.writeWord hproducer hcopied⟩
          · cases hexec
  | publishTail =>
      cases hproducer : s.producer with
      | idle => simp [QueueThreads.exec, QueueThreads.execPush, hproducer] at hexec
      | writing message nextTail copied =>
          simp only [QueueThreads.exec, QueueThreads.execPush, hproducer] at hexec
          split at hexec
          · next hcopied =>
              cases hexec
              subst hcopied
              exact ⟨_, h.publishTail hproducer⟩
          · cases hexec
  | readTail message =>
      cases hconsumer : s.consumer with
      | reading _ _ => simp [QueueThreads.exec, QueueThreads.execPop, hconsumer] at hexec
      | idle =>
          simp only [QueueThreads.exec, QueueThreads.execPop, hconsumer] at hexec
          split at hexec
          · next hempty =>
              cases hexec
              exact ⟨q, .missed (h.empty_iff.mp hempty), h⟩
          · next hcontent =>
              cases hexec
              rw [h.empty_iff] at hcontent
              exact ⟨q, rfl, h.startPop hcontent message⟩
  | readWord =>
      cases hconsumer : s.consumer with
      | idle => simp [QueueThreads.exec, QueueThreads.execPop, hconsumer] at hexec
      | reading message copied =>
          simp only [QueueThreads.exec, QueueThreads.execPop, hconsumer] at hexec
          split at hexec
          · next hcopied =>
              cases hexec
              exact ⟨q, rfl, h.readWord hconsumer hcopied⟩
          · cases hexec
  | publishHead =>
      cases hconsumer : s.consumer with
      | idle => simp [QueueThreads.exec, QueueThreads.execPop, hconsumer] at hexec
      | reading message copied =>
          simp only [QueueThreads.exec, QueueThreads.execPop, hconsumer] at hexec
          split at hexec
          · next hcopied =>
              cases hexec
              subst hcopied
              exact ⟨_, h.publishHead hbins hconsumer⟩
          · cases hexec

end Steps

theorem queueRepresents_start {bins : Nat} (hbins : bins + 1 < 2 ^ 32)
    (memory : Nat → Words width ω) : QueueRepresents bins (.start bins memory) .empty :=
  { log := rfl
    sound := ⟨List.prefix_refl _, Nat.zero_le _⟩
    size := Nat.mod_eq_of_lt hbins
    head := (Nat.zero_mod _).symm
    tail := (Nat.zero_mod _).symm
    stored := fun _ _ _ hm => nomatch hm
    writing := fun _ _ _ hwriting => nomatch hwriting
    reading := fun _ _ hreading => nomatch hreading }

/-- The accesses of the two threads refine the bounded queue; those inside a copy are
invisible. -/
theorem queueSystem_simulates {bins : Nat} (hbins : bins + 1 < 2 ^ 32)
    (memory : Nat → Words width ω) :
    (queueSystem bins memory).StutterSimulation (fifoSystem (Words width ω) bins) Prod.snd
      (QueueRepresents bins) := by
  refine ⟨?_, ?_, ?_⟩
  · rintro s rfl
    exact ⟨.empty, rfl, queueRepresents_start hbins memory⟩
  · intro s q l s' h hstep hsilent
    obtain ⟨q', hmoves, h'⟩ := h.exec hbins hstep
    rw [hsilent] at hmoves
    rw [show q' = q from hmoves] at h'
    exact h'
  · intro s q l e s' h hstep hvisible
    obtain ⟨q', hmoves, h'⟩ := h.exec hbins hstep
    rw [hvisible] at hmoves
    exact ⟨q', hmoves, h'⟩

/-- The queue seen through the results of its calls. -/
structure QueueIsFifo (bins : Nat) (s : QueueThreads width ω) : Prop where
  /-- what was popped is what was pushed, in order and whole -/
  in_order : s.log.popped <+: s.log.pushed
  /-- each access shows as a step of the bounded queue or leaves the log alone -/
  moves : ∀ access event s', s.exec access = some (s', event) →
    Fifo.Moves bins s.log event s'.log
  /-- a push fails only when `bins` messages wait -/
  refused : ∀ message s', s.exec (.readHead message) = some (s', some .refused) →
    s.log.pushed.length = s.log.popped.length + bins
  /-- a pop fails only when no message waits -/
  missed : ∀ message s', s.exec (.readTail message) = some (s', some .missed) →
    s.log.popped = s.log.pushed

end RayPlatform
