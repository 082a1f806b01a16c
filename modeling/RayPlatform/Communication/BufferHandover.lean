import Mathlib.Data.Fin.VecNotation
import RayPlatform.Communication.MessageQueue

/-!
# Buffers handed over through a message queue

A message of the queue says where its buffer is; the buffer stays in a ring of the
thread that pushes, which goes on using it. The thread that pops copies the bytes
afterwards, one at a time, into a buffer of its own.

* `Handover` — the queue, the shared bytes and the copy that is under way; `given` is
  what the messages held when they were pushed, `taken` what was copied out of them;
* `Handover.Sound` — the messages that wait still hold what was given;
* `Handover.Sound.advance`, `.store`, `.copyByte`, `.finish` — one lemma for each step.
-/

namespace RayPlatform

open Lib
open scoped Words

/-- A message of the queue: its buffer, 0 for NULL, and its number of bytes. -/
def header (buffer bytes : Nat) : Words 2 Nat :=
  ![buffer, bytes]

/-- The bytes of a message. -/
def snapshot (bytes : Nat → UInt8) (message : Words 2 Nat) : List UInt8 :=
  (List.range (message 1)).map fun k => bytes (message 0 + k)

/-- An access of the thread that pushes a message. -/
inductive PushAccess
  | readHead
  | writeWord
  | publishTail
  deriving DecidableEq, Repr

def PushAccess.access (message : Words 2 Nat) : PushAccess → Access 2 Nat
  | .readHead => .readHead message
  | .writeWord => .writeWord
  | .publishTail => .publishTail

/-- An access of the thread that pops a message. `hasContent` reads what `pop` reads
next, and only this thread moves the head: both are `readTail`. -/
inductive PopAccess
  | readTail
  | readWord
  | publishHead
  deriving DecidableEq, Repr

def PopAccess.access : PopAccess → Access 2 Nat
  | .readTail => .readTail (header 0 0)
  | .readWord => .readWord
  | .publishHead => .publishHead

/-- Where the thread that pops stands. -/
inductive Reader
  | popping
  /-- `memcpy` from the buffer of the message -/
  | copying (message : Words 2 Nat) (part : List UInt8)

structure Handover where
  queue : QueueThreads 2 Nat
  bytes : Nat → UInt8
  reader : Reader
  given : List (List UInt8)
  taken : List (List UInt8)

/-! ## The accesses of each thread -/

/-- What an access of the thread that pushes `message` can do. -/
structure Pushes (message : Words 2 Nat) (s s' : QueueThreads 2 Nat)
    (event : Option (FifoEvent (Words 2 Nat))) : Prop where
  writing : ∀ m n c, s'.producer = .writing m n c → m = message
  pushed : ∀ m, event = some (.pushed m) →
    m = message ∧ s'.producer = .idle ∧ s'.log.pushed = s.log.pushed ++ [message]
  not_pushed : (∀ m, event ≠ some (.pushed m)) → s'.log.pushed = s.log.pushed
  not_popped : ∀ m, event ≠ some (.popped m)

theorem pushes {message : Words 2 Nat} {access : PushAccess} {s s' : QueueThreads 2 Nat}
    {event : Option (FifoEvent (Words 2 Nat))}
    (hwriting : ∀ m n c, s.producer = .writing m n c → m = message)
    (hexec : s.exec (access.access message) = some (s', event)) : Pushes message s s' event := by
  cases access with
  | readHead =>
      cases hproducer : s.producer with
      | writing _ _ _ =>
          simp [PushAccess.access, QueueThreads.exec, QueueThreads.execPush, hproducer] at hexec
      | idle =>
          simp only [PushAccess.access, QueueThreads.exec, QueueThreads.execPush,
            hproducer] at hexec
          split at hexec
          · cases hexec
            exact ⟨hwriting, (fun m h => by cases h), fun _ => rfl, fun m h => by cases h⟩
          · cases hexec
            exact ⟨(fun m n c h => by cases h; rfl), (fun m h => by cases h), fun _ => rfl,
              fun m h => by cases h⟩
  | writeWord =>
      cases hproducer : s.producer with
      | idle =>
          simp [PushAccess.access, QueueThreads.exec, QueueThreads.execPush, hproducer] at hexec
      | writing m n c =>
          simp only [PushAccess.access, QueueThreads.exec, QueueThreads.execPush,
            hproducer] at hexec
          split at hexec
          · cases hexec
            refine ⟨fun m' n' c' h => ?_, (fun m h => by cases h), fun _ => rfl,
              fun m h => by cases h⟩
            cases h
            exact hwriting _ _ _ hproducer
          · cases hexec
  | publishTail =>
      cases hproducer : s.producer with
      | idle =>
          simp [PushAccess.access, QueueThreads.exec, QueueThreads.execPush, hproducer] at hexec
      | writing m n c =>
          have hm := hwriting _ _ _ hproducer
          subst hm
          simp only [PushAccess.access, QueueThreads.exec, QueueThreads.execPush,
            hproducer] at hexec
          split at hexec
          · cases hexec
            exact ⟨(fun m' n' c' h => by cases h),
              (fun m' h => by cases h; exact ⟨rfl, rfl, rfl⟩), (fun h => absurd rfl (h m)),
              fun m h => by cases h⟩
          · cases hexec

/-- What an access of the thread that pops can do. -/
structure Pops (s s' : QueueThreads 2 Nat) (event : Option (FifoEvent (Words 2 Nat))) : Prop where
  producer : s'.producer = s.producer
  same : s'.log.pushed = s.log.pushed
  not_pushed : ∀ m, event ≠ some (.pushed m)

theorem pops {access : PopAccess} {s s' : QueueThreads 2 Nat}
    {event : Option (FifoEvent (Words 2 Nat))}
    (hexec : s.exec access.access = some (s', event)) : Pops s s' event := by
  have hcases : ∀ a, a = access.access → s.execPop a s.consumer = some (s', event) →
      Pops s s' event := by
    intro a ha h
    unfold QueueThreads.execPop at h
    split at h
    · split at h <;> cases h <;> exact ⟨rfl, rfl, fun m h => by cases h⟩
    · split at h
      · cases h
        exact ⟨rfl, rfl, fun m h => by cases h⟩
      · cases h
    · split at h
      · cases h
        exact ⟨rfl, rfl, fun m h => by cases h⟩
      · cases h
    · cases h
  cases access <;> exact hcases _ rfl hexec

namespace Handover

def start (bins : Nat) (memory : Nat → Words 2 Nat) (bytes : Nat → UInt8) : Handover :=
  { queue := .start bins memory
    bytes := bytes
    reader := .popping
    given := []
    taken := [] }

/-- The messages that were pushed and are not yet copied. -/
def waiting (t : Handover) : List (Words 2 Nat) :=
  t.queue.log.pushed.drop t.taken.length

/-- After an access of the queue. -/
def advance (t : Handover) (queue : QueueThreads 2 Nat) :
    Option (FifoEvent (Words 2 Nat)) → Handover
  | some (.pushed message) =>
      { t with queue := queue, given := t.given ++ [snapshot t.bytes message] }
  | some (.popped message) => { t with queue := queue, reader := .copying message [] }
  | some .refused | some .missed | none => { t with queue := queue }

/-- A byte written in a buffer. -/
def store (t : Handover) (address : Nat) (byte : UInt8) : Handover :=
  { t with bytes := Function.update t.bytes address byte }

/-- An access of `pop`. -/
def pop (t : Handover) (access : PopAccess) : Option Handover :=
  match t.reader with
  | .popping => (t.queue.exec access.access).map fun next => t.advance next.1 next.2
  | .copying _ _ => none

/-- A byte of `memcpy`. -/
def copyByte (t : Handover) : Option Handover :=
  match t.reader with
  | .copying message part =>
      if part.length < message 1 then
        some { t with
          reader := .copying message (part ++ [t.bytes (message 0 + part.length)]) }
      else none
  | .popping => none

/-- The copy is complete. -/
def finish (t : Handover) : Option Handover :=
  match t.reader with
  | .copying message part =>
      if part.length = message 1 then
        some { t with reader := .popping, taken := t.taken ++ [part] }
      else none
  | .popping => none

/-! ## What the waiting messages hold -/

/-- The state beside the log of the queue. -/
structure Tracks (t : Handover) (log : Fifo (Words 2 Nat)) : Prop where
  given : t.given.length = log.pushed.length
  stored : ∀ i message, t.taken.length ≤ i → log.pushed[i]? = some message →
    t.given[i]? = some (snapshot t.bytes message)
  taken : t.taken <+: t.given
  popping : t.reader = .popping → log.popped.length = t.taken.length
  copying : ∀ message part, t.reader = .copying message part →
    log.popped.length = t.taken.length + 1 ∧ log.pushed[t.taken.length]? = some message ∧
    part <+: snapshot t.bytes message

structure Sound (bins : Nat) (t : Handover) : Prop where
  queue : QueueRepresents bins t.queue t.queue.log
  tracks : t.Tracks t.queue.log

variable {bins : Nat} {t t' : Handover}

theorem length_snapshot (bytes : Nat → UInt8) (message : Words 2 Nat) :
    (snapshot bytes message).length = message 1 := by
  rw [snapshot, List.length_map, List.length_range]

theorem start_sound (hbins : bins + 1 < 2 ^ 32) (memory : Nat → Words 2 Nat)
    (bytes : Nat → UInt8) : Sound bins (start bins memory bytes) :=
  { queue := queueRepresents_start hbins memory
    tracks :=
      { given := rfl
        stored := fun _ _ _ hm => nomatch hm
        taken := List.prefix_refl _
        popping := fun _ => rfl
        copying := fun _ _ hreader => nomatch hreader } }

theorem Tracks.pushed {log : Fifo (Words 2 Nat)} (h : t.Tracks log) (message : Words 2 Nat)
    (queue : QueueThreads 2 Nat) :
    (t.advance queue (some (.pushed message))).Tracks
      { log with pushed := log.pushed ++ [message] } := by
  refine ⟨?_, ?_, h.taken.trans (List.prefix_append _ _), h.popping, ?_⟩
  · simp [advance, h.given]
  · intro i m hi hm
    show (t.given ++ [snapshot t.bytes message])[i]? = some (snapshot t.bytes m)
    have hm' : (log.pushed ++ [message])[i]? = some m := hm
    by_cases hlt : i < log.pushed.length
    · rw [List.getElem?_append_left hlt] at hm'
      rw [List.getElem?_append_left (by rw [h.given]; exact hlt)]
      exact h.stored i m hi hm'
    · rw [List.getElem?_append_right (by omega), List.getElem?_singleton] at hm'
      rw [List.getElem?_append_right (by rw [h.given]; omega), h.given, List.getElem?_singleton]
      split at hm'
      · next hzero =>
          cases hm'
          rw [if_pos hzero]
      · cases hm'
  · intro m part hreader
    obtain ⟨hlength, hm, hpart⟩ := h.copying m part hreader
    refine ⟨hlength, ?_, hpart⟩
    obtain ⟨hlt, -⟩ := List.getElem?_eq_some_iff.mp hm
    show (log.pushed ++ [message])[t.taken.length]? = some m
    rw [List.getElem?_append_left hlt]
    exact hm

theorem Tracks.popped {log : Fifo (Words 2 Nat)} (h : t.Tracks log) (hreader : t.reader = .popping)
    {message : Words 2 Nat} (hfront : log.pushed[log.popped.length]? = some message)
    (queue : QueueThreads 2 Nat) :
    (t.advance queue (some (.popped message))).Tracks
      { log with popped := log.popped ++ [message] } := by
  have hlength := h.popping hreader
  refine ⟨h.given, h.stored, h.taken, (fun hpopping => nomatch hpopping), ?_⟩
  intro m part hcopying
  cases hcopying
  refine ⟨?_, ?_, List.nil_prefix⟩
  · show (log.popped ++ [message]).length = t.taken.length + 1
    rw [List.length_append, hlength]
    rfl
  · show log.pushed[t.taken.length]? = some message
    rw [← hlength]
    exact hfront

/-- Nothing was pushed, and nothing popped. -/
theorem advance_quiet {queue : QueueThreads 2 Nat} {event : Option (FifoEvent (Words 2 Nat))}
    (hpushed : ∀ m, event ≠ some (.pushed m)) (hpopped : ∀ m, event ≠ some (.popped m)) :
    t.advance queue event = { t with queue := queue } := by
  rcases event with _ | (m | _ | m | _)
  · rfl
  · exact absurd rfl (hpushed m)
  · rfl
  · exact absurd rfl (hpopped m)
  · rfl

/-- An access of either thread to the queue. -/
theorem Sound.advance (h : Sound bins t) (hbins : bins + 1 < 2 ^ 32) {access : Access 2 Nat}
    {queue : QueueThreads 2 Nat} {event : Option (FifoEvent (Words 2 Nat))}
    (hexec : t.queue.exec access = some (queue, event))
    (hreader : ∀ message, event = some (.popped message) → t.reader = .popping) :
    Sound bins (t.advance queue event) := by
  obtain ⟨log, hmoves, hqueue⟩ := h.queue.exec hbins hexec
  have hsame : (t.advance queue event).queue = queue := by
    rcases event with _ | (_ | _ | _ | _) <;> rfl
  suffices htracks : (t.advance queue event).Tracks log by
    refine ⟨?_, ?_⟩
    · rw [hsame, hqueue.log]
      exact hqueue
    · rw [hsame, hqueue.log]
      exact htracks
  cases event with
  | none =>
      rw [show log = t.queue.log from hmoves]
      exact { h.tracks with }
  | some event =>
      cases hmoves with
      | refused _ => exact { h.tracks with }
      | missed _ => exact { h.tracks with }
      | pushed _ => exact h.tracks.pushed _ queue
      | popped hfront => exact h.tracks.popped (hreader _ rfl) hfront queue

/-- A byte written outside the messages that wait. -/
theorem Sound.store (h : Sound bins t) {address : Nat} (byte : UInt8)
    (hfree : ∀ message ∈ t.waiting, address < message 0 ∨ message 0 + message 1 ≤ address) :
    Sound bins (t.store address byte) := by
  have hkeep : ∀ message ∈ t.waiting,
      snapshot (Function.update t.bytes address byte) message = snapshot t.bytes message := by
    intro message hmem
    refine List.map_congr_left fun k hk => ?_
    have hlt := List.mem_range.mp hk
    have hout := hfree message hmem
    exact Function.update_of_ne (by omega) _ _
  have hwaits : ∀ i message, t.taken.length ≤ i → t.queue.log.pushed[i]? = some message →
      message ∈ t.waiting := by
    intro i message hi hm
    refine List.mem_iff_getElem?.mpr ⟨i - t.taken.length, ?_⟩
    rw [waiting, List.getElem?_drop, Nat.add_sub_cancel' hi]
    exact hm
  refine ⟨h.queue, h.tracks.given, ?_, h.tracks.taken, h.tracks.popping, ?_⟩
  · intro i message hi hm
    refine (h.tracks.stored i message hi hm).trans ?_
    exact congrArg some (hkeep message (hwaits i message hi hm)).symm
  · intro message part hreader
    obtain ⟨hlength, hm, hpart⟩ := h.tracks.copying message part hreader
    refine ⟨hlength, hm, ?_⟩
    rw [show snapshot (t.store address byte).bytes message = snapshot t.bytes message from
      hkeep message (hwaits _ _ (Nat.le_refl _) hm)]
    exact hpart

theorem Sound.copyByte (h : Sound bins t) (hexec : t.copyByte = some t') : Sound bins t' := by
  unfold Handover.copyByte at hexec
  split at hexec
  · next message part hreader =>
      split at hexec
      · next hlt =>
          cases hexec
          obtain ⟨hlength, hm, hpart⟩ := h.tracks.copying message part hreader
          refine ⟨h.queue, h.tracks.given, h.tracks.stored, h.tracks.taken,
            (fun hpopping => nomatch hpopping), ?_⟩
          intro m p hcopying
          cases hcopying
          refine ⟨hlength, hm, Fifo.concat_isPrefix hpart ?_⟩
          show (snapshot t.bytes message)[part.length]? = _
          rw [snapshot, List.getElem?_map, List.getElem?_range hlt]
          rfl
      · cases hexec
  · cases hexec

theorem Sound.finish (h : Sound bins t) (hexec : t.finish = some t') : Sound bins t' := by
  unfold Handover.finish at hexec
  split at hexec
  · next message part hreader =>
      split at hexec
      · next hfull =>
          cases hexec
          obtain ⟨hlength, hm, hpart⟩ := h.tracks.copying message part hreader
          have hwhole : part = snapshot t.bytes message :=
            hpart.eq_of_length (by rw [hfull, length_snapshot])
          have hgiven := h.tracks.stored _ message (Nat.le_refl _) hm
          rw [← hwhole] at hgiven
          have hgrows : (t.taken ++ [part]).length = t.taken.length + 1 := by simp
          refine ⟨h.queue, h.tracks.given, ?_, Fifo.concat_isPrefix h.tracks.taken hgiven, ?_,
            fun _ _ hcopying => nomatch hcopying⟩
          · intro i m hi hm
            exact h.tracks.stored i m (by simp only [hgrows] at hi; omega) hm
          · intro _
            show _ = (t.taken ++ [part]).length
            rw [hgrows]
            exact hlength
      · cases hexec
  · cases hexec

/-! ## What the thread that pops leaves alone -/

structure ReaderStep (t t' : Handover) : Prop where
  bytes : t'.bytes = t.bytes
  given : t'.given = t.given
  pushed : t'.queue.log.pushed = t.queue.log.pushed
  producer : t'.queue.producer = t.queue.producer
  taken : t.taken.length ≤ t'.taken.length

theorem ReaderStep.waiting (h : ReaderStep t t') {message : Words 2 Nat}
    (hmem : message ∈ t'.waiting) : message ∈ t.waiting := by
  unfold Handover.waiting at *
  rw [h.pushed] at hmem
  exact (List.drop_sublist_drop_left _ h.taken).subset hmem

theorem Sound.pop (h : Sound bins t) (hbins : bins + 1 < 2 ^ 32) {access : PopAccess}
    (hexec : t.pop access = some t') : Sound bins t' ∧ ReaderStep t t' := by
  unfold Handover.pop at hexec
  split at hexec
  · next hreader =>
      obtain ⟨⟨queue, event⟩, hqueue, rfl⟩ := Option.map_eq_some_iff.mp hexec
      have hpops := pops hqueue
      refine ⟨h.advance hbins hqueue fun _ _ => hreader, ?_⟩
      rcases event with _ | (m | _ | _ | _)
      · exact ⟨rfl, rfl, hpops.same, hpops.producer, Nat.le_refl _⟩
      · exact absurd rfl (hpops.not_pushed m)
      · exact ⟨rfl, rfl, hpops.same, hpops.producer, Nat.le_refl _⟩
      · exact ⟨rfl, rfl, hpops.same, hpops.producer, Nat.le_refl _⟩
      · exact ⟨rfl, rfl, hpops.same, hpops.producer, Nat.le_refl _⟩
  · cases hexec

theorem readerStep_copyByte (hexec : t.copyByte = some t') : ReaderStep t t' := by
  unfold Handover.copyByte at hexec
  split at hexec
  · split at hexec
    · cases hexec
      exact ⟨rfl, rfl, rfl, rfl, Nat.le_refl _⟩
    · cases hexec
  · cases hexec

theorem readerStep_finish (hexec : t.finish = some t') : ReaderStep t t' := by
  unfold Handover.finish at hexec
  split at hexec
  · split at hexec
    · cases hexec
      exact ⟨rfl, rfl, rfl, rfl, by simp⟩
    · cases hexec
  · cases hexec

end Handover

end RayPlatform
