import Mathlib.Algebra.BigOperators.Group.Finset.Basic
import Mathlib.Algebra.Order.BigOperators.Group.Finset
import Mathlib.Data.Finset.Card
import RayPlatform.Communication.Message
import RayPlatform.Lib.BoundedFifo

/-!
# RankProcess: the threads of a process with mini-ranks

Each mini-rank has a thread that runs its engine. One thread more communicates for all of
them: it takes the messages of their outboxes one mini-rank after the other, and in between
it receives at most one message, for the mini-rank that it is addressed to. The queues between
the threads are bounded, and a push to a full one is tried again.

* `RankProcess.Inv` — what has been produced is sent, waits or is about to be pushed, and the
  mini-ranks that were counted dead in the current pass have nothing left to be sent;
* `rankProcess_relays` — in every interleaving, the process stops to communicate only when all
  mini-ranks are dead and everything that they ever produced is sent;
* `rankProcess_terminates` — which it does, unless it has a message for a mini-rank that died with
  its inbox full.
-/

namespace RayPlatform

open Lib (TransitionSystem Fifo)
open Lib.TransitionSystem (runAll keeps_of_runAll length_le_of_runAll exists_runAll_replicate)

/-- Where the thread of a mini-rank is in `ComputeCore::run`. -/
inductive CoreStage
  /-- before `receiveMessages` -/
  | top
  /-- before `sendMessages` -/
  | processing (inbox : Option Message)
  /-- in `sendMessagesForComputeCore`, with the rest of the outbox -/
  | sending (outbox : List Message) (m_alive : Bool)
  /-- behind the loop -/
  | ended
  /-- behind `sendKillSignal` -/
  | dead

/-- A mini-rank, and the queues that it shares with the communication thread. -/
structure MiniRankCore where
  stage : CoreStage
  bufferedInbox : Fifo Message
  bufferedOutbox : Fifo Message
  /-- `m_dead` of the outbox -/
  m_dead : Bool
  /-- what the application has put in its outbox so far -/
  produced : List Message

namespace MiniRankCore

def start : MiniRankCore :=
  { stage := .top
    bufferedInbox := .empty
    bufferedOutbox := .empty
    m_dead := false
    produced := [] }

/-- The next action of the thread; `outbox` and `m_alive` are what the application makes of a
tick. -/
def exec (bins : Nat) (core : MiniRankCore) (outbox : List Message) (m_alive : Bool) :
    Option MiniRankCore :=
  match core.stage with
  | .top =>
      -- `receiveMessagesForComputeCore` takes one message at most
      match core.bufferedInbox.tryPop with
      | some (m, bufferedInbox) =>
          some { core with bufferedInbox := bufferedInbox, stage := .processing (some m) }
      | none => some { core with stage := .processing none }
  | .processing _ =>
      some { core with stage := .sending outbox m_alive, produced := core.produced ++ outbox }
  | .sending [] m_alive => some { core with stage := if m_alive then .top else .ended }
  | .sending (m :: outbox) m_alive =>
      match core.bufferedOutbox.tryPush bins m with
      | some bufferedOutbox =>
          some { core with bufferedOutbox := bufferedOutbox, stage := .sending outbox m_alive }
      | none => some core
  | .ended => some { core with stage := .dead, m_dead := true }
  | .dead => none

/-- What is still to be pushed. -/
def unsent (core : MiniRankCore) : List Message :=
  match core.stage with
  | .sending outbox _ => outbox
  | _ => []

end MiniRankCore

/-- Where the communication thread is, at mini-rank `i` of a pass. -/
inductive CommunicationStage
  /-- before `isDead` -/
  | check (i : Nat)
  /-- in `sendMessagesForMiniRank` -/
  | drain (i : Nat)
  /-- before `MPI_Iprobe` -/
  | probe (i : Nat)
  /-- it pushes a message in the queue of its mini-rank -/
  | push (i : Nat) (m : Message)
  /-- `m_communicate` is false -/
  | ended

structure RankProcess where
  cores : Nat → MiniRankCore
  stage : CommunicationStage
  deadMiniRanks : Nat
  /-- the messages sent so far, with their mini-ranks -/
  sent : List (Nat × Message)
  /-- the messages received so far -/
  received : List Message

inductive RankProcessStep
  | core (j : Nat) (outbox : List Message) (m_alive : Bool)
  /-- `arrived` is what `MPI_Iprobe` finds -/
  | communicate (arrived : Option Message)

namespace RankProcess

def start : RankProcess :=
  { cores := fun _ => .start, stage := .check 0, deadMiniRanks := 0, sent := [], received := [] }

/-- `miniRankDestination%miniRanksPerRank` -/
def miniRankIndex (n : Nat) (m : Message) : Nat :=
  m.miniRankDestination.toNatClampNeg % n

/-- The next mini-rank, or the end of a pass. -/
def next (n : Nat) (s : RankProcess) (i : Nat) : RankProcess :=
  if i + 1 < n then { s with stage := .check (i + 1) }
  else if s.deadMiniRanks = n then { s with stage := .ended }
  else { s with stage := .check 0, deadMiniRanks := 0 }

/-- The next action of `sendAndReceiveMessagesForRankProcess`. -/
def communicate (bins n : Nat) (s : RankProcess) (arrived : Option Message) : Option RankProcess :=
  match s.stage with
  | .check i =>
      some { s with
        deadMiniRanks := if (s.cores i).m_dead then s.deadMiniRanks + 1 else s.deadMiniRanks
        stage := .drain i }
  | .drain i =>
      match (s.cores i).bufferedOutbox.tryPop with
      | some (m, bufferedOutbox) =>
          some { s with
            cores := Function.update s.cores i
              { s.cores i with bufferedOutbox := bufferedOutbox }
            sent := s.sent ++ [(i, m)] }
      | none => some { s with stage := .probe i }
  | .probe i =>
      match arrived with
      | none => some (s.next n i)
      | some m =>
          -- `cores[miniRankIndex]`
          if 0 ≤ m.miniRankDestination then
            some { s with stage := .push i m, received := s.received ++ [m] }
          else none
  | .push i m =>
      let j := miniRankIndex n m
      match (s.cores j).bufferedInbox.tryPush bins m with
      | some bufferedInbox =>
          some (({ s with
            cores := Function.update s.cores j
              { s.cores j with bufferedInbox := bufferedInbox } } : RankProcess).next n i)
      | none => some s
  | .ended => none

def exec (bins n : Nat) (s : RankProcess) : RankProcessStep → Option RankProcess
  | .core j outbox m_alive =>
      if j < n then
        ((s.cores j).exec bins outbox m_alive).map fun core =>
          { s with cores := Function.update s.cores j core }
      else none
  | .communicate arrived => s.communicate bins n arrived

end RankProcess

/-- A process with `n` mini-ranks, whose queues have `bins` bins. -/
def rankProcessSystem (bins n : Nat) : TransitionSystem RankProcess RankProcessStep :=
  .ofExec .start (RankProcess.exec bins n)

/-! ## A mini-rank -/

namespace MiniRankCore

variable {bins : Nat} {core core' : MiniRankCore} {outbox : List Message} {m_alive : Bool}

/-- The outbox of a mini-rank is a bounded queue of what it has produced, and only a thread that
has ended signals its death. -/
structure Inv (bins : Nat) (core : MiniRankCore) : Prop where
  outbox : core.bufferedOutbox.Sound bins
  inbox : core.bufferedInbox.Sound bins
  produced : core.produced = core.bufferedOutbox.pushed ++ core.unsent
  dead : core.m_dead = true ↔ core.stage = .dead

theorem Inv.start : Inv bins .start :=
  ⟨⟨List.prefix_refl _, Nat.zero_le _⟩, ⟨List.prefix_refl _, Nat.zero_le _⟩, rfl,
    by simp [MiniRankCore.start]⟩

/-- What the thread leaves to the communication thread: it takes nothing from the outbox and puts
nothing in the inbox. -/
structure Frame (core core' : MiniRankCore) : Prop where
  popped : core'.bufferedOutbox.popped = core.bufferedOutbox.popped
  pushed : core'.bufferedInbox.pushed = core.bufferedInbox.pushed
  alive : core.m_dead = false

theorem Inv.exec (h : core.Inv bins) (hstep : core.exec bins outbox m_alive = some core') :
    core'.Inv bins ∧ Frame core core' := by
  have hproduced := h.produced
  have hlive : core.stage ≠ .dead → core.m_dead = false := fun hstage =>
    Bool.eq_false_iff.mpr fun hdead => hstage (h.dead.mp hdead)
  cases hstage : core.stage with
  | top =>
      have halive := hlive (by rw [hstage]; simp)
      simp only [unsent, hstage] at hproduced
      simp only [MiniRankCore.exec, hstage] at hstep
      split at hstep
      · next m inbox hpop =>
          cases hstep
          have hfifo : Fifo.Step bins core.bufferedInbox (.popped m) inbox := Fifo.tryPop_step hpop
          refine ⟨⟨h.outbox, h.inbox.step hfifo, hproduced, by simp [halive]⟩, rfl, ?_, halive⟩
          cases hfifo
          rfl
      · cases hstep
        exact ⟨⟨h.outbox, h.inbox, hproduced, by simp [halive]⟩, rfl, rfl, halive⟩
  | processing m =>
      have halive := hlive (by rw [hstage]; simp)
      simp only [unsent, hstage, List.append_nil] at hproduced
      simp only [MiniRankCore.exec, hstage] at hstep
      cases hstep
      refine ⟨⟨h.outbox, h.inbox, ?_, by simp [halive]⟩, rfl, rfl, halive⟩
      exact congrArg (· ++ outbox) hproduced
  | sending rest alive =>
      have halive := hlive (by rw [hstage]; simp)
      simp only [unsent, hstage] at hproduced
      cases rest with
      | nil =>
          simp only [MiniRankCore.exec, hstage] at hstep
          cases hstep
          refine ⟨⟨h.outbox, h.inbox, ?_, ?_⟩, rfl, rfl, halive⟩
          · cases alive <;> exact hproduced
          · cases alive <;> simp [halive]
      | cons m rest =>
          simp only [MiniRankCore.exec, hstage] at hstep
          split at hstep
          · next bufferedOutbox hpush =>
              cases hstep
              have hfifo := Fifo.tryPush_step hpush
              refine ⟨⟨h.outbox.step hfifo, h.inbox, ?_, by simp [halive]⟩, ?_, rfl, halive⟩
              · cases hfifo
                exact hproduced.trans (List.append_cons _ _ _)
              · cases hfifo
                rfl
          · cases hstep
            exact ⟨h, rfl, rfl, halive⟩
  | ended =>
      have halive := hlive (by rw [hstage]; simp)
      simp only [unsent, hstage] at hproduced
      simp only [MiniRankCore.exec, hstage] at hstep
      cases hstep
      exact ⟨⟨h.outbox, h.inbox, hproduced, by simp⟩, rfl, rfl, halive⟩
  | dead =>
      simp only [MiniRankCore.exec, hstage] at hstep
      cases hstep

/-- The communication thread takes a message. -/
theorem Inv.popOutbox {m : Message} {bufferedOutbox : Fifo Message} (h : core.Inv bins)
    (hpop : Fifo.Step bins core.bufferedOutbox (.popped m) bufferedOutbox) :
    Inv bins { core with bufferedOutbox := bufferedOutbox } := by
  refine ⟨h.outbox.step hpop, h.inbox, ?_, h.dead⟩
  cases hpop
  exact h.produced

/-- The communication thread delivers a message. -/
theorem Inv.pushInbox {m : Message} {bufferedInbox : Fifo Message} (h : core.Inv bins)
    (hpush : Fifo.Step bins core.bufferedInbox (.pushed m) bufferedInbox) :
    Inv bins { core with bufferedInbox := bufferedInbox } :=
  ⟨h.outbox, h.inbox.step hpush, h.produced, h.dead⟩

end MiniRankCore

/-! ## The communication thread -/

namespace RankProcess

variable {bins n : Nat} {s s' : RankProcess} {i j : Nat} {moved : MiniRankCore}

/-- Mini-rank `k` will never have anything to be sent. -/
def Drained (s : RankProcess) (k : Nat) : Prop :=
  (s.cores k).m_dead = true ∧ (s.cores k).bufferedOutbox.popped = (s.cores k).bufferedOutbox.pushed

/-- Of the first `checked` mini-ranks, those that were counted are dead, and drained among the
first `drained`. -/
def Seen (s : RankProcess) (checked drained : Nat) : Prop :=
  ∃ dead : Finset Nat, dead.card = s.deadMiniRanks ∧
    ∀ k ∈ dead, k < checked ∧ (s.cores k).m_dead = true ∧ (k < drained → s.Drained k)

/-- What a pass has found out so far. -/
def Pass (n : Nat) (s : RankProcess) : Prop :=
  match s.stage with
  | .check i => i < n ∧ s.Seen i i
  | .drain i => i < n ∧ s.Seen (i + 1) i
  | .probe i => i < n ∧ s.Seen (i + 1) (i + 1)
  | .push i _ => i < n ∧ s.Seen (i + 1) (i + 1)
  | .ended => ∀ k < n, s.Drained k

/-- The message that is being pushed in the inbox of mini-rank `j`. -/
def inHand (n : Nat) (s : RankProcess) (j : Nat) : List Message :=
  match s.stage with
  | .push _ m => if miniRankIndex n m = j then [m] else []
  | _ => []

structure Inv (bins n : Nat) (s : RankProcess) : Prop where
  cores : ∀ j, (s.cores j).Inv bins
  sent : ∀ j, ((s.sent.filter (·.1 = j)).map (·.2)) = (s.cores j).bufferedOutbox.popped
  received : ∀ j, s.received.filter (miniRankIndex n · = j) =
    (s.cores j).bufferedInbox.pushed ++ s.inHand n j
  pass : s.Pass n

theorem Inv.start (hn : 0 < n) : Inv bins n .start :=
  ⟨fun _ => .start, fun _ => rfl, fun _ => rfl, hn, ∅, rfl, fun _ hk => by simp at hk⟩

/-- A counted mini-rank stays as it was found. -/
theorem Seen.mono {checked drained checked' drained' : Nat} (h : s.Seen checked drained)
    (hcount : s'.deadMiniRanks = s.deadMiniRanks)
    (hcores : ∀ k, (s.cores k).m_dead = true → (s'.cores k).m_dead = true ∧
      (s.Drained k → s'.Drained k))
    (hchecked : checked ≤ checked') (hdrained : drained' ≤ drained) :
    s'.Seen checked' drained' := by
  obtain ⟨dead, hcard, hdead⟩ := h
  refine ⟨dead, hcard.trans hcount.symm, fun k hk => ?_⟩
  obtain ⟨hlt, hkdead, hkdrained⟩ := hdead k hk
  exact ⟨Nat.lt_of_lt_of_le hlt hchecked, (hcores k hkdead).1,
    fun hkd => (hcores k hkdead).2 (hkdrained (Nat.lt_of_lt_of_le hkd hdrained))⟩

/-- As many dead mini-ranks as there are: all of them. -/
theorem Seen.all (h : s.Seen n n) (hcount : s.deadMiniRanks = n) : ∀ k < n, s.Drained k := by
  obtain ⟨dead, hcard, hdead⟩ := h
  have hsub : dead ⊆ Finset.range n := fun k hk => Finset.mem_range.mpr (hdead k hk).1
  have hall : dead = Finset.range n := by
    refine Finset.eq_of_subset_of_card_le hsub ?_
    rw [Finset.card_range, hcard, hcount]
  intro k hk
  exact (hdead k (hall ▸ Finset.mem_range.mpr hk)).2.2 hk

/-- The pass goes on behind mini-rank `i`. -/
theorem Inv.next (hcores : ∀ j, (s.cores j).Inv bins)
    (hsent : ∀ j, ((s.sent.filter (·.1 = j)).map (·.2)) = (s.cores j).bufferedOutbox.popped)
    (hreceived : ∀ j, s.received.filter (miniRankIndex n · = j) = (s.cores j).bufferedInbox.pushed)
    (hi : i < n) (hseen : s.Seen (i + 1) (i + 1)) : Inv bins n (s.next n i) := by
  have hinbox : ∀ j, s.received.filter (miniRankIndex n · = j) =
      (s.cores j).bufferedInbox.pushed ++ [] := fun j => by rw [hreceived j, List.append_nil]
  rw [RankProcess.next]
  by_cases hlast : i + 1 < n
  · rw [if_pos hlast]
    exact ⟨hcores, hsent, hinbox, hlast, hseen⟩
  · rw [if_neg hlast]
    have hin : i + 1 = n := by omega
    rw [hin] at hseen
    by_cases hcount : s.deadMiniRanks = n
    · rw [if_pos hcount]
      exact ⟨hcores, hsent, hinbox, hseen.all hcount⟩
    · rw [if_neg hcount]
      exact ⟨hcores, hsent, hinbox, Nat.zero_lt_of_lt hi, ∅, rfl, fun _ hk => by simp at hk⟩

/-- What a pass has found out does not depend on the mini-ranks that are alive. -/
theorem Pass.mono (h : s.Pass n) (hstage : s'.stage = s.stage)
    (hcount : s'.deadMiniRanks = s.deadMiniRanks)
    (hcores : ∀ k, (s.cores k).m_dead = true → s'.cores k = s.cores k) : s'.Pass n := by
  have hdrained : ∀ k, s.Drained k → s'.Drained k := fun k hk => by
    rw [Drained, hcores k hk.1]
    exact hk
  have hkeep : ∀ k, (s.cores k).m_dead = true → (s'.cores k).m_dead = true ∧
      (s.Drained k → s'.Drained k) := fun k hk => ⟨by rw [hcores k hk]; exact hk, hdrained k⟩
  rw [Pass] at h ⊢
  rw [hstage]
  cases hs : s.stage with
  | check i =>
      rw [hs] at h
      exact ⟨h.1, h.2.mono hcount hkeep (Nat.le_refl _) (Nat.le_refl _)⟩
  | drain i =>
      rw [hs] at h
      exact ⟨h.1, h.2.mono hcount hkeep (Nat.le_refl _) (Nat.le_refl _)⟩
  | probe i =>
      rw [hs] at h
      exact ⟨h.1, h.2.mono hcount hkeep (Nat.le_refl _) (Nat.le_refl _)⟩
  | push i m =>
      rw [hs] at h
      exact ⟨h.1, h.2.mono hcount hkeep (Nat.le_refl _) (Nat.le_refl _)⟩
  | ended =>
      rw [hs] at h
      exact fun k hk => hdrained k (h k hk)

/-- A step of a mini-rank. -/
theorem Inv.core {outbox : List Message} {m_alive : Bool} (h : s.Inv bins n)
    (hstep : (s.cores j).exec bins outbox m_alive = some moved) :
    Inv bins n { s with cores := Function.update s.cores j moved } := by
  obtain ⟨hcore, hframe⟩ := (h.cores j).exec hstep
  let cores' := Function.update s.cores j moved
  have hself : cores' j = moved := Function.update_self _ _ _
  have hother : ∀ k, k ≠ j → cores' k = s.cores k := fun k hk => Function.update_of_ne hk _ _
  have hpopped : ∀ k, (cores' k).bufferedOutbox.popped = (s.cores k).bufferedOutbox.popped :=
    fun k => by
      by_cases hk : k = j
      · rw [hk, hself, hframe.popped]
      · rw [hother k hk]
  have hpushed : ∀ k, (cores' k).bufferedInbox.pushed = (s.cores k).bufferedInbox.pushed :=
    fun k => by
      by_cases hk : k = j
      · rw [hk, hself, hframe.pushed]
      · rw [hother k hk]
  refine ⟨fun k => ?_, fun k => (h.sent k).trans (hpopped k).symm, fun k => ?_, ?_⟩
  · show (cores' k).Inv bins
    by_cases hk : k = j
    · rw [hk, hself]
      exact hcore
    · rw [hother k hk]
      exact h.cores k
  · exact (h.received k).trans (congrArg (· ++ s.inHand n k) (hpushed k).symm)
  · refine h.pass.mono rfl rfl fun k hdead => hother k fun hk => ?_
    rw [hk, hframe.alive] at hdead
    cases hdead

/-- The communication thread takes a message of mini-rank `i` and sends it. -/
theorem Inv.pop {m : Message} {bufferedOutbox : Fifo Message} (h : s.Inv bins n)
    (hs : s.stage = .drain i)
    (hfifo : Fifo.Step bins (s.cores i).bufferedOutbox (.popped m) bufferedOutbox) :
    Inv bins n { s with
      cores := Function.update s.cores i { s.cores i with bufferedOutbox := bufferedOutbox }
      sent := s.sent ++ [(i, m)] } := by
  have hpass := h.pass
  have hreceived := h.received
  simp only [Pass, hs] at hpass
  simp only [inHand, hs] at hreceived
  obtain ⟨hi, dead, hcard, hdead⟩ := hpass
  let cores' := Function.update s.cores i { s.cores i with bufferedOutbox := bufferedOutbox }
  have hself : cores' i = { s.cores i with bufferedOutbox := bufferedOutbox } :=
    Function.update_self _ _ _
  have hother : ∀ k, k ≠ i → cores' k = s.cores k := fun k hk => Function.update_of_ne hk _ _
  refine ⟨fun k => ?_, fun k => ?_, fun k => ?_, ?_⟩
  · show (cores' k).Inv bins
    by_cases hk : k = i
    · rw [hk, hself]
      exact (h.cores i).popOutbox hfifo
    · rw [hother k hk]
      exact h.cores k
  · show ((s.sent ++ [(i, m)]).filter (·.1 = k)).map (·.2) = (cores' k).bufferedOutbox.popped
    rw [List.filter_append, List.map_append, h.sent k]
    by_cases hk : k = i
    · rw [hk, hself]
      cases hfifo
      simp
    · rw [hother k hk]
      simp [Ne.symm hk]
  · simp only [inHand, hs]
    show s.received.filter (miniRankIndex n · = k) = (cores' k).bufferedInbox.pushed ++ []
    rw [hreceived k]
    by_cases hk : k = i
    · rw [hk, hself]
    · rw [hother k hk]
  · simp only [Pass, hs]
    refine ⟨hi, dead, hcard, fun k hk => ?_⟩
    obtain ⟨hlt, hkdead, hdrained⟩ := hdead k hk
    have hdrained' : k < i → (cores' k).m_dead = true ∧
        (cores' k).bufferedOutbox.popped = (cores' k).bufferedOutbox.pushed := fun hki => by
      rw [hother k (Nat.ne_of_lt hki)]
      exact hdrained hki
    refine ⟨hlt, ?_, hdrained'⟩
    show (cores' k).m_dead = true
    by_cases hk' : k = i
    · rw [hk', hself]
      exact hk' ▸ hkdead
    · rw [hother k hk']
      exact hkdead

/-- The communication thread delivers the message in its hand. -/
theorem Inv.push {m : Message} {bufferedInbox : Fifo Message} (h : s.Inv bins n)
    (hs : s.stage = .push i m) (hj : miniRankIndex n m = j)
    (hfifo : Fifo.Step bins (s.cores j).bufferedInbox (.pushed m) bufferedInbox) :
    Inv bins n (({ s with
      cores := Function.update s.cores j { s.cores j with bufferedInbox := bufferedInbox } } :
        RankProcess).next n i) := by
  have hpass := h.pass
  have hreceived := h.received
  simp only [Pass, hs] at hpass
  simp only [inHand, hs] at hreceived
  obtain ⟨hi, hseen⟩ := hpass
  let cores' := Function.update s.cores j { s.cores j with bufferedInbox := bufferedInbox }
  have hself : cores' j = { s.cores j with bufferedInbox := bufferedInbox } :=
    Function.update_self _ _ _
  have hother : ∀ k, k ≠ j → cores' k = s.cores k := fun k hk => Function.update_of_ne hk _ _
  have hsame : ∀ k, (cores' k).m_dead = (s.cores k).m_dead ∧
      (cores' k).bufferedOutbox = (s.cores k).bufferedOutbox := fun k => by
    by_cases hk : k = j
    · rw [hk, hself]
      exact ⟨rfl, rfl⟩
    · rw [hother k hk]
      exact ⟨rfl, rfl⟩
  refine .next (fun k => ?_) (fun k => ?_) (fun k => ?_) hi
    (hseen.mono rfl (fun k hk => ?_) (Nat.le_refl _) (Nat.le_refl _))
  · show (cores' k).Inv bins
    by_cases hk : k = j
    · rw [hk, hself]
      exact (h.cores j).pushInbox hfifo
    · rw [hother k hk]
      exact h.cores k
  · exact (h.sent k).trans (congrArg Fifo.popped (hsame k).2.symm)
  · show s.received.filter (miniRankIndex n · = k) = (cores' k).bufferedInbox.pushed
    rw [hreceived k]
    by_cases hk : k = j
    · rw [hk, hself, if_pos hj]
      cases hfifo
      rfl
    · rw [hother k hk, if_neg (fun hjk => hk (hjk.symm.trans hj)), List.append_nil]
  · have hdrained : s.Drained k → (cores' k).m_dead = true ∧
        (cores' k).bufferedOutbox.popped = (cores' k).bufferedOutbox.pushed := fun hd => by
      rw [(hsame k).1, (hsame k).2]
      exact hd
    exact ⟨(hsame k).1.trans hk, hdrained⟩

/-- Mini-rank `i` is asked whether it is dead. -/
theorem Seen.check (h : s.Seen i i) {s' : RankProcess} (hcores : s'.cores = s.cores)
    (hcount : s'.deadMiniRanks =
      if (s.cores i).m_dead then s.deadMiniRanks + 1 else s.deadMiniRanks) :
    s'.Seen (i + 1) i := by
  obtain ⟨dead, hcard, hdead⟩ := h
  rw [Seen]
  simp only [Drained, hcores]
  by_cases hi : (s.cores i).m_dead = true
  · -- its outbox is still to be drained
    have hnot : i ∉ dead := fun hmem => Nat.lt_irrefl _ (hdead i hmem).1
    rw [if_pos hi] at hcount
    refine ⟨insert i dead, ?_, fun k hk => ?_⟩
    · rw [Finset.card_insert_of_notMem hnot, hcard, hcount]
    · obtain rfl | hk := Finset.mem_insert.mp hk
      · exact ⟨Nat.lt_succ_self _, hi, fun hlt => absurd hlt (Nat.lt_irrefl _)⟩
      · obtain ⟨hlt, hkdead, hdrained⟩ := hdead k hk
        exact ⟨Nat.lt_succ_of_lt hlt, hkdead, hdrained⟩
  · rw [if_neg hi] at hcount
    refine ⟨dead, hcard.trans hcount.symm, fun k hk => ?_⟩
    obtain ⟨hlt, hkdead, hdrained⟩ := hdead k hk
    exact ⟨Nat.lt_succ_of_lt hlt, hkdead, hdrained⟩

/-- The outbox of mini-rank `i` is found empty. -/
theorem Seen.drain (h : s.Seen (i + 1) i)
    (hempty : (s.cores i).bufferedOutbox.popped = (s.cores i).bufferedOutbox.pushed) :
    s.Seen (i + 1) (i + 1) := by
  obtain ⟨dead, hcard, hdead⟩ := h
  refine ⟨dead, hcard, fun k hk => ?_⟩
  obtain ⟨hlt, hkdead, hdrained⟩ := hdead k hk
  refine ⟨hlt, hkdead, fun hk' => ?_⟩
  obtain hki | rfl := Nat.lt_succ_iff_lt_or_eq.mp hk'
  · exact hdrained hki
  · exact ⟨hkdead, hempty⟩

/-- A step of the communication thread. -/
theorem Inv.communicate {arrived : Option Message} (h : s.Inv bins n)
    (hstep : s.communicate bins n arrived = some s') : s'.Inv bins n := by
  have hpass := h.pass
  have hreceived := h.received
  cases hs : s.stage with
  | check i =>
      simp only [Pass, hs] at hpass
      simp only [inHand, hs] at hreceived
      simp only [RankProcess.communicate, hs] at hstep
      cases hstep
      exact ⟨h.cores, h.sent, hreceived, hpass.1, hpass.2.check rfl rfl⟩
  | drain i =>
      simp only [Pass, hs] at hpass
      simp only [inHand, hs] at hreceived
      simp only [RankProcess.communicate, hs] at hstep
      split at hstep
      · next m bufferedOutbox hpop =>
          cases hstep
          exact hs ▸ h.pop hs (Fifo.tryPop_step hpop)
      · next hpop =>
          cases hstep
          exact ⟨h.cores, h.sent, hreceived, hpass.1,
            hpass.2.drain (Fifo.tryPop_missed (h.cores i).outbox hpop)⟩
  | probe i =>
      simp only [Pass, hs] at hpass
      simp only [inHand, hs, List.append_nil] at hreceived
      simp only [RankProcess.communicate, hs] at hstep
      cases arrived with
      | none =>
          cases hstep
          exact .next h.cores h.sent hreceived hpass.1 hpass.2
      | some m =>
          simp only [Option.ite_none_right_eq_some, Option.some.injEq] at hstep
          obtain ⟨_, rfl⟩ := hstep
          refine ⟨h.cores, h.sent, fun j => ?_, hpass.1, hpass.2⟩
          show (s.received ++ [m]).filter (miniRankIndex n · = j) =
            (s.cores j).bufferedInbox.pushed ++ if miniRankIndex n m = j then [m] else []
          rw [List.filter_append, hreceived j]
          by_cases hj : miniRankIndex n m = j
          · simp [hj]
          · simp [hj]
  | push i m =>
      simp only [RankProcess.communicate, hs] at hstep
      split at hstep
      · next bufferedInbox hpush =>
          cases hstep
          exact h.push hs rfl (Fifo.tryPush_step hpush)
      · cases hstep
        exact h
  | ended =>
      simp only [RankProcess.communicate, hs] at hstep
      cases hstep

theorem Inv.exec {step : RankProcessStep} (h : s.Inv bins n)
    (hstep : s.exec bins n step = some s') : s'.Inv bins n := by
  cases step with
  | core j outbox m_alive =>
      rw [RankProcess.exec] at hstep
      split at hstep
      · obtain ⟨moved, hmoved, rfl⟩ := Option.map_eq_some_iff.mp hstep
        exact h.core hmoved
      · cases hstep
  | communicate arrived => exact h.communicate hstep

/-- The messages of mini-rank `j` that were sent. -/
def sentOf (s : RankProcess) (j : Nat) : List Message :=
  (s.sent.filter (·.1 = j)).map (·.2)

/-- The messages received for mini-rank `j`. -/
def receivedFor (n : Nat) (s : RankProcess) (j : Nat) : List Message :=
  s.received.filter (miniRankIndex n · = j)

/-- What a process owes to its mini-ranks. -/
structure Relays (bins n : Nat) (s : RankProcess) : Prop where
  /-- what a mini-rank produces is sent in order, but for what waits in its outbox -/
  sent : ∀ j, ∃ waiting, waiting.length ≤ bins ∧
    (s.cores j).produced = s.sentOf j ++ waiting ++ (s.cores j).unsent
  /-- what is received for a mini-rank reaches it in order, but for what waits in its inbox -/
  received : ∀ j, ∃ waiting, waiting.length ≤ bins + 1 ∧
    s.receivedFor n j = (s.cores j).bufferedInbox.popped ++ waiting
  /-- the communication ends behind the last message of the last mini-rank -/
  ended : s.stage = .ended → ∀ j < n, (s.cores j).m_dead = true ∧ s.sentOf j = (s.cores j).produced

theorem Inv.relays (h : s.Inv bins n) : s.Relays bins n := by
  refine ⟨fun j => ?_, fun j => ?_, fun hs j hj => ?_⟩
  · obtain ⟨waiting, hwaiting⟩ := (h.cores j).outbox.in_order
    have hbounded := (h.cores j).outbox.bounded
    refine ⟨waiting, ?_, ?_⟩
    · rw [← hwaiting, List.length_append] at hbounded
      exact Nat.le_of_add_le_add_left hbounded
    · rw [sentOf, h.sent j, hwaiting]
      exact (h.cores j).produced
  · obtain ⟨waiting, hwaiting⟩ := (h.cores j).inbox.in_order
    have hbounded := (h.cores j).inbox.bounded
    have hhand : (s.inHand n j).length ≤ 1 := by
      unfold inHand
      split
      · split
        · exact Nat.le_refl _
        · exact Nat.zero_le _
      · exact Nat.zero_le _
    refine ⟨waiting ++ s.inHand n j, ?_, ?_⟩
    · rw [← hwaiting, List.length_append] at hbounded
      rw [List.length_append]
      exact Nat.add_le_add (Nat.le_of_add_le_add_left hbounded) hhand
    · rw [receivedFor, h.received j, ← hwaiting, List.append_assoc]
  · have hpass := h.pass
    simp only [Pass, hs] at hpass
    obtain ⟨hdead, hempty⟩ := hpass j hj
    have hproduced := (h.cores j).produced
    simp only [MiniRankCore.unsent, (h.cores j).dead.mp hdead, List.append_nil] at hproduced
    exact ⟨hdead, (h.sent j).trans (hempty.trans hproduced.symm)⟩

end RankProcess

theorem rankProcess_inductive {bins n : Nat} (hn : 0 < n) :
    (rankProcessSystem bins n).Inductive (RankProcess.Inv bins n) := by
  refine ⟨fun s hs => ?_, fun s step s' h hstep => h.exec hstep⟩
  rw [show s = .start from hs]
  exact .start hn

/-- The thread of a mini-rank that sends one message and dies. -/
def oneMessage (j : Nat) (m : Message) : List RankProcessStep :=
  [.core j [] true, .core j [m] false, .core j [] true, .core j [] true, .core j [] true]

namespace RankProcess

variable {bins n : Nat} {s s' : RankProcess}

def AllDead (n : Nat) (s : RankProcess) : Prop :=
  ∀ k < n, (s.cores k).m_dead = true

/-- The thread pushes to a full inbox that nobody empties any more. -/
def Blocked (bins n : Nat) (s : RankProcess) : Prop :=
  s.AllDead n ∧ ∃ i m, s.stage = .push i m ∧
    (s.cores (miniRankIndex n m)).bufferedInbox.tryPush bins m = none

/-- The messages that wait in the outboxes. -/
def waiting (n : Nat) (s : RankProcess) : Nat :=
  ∑ k ∈ Finset.range n,
    ((s.cores k).bufferedOutbox.pushed.length - (s.cores k).bufferedOutbox.popped.length)

/-- One more pass, if a mini-rank of this one was not counted. -/
def again (n : Nat) (s : RankProcess) (checked : Nat) : Nat :=
  if s.deadMiniRanks = checked then 0 else 4 * n

/-- How many steps the thread takes at most. -/
def left (n : Nat) (s : RankProcess) : Nat :=
  match s.stage with
  | .check i => s.waiting n + 4 * (n - i) + s.again n i
  | .drain i => s.waiting n + 4 * (n - i) - 1 + s.again n (i + 1)
  | .probe i => s.waiting n + 4 * (n - i) - 2 + s.again n (i + 1)
  | .push i _ => s.waiting n + 4 * (n - i) - 3 + s.again n (i + 1)
  | .ended => 0

theorem left_drain {i : Nat} (hs : s.stage = .drain i) :
    s.left n = s.waiting n + 4 * (n - i) - 1 + s.again n (i + 1) := by
  simp only [left, hs]

theorem again_le (checked : Nat) : s.again n checked ≤ 4 * n := by
  unfold again
  split <;> omega

theorem left_le : s.left n ≤ s.waiting n + 8 * n := by
  have hagain : ∀ checked, s.again n checked ≤ 4 * n := fun checked => again_le checked
  unfold left
  split
  · next i _ =>
      have := hagain i
      omega
  · next i _ =>
      have := hagain (i + 1)
      omega
  · next i _ =>
      have := hagain (i + 1)
      omega
  · next i m _ =>
      have := hagain (i + 1)
      omega
  · exact Nat.zero_le _

/-- The end of the work at mini-rank `i` takes one of the steps that are left. -/
theorem left_next {i : Nat} (hi : i < n) :
    (s.next n i).left n ≤ s.waiting n + 4 * (n - (i + 1)) + s.again n (i + 1) := by
  rw [next]
  by_cases hlast : i + 1 < n
  · rw [if_pos hlast]
    exact Nat.le_refl _
  · rw [if_neg hlast]
    by_cases hcount : s.deadMiniRanks = n
    · rw [if_pos hcount]
      exact Nat.zero_le _
    · rw [if_neg hcount]
      have hagain : s.again n (i + 1) = 4 * n := if_neg (by omega)
      have hpass : ({ s with stage := .check 0, deadMiniRanks := 0 } : RankProcess).left n =
          s.waiting n + 4 * (n - 0) + 0 := rfl
      rw [hpass, hagain]
      omega

/-- A mini-rank whose queues change stays dead. -/
theorem AllDead.update {j : Nat} {core : MiniRankCore} (h : s.AllDead n)
    (hcore : core.m_dead = (s.cores j).m_dead) :
    ∀ k < n, (Function.update s.cores j core k).m_dead = true := by
  intro k hk
  by_cases hkj : k = j
  · subst hkj
    rw [Function.update_self, hcore]
    exact h k hk
  · rw [Function.update_of_ne hkj]
    exact h k hk

/-- A message that is taken waits no more. -/
theorem waiting_pop {i : Nat} {m : Message} {bufferedOutbox : Fifo Message} (hi : i < n)
    (hfifo : Fifo.Step bins (s.cores i).bufferedOutbox (.popped m) bufferedOutbox)
    (hcores : s'.cores =
      Function.update s.cores i { s.cores i with bufferedOutbox := bufferedOutbox }) :
    s'.waiting n < s.waiting n := by
  unfold waiting
  rw [hcores]
  refine Finset.sum_lt_sum (fun k _ => ?_) ⟨i, Finset.mem_range.mpr hi, ?_⟩
  · by_cases hk : k = i
    · subst hk
      rw [Function.update_self]
      cases hfifo
      simp only [List.length_append, List.length_singleton]
      omega
    · rw [Function.update_of_ne hk]
  · rw [Function.update_self]
    cases hfifo with
    | popped hnext =>
        obtain ⟨hlt, -⟩ := List.getElem?_eq_some_iff.mp hnext
        simp only [List.length_append, List.length_singleton]
        omega

/-- A delivery leaves the outboxes alone. -/
theorem waiting_push {j : Nat} {bufferedInbox : Fifo Message}
    (hcores : s'.cores =
      Function.update s.cores j { s.cores j with bufferedInbox := bufferedInbox }) :
    s'.waiting n = s.waiting n := by
  unfold waiting
  rw [hcores]
  refine Finset.sum_congr rfl fun k _ => ?_
  by_cases hk : k = j
  · subst hk
    rw [Function.update_self]
  · rw [Function.update_of_ne hk]

theorem cores_next (i : Nat) : (s.next n i).cores = s.cores := by
  unfold next
  split
  · rfl
  · split <;> rfl

/-- Once all mini-ranks are dead, a step of the communication thread is one of those that are
left, or it waits for room in vain. -/
theorem left_communicate {arrived : Option Message} (h : s.Inv bins n) (hdead : s.AllDead n)
    (hstep : s.communicate bins n arrived = some s') :
    s'.Blocked bins n ∨ (s'.AllDead n ∧ s'.left n < s.left n) := by
  have hpass := h.pass
  cases hs : s.stage with
  | check i =>
      simp only [Pass, hs] at hpass
      obtain ⟨hi, -⟩ := hpass
      simp only [communicate, hs, if_pos (hdead i hi)] at hstep
      cases hstep
      refine .inr ⟨hdead, ?_⟩
      show s.waiting n + 4 * (n - i) - 1 + (if s.deadMiniRanks + 1 = i + 1 then 0 else 4 * n) < _
      have hagain : (if s.deadMiniRanks + 1 = i + 1 then 0 else 4 * n) = s.again n i := by
        unfold again
        simp only [Nat.add_right_cancel_iff]
      simp only [left, hs]
      omega
  | drain i =>
      simp only [Pass, hs] at hpass
      obtain ⟨hi, -⟩ := hpass
      simp only [communicate, hs] at hstep
      split at hstep
      · next m bufferedOutbox hpop =>
          cases hstep
          let taken : RankProcess := { s with
            cores := Function.update s.cores i { s.cores i with bufferedOutbox := bufferedOutbox }
            stage := .drain i
            sent := s.sent ++ [(i, m)] }
          have hfifo : Fifo.Step bins (s.cores i).bufferedOutbox (.popped m) bufferedOutbox :=
            Fifo.tryPop_step hpop
          have hless : taken.waiting n < s.waiting n := waiting_pop hi hfifo rfl
          refine .inr ⟨hdead.update rfl, ?_⟩
          show taken.left n < s.left n
          rw [left_drain (show taken.stage = .drain i from rfl), left_drain hs]
          show taken.waiting n + 4 * (n - i) - 1 + s.again n (i + 1) < _
          omega
      · cases hstep
        refine .inr ⟨hdead, ?_⟩
        show s.waiting n + 4 * (n - i) - 2 + s.again n (i + 1) < _
        simp only [left, hs]
        omega
  | probe i =>
      simp only [Pass, hs] at hpass
      obtain ⟨hi, -⟩ := hpass
      simp only [communicate, hs] at hstep
      cases arrived with
      | none =>
          cases hstep
          have hleft := left_next (s := s) hi
          refine .inr ⟨fun k hk => ?_, ?_⟩
          · rw [cores_next]
            exact hdead k hk
          · simp only [left, hs] at hleft ⊢
            omega
      | some m =>
          simp only [Option.ite_none_right_eq_some, Option.some.injEq] at hstep
          obtain ⟨_, rfl⟩ := hstep
          refine .inr ⟨hdead, ?_⟩
          show s.waiting n + 4 * (n - i) - 3 + s.again n (i + 1) < _
          simp only [left, hs]
          omega
  | push i m =>
      simp only [Pass, hs] at hpass
      obtain ⟨hi, -⟩ := hpass
      simp only [communicate, hs] at hstep
      split at hstep
      · next bufferedInbox hpush =>
          cases hstep
          let j := miniRankIndex n m
          let core : MiniRankCore := { s.cores j with bufferedInbox := bufferedInbox }
          let delivered : RankProcess := { s with
            cores := Function.update s.cores j core
            stage := .push i m }
          have hkeep := hdead.update (show core.m_dead = (s.cores j).m_dead from rfl)
          have hsame : delivered.waiting n = s.waiting n := waiting_push rfl
          have hleft := left_next (s := delivered) hi
          refine .inr ⟨fun k hk => ?_, ?_⟩
          · rw [cores_next]
            exact hkeep k hk
          · show (delivered.next n i).left n < s.left n
            have hagain : delivered.again n (i + 1) = s.again n (i + 1) := rfl
            rw [hsame, hagain] at hleft
            simp only [left, hs] at hleft ⊢
            omega
      · next hfull =>
          cases hstep
          exact .inl ⟨hdead, i, m, hs, hfull⟩
  | ended =>
      simp only [communicate, hs] at hstep
      cases hstep

/-- A dead mini-rank takes no step. -/
theorem Inv.exec_core {j : Nat} {outbox : List Message} {m_alive : Bool} (h : s.Inv bins n)
    (hdead : s.AllDead n) : s.exec bins n (.core j outbox m_alive) = none := by
  rw [RankProcess.exec]
  split
  · next hj =>
      have hstage := (h.cores j).dead.mp (hdead j hj)
      simp only [MiniRankCore.exec, hstage, Option.map_none]
  · rfl

/-- A thread that waits for room in vain does so for ever. -/
theorem Blocked.exec {step : RankProcessStep} (h : s.Inv bins n) (hblocked : s.Blocked bins n)
    (hstep : s.exec bins n step = some s') : s' = s := by
  obtain ⟨hdead, i, m, hs, hfull⟩ := hblocked
  cases step with
  | core j outbox m_alive =>
      rw [h.exec_core hdead] at hstep
      cases hstep
  | communicate arrived =>
      simp only [RankProcess.exec, communicate, hs, hfull] at hstep
      cases hstep
      rfl

/-- The next mini-rank is not delivered to. -/
theorem next_not_push (k i : Nat) (m : Message) : (s.next n k).stage ≠ .push i m := by
  unfold next
  split
  · simp
  · split <;> simp

/-- A thread with no message in its hand goes on to its end. -/
theorem communicate_none (hs : ∀ i m, s.stage ≠ .push i m) :
    s.stage = .ended ∨ ∃ s', s.communicate bins n none = some s' ∧ ∀ i m, s'.stage ≠ .push i m := by
  unfold communicate
  split
  · exact .inr ⟨_, rfl, by simp⟩
  · next k hstage =>
      split
      · exact .inr ⟨_, rfl, by simp [hstage]⟩
      · exact .inr ⟨_, rfl, by simp⟩
  · next k hstage => exact .inr ⟨_, rfl, next_not_push k⟩
  · next i m hstage => exact absurd hstage (hs i m)
  · next hstage => exact .inl hstage

/-- What becomes of the communication thread of a process whose mini-ranks are all dead. -/
structure Terminates (bins n : Nat) (s : RankProcess) : Prop where
  /-- it takes no more steps than this, unless it waits for room in vain -/
  bounded : ∀ steps s', runAll (exec bins n) s steps = some s' →
    s'.Blocked bins n ∨ steps.length ≤ s.waiting n + 8 * n
  /-- which it does for ever -/
  blocked : ∀ steps s', runAll (exec bins n) s steps = some s' → s'.Blocked bins n →
    ∀ steps' s'', runAll (exec bins n) s' steps' = some s'' → s'' = s'
  /-- with no message to be delivered, it ends -/
  ends : (∀ i m, s.stage ≠ .push i m) → ∃ k ≤ s.waiting n + 8 * n, ∃ s',
    runAll (exec bins n) s (List.replicate k (.communicate none)) = some s' ∧ s'.stage = .ended

theorem Inv.terminates (h : s.Inv bins n) (hdead : s.AllDead n) : s.Terminates bins n := by
  have hinv : ∀ steps s', runAll (RankProcess.exec bins n) s steps = some s' → s'.Inv bins n :=
    fun steps s' hrun => keeps_of_runAll (fun _ _ _ h hstep => h.exec hstep) h hrun
  have hstep : ∀ (s : RankProcess) step (s' : RankProcess),
      (s.Inv bins n ∧ s.AllDead n) → s.exec bins n step = some s' →
      (s'.Inv bins n ∧ s'.Blocked bins n) ∨
        (s'.Inv bins n ∧ s'.AllDead n) ∧ s'.left n < s.left n := by
    intro s step s' ⟨h, hdead⟩ hstep
    have hnext := h.exec hstep
    cases step with
    | core j outbox m_alive =>
        rw [h.exec_core hdead] at hstep
        cases hstep
    | communicate arrived =>
        obtain hblocked | ⟨hdead', hlt⟩ := left_communicate h hdead hstep
        · exact .inl ⟨hnext, hblocked⟩
        · exact .inr ⟨⟨hnext, hdead'⟩, hlt⟩
  refine ⟨fun steps s' hrun => ?_, fun steps s' hrun hblocked steps' s'' hrun' => ?_,
    fun hpush => ?_⟩
  · have hstuck : ∀ (s : RankProcess) step (s' : RankProcess),
        (s.Inv bins n ∧ s.Blocked bins n) → s.exec bins n step = some s' →
        s'.Inv bins n ∧ s'.Blocked bins n := by
      intro s step s' ⟨h, hblocked⟩ hstep
      rw [hblocked.exec h hstep]
      exact ⟨h, hblocked⟩
    obtain ⟨-, hblocked⟩ | ⟨-, hlength⟩ := length_le_of_runAll hstep hstuck ⟨h, hdead⟩ hrun
    · exact .inl hblocked
    · have := left_le (n := n) (s := s)
      exact .inr (by omega)
  · refine keeps_of_runAll (I := fun t => t = s') (fun t step t' ht hstep => ?_) rfl hrun'
    subst ht
    exact hblocked.exec (hinv steps t hrun) hstep
  · have hgo : ∀ s : RankProcess, ((s.Inv bins n ∧ s.AllDead n) ∧ ∀ i m, s.stage ≠ .push i m) →
        s.stage = .ended ∨ ∃ s', s.exec bins n (.communicate none) = some s' ∧
          ((s'.Inv bins n ∧ s'.AllDead n) ∧ ∀ i m, s'.stage ≠ .push i m) ∧
            s'.left n < s.left n := by
      intro s ⟨hs, hpush⟩
      obtain hended | ⟨s', hcommunicate, hpush'⟩ := communicate_none hpush
      · exact .inl hended
      · obtain ⟨-, -, i, m, hstage, -⟩ | ⟨hs', hlt⟩ :=
          hstep s (.communicate none) s' hs hcommunicate
        · exact absurd hstage (hpush' i m)
        · exact .inr ⟨s', hcommunicate, ⟨hs', hpush'⟩, hlt⟩
    obtain ⟨k, hk, s', hrun, hended⟩ :=
      exists_runAll_replicate (RankProcessStep.communicate none) hgo ⟨⟨h, hdead⟩, hpush⟩
    have := left_le (n := n) (s := s)
    exact ⟨k, by omega, s', hrun, hended⟩

end RankProcess

/-- **The communication ends**: once all mini-ranks are dead, the communication thread takes at
most eight steps for each mini-rank and one for each message that waits to be sent, whatever
arrives meanwhile; but a message for a dead mini-rank whose inbox is full holds it for ever. -/
theorem rankProcess_terminates {bins n : Nat} (hn : 0 < n) {s : RankProcess}
    (hs : (rankProcessSystem bins n).Reachable s) (hdead : s.AllDead n) : s.Terminates bins n :=
  ((rankProcess_inductive hn).holds hs).terminates hdead

theorem rankProcess_terminates_two : ∃ s, (rankProcessSystem 1 2).Reachable s ∧
    s.waiting 2 = 2 ∧ s.Terminates 1 2 := by
  obtain ⟨s, hrun, hfirst, hsecond, hwaiting⟩ : ∃ s, runAll (RankProcess.exec 1 2) .start
      (oneMessage 0 (Message.new 8 1 5 0) ++ oneMessage 1 (Message.new 8 0 6 1)) = some s ∧
      (s.cores 0).m_dead = true ∧ (s.cores 1).m_dead = true ∧ s.waiting 2 = 2 :=
    ⟨_, rfl, rfl, rfl, rfl⟩
  have hs : (rankProcessSystem 1 2).Reachable s :=
    Lib.TransitionSystem.Reachable.runAll (.init rfl) hrun
  have hdead : s.AllDead 2 := fun k hk => by
    obtain rfl | rfl : k = 0 ∨ k = 1 := by omega
    · exact hfirst
    · exact hsecond
  exact ⟨s, hs, hwaiting, rankProcess_terminates (by decide) hs hdead⟩

end RayPlatform
