import RayPlatform.Core.RankProcess

/-!
# The mini-ranks of all processes

Each process has the threads of `RankProcess`. What a process sends to another one arrives in
the order in which it was sent, because all messages are matched by any tag, and one process may
receive from the others in any order. Without checksums a message carries the numbers of its
mini-ranks to the other side.

* `MiniRankNetwork.Inv` — what a process has received from another one is what this one has sent
  to it first;
* `miniRankNetwork_accounts` — whatever one mini-rank produces for another is, in this order, what
  that one has taken from its inbox, what waits there, is in the hand of the communication thread,
  is in flight, waits in the outbox, and is still to be pushed.
-/

namespace RayPlatform

open Lib (TransitionSystem Fifo)
open Lib.TransitionSystem (runAll)

structure MiniRankNetwork where
  processes : Nat → RankProcess
  /-- how many messages of the first process the second one has received -/
  taken : Nat → Nat → Nat

inductive MiniRankNetworkStep
  /-- a step of mini-rank `j` of process `p` -/
  | core (p j : Nat) (outbox : List Message) (m_alive : Bool)
  /-- a step of the communication thread of process `p` that receives nothing -/
  | communicate (p : Nat)
  /-- process `q` receives the next message of process `p` -/
  | receive (p q : Nat)

/-- What `sendMessages` of mini-rank `rank` leaves in the outbox, in a job of `size` mini-ranks. -/
structure Addressed (size rank : Nat) (m : Message) : Prop where
  miniRankSource : m.miniRankSource = m.source
  miniRankDestination : m.miniRankDestination = m.destination
  source : 0 ≤ m.source ∧ m.source.toNatClampNeg = rank
  destination : 0 ≤ m.destination ∧ m.destination.toNatClampNeg < size

instance (size rank : Nat) (m : Message) : Decidable (Addressed size rank m) :=
  decidable_of_iff (m.miniRankSource = m.source ∧ m.miniRankDestination = m.destination ∧
      (0 ≤ m.source ∧ m.source.toNatClampNeg = rank) ∧
      (0 ≤ m.destination ∧ m.destination.toNatClampNeg < size))
    ⟨fun ⟨h₁, h₂, h₃, h₄⟩ => ⟨h₁, h₂, h₃, h₄⟩, fun ⟨h₁, h₂, h₃, h₄⟩ => ⟨h₁, h₂, h₃, h₄⟩⟩

namespace MiniRankNetwork

def start : MiniRankNetwork :=
  { processes := fun _ => .start, taken := fun _ _ => 0 }

/-- The messages of process `p` for process `q`: `miniRankDestination/miniRanksPerRank`. -/
def sentTo (n : Nat) (s : MiniRankNetwork) (p q : Nat) : List Message :=
  ((s.processes p).sent.map (·.2)).filter (·.destination.toNatClampNeg / n = q)

def isProbing (process : RankProcess) : Bool :=
  match process.stage with
  | .probe _ => true
  | _ => false

/-- A step of the job: `size` processes with `n` mini-ranks each, the numbers of which go from
`miniRankNumber=rank*n` on. -/
def exec (bins n size : Nat) (s : MiniRankNetwork) : MiniRankNetworkStep → Option MiniRankNetwork
  | .core p j outbox m_alive =>
      if p < size ∧ ∀ m ∈ outbox, Addressed (size * n) (p * n + j) m then
        ((s.processes p).exec bins n (.core j outbox m_alive)).map fun process =>
          { s with processes := Function.update s.processes p process }
      else none
  | .communicate p =>
      if p < size then
        ((s.processes p).exec bins n (.communicate none)).map fun process =>
          { s with processes := Function.update s.processes p process }
      else none
  | .receive p q =>
      if p < size ∧ q < size ∧ isProbing (s.processes q) then
        match (s.sentTo n p q)[s.taken p q]? with
        | some m =>
            ((s.processes q).exec bins n (.communicate (some m))).map fun process =>
              { s with
                processes := Function.update s.processes q process
                taken := Function.update s.taken p
                  (Function.update (s.taken p) q (s.taken p q + 1)) }
        | none => none
      else none

end MiniRankNetwork

def miniRankNetwork (bins n size : Nat) : TransitionSystem MiniRankNetwork MiniRankNetworkStep :=
  .ofExec .start (MiniRankNetwork.exec bins n size)

/-! ## A step of one process -/

namespace RankProcess

variable {bins n : Nat} {s s' : RankProcess}

/-- What the communication thread does not do. -/
structure CommunicateFrame (s s' : RankProcess) : Prop where
  produced : ∀ j, (s'.cores j).produced = (s.cores j).produced
  sent : s.sent <+: s'.sent

theorem sent_next (i : Nat) : (s.next n i).sent = s.sent := by
  unfold next
  split
  · rfl
  · split <;> rfl

theorem received_next (i : Nat) : (s.next n i).received = s.received := by
  unfold next
  split
  · rfl
  · split <;> rfl

/-- A mini-rank whose queues change has produced the same. -/
theorem produced_update {k : Nat} {core : MiniRankCore}
    (hcore : core.produced = (s.cores k).produced) (j : Nat) :
    (Function.update s.cores k core j).produced = (s.cores j).produced := by
  by_cases hj : j = k
  · subst hj
    rw [Function.update_self, hcore]
  · rw [Function.update_of_ne hj]

theorem communicate_frame {arrived : Option Message}
    (hstep : s.communicate bins n arrived = some s') : CommunicateFrame s s' := by
  cases hs : s.stage with
  | check i =>
      simp only [communicate, hs] at hstep
      cases hstep
      exact ⟨fun _ => rfl, List.prefix_refl _⟩
  | drain i =>
      simp only [communicate, hs] at hstep
      split at hstep
      · next m bufferedOutbox hpop =>
          cases hstep
          let core : MiniRankCore := { s.cores i with bufferedOutbox := bufferedOutbox }
          have hcore : core.produced = (s.cores i).produced := rfl
          exact ⟨produced_update hcore, List.prefix_append _ _⟩
      · cases hstep
        exact ⟨fun _ => rfl, List.prefix_refl _⟩
  | probe i =>
      simp only [communicate, hs] at hstep
      cases arrived with
      | none =>
          cases hstep
          exact ⟨fun j => by rw [cores_next], by rw [sent_next]⟩
      | some m =>
          simp only [Option.ite_none_right_eq_some, Option.some.injEq] at hstep
          obtain ⟨_, rfl⟩ := hstep
          exact ⟨fun _ => rfl, List.prefix_refl _⟩
  | push i m =>
      simp only [communicate, hs] at hstep
      split at hstep
      · next bufferedInbox hpush =>
          cases hstep
          let k := miniRankIndex n m
          let core : MiniRankCore := { s.cores k with bufferedInbox := bufferedInbox }
          have hcore : core.produced = (s.cores k).produced := rfl
          refine ⟨fun j => ?_, by rw [sent_next]⟩
          rw [cores_next]
          exact produced_update hcore j
      · cases hstep
        exact ⟨fun _ => rfl, List.prefix_refl _⟩
  | ended =>
      simp only [communicate, hs] at hstep
      cases hstep

theorem communicate_received (hstep : s.communicate bins n none = some s') :
    s'.received = s.received := by
  cases hs : s.stage with
  | check i =>
      simp only [communicate, hs] at hstep
      cases hstep
      rfl
  | drain i =>
      simp only [communicate, hs] at hstep
      split at hstep <;> cases hstep <;> rfl
  | probe i =>
      simp only [communicate, hs] at hstep
      cases hstep
      exact received_next i
  | push i m =>
      simp only [communicate, hs] at hstep
      split at hstep
      · cases hstep
        exact received_next i
      · cases hstep
        rfl
  | ended =>
      simp only [communicate, hs] at hstep
      cases hstep

/-- A probe that finds a message. -/
theorem communicate_some {m : Message} (hs : MiniRankNetwork.isProbing s)
    (hstep : s.communicate bins n (some m) = some s') :
    0 ≤ m.miniRankDestination ∧ s'.sent = s.sent ∧ s'.received = s.received ++ [m] := by
  unfold MiniRankNetwork.isProbing at hs
  split at hs
  · next i hstage =>
      simp only [communicate, hstage, Option.ite_none_right_eq_some, Option.some.injEq] at hstep
      obtain ⟨hm, rfl⟩ := hstep
      exact ⟨hm, rfl, rfl⟩
  · cases hs

end RankProcess

namespace MiniRankCore

/-- A mini-rank produces what the application puts in its outbox. -/
theorem exec_produced {bins : Nat} {core core' : MiniRankCore} {outbox : List Message}
    {m_alive : Bool} (hstep : core.exec bins outbox m_alive = some core') :
    core'.produced = core.produced ∨ core'.produced = core.produced ++ outbox := by
  unfold MiniRankCore.exec at hstep
  split at hstep
  · split at hstep <;> cases hstep <;> exact .inl rfl
  · cases hstep
    exact .inr rfl
  · cases hstep
    exact .inl rfl
  · split at hstep <;> cases hstep <;> exact .inl rfl
  · cases hstep
    exact .inl rfl
  · cases hstep

end MiniRankCore

/-! ## The links -/

namespace MiniRankNetwork

variable {bins n size : Nat} {s s' : MiniRankNetwork}

/-- The process of the mini-rank that a message comes from. -/
def sourceProcess (n : Nat) (m : Message) : Nat :=
  m.source.toNatClampNeg / n

structure Inv (bins n size : Nat) (s : MiniRankNetwork) : Prop where
  processes : ∀ p, (s.processes p).Inv bins n
  addressed : ∀ p j, ∀ m ∈ ((s.processes p).cores j).produced,
    Addressed (size * n) (p * n + j) m ∧ p < size ∧ j < n
  taken : ∀ p q, s.taken p q ≤ (s.sentTo n p q).length
  received : ∀ p q, (s.processes q).received.filter (sourceProcess n · = p) =
    (s.sentTo n p q).take (s.taken p q)
  arrived : ∀ q, ∀ m ∈ (s.processes q).received, ∃ p, m ∈ s.sentTo n p q

theorem Inv.start (hn : 0 < n) : Inv bins n size .start :=
  ⟨fun _ => .start hn, fun _ _ _ hm => absurd hm List.not_mem_nil, fun _ _ => Nat.zero_le _,
    fun _ _ => rfl, fun _ _ hm => absurd hm List.not_mem_nil⟩

/-- The messages that a process has sent for another one stay, and more may follow. -/
theorem sentTo_prefix (hsent : ∀ p, (s.processes p).sent <+: (s'.processes p).sent) (p q : Nat) :
    s.sentTo n p q <+: s'.sentTo n p q := by
  obtain ⟨more, hmore⟩ := hsent p
  rw [sentTo, sentTo, ← hmore, List.map_append, List.filter_append]
  exact List.prefix_append _ _

/-- A step of process `p` that receives nothing. -/
theorem Inv.frame {p : Nat} {process : RankProcess} (h : s.Inv bins n size)
    (hinv : process.Inv bins n) (hsent : (s.processes p).sent <+: process.sent)
    (hreceived : process.received = (s.processes p).received)
    (haddressed : ∀ j, ∀ m ∈ (process.cores j).produced,
      Addressed (size * n) (p * n + j) m ∧ p < size ∧ j < n) :
    Inv bins n size { s with processes := Function.update s.processes p process } := by
  let next : MiniRankNetwork := { s with processes := Function.update s.processes p process }
  have hgrows : ∀ a b, s.sentTo n a b <+: next.sentTo n a b :=
    sentTo_prefix <| (Function.forall_update_iff _ fun k (process : RankProcess) =>
      (s.processes k).sent <+: process.sent).mpr ⟨hsent, fun k _ => List.prefix_refl _⟩
  have hreceived : ∀ k, (next.processes k).received = (s.processes k).received :=
    (Function.forall_update_iff _ fun k (process : RankProcess) =>
      process.received = (s.processes k).received).mpr ⟨hreceived, fun k _ => rfl⟩
  refine ⟨?_, ?_, fun a b => ?_, fun a b => ?_, fun b m hm => ?_⟩
  · exact (Function.forall_update_iff _ fun _ (process : RankProcess) => process.Inv bins n).mpr
      ⟨hinv, fun k _ => h.processes k⟩
  · exact (Function.forall_update_iff _ fun k (process : RankProcess) =>
      ∀ j, ∀ m ∈ (process.cores j).produced,
        Addressed (size * n) (k * n + j) m ∧ k < size ∧ j < n).mpr
      ⟨haddressed, fun k _ => h.addressed k⟩
  · exact Nat.le_trans (h.taken a b) (hgrows a b).length_le
  · obtain ⟨more, hmore⟩ := hgrows a b
    show (next.processes b).received.filter _ = (next.sentTo n a b).take (s.taken a b)
    rw [hreceived, h.received, ← hmore, List.take_append_of_le_length (h.taken a b)]
  · have hm : m ∈ (next.processes b).received := hm
    rw [hreceived] at hm
    obtain ⟨a, ha⟩ := h.arrived b m hm
    exact ⟨a, (hgrows a b).subset ha⟩

/-- What was sent for mini-rank `j` was produced by it. -/
theorem Inv.mem_sent (h : s.Inv bins n size) {p j : Nat} {m : Message}
    (hm : (j, m) ∈ (s.processes p).sent) : m ∈ ((s.processes p).cores j).produced := by
  have hcore := (h.processes p).cores j
  have hsent : m ∈ ((s.processes p).cores j).bufferedOutbox.popped := by
    rw [← (h.processes p).sent j]
    exact List.mem_map.mpr ⟨(j, m), List.mem_filter.mpr ⟨hm, decide_eq_true rfl⟩, rfl⟩
  rw [hcore.produced]
  exact List.mem_append_left _ (hcore.outbox.in_order.subset hsent)

theorem Inv.mem_sentTo (h : s.Inv bins n size) {p q : Nat} {m : Message}
    (hm : m ∈ s.sentTo n p q) : ∃ j, Addressed (size * n) (p * n + j) m ∧ p < size ∧ j < n ∧
      m.destination.toNatClampNeg / n = q := by
  obtain ⟨hmem, hq⟩ := List.mem_filter.mp hm
  obtain ⟨⟨j, m⟩, hsent, rfl⟩ := List.mem_map.mp hmem
  obtain ⟨haddressed, hp, hj⟩ := h.addressed p j m (h.mem_sent hsent)
  exact ⟨j, haddressed, hp, hj, of_decide_eq_true hq⟩

theorem mul_add_div_self {n p j : Nat} (hj : j < n) : (p * n + j) / n = p := by
  rw [Nat.mul_comm, Nat.mul_add_div (Nat.zero_lt_of_lt hj), Nat.div_eq_of_lt hj, Nat.add_zero]

theorem sourceProcess_eq {m : Message} {p j : Nat} (h : Addressed (size * n) (p * n + j) m)
    (hj : j < n) : sourceProcess n m = p := by
  rw [sourceProcess, h.source.2, mul_add_div_self hj]

theorem Inv.core {p j : Nat} {outbox : List Message} {m_alive : Bool} (h : s.Inv bins n size)
    (hstep : s.exec bins n size (.core p j outbox m_alive) = some s') : s'.Inv bins n size := by
  simp only [exec] at hstep
  split at hstep
  · next hguard =>
      obtain ⟨hp, houtbox⟩ := hguard
      obtain ⟨process, hprocess, rfl⟩ := Option.map_eq_some_iff.mp hstep
      have hinv := (h.processes p).exec hprocess
      simp only [RankProcess.exec] at hprocess
      split at hprocess
      · next hj =>
          obtain ⟨core, hcore, rfl⟩ := Option.map_eq_some_iff.mp hprocess
          refine h.frame hinv (List.prefix_refl _) rfl ?_
          refine (Function.forall_update_iff _ fun i (core : MiniRankCore) => ∀ m ∈ core.produced,
            Addressed (size * n) (p * n + i) m ∧ p < size ∧ i < n).mpr
            ⟨fun m hm => ?_, fun i _ => h.addressed p i⟩
          obtain hsame | hmore := MiniRankCore.exec_produced hcore
          · rw [hsame] at hm
            exact h.addressed p j m hm
          · rw [hmore] at hm
            obtain hm | hm := List.mem_append.mp hm
            · exact h.addressed p j m hm
            · exact ⟨houtbox m hm, hp, hj⟩
      · cases hprocess
  · cases hstep

theorem Inv.communicate {p : Nat} (h : s.Inv bins n size)
    (hstep : s.exec bins n size (.communicate p) = some s') : s'.Inv bins n size := by
  simp only [exec, Option.ite_none_right_eq_some] at hstep
  obtain ⟨hp, hstep⟩ := hstep
  obtain ⟨process, hprocess, rfl⟩ := Option.map_eq_some_iff.mp hstep
  have hinv := (h.processes p).exec hprocess
  rw [RankProcess.exec] at hprocess
  have hframe := RankProcess.communicate_frame hprocess
  refine h.frame hinv hframe.sent (RankProcess.communicate_received hprocess) fun j m hm => ?_
  rw [hframe.produced] at hm
  exact h.addressed p j m hm

/-- Process `q` receives what process `p` has sent it next. -/
theorem Inv.receive {p q : Nat} (h : s.Inv bins n size)
    (hstep : s.exec bins n size (.receive p q) = some s') : s'.Inv bins n size := by
  simp only [exec] at hstep
  split at hstep
  · next hguard =>
      obtain ⟨-, -, hprobing⟩ := hguard
      split at hstep
      · next m hnext =>
          obtain ⟨process, hprocess, rfl⟩ := Option.map_eq_some_iff.mp hstep
          have hinv := (h.processes q).exec hprocess
          rw [RankProcess.exec] at hprocess
          have hframe := RankProcess.communicate_frame hprocess
          obtain ⟨-, hsent, hreceived⟩ := RankProcess.communicate_some hprobing hprocess
          have hmem : m ∈ s.sentTo n p q := List.mem_of_getElem? hnext
          obtain ⟨j, haddressed, -, hj, -⟩ := h.mem_sentTo hmem
          have hsource := sourceProcess_eq haddressed hj
          let processes' := Function.update s.processes q process
          let taken' := Function.update s.taken p (Function.update (s.taken p) q (s.taken p q + 1))
          let next : MiniRankNetwork := { s with processes := processes', taken := taken' }
          have hsame : ∀ a b, next.sentTo n a b = s.sentTo n a b := fun a b => by
            have hsent' : ∀ k, (processes' k).sent = (s.processes k).sent :=
              (Function.forall_update_iff _ fun k (process : RankProcess) =>
                process.sent = (s.processes k).sent).mpr ⟨hsent, fun k _ => rfl⟩
            show ((processes' a).sent.map _).filter _ = _
            rw [hsent', sentTo]
          have htaken : ∀ a b,
              taken' a b = if a = p ∧ b = q then s.taken p q + 1 else s.taken a b :=
            fun a b => by
              by_cases ha : a = p
              · by_cases hb : b = q
                · simp [taken', ha, hb]
                · simp [taken', ha, hb]
              · simp [taken', ha]
          refine ⟨?_, ?_, fun a b => ?_, fun a b => ?_, ?_⟩
          · exact (Function.forall_update_iff _ fun _ (process : RankProcess) =>
              process.Inv bins n).mpr ⟨hinv, fun k _ => h.processes k⟩
          · refine (Function.forall_update_iff _ fun k (process : RankProcess) =>
              ∀ j, ∀ m ∈ (process.cores j).produced,
                Addressed (size * n) (k * n + j) m ∧ k < size ∧ j < n).mpr
              ⟨fun i m hm => ?_, fun k _ => h.addressed k⟩
            rw [hframe.produced] at hm
            exact h.addressed q i m hm
          · show taken' a b ≤ (next.sentTo n a b).length
            rw [htaken, hsame]
            split
            · next heq =>
                rw [heq.1, heq.2]
                exact (List.getElem?_eq_some_iff.mp hnext).1
            · exact h.taken a b
          · show (processes' b).received.filter _ = (next.sentTo n a b).take (taken' a b)
            rw [htaken, hsame]
            by_cases hb : b = q
            · rw [hb, show processes' q = process from Function.update_self _ _ _, hreceived,
                List.filter_append, h.received]
              by_cases ha : a = p
              · rw [if_pos ⟨ha, rfl⟩, ha, List.take_add_one, hnext]
                simp [hsource]
              · rw [if_neg fun heq => ha heq.1]
                simp [hsource, Ne.symm ha]
            · rw [if_neg fun heq => hb heq.2,
                show processes' b = s.processes b from Function.update_of_ne hb _ _, h.received]
          · refine (Function.forall_update_iff _ fun k (process : RankProcess) =>
              ∀ m ∈ process.received, ∃ a, m ∈ next.sentTo n a k).mpr
              ⟨fun m' hm => ?_, fun k _ m' hm => ?_⟩
            · rw [hreceived] at hm
              obtain hm | hm := List.mem_append.mp hm
              · obtain ⟨a, ha⟩ := h.arrived q m' hm
                exact ⟨a, by rw [hsame]; exact ha⟩
              · rw [List.mem_singleton.mp hm]
                exact ⟨p, by rw [hsame]; exact hmem⟩
            · obtain ⟨a, ha⟩ := h.arrived k m' hm
              exact ⟨a, by rw [hsame]; exact ha⟩
      · cases hstep
  · cases hstep

theorem Inv.exec {step : MiniRankNetworkStep} (h : s.Inv bins n size)
    (hstep : s.exec bins n size step = some s') : s'.Inv bins n size := by
  cases step with
  | core p j outbox m_alive => exact h.core hstep
  | communicate p => exact h.communicate hstep
  | receive p q => exact h.receive hstep

/-! ## What becomes of a message -/

/-- The messages from mini-rank `a` for mini-rank `b`. -/
def between (a b : Nat) (messages : List Message) : List Message :=
  messages.filter fun m => m.source.toNatClampNeg = a ∧ m.destination.toNatClampNeg = b

/-- The messages of process `p` for process `q` that are in flight. -/
def inFlight (n : Nat) (s : MiniRankNetwork) (p q : Nat) : List Message :=
  (s.sentTo n p q).drop (s.taken p q)

theorem between_append (a b : Nat) (l l' : List Message) :
    between a b (l ++ l') = between a b l ++ between a b l' :=
  List.filter_append _ _

/-- What mini-rank `i` of process `p` has sent for mini-rank `j` of process `q` is found in what
process `p` has sent to process `q`. -/
theorem Inv.between_sentTo (h : s.Inv bins n size) {p q i j : Nat} (hj : j < n) :
    between (p * n + i) (q * n + j) (s.sentTo n p q) =
      between (p * n + i) (q * n + j) ((s.processes p).sentOf i) := by
  have hto : between (p * n + i) (q * n + j) (s.sentTo n p q) =
      between (p * n + i) (q * n + j) ((s.processes p).sent.map (·.2)) := by
    rw [between, sentTo, List.filter_filter]
    refine List.filter_congr fun m _ => ?_
    by_cases hm : m.source.toNatClampNeg = p * n + i ∧ m.destination.toNatClampNeg = q * n + j
    · simp [hm.1, hm.2, mul_add_div_self hj]
    · simp [hm]
  rw [hto, RankProcess.sentOf, between, between, List.filter_map, List.filter_map,
    List.filter_filter]
  refine congrArg _ (List.filter_congr fun t ht => ?_)
  obtain ⟨k, m⟩ := t
  obtain ⟨haddressed, -, hk⟩ := h.addressed p k m (h.mem_sent ht)
  by_cases hki : k = i
  · simp [hki]
  · have hne : m.source.toNatClampNeg ≠ p * n + i := by
      rw [haddressed.source.2]
      omega
    simp [hne]

/-- What process `q` has received for mini-rank `j` from mini-rank `i` of process `p` is the first
part of what process `p` has sent it. -/
theorem Inv.between_received (h : s.Inv bins n size) {p q i j : Nat} (hi : i < n) (hj : j < n) :
    between (p * n + i) (q * n + j) ((s.processes q).receivedFor n j) =
      between (p * n + i) (q * n + j) ((s.sentTo n p q).take (s.taken p q)) := by
  rw [← h.received p q, RankProcess.receivedFor, between, between, List.filter_filter,
    List.filter_filter]
  refine List.filter_congr fun m hm => ?_
  obtain ⟨p', hsent⟩ := h.arrived q m hm
  obtain ⟨_, haddressed, -⟩ := h.mem_sentTo hsent
  have hindex : RankProcess.miniRankIndex n m = m.destination.toNatClampNeg % n := by
    rw [RankProcess.miniRankIndex, haddressed.miniRankDestination]
  by_cases hb : m.source.toNatClampNeg = p * n + i ∧ m.destination.toNatClampNeg = q * n + j
  · have hmod : (q * n + j) % n = j := by
      rw [Nat.mul_comm, Nat.mul_add_mod, Nat.mod_eq_of_lt hj]
    simp [hindex, sourceProcess, hb.1, hb.2, mul_add_div_self hi, hmod]
  · simp [hb]

/-- What the mini-ranks of a job may rely on. -/
structure Accounts (n size : Nat) (s : MiniRankNetwork) : Prop where
  /-- what mini-rank `i` of process `p` produces for mini-rank `j` of process `q` is there, in
  order, or on the way -/
  inOrder : ∀ p q i j, i < n → j < n →
    between (p * n + i) (q * n + j) ((s.processes p).cores i).produced =
      between (p * n + i) (q * n + j) ((s.processes q).cores j).bufferedInbox.popped ++
      between (p * n + i) (q * n + j) ((s.processes q).cores j).bufferedInbox.waiting ++
      between (p * n + i) (q * n + j) ((s.processes q).inHand n j) ++
      between (p * n + i) (q * n + j) (s.inFlight n p q) ++
      between (p * n + i) (q * n + j) ((s.processes p).cores i).bufferedOutbox.waiting ++
      between (p * n + i) (q * n + j) ((s.processes p).cores i).unsent
  /-- a mini-rank takes from its inbox what other mini-ranks produced for it -/
  addressed : ∀ q j, j < n → ∀ m ∈ ((s.processes q).cores j).bufferedInbox.popped,
    ∃ p i, p < size ∧ i < n ∧ m ∈ ((s.processes p).cores i).produced ∧
      m.source.toNatClampNeg = p * n + i ∧ m.destination.toNatClampNeg = q * n + j
  /-- when all processes have ended and nothing is in flight, everything is delivered -/
  complete : (∀ p < size, (s.processes p).stage = .ended) → (∀ p q, s.inFlight n p q = []) →
    ∀ p < size, ∀ q < size, ∀ i < n, ∀ j < n,
      between (p * n + i) (q * n + j) ((s.processes q).cores j).bufferedInbox.pushed =
        between (p * n + i) (q * n + j) ((s.processes p).cores i).produced

/-- What mini-rank `i` has produced was sent, waits, or is still to be pushed. -/
theorem Inv.produced_eq (h : s.Inv bins n size) (p i : Nat) :
    ((s.processes p).cores i).produced = (s.processes p).sentOf i ++
      ((s.processes p).cores i).bufferedOutbox.waiting ++ ((s.processes p).cores i).unsent := by
  have hcore := (h.processes p).cores i
  rw [hcore.produced, ← hcore.outbox.popped_append_waiting, RankProcess.sentOf,
    (h.processes p).sent i]

/-- What process `q` has received for mini-rank `j` was taken, waits, or is in its hand. -/
theorem Inv.receivedFor_eq (h : s.Inv bins n size) (q j : Nat) :
    (s.processes q).receivedFor n j = ((s.processes q).cores j).bufferedInbox.popped ++
      ((s.processes q).cores j).bufferedInbox.waiting ++ (s.processes q).inHand n j := by
  rw [((h.processes q).cores j).inbox.popped_append_waiting]
  exact (h.processes q).received j

theorem Inv.inOrder (h : s.Inv bins n size) {p q i j : Nat} (hi : i < n) (hj : j < n) :
    between (p * n + i) (q * n + j) ((s.processes p).cores i).produced =
      between (p * n + i) (q * n + j) ((s.processes q).receivedFor n j) ++
      between (p * n + i) (q * n + j) (s.inFlight n p q) ++
      between (p * n + i) (q * n + j) ((s.processes p).cores i).bufferedOutbox.waiting ++
      between (p * n + i) (q * n + j) ((s.processes p).cores i).unsent := by
  have hsplit : between (p * n + i) (q * n + j) (s.sentTo n p q) =
      between (p * n + i) (q * n + j) ((s.sentTo n p q).take (s.taken p q)) ++
      between (p * n + i) (q * n + j) (s.inFlight n p q) := by
    rw [← between_append, inFlight, List.take_append_drop]
  rw [h.produced_eq, between_append, between_append, ← h.between_sentTo hj, hsplit,
    h.between_received hi hj]

theorem Inv.accounts (h : s.Inv bins n size) : s.Accounts n size := by
  refine ⟨fun p q i j hi hj => ?_, fun q j hj m hm => ?_,
    fun hended hempty p hp q hq i hi j hj => ?_⟩
  · rw [h.inOrder hi hj, h.receivedFor_eq, between_append, between_append]
  · have hreceived : m ∈ (s.processes q).receivedFor n j := by
      rw [h.receivedFor_eq]
      exact List.mem_append_left _ (List.mem_append_left _ hm)
    obtain ⟨hreceived, hindex⟩ := List.mem_filter.mp hreceived
    obtain ⟨p, hsent⟩ := h.arrived q m hreceived
    obtain ⟨i, haddressed, hp, hi, hq⟩ := h.mem_sentTo hsent
    obtain ⟨⟨k, m⟩, hmem, rfl⟩ := List.mem_map.mp (List.mem_filter.mp hsent).1
    have hproduced := h.mem_sent hmem
    obtain ⟨haddressed', -, hk⟩ := h.addressed p k m hproduced
    refine ⟨p, k, hp, hk, hproduced, haddressed'.source.2, ?_⟩
    have hmod : m.destination.toNatClampNeg % n = j := by
      rw [← haddressed.miniRankDestination]
      exact of_decide_eq_true hindex
    show m.destination.toNatClampNeg = q * n + j
    rw [← hmod, ← hq, Nat.mul_comm, Nat.div_add_mod]
  · have hrelays := (h.processes p).relays.ended (hended p hp) i hi
    have hhand : (s.processes q).inHand n j = [] := by
      rw [RankProcess.inHand, hended q hq]
    have hreceived := h.receivedFor_eq q j
    rw [((h.processes q).cores j).inbox.popped_append_waiting, hhand, List.append_nil] at hreceived
    have hproduced := h.produced_eq p i
    rw [hrelays.2, List.append_assoc] at hproduced
    have hrest := List.append_eq_nil_iff.mp (List.self_eq_append_right.mp hproduced)
    rw [h.inOrder hi hj, hempty, hrest.1, hrest.2, hreceived]
    simp [between]

end MiniRankNetwork

end RayPlatform
