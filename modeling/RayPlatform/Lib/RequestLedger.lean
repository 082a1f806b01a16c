import Mathlib.Data.List.Basic
import Mathlib.Data.List.Nodup
import Mathlib.Data.List.Perm.Basic
import RayPlatform.Lib.TransitionSystem

/-!
# Requests in batches

Clients push requests in groups, a group is flushed as one batch, and the replies of
a batch answer its requests by position. The ledger of such a service records what
became of every request.

* `Step` — what may happen, one batch in flight at a time;
* `Sound` — every request is waiting, in flight or answered, and answered once;
* `ledgerSystem_inductive` — every run is sound.
-/

namespace RayPlatform.Lib

variable {ω κ α β : Type}

/-- The `ticket` of a request is its number in the order of the pushes. -/
structure Request (ω κ α : Type) where
  ticket : Nat
  client : ω
  group : κ
  body : α
  deriving DecidableEq, Repr

structure Batch (ω κ α : Type) where
  group : κ
  requests : List (Request ω κ α)
  deriving DecidableEq, Repr

structure Ledger (ω κ α β : Type) where
  /-- all requests -/
  pushed : List (Request ω κ α)
  /-- those that are in no batch yet -/
  waiting : List (Request ω κ α)
  /-- all batches -/
  batches : List (Batch ω κ α)
  /-- the one without replies -/
  inFlight : Option (Batch ω κ α)
  /-- all answers, in the order they came -/
  answers : List (Request ω κ α × β)
  /-- those that are not collected yet -/
  ready : List (Request ω κ α × β)
  /-- the others, in the order they were collected -/
  collected : List (Request ω κ α × β)

inductive LedgerStep (ω κ α β : Type)
  | push (client : ω) (group : κ) (body : α)
  | flush (group : κ)
  | answer (replies : List β)
  | collect (client : ω)

namespace Ledger

def empty : Ledger ω κ α β :=
  { pushed := [], waiting := [], batches := [], inFlight := none, answers := [], ready := [],
    collected := [] }

/-- The requests in flight. -/
def flying (l : Ledger ω κ α β) : List (Request ω κ α) :=
  (l.inFlight.map Batch.requests).getD []

/-- The requests that are not collected. -/
def outstanding (l : Ledger ω κ α β) : List (Request ω κ α) :=
  l.waiting ++ l.flying ++ l.ready.map Prod.fst

def push (l : Ledger ω κ α β) (client : ω) (group : κ) (body : α) : Ledger ω κ α β :=
  let request : Request ω κ α :=
    { ticket := l.pushed.length, client := client, group := group, body := body }
  { l with pushed := l.pushed ++ [request], waiting := l.waiting ++ [request] }

/-- The replies answer the requests in flight by position. -/
def answer (l : Ledger ω κ α β) (replies : List β) : Ledger ω κ α β :=
  { l with
    inFlight := none
    answers := l.answers ++ l.flying.zip replies
    ready := l.ready ++ l.flying.zip replies }

variable [DecidableEq ω] [DecidableEq κ]

def waitingFor (l : Ledger ω κ α β) (group : κ) : List (Request ω κ α) :=
  l.waiting.filter fun r => r.group = group

/-- All requests of a group leave in one batch. -/
def flush (l : Ledger ω κ α β) (group : κ) : Ledger ω κ α β :=
  let batch : Batch ω κ α := { group := group, requests := l.waitingFor group }
  { l with
    waiting := l.waiting.filter fun r => r.group ≠ group
    batches := l.batches ++ [batch]
    inFlight := some batch }

/-- A client takes its answer. -/
def collect (l : Ledger ω κ α β) (client : ω) : Ledger ω κ α β :=
  { l with
    ready := l.ready.filter fun a => a.1.client ≠ client
    collected := l.collected ++ l.ready.filter fun a => a.1.client = client }

/-- What may happen to a ledger. -/
inductive Step : Ledger ω κ α β → LedgerStep ω κ α β → Ledger ω κ α β → Prop
  | push {l : Ledger ω κ α β} {client : ω} {group : κ} {body : α} :
      client ∉ l.outstanding.map Request.client →
        Step l (.push client group body) (l.push client group body)
  | flush {l : Ledger ω κ α β} {group : κ} :
      l.inFlight = none → Step l (.flush group) (l.flush group)
  | answer {l : Ledger ω κ α β} {batch : Batch ω κ α} {replies : List β} :
      l.inFlight = some batch → replies.length = batch.requests.length →
        Step l (.answer replies) (l.answer replies)
  | collect {l : Ledger ω κ α β} {client : ω} :
      client ∈ l.ready.map (Request.client ∘ Prod.fst) → Step l (.collect client) (l.collect client)

/-- What holds of a ledger at all times. -/
structure Sound (l : Ledger ω κ α β) : Prop where
  /-- a request is waiting, in flight or answered -/
  conserved : l.pushed.Perm (l.waiting ++ l.flying ++ l.answers.map Prod.fst)
  tickets : l.pushed.map Request.ticket = List.range l.pushed.length
  handed : l.answers.Perm (l.ready ++ l.collected)
  /-- the batches are answered in order -/
  flushed : l.batches.flatMap Batch.requests = l.answers.map Prod.fst ++ l.flying
  waiting_sublist : l.waiting.Sublist l.pushed
  /-- a batch has requests of its group, in the order they were pushed -/
  ordered : ∀ b ∈ l.batches,
    b.requests.Sublist l.pushed ∧ ∀ r ∈ b.requests, r.group = b.group
  inFlight_mem : ∀ b, l.inFlight = some b → b ∈ l.batches
  clients : (l.outstanding.map Request.client).Nodup

end Ledger

open Ledger

def ledgerSystem (ω κ α β : Type) [DecidableEq ω] [DecidableEq κ] :
    TransitionSystem (Ledger ω κ α β) (LedgerStep ω κ α β) :=
  { init := fun l => l = .empty
    step := Step }

variable [DecidableEq ω] [DecidableEq κ] {l : Ledger ω κ α β}

namespace Ledger

omit [DecidableEq ω] [DecidableEq κ] in
theorem empty_sound : (Ledger.empty : Ledger ω κ α β).Sound :=
  ⟨.refl _, rfl, .refl _, rfl, .refl _, fun _ hb => absurd hb List.not_mem_nil,
    (fun _ hb => by cases hb), .nil⟩

omit [DecidableEq ω] [DecidableEq κ] in
theorem Sound.push (h : l.Sound) {client : ω} {group : κ} {body : α}
    (hclient : client ∉ l.outstanding.map Request.client) : (l.push client group body).Sound := by
  let r : Request ω κ α :=
    { ticket := l.pushed.length, client := client, group := group, body := body }
  refine ⟨?_, ?_, h.handed, h.flushed, h.waiting_sublist.append (.refl [r]), fun b hb => ?_,
    h.inFlight_mem, ?_⟩
  · show (l.pushed ++ [r]).Perm (l.waiting ++ [r] ++ l.flying ++ l.answers.map Prod.fst)
    refine (h.conserved.append_right [r]).trans ?_
    rw [List.append_assoc, List.append_assoc, List.append_assoc, List.append_assoc]
    refine List.Perm.append_left _ ?_
    rw [← List.append_assoc]
    exact List.perm_append_comm
  · show (l.pushed ++ [r]).map Request.ticket = List.range (l.pushed ++ [r]).length
    rw [List.map_append, h.tickets, List.length_append, List.length_singleton, List.range_succ]
    rfl
  · obtain ⟨hsublist, hgroup⟩ := h.ordered b hb
    exact ⟨hsublist.trans (List.sublist_append_left _ _), hgroup⟩
  · have hperm : (l.push client group body).outstanding.Perm (r :: l.outstanding) := by
      show (l.waiting ++ [r] ++ l.flying ++ l.ready.map Prod.fst).Perm _
      rw [List.append_assoc, List.append_assoc]
      refine List.perm_middle.trans ?_
      rw [outstanding, List.append_assoc]
      exact .refl _
    refine (hperm.map Request.client).nodup_iff.mpr ?_
    exact List.nodup_cons.mpr ⟨hclient, h.clients⟩

omit [DecidableEq ω] in
/-- The requests of a group, and the others. -/
theorem waitingFor_append_perm (l : Ledger ω κ α β) (group : κ) :
    l.waiting.Perm ((l.flush group).waiting ++ l.waitingFor group) := by
  refine (List.filter_append_perm (fun r => decide (r.group = group)) l.waiting).symm.trans ?_
  refine List.perm_append_comm.trans (.of_eq ?_)
  simp [flush, waitingFor]

omit [DecidableEq ω] in
theorem Sound.flush (h : l.Sound) {group : κ} (hnone : l.inFlight = none) :
    (l.flush group).Sound := by
  have hflying : l.flying = [] := by simp [flying, hnone]
  have hperm := l.waitingFor_append_perm group
  have hall : (l.waiting ++ l.flying).Perm ((l.flush group).waiting ++ (l.flush group).flying) := by
    rw [hflying, List.append_nil]
    exact hperm
  refine ⟨h.conserved.trans (hall.append_right _), h.tickets, h.handed, ?_,
    List.filter_sublist.trans h.waiting_sublist, fun b hb => ?_, fun b hb => ?_, ?_⟩
  · show (l.batches ++ [_]).flatMap Batch.requests = _
    rw [List.flatMap_append, h.flushed, hflying, List.append_nil]
    simp [Ledger.flush, flying]
  · rcases List.mem_append.mp hb with hold | hnew
    · exact h.ordered b hold
    · rw [List.mem_singleton] at hnew
      rw [hnew]
      exact ⟨List.filter_sublist.trans h.waiting_sublist, fun r hr => by
        simpa using (List.mem_filter.mp hr).2⟩
  · cases hb
    exact List.mem_append_right _ List.mem_cons_self
  · exact ((hall.append_right (l.ready.map Prod.fst)).map Request.client).nodup_iff.mp h.clients

omit [DecidableEq ω] [DecidableEq κ] in
theorem Sound.answer (h : l.Sound) {batch : Batch ω κ α} {replies : List β}
    (hbatch : l.inFlight = some batch) (hlength : replies.length = batch.requests.length) :
    (l.answer replies).Sound := by
  have hflying : l.flying = batch.requests := by simp [flying, hbatch]
  have hfst : (l.flying.zip replies).map Prod.fst = l.flying :=
    List.map_fst_zip (by rw [hflying]; omega)
  refine ⟨?_, h.tickets, ?_, ?_, h.waiting_sublist, h.ordered, (fun b hb => by cases hb), ?_⟩
  · show l.pushed.Perm (l.waiting ++ [] ++ (l.answers ++ l.flying.zip replies).map Prod.fst)
    refine h.conserved.trans ?_
    rw [List.append_nil, List.append_assoc, List.map_append, hfst]
    exact List.Perm.append_left _ List.perm_append_comm
  · show (l.answers ++ l.flying.zip replies).Perm (l.ready ++ l.flying.zip replies ++ l.collected)
    refine (h.handed.append_right _).trans ?_
    rw [List.append_assoc, List.append_assoc]
    exact List.Perm.append_left _ List.perm_append_comm
  · show l.batches.flatMap Batch.requests = (l.answers ++ l.flying.zip replies).map Prod.fst ++ []
    rw [h.flushed, List.map_append, hfst, List.append_nil]
  · have hperm : (l.answer replies).outstanding.Perm l.outstanding := by
      show (l.waiting ++ [] ++ (l.ready ++ l.flying.zip replies).map Prod.fst).Perm _
      rw [List.append_nil, List.map_append, hfst, outstanding, List.append_assoc]
      exact List.Perm.append_left _ List.perm_append_comm
    exact (hperm.map Request.client).nodup_iff.mpr h.clients

omit [DecidableEq κ] in
theorem Sound.collect (h : l.Sound) (client : ω) : (l.collect client).Sound := by
  have hperm : l.ready.Perm
      (l.ready.filter (fun a => a.1.client ≠ client) ++
        l.ready.filter fun a => a.1.client = client) := by
    refine (List.filter_append_perm (fun a => decide (a.1.client = client)) l.ready).symm.trans ?_
    refine List.perm_append_comm.trans (.of_eq ?_)
    simp
  refine ⟨h.conserved, h.tickets, h.handed.trans ?_, h.flushed, h.waiting_sublist, h.ordered,
    h.inFlight_mem, ?_⟩
  · show (l.ready ++ l.collected).Perm (_ ++ (l.collected ++ _))
    refine (hperm.append_right _).trans ?_
    rw [List.append_assoc]
    exact List.Perm.append_left _ List.perm_append_comm
  · exact (((List.filter_sublist.map Prod.fst).append_left (l.waiting ++ l.flying)).map
      Request.client).nodup h.clients

omit [DecidableEq ω] [DecidableEq κ] in
/-- No request is answered twice. -/
theorem Sound.answers_nodup (h : l.Sound) : (l.answers.map fun a => a.1.ticket).Nodup := by
  have htickets : (l.pushed.map Request.ticket).Nodup := by
    rw [h.tickets]
    exact List.nodup_range
  have hall := (h.conserved.map Request.ticket).nodup_iff.mp htickets
  rw [List.map_append, List.map_map] at hall
  exact (List.nodup_append.mp hall).2.1

theorem Sound.step (h : l.Sound) {step : LedgerStep ω κ α β} {l' : Ledger ω κ α β}
    (hstep : Step l step l') : l'.Sound := by
  cases hstep with
  | push hclient => exact h.push hclient
  | flush hnone => exact h.flush hnone
  | answer hbatch hlength => exact h.answer hbatch hlength
  | collect _ => exact h.collect _

end Ledger

theorem ledgerSystem_inductive : (ledgerSystem ω κ α β).Inductive Sound :=
  ⟨fun _ hinit => by rw [show _ = Ledger.empty from hinit]; exact empty_sound,
    fun _ _ _ h hstep => h.step hstep⟩

end RayPlatform.Lib
