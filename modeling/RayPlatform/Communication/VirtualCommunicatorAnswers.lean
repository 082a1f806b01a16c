import RayPlatform.Lib.RequestLedger
import RayPlatform.Communication.VirtualCommunicatorGroups

/-!
# Answers of the VirtualCommunicator

Workers push queries and collect their responses while replies arrive. Beside the
VirtualCommunicator goes a ledger of the queries, which says what the service is
for: `Refines` connects the maps of the one with the requests of the other, one
lemma for each operation.

The identifiers of the groups hold destinations below `MAX_NUMBER_OF_MPI_PROCESSES`
only. Beyond, a flush may take another group than the one that was listed
(`session_flushes_nothing`).
-/

namespace RayPlatform

open Lib (Map Ledger Request Batch TransitionSystem)
open Lib.TransitionSystem (runAll)
open VirtualCommunicator

abbrev Query := Request WorkerHandle Group (List MessageUnit)

abbrev QueryLedger := Ledger WorkerHandle Group (List MessageUnit) (List MessageUnit)

/-- A VirtualCommunicator with its workers. -/
structure Session where
  vc : VirtualCommunicator
  /-- the workers that `processInbox` has reactivated -/
  activeWorkers : List WorkerHandle
  /-- what the workers got from `getMessageResponseElements` -/
  responses : List (WorkerHandle × List MessageUnit)
  ledger : QueryLedger

inductive SessionStep
  | push (workerId : WorkerHandle) (group : Group) (content : List MessageUnit)
  | forceFlush
  /-- the reply of the message in flight, one block for each query -/
  | reply (replyTag : MessageTag) (blocks : List (List MessageUnit))
  /-- a message without reply tag -/
  | receive (message : UnitMessage)
  | collect (workerId : WorkerHandle)

namespace Session

def start (rank activeDestination : Rank) (activeTag : MessageTag) : Session :=
  { vc := constructor rank activeDestination activeTag
    activeWorkers := []
    responses := []
    ledger := .empty }

/-- Messages that the VirtualCommunicator has sent since are batches in the ledger. -/
def record (ledger : QueryLedger) (before after : VirtualCommunicator) : QueryLedger :=
  (after.outbox.drop before.outbox.length).foldl
    (fun ledger message => ledger.flush { tag := message.tag, destination := message.destination })
    ledger

/-- A worker may push: the communicator is ready, the worker has nothing outstanding,
and the query fits. -/
structure MayPush (registry : TagRegistry) (size : Int32) (s : Session) (workerId : WorkerHandle)
    (group : Group) (content : List MessageUnit) : Prop where
  isReady : s.vc.isReady = true
  nothingOutstanding : workerId ∉ s.ledger.outstanding.map Request.client
  nonempty : content ≠ []
  fits : content.length ≤ registry.elementSizes group.tag
  destination : 0 ≤ group.destination ∧ group.destination < size

/-- The reply of a batch: it has the tag of a reply, and a block for each query. -/
structure IsReply (registry : TagRegistry) (batch : Batch WorkerHandle Group (List MessageUnit))
    (replyTag : MessageTag) (blocks : List (List MessageUnit)) : Prop where
  tag : registry.replyTagToQueryTag replyTag = some batch.group.tag
  length : blocks.length = batch.requests.length
  blocks : ∀ block ∈ blocks, block.length = registry.elementSizes batch.group.tag

instance (registry : TagRegistry) (size : Int32) (s : Session) (workerId : WorkerHandle)
    (group : Group) (content : List MessageUnit) :
    Decidable (s.MayPush registry size workerId group content) :=
  decidable_of_iff (s.vc.isReady = true ∧ workerId ∉ s.ledger.outstanding.map Request.client ∧
      content ≠ [] ∧ content.length ≤ registry.elementSizes group.tag ∧
      0 ≤ group.destination ∧ group.destination < size)
    ⟨fun ⟨hready, hnothing, hne, hfits, hdest⟩ => ⟨hready, hnothing, hne, hfits, hdest⟩,
      fun ⟨hready, hnothing, hne, hfits, hdest⟩ => ⟨hready, hnothing, hne, hfits, hdest⟩⟩

instance (registry : TagRegistry) (batch : Batch WorkerHandle Group (List MessageUnit))
    (replyTag : MessageTag) (blocks : List (List MessageUnit)) :
    Decidable (IsReply registry batch replyTag blocks) :=
  decidable_of_iff (registry.replyTagToQueryTag replyTag = some batch.group.tag ∧
      blocks.length = batch.requests.length ∧
      ∀ block ∈ blocks, block.length = registry.elementSizes batch.group.tag)
    ⟨fun ⟨htag, hlength, hblocks⟩ => ⟨htag, hlength, hblocks⟩,
      fun ⟨htag, hlength, hblocks⟩ => ⟨htag, hlength, hblocks⟩⟩

def exec (registry : TagRegistry) (size : Int32) (s : Session) : SessionStep → Option Session
  | .push workerId group content =>
      if s.MayPush registry size workerId group content then
        let message : UnitMessage :=
          { content := content, destination := group.destination, tag := group.tag,
            source := s.vc.rank }
        let vc := s.vc.pushMessage registry workerId message
        some { s with vc := vc, ledger := record (s.ledger.push workerId group content) s.vc vc }
      else none
  | .forceFlush =>
      if s.vc.isReady then do
        let vc ← s.vc.forceFlush
        return { s with vc := vc, ledger := record s.ledger s.vc vc }
      else none
  | .reply replyTag blocks => do
      let batch ← s.ledger.inFlight
      if IsReply registry batch replyTag blocks then
        let message : UnitMessage :=
          { content := blocks.flatten, destination := s.vc.rank, tag := replyTag,
            source := batch.group.destination }
        let (vc, activeWorkers) ← s.vc.processInbox registry [message] s.activeWorkers
        return { s with vc, activeWorkers, ledger := s.ledger.answer blocks }
      else none
  | .receive message =>
      if registry.replyTagToQueryTag message.tag = none then do
        let (vc, activeWorkers) ← s.vc.processInbox registry [message] s.activeWorkers
        return { s with vc, activeWorkers }
      else none
  | .collect workerId =>
      if s.vc.isMessageProcessed workerId then
        let (vc, out) := s.vc.getMessageResponseElements workerId []
        some
          { s with
            vc := vc
            responses := s.responses ++ [(workerId, out)]
            ledger := s.ledger.collect workerId }
      else none

end Session

def sessionSystem (registry : TagRegistry) (size : Int32) (start : Session) :
    TransitionSystem Session SessionStep :=
  .ofExec start (Session.exec registry size)

/-! ## The ledger, step by step -/

section Ledger

variable {l : QueryLedger} {g g' : Group}

theorem waitingFor_push (workerId : WorkerHandle) (content : List MessageUnit) :
    (l.push workerId g content).waitingFor g' = l.waitingFor g' ++
      if g = g' then
        [{ ticket := l.pushed.length, client := workerId, group := g, body := content }] else [] := by
  unfold Ledger.waitingFor Ledger.push
  rw [List.filter_append]
  split
  · rename_i heq
    simp [heq]
  · rename_i hne
    simp [hne]

theorem waitingFor_flush :
    (l.flush g).waitingFor g' = if g' = g then [] else l.waitingFor g' := by
  unfold Ledger.waitingFor Ledger.flush
  rw [List.filter_filter]
  split
  · rename_i heq
    simp [heq]
  · rename_i hne
    refine List.filter_congr fun r _ => ?_
    by_cases hr : r.group = g'
    · simp [hr, hne]
    · simp [hr]

theorem flying_flush : (l.flush g).flying = l.waitingFor g := rfl

end Ledger

/-! ## Refinement -/

/-- A query that was pushed. -/
structure ValidQuery (registry : TagRegistry) (r : Query) : Prop where
  addressable : r.group.Addressable
  nonempty : r.body ≠ []
  fits : r.body.length ≤ registry.elementSizes r.group.tag

theorem ValidQuery.elementSizes_pos {registry : TagRegistry} {r : Query} (h : ValidQuery registry r) :
    0 < registry.elementSizes r.group.tag :=
  Nat.lt_of_lt_of_le (List.length_pos_iff.mpr h.nonempty) h.fits

/-- A message and the batch it carries. -/
def messageOf (batch : Batch WorkerHandle Group (List MessageUnit)) : Group × List MessageUnit :=
  (batch.group, batch.requests.flatMap Request.body)

/-- The maps of a VirtualCommunicator hold the requests of a ledger. -/
structure Refines (registry : TagRegistry) (vc : VirtualCommunicator) (l : QueryLedger) :
    Prop where
  content : ∀ g, vc.contentOf g =
    if l.waitingFor g = [] then none else some ((l.waitingFor g).flatMap Request.body)
  workers : ∀ g, vc.workersOf g =
    ((l.flying.filter fun r => r.group = g) ++ l.waitingFor g).map Request.client
  indexed : vc.Indexed
  pending : vc.pendingMessages = if l.inFlight.isSome then 1 else 0
  active : ∀ b, l.inFlight = some b →
    vc.activeTag = b.group.tag ∧ vc.activeDestination = b.group.destination
  /-- no query joins a group whose message is in flight -/
  alone : ∀ b, l.inFlight = some b → b.requests ≠ [] ∧ l.waitingFor b.group = []
  responses : ∀ w, vc.elementsForWorkers.lookup w =
    (l.ready.find? fun a => a.1.client = w).map Prod.snd
  valid : ∀ r ∈ l.waiting ++ l.flying, ValidQuery registry r
  sent : vc.outbox.map (fun m => ((⟨m.tag, m.destination⟩ : Group), m.content)) =
    l.batches.map messageOf
  sizes : ∀ m ∈ vc.outbox, 1 ≤ m.content.length ∧ m.content.length ≤ 500

/-- No group is as large as a message. -/
def RoomyGroups (registry : TagRegistry) (l : QueryLedger) : Prop :=
  ∀ g, l.waitingFor g ≠ [] →
    (l.waitingFor g).length < queryThreshold (registry.elementSizes g.tag)

/-! ## One lemma per operation -/

variable {registry : TagRegistry} {vc : VirtualCommunicator} {l : QueryLedger} {g : Group}

theorem length_flatMap_le {requests : List Query} {period : Nat}
    (h : ∀ r ∈ requests, r.body.length ≤ period) :
    (requests.flatMap Request.body).length ≤ requests.length * period := by
  induction requests with
  | nil => simp
  | cons r requests ih =>
      have hfirst := h r List.mem_cons_self
      have hrest := ih fun r hr => h r (List.mem_cons_of_mem _ hr)
      rw [List.flatMap_cons, List.length_append, List.length_cons, Nat.succ_mul]
      omega

theorem mem_waitingFor {r : Query} (hr : r ∈ l.waitingFor g) : r ∈ l.waiting ∧ r.group = g := by
  simpa [Ledger.waitingFor] using hr

/-- The content of a group that may be flushed fits in a message. -/
theorem Refines.size (h : Refines registry vc l) (hg : l.waitingFor g ≠ [])
    (hroom : (l.waitingFor g).length ≤ queryThreshold (registry.elementSizes g.tag)) :
    1 ≤ ((l.waitingFor g).flatMap Request.body).length ∧
      ((l.waitingFor g).flatMap Request.body).length ≤ 500 := by
  have hvalid : ∀ r ∈ l.waitingFor g, ValidQuery registry r ∧ r.group = g := by
    intro r hr
    obtain ⟨hmem, hgroup⟩ := mem_waitingFor hr
    exact ⟨h.valid r (List.mem_append_left _ hmem), hgroup⟩
  constructor
  · obtain ⟨r, hr⟩ := List.exists_mem_of_ne_nil _ hg
    rw [Nat.one_le_iff_ne_zero, Ne, List.length_eq_zero_iff, List.flatMap_eq_nil_iff]
    intro hempty
    exact (hvalid r hr).1.nonempty (hempty r hr)
  · have hle := length_flatMap_le fun r hr => by
      have hfits := (hvalid r hr).1.fits
      rw [(hvalid r hr).2] at hfits
      exact hfits
    have hthreshold := Nat.mul_le_mul_right (registry.elementSizes g.tag) hroom
    have hdiv := Nat.div_mul_le_self 500 (registry.elementSizes g.tag)
    exact hle.trans (hthreshold.trans hdiv)

/-- A flush sends the waiting requests of a group. -/
theorem Refines.flush (h : Refines registry vc l) (hnone : l.inFlight = none)
    (hg : l.waitingFor g ≠ [])
    (hroom : (l.waitingFor g).length ≤ queryThreshold (registry.elementSizes g.tag)) :
    Refines registry (vc.flushMessage g.tag g.destination) (l.flush g) := by
  have hflying : l.flying = [] := by simp [Ledger.flying, hnone]
  have hcontent : vc.contentOf g = some ((l.waitingFor g).flatMap Request.body) := by
    rw [h.content, if_neg hg]
  have hget : (vc.messageContent.get g.tag).get g.destination =
      (l.waitingFor g).flatMap Request.body := by
    show (vc.contentOf g).getD default = _
    rw [hcontent]
    rfl
  refine ⟨fun g' => ?_, fun g' => ?_, h.indexed.flushMessage hcontent, ?_, fun b hb => ?_,
    fun b hb => ?_, h.responses, fun r hr => ?_, ?_, fun m hm => ?_⟩
  · rw [contentOf_flushMessage, waitingFor_flush]
    by_cases heq : g' = g
    · simp [heq]
    · simp [heq, h.content g']
  · show vc.workersOf g' = _
    rw [h.workers, flying_flush, waitingFor_flush, hflying]
    by_cases heq : g' = g
    · have hall : (l.waitingFor g).filter (fun r => r.group = g) = l.waitingFor g :=
        List.filter_eq_self.mpr fun r hr => by simpa using (mem_waitingFor hr).2
      simp [heq, hall]
    · have hno : (l.waitingFor g).filter (fun r => r.group = g') = [] :=
        List.filter_eq_nil_iff.mpr fun r hr => by
          rw [(mem_waitingFor hr).2]
          simpa using fun hgroup => heq hgroup.symm
      simp [heq, hno]
  · show vc.pendingMessages + 1 = 1
    rw [h.pending, hnone]
    rfl
  · cases hb
    exact ⟨rfl, rfl⟩
  · cases hb
    exact ⟨hg, by rw [waitingFor_flush, if_pos rfl]⟩
  · refine h.valid r (List.mem_append_left _ ?_)
    rcases List.mem_append.mp hr with hwaiting | hflushed
    · exact (List.mem_filter.mp hwaiting).1
    · exact (mem_waitingFor hflushed).1
  · show (vc.outbox ++ [_]).map _ = (l.batches ++ [_]).map messageOf
    rw [List.map_append, List.map_append, h.sent, hget]
    rfl
  · rcases List.mem_append.mp hm with hold | hnew
    · exact h.sizes m hold
    · rw [List.mem_singleton] at hnew
      rw [hnew, hget]
      exact h.size hg hroom

/-- A query joins its group. -/
theorem Refines.group (h : Refines registry vc l) (hnone : l.inFlight = none)
    {workerId : WorkerHandle} {content : List MessageUnit}
    (hvalid : ValidQuery registry
      { ticket := l.pushed.length, client := workerId, group := g, body := content })
    {message : UnitMessage} (htag : message.tag = g.tag)
    (hdestination : message.destination = g.destination) (hcontent : message.content = content) :
    Refines registry (vc.groupMessage workerId message) (l.push workerId g content) := by
  have hne : message.content ≠ [] := by
    rw [hcontent]
    exact hvalid.nonempty
  refine ⟨fun g' => ?_, fun g' => ?_, h.indexed.groupMessage htag hdestination hne
    hvalid.addressable, h.pending, fun b hb => ?_, fun b hb => ?_, h.responses, fun r hr => ?_,
    h.sent, h.sizes⟩
  · rw [contentOf_groupMessage htag hdestination hne, waitingFor_push, hcontent]
    by_cases heq : g' = g
    · subst heq
      rw [h.content g']
      by_cases hempty : l.waitingFor g' = []
      · simp [hempty]
      · simp [hempty]
    · have hne' : ¬ g = g' := fun heq' => heq heq'.symm
      simp [heq, hne', h.content g']
  · rw [workersOf_groupMessage htag hdestination, waitingFor_push]
    show _ = ((l.flying.filter _) ++ _).map Request.client
    by_cases heq : g' = g
    · subst heq
      simp [h.workers g']
    · have hne' : ¬ g = g' := fun heq' => heq heq'.symm
      simp [heq, hne', h.workers g']
  · rw [show (l.push workerId g content).inFlight = l.inFlight from rfl, hnone] at hb
    cases hb
  · rw [show (l.push workerId g content).inFlight = l.inFlight from rfl, hnone] at hb
    cases hb
  · rcases List.mem_append.mp hr with hwaiting | hflying
    · rcases List.mem_append.mp hwaiting with hold | hnew
      · exact h.valid r (List.mem_append_left _ hold)
      · rw [List.mem_singleton] at hnew
        rw [hnew]
        exact hvalid
    · exact h.valid r (List.mem_append_right _ hflying)

theorem record_same {ledger : QueryLedger} {before after : VirtualCommunicator}
    (h : after.outbox = before.outbox) : Session.record ledger before after = ledger := by
  simp [Session.record, h]

theorem record_flush {ledger : QueryLedger} {before after : VirtualCommunicator}
    (h : after.outbox = before.outbox) :
    Session.record ledger before (after.flushMessage g.tag g.destination) = ledger.flush g := by
  unfold Session.record
  rw [show (after.flushMessage g.tag g.destination).outbox = after.outbox ++ [_] from rfl, h,
    List.drop_left]
  rfl

/-- A flush leaves the groups that are not full. -/
theorem roomy_flush
    (h : ∀ g', g' ≠ g → l.waitingFor g' ≠ [] →
      (l.waitingFor g').length < queryThreshold (registry.elementSizes g'.tag)) :
    RoomyGroups registry (l.flush g) := by
  intro g' hg'
  rw [waitingFor_flush] at hg' ⊢
  split at hg'
  · exact absurd rfl hg'
  · rename_i hne
    rw [if_neg hne]
    exact h g' hne hg'

/-- A push groups the query, and flushes its group once it is full. -/
theorem Refines.push (h : Refines registry vc l) (hroomy : RoomyGroups registry l)
    (hnone : l.inFlight = none) {workerId : WorkerHandle} {content : List MessageUnit}
    (hvalid : ValidQuery registry
      { ticket := l.pushed.length, client := workerId, group := g, body := content })
    (hperiod : registry.elementSizes g.tag ≤ 500) {message : UnitMessage}
    (htag : message.tag = g.tag) (hdestination : message.destination = g.destination)
    (hcontent : message.content = content) :
    ∃ l', Session.record (l.push workerId g content) vc (vc.pushMessage registry workerId message) =
        l' ∧
      Refines registry (vc.pushMessage registry workerId message) l' ∧ RoomyGroups registry l' ∧
      (l' = l.push workerId g content ∨ l' = (l.push workerId g content).flush g) := by
  have hgrouped := h.group hnone hvalid htag hdestination hcontent
  let pushed := l.push workerId g content
  let grouped := vc.groupMessage workerId message
  have hsize : ((grouped.workerCurrentIdentifiers.get g.tag).get g.destination).length =
      (pushed.waitingFor g).length := by
    show (grouped.workersOf g).length = _
    rw [hgrouped.workers g]
    simp [pushed, Ledger.flying, Ledger.push, hnone]
  have hlength : (pushed.waitingFor g).length = (l.waitingFor g).length + 1 := by
    simp [pushed, waitingFor_push]
  have hother : ∀ g', g' ≠ g → pushed.waitingFor g' = l.waitingFor g' := by
    intro g' hne
    have hne' : ¬ g = g' := fun heq => hne heq.symm
    simp [pushed, waitingFor_push, hne']
  have hpush : vc.pushMessage registry workerId message =
      if queryThreshold (registry.elementSizes g.tag) ≤ (pushed.waitingFor g).length then
        grouped.flushMessage g.tag g.destination
      else grouped := by
    unfold pushMessage
    rw [htag, hdestination]
    show (if ((grouped.workerCurrentIdentifiers.get g.tag).get g.destination).length ≥ _ then _
      else grouped) = _
    rw [hsize]
  by_cases hfull : queryThreshold (registry.elementSizes g.tag) ≤ (pushed.waitingFor g).length
  · -- the group was not full before
    have hthreshold : 1 ≤ queryThreshold (registry.elementSizes g.tag) := by
      exact (Nat.one_le_div_iff hvalid.elementSizes_pos).mpr hperiod
    have hroom : (pushed.waitingFor g).length ≤ queryThreshold (registry.elementSizes g.tag) := by
      rw [hlength]
      by_cases hempty : l.waitingFor g = []
      · rw [hempty]
        exact hthreshold
      · exact hroomy g hempty
    have hne : pushed.waitingFor g ≠ [] := by
      intro hempty
      rw [hempty] at hlength
      cases hlength
    rw [hpush, if_pos hfull]
    refine ⟨_, record_flush rfl, hgrouped.flush hnone hne hroom,
      roomy_flush fun g' hne' hg' => ?_, .inr rfl⟩
    rw [show (l.push workerId g content).waitingFor g' = l.waitingFor g' from
      hother g' hne'] at hg' ⊢
    exact hroomy g' hg'
  · rw [hpush, if_neg hfull]
    refine ⟨_, record_same rfl, hgrouped, fun g' hg' => ?_, .inl rfl⟩
    by_cases heq : g' = g
    · rw [heq]
      exact Nat.lt_of_not_le hfull
    · rw [hother g' heq] at hg' ⊢
      exact hroomy g' hg'

/-- The answers of the requests in flight, as blocks of the workers. -/
theorem zip_clients (requests : List Query) (blocks : List (List MessageUnit)) :
    (requests.map Request.client).zip blocks =
      (requests.zip blocks).map fun a => (a.1.client, a.2) := by
  rw [List.zip_map_left]
  rfl

/-- The clients in flight are different from each other and have no response. -/
theorem flying_clients (hsound : l.Sound) :
    (l.flying.map Request.client).Nodup ∧
      ∀ r ∈ l.flying, ∀ a ∈ l.ready, a.1.client ≠ r.client := by
  have hclients := hsound.clients
  rw [Ledger.outstanding, List.append_assoc, List.map_append, List.map_append] at hclients
  have hrest := (List.nodup_append.mp hclients).2.1
  rw [List.nodup_append] at hrest
  refine ⟨hrest.1, fun r hr a ha heq => ?_⟩
  exact hrest.2.2 _ (List.mem_map_of_mem hr) _
    (List.mem_map_of_mem (List.mem_map_of_mem ha)) heq.symm

/-- The requests in flight are those of one message, of one group. -/
theorem flying_filter (hsound : l.Sound) {batch : Batch WorkerHandle Group (List MessageUnit)}
    (hbatch : l.inFlight = some batch) (g' : Group) :
    (l.flying.filter fun r => r.group = g') = if g' = batch.group then l.flying else [] := by
  have hgroups : ∀ r ∈ l.flying, r.group = batch.group := by
    rw [Ledger.flying, hbatch]
    exact (hsound.ordered batch (hsound.inFlight_mem batch hbatch)).2
  split
  case isTrue heq => exact List.filter_eq_self.mpr fun r hr => by simpa [heq] using hgroups r hr
  case isFalse hne =>
    refine List.filter_eq_nil_iff.mpr fun r hr => ?_
    rw [hgroups r hr]
    simpa using fun heq => hne heq.symm

/-- A client is in one of two lists of answers at most. -/
theorem find?_or {as bs : List (Query × List MessageUnit)}
    (h : ∀ b ∈ bs, ∀ a ∈ as, a.1.client ≠ b.1.client) (w : WorkerHandle) :
    ((bs.find? fun a => a.1.client = w).map Prod.snd).or
        ((as.find? fun a => a.1.client = w).map Prod.snd) =
      ((as ++ bs).find? fun a => a.1.client = w).map Prod.snd := by
  rw [List.find?_append]
  cases hfind : as.find? fun a => a.1.client = w with
  | none => simp
  | some a =>
      have hclient : a.1.client = w := by simpa using List.find?_some hfind
      have hnone : bs.find? (fun b => b.1.client = w) = none := by
        refine List.find?_eq_none.mpr fun b hb => ?_
        rw [← hclient]
        simpa using fun heq => h b hb a (List.mem_of_find?_eq_some hfind) heq.symm
      simp [hnone]

/-- The reply of the message in flight gives each worker its block. -/
theorem Refines.reply (h : Refines registry vc l) (hsound : l.Sound)
    {batch : Batch WorkerHandle Group (List MessageUnit)} (hbatch : l.inFlight = some batch)
    {replyTag : MessageTag} {blocks : List (List MessageUnit)}
    (hreply : Session.IsReply registry batch replyTag blocks) (rank : Rank)
    (activeWorkers : List WorkerHandle) :
    ∃ vc', vc.processInbox registry
        [{ content := blocks.flatten, destination := rank, tag := replyTag,
           source := batch.group.destination }] activeWorkers =
          some (vc', activeWorkers ++ l.flying.map Request.client) ∧
      Refines registry vc' (l.answer blocks) := by
  have hflying : l.flying = batch.requests := by simp [Ledger.flying, hbatch]
  obtain ⟨hne, halone⟩ := h.alone batch hbatch
  obtain ⟨htag, hdestination⟩ := h.active batch hbatch
  obtain ⟨hnodup, hother⟩ := flying_clients hsound
  have hworkers : vc.workersOf batch.group = l.flying.map Request.client := by
    rw [h.workers, halone, flying_filter hsound hbatch, if_pos rfl, List.append_nil]
  have hperiod : 0 < registry.elementSizes batch.group.tag := by
    obtain ⟨r, hr⟩ := List.exists_mem_of_ne_nil _ hne
    rw [← (hsound.ordered batch (hsound.inFlight_mem batch hbatch)).2 r hr]
    exact (h.valid r (List.mem_append_right _ (hflying.symm ▸ hr))).elementSizes_pos
  -- the blocks of the workers, in the order of the queries
  let answers := (l.flying.map Request.client).zip blocks
  have hlength : (l.flying.map Request.client).length = blocks.length := by
    rw [List.length_map, hflying, hreply.length]
  have hfst : answers.map Prod.fst = l.flying.map Request.client :=
    List.map_fst_zip (Nat.le_of_eq hlength)
  have hsnd : answers.map Prod.snd = blocks := List.map_snd_zip (Nat.le_of_eq hlength.symm)
  obtain ⟨elements, hdemultiplex, hlookup⟩ := demultiplex_spec (i := 0) hperiod
    (fun b hb => hreply.blocks b.2 (hsnd ▸ List.mem_map_of_mem hb)) (hfst.symm ▸ hnodup)
    (show (blocks.flatten).drop (0 * _) = (answers.map Prod.snd).flatten by simp [hsnd])
    (fun b hb => by
      have hclient : b.1 ∈ l.flying.map Request.client := hfst ▸ List.mem_map_of_mem hb
      obtain ⟨r, hr, hrb⟩ := List.mem_map.mp hclient
      rw [h.responses, Option.map_eq_none_iff, List.find?_eq_none]
      intro a ha
      simpa [← hrb] using hother r hr a ha)
  let vc' : VirtualCommunicator :=
    { vc with
      pendingMessages := vc.pendingMessages - 1
      workerCurrentIdentifiers :=
        vc.workerCurrentIdentifiers.modifyInner vc.activeTag vc.activeDestination fun _ => []
      elementsForWorkers := elements }
  have hpending : vc.pendingMessages = 1 := by
    rw [h.pending, hbatch]
    rfl
  refine ⟨vc', ?_, ⟨h.content, fun g' => ?_, ⟨h.indexed.queue, h.indexed.noEmptySet,
    h.indexed.addressable⟩, ?_, (fun b hb => by cases hb), (fun b hb => by cases hb),
    fun w => ?_, fun r hr => ?_, h.sent, h.sizes⟩⟩
  · have hidentifiers : (vc.workerCurrentIdentifiers.get vc.activeTag).get vc.activeDestination =
        answers.map Prod.fst := by
      rw [hfst, ← hworkers, htag, hdestination]
      rfl
    simp only [processInbox, hpending, hreply.tag]
    rw [if_pos (by decide), if_pos ⟨htag, hdestination⟩, hidentifiers, hdemultiplex, hfst]
    simp [vc', hpending]
  · show ((vc.workerCurrentIdentifiers.modifyInner _ _ _).get g'.tag).get g'.destination =
      (l.waitingFor g').map Request.client
    rw [Lib.Map.get_modifyInner, htag, hdestination]
    have hold := h.workers g'
    rw [flying_filter hsound hbatch] at hold
    by_cases heq : g' = batch.group
    · simp [heq, halone]
    · rw [if_neg fun hboth => heq (group_eq_iff.mp hboth)]
      rw [if_neg heq, List.nil_append] at hold
      exact hold
  · show vc.pendingMessages - 1 = 0
    omega
  · show elements.lookup w = ((l.ready ++ l.flying.zip blocks).find? _).map Prod.snd
    have hfind : answers.find? (fun b => b.1 = w) =
        ((l.flying.zip blocks).find? fun a => a.1.client = w).map fun a => (a.1.client, a.2) := by
      show ((l.flying.map Request.client).zip blocks).find? _ = _
      rw [zip_clients, List.find?_map]
      rfl
    rw [hlookup, h.responses, hfind, Option.map_map, ← find?_or _ w]
    · rfl
    · intro b hb a ha
      exact hother b.1 (List.of_mem_zip hb).1 a ha
  · refine h.valid r (List.mem_append_left _ ?_)
    simpa [Ledger.answer, Ledger.flying] using hr

/-- A client has one answer at most. -/
theorem filter_client {as : List (Query × List MessageUnit)}
    (hnodup : (as.map fun a => a.1.client).Nodup) {a : Query × List MessageUnit} (ha : a ∈ as) :
    (as.filter fun b => b.1.client = a.1.client) = [a] := by
  induction as with
  | nil => cases ha
  | cons b as ih =>
      rw [List.map_cons, List.nodup_cons] at hnodup
      rcases List.mem_cons.mp ha with rfl | hmem
      · have hnone : (as.filter fun b => b.1.client = a.1.client) = [] :=
          List.filter_eq_nil_iff.mpr fun c hc => by
            simpa using fun heq => hnodup.1 (List.mem_map.mpr ⟨c, hc, heq⟩)
        simp [hnone]
      · have hne : ¬ b.1.client = a.1.client := fun heq =>
          hnodup.1 (List.mem_map.mpr ⟨a, hmem, heq.symm⟩)
        simp [hne, ih hnodup.2 hmem]

theorem ready_clients (hsound : l.Sound) : (l.ready.map fun a => a.1.client).Nodup := by
  have hclients := hsound.clients
  rw [Ledger.outstanding, List.map_append, List.map_map] at hclients
  exact (List.nodup_append.mp hclients).2.1

/-- A worker collects its answer. -/
theorem Refines.collect (h : Refines registry vc l) (hsound : l.Sound) {workerId : WorkerHandle}
    (hprocessed : vc.isMessageProcessed workerId = true) :
    ∃ a ∈ l.ready, a.1.client = workerId ∧
      (l.collect workerId).collected = l.collected ++ [a] ∧
      (vc.getMessageResponseElements workerId []).2 = a.2 ∧
      Refines registry (vc.getMessageResponseElements workerId []).1 (l.collect workerId) := by
  rw [isMessageProcessed, h.responses, Option.isSome_map, Option.isSome_iff_exists] at hprocessed
  obtain ⟨a, hfind⟩ := hprocessed
  have hmem := List.mem_of_find?_eq_some hfind
  have hclient : a.1.client = workerId := by simpa using List.find?_some hfind
  have hresponse : vc.elementsForWorkers.lookup workerId = some a.2 := by
    rw [h.responses, hfind]
    rfl
  refine ⟨a, hmem, hclient, ?_, ?_, ⟨h.content, h.workers, ⟨h.indexed.queue, h.indexed.noEmptySet,
    h.indexed.addressable⟩, h.pending, h.active, h.alone, fun w => ?_, h.valid, h.sent, h.sizes⟩⟩
  · show l.collected ++ l.ready.filter _ = _
    rw [← hclient, filter_client (ready_clients hsound) hmem]
  · show [] ++ vc.elementsForWorkers.get workerId = a.2
    rw [Lib.Map.get, hresponse]
    rfl
  · show (vc.elementsForWorkers.erase workerId).lookup w =
      ((l.ready.filter fun a => a.1.client ≠ workerId).find? fun a => a.1.client = w).map Prod.snd
    by_cases hw : w = workerId
    · have hnone : (l.ready.filter fun a => a.1.client ≠ workerId).find?
          (fun a => a.1.client = w) = none := by
        refine List.find?_eq_none.mpr fun a ha => ?_
        rw [hw]
        simpa using (List.mem_filter.mp ha).2
      rw [hnone, hw, Finmap.lookup_erase]
      rfl
    · rw [Finmap.lookup_erase_ne hw, h.responses, List.find?_filter]
      congr 2
      funext a
      by_cases ha : a.1.client = w
      · simp [ha, hw]
      · simp [ha]

/-! ## Sessions -/

/-- The tags have periods that fit in a message, and destinations can be addressed. -/
structure Addressing (registry : TagRegistry) (size : Int32) : Prop where
  tags : ∀ tag, 0 < registry.elementSizes tag → 0 ≤ tag
  periods : ∀ tag, registry.elementSizes tag ≤ 500
  size : size.toInt ≤ MAX_NUMBER_OF_MPI_PROCESSES

/-- What a session owes to its workers. -/
structure AnswersOwn (registry : TagRegistry) (s : Session) : Prop where
  /-- one real message is pending, or none -/
  pending : s.vc.pendingMessages = if s.ledger.inFlight.isSome then 1 else 0
  sizes : ∀ m ∈ s.vc.outbox, 1 ≤ m.content.length ∧ m.content.length ≤ 500
  /-- each message is the concatenation of the queries of its batch -/
  contents : s.vc.outbox.map (fun m => ((⟨m.tag, m.destination⟩ : Group), m.content)) =
    s.ledger.batches.map messageOf
  /-- each query is waiting, in flight or answered, and collected once -/
  ledger : s.ledger.Sound
  /-- no query is answered twice -/
  once : (s.ledger.answers.map fun a => a.1.ticket).Nodup
  /-- workers are reactivated once for each answer -/
  reactivated : s.activeWorkers = s.ledger.answers.map fun a => a.1.client
  /-- a worker gets the answer of its own query -/
  responses : s.responses = s.ledger.collected.map fun a => (a.1.client, a.2)
  periods : ∀ a ∈ s.ledger.answers, a.2.length = registry.elementSizes a.1.group.tag
  /-- and the answers that it has not collected are there -/
  processed : ∀ a ∈ s.ledger.ready, s.vc.isMessageProcessed a.1.client = true

/-- The invariant of the sessions. -/
structure Session.Invariant (registry : TagRegistry) (s : Session) : Prop where
  refines : Refines registry s.vc s.ledger
  roomy : RoomyGroups registry s.ledger
  reachable : (Lib.ledgerSystem WorkerHandle Group (List MessageUnit)
    (List MessageUnit)).Reachable s.ledger
  reactivated : s.activeWorkers = s.ledger.answers.map fun a => a.1.client
  responses : s.responses = s.ledger.collected.map fun a => (a.1.client, a.2)
  periods : ∀ a ∈ s.ledger.answers, a.2.length = registry.elementSizes a.1.group.tag

namespace Session

variable {size : Int32} {s s' : Session}

theorem Invariant.sound (h : s.Invariant registry) : s.ledger.Sound :=
  Lib.ledgerSystem_inductive.holds h.reachable

theorem Invariant.inFlight_none (h : s.Invariant registry) (hready : s.vc.isReady = true) :
    s.ledger.inFlight = none := by
  have hpending : s.vc.pendingMessages = 0 := of_decide_eq_true hready
  rw [h.refines.pending] at hpending
  cases hinFlight : s.ledger.inFlight with
  | none => rfl
  | some b =>
      rw [hinFlight] at hpending
      cases hpending

theorem start_invariant (registry : TagRegistry) (rank activeDestination : Rank)
    (activeTag : MessageTag) : (start rank activeDestination activeTag).Invariant registry := by
  have hindexed := constructor_indexed rank activeDestination activeTag
  refine ⟨⟨fun g => ?_, fun g => ?_, hindexed, rfl, (fun b hb => by cases hb),
    (fun b hb => by cases hb), fun w => rfl, (fun r hr => by cases hr), rfl,
    (fun m hm => by cases hm)⟩, fun g hg => absurd rfl hg, .init rfl, rfl, rfl,
    fun a ha => by cases ha⟩
  · simp [start, contentOf, constructor, default, Ledger.waitingFor, Ledger.empty]
  · simp [start, workersOf, constructor, default, Ledger.waitingFor, Ledger.empty, Ledger.flying]

theorem Invariant.push (h : s.Invariant registry) (haddressing : Addressing registry size)
    {workerId : WorkerHandle} {group : Group} {content : List MessageUnit}
    (hstep : s.exec registry size (.push workerId group content) = some s') :
    s'.Invariant registry := by
  simp only [exec] at hstep
  split at hstep
  · rename_i hmay
    cases hstep
    have hnone := h.inFlight_none hmay.isReady
    have hperiod : 0 < registry.elementSizes group.tag :=
      Nat.lt_of_lt_of_le (List.length_pos_iff.mpr hmay.nonempty) hmay.fits
    have haddressable : group.Addressable := by
      obtain ⟨hge, hlt⟩ := hmay.destination
      rw [Int32.lt_iff_toInt_lt] at hlt
      exact ⟨haddressing.tags _ hperiod, hge, Int.lt_of_lt_of_le hlt haddressing.size⟩
    have hpushed : (Lib.ledgerSystem WorkerHandle Group (List MessageUnit)
        (List MessageUnit)).Reachable (s.ledger.push workerId group content) :=
      .step h.reachable (.push hmay.nothingOutstanding)
    let message : UnitMessage :=
      { content := content
        destination := group.destination
        tag := group.tag
        source := s.vc.rank }
    obtain ⟨l', hrecord, hrefines, hroomy, hcases⟩ := h.refines.push h.roomy hnone
      ⟨haddressable, hmay.nonempty, hmay.fits⟩ (haddressing.periods _)
      (show message.tag = group.tag from rfl) rfl rfl
    rw [hrecord]
    rcases hcases with rfl | rfl
    · exact ⟨hrefines, hroomy, hpushed, h.reactivated, h.responses, h.periods⟩
    · exact ⟨hrefines, hroomy, .step hpushed (.flush hnone), h.reactivated, h.responses, h.periods⟩
  · cases hstep

/-- A forced flush succeeds, and sends a message if a query is waiting. -/
theorem Invariant.forceFlush (h : s.Invariant registry) (size : Int32)
    (hready : s.vc.isReady = true) :
    ∃ s', s.exec registry size .forceFlush = some s' ∧ s'.Invariant registry ∧
      (s.ledger.waiting ≠ [] → s'.ledger.inFlight.isSome = true) := by
  have hnone := h.inFlight_none hready
  rcases h.refines.indexed.forceFlush with ⟨hempty, hflush⟩ | ⟨g, content, hg, hflush, _⟩
  · refine ⟨s, ?_, h, fun hwaiting => ?_⟩
    · simp [exec, hready, hflush, record_same]
    · obtain ⟨r, hr⟩ := List.exists_mem_of_ne_nil _ hwaiting
      have hcontent := h.refines.content r.group
      have hmem : r ∈ s.ledger.waitingFor r.group := by simpa [Ledger.waitingFor] using hr
      rw [hempty, if_neg (List.ne_nil_of_mem hmem)] at hcontent
      cases hcontent
  · have hne : s.ledger.waitingFor g ≠ [] := by
      intro hnil
      rw [h.refines.content, if_pos hnil] at hg
      cases hg
    let next : Session :=
      { s with
        vc := s.vc.flushMessage g.tag g.destination
        ledger := s.ledger.flush g }
    refine ⟨next, ?_, ⟨h.refines.flush hnone hne (Nat.le_of_lt (h.roomy g hne)),
      roomy_flush fun g' _ hg' => h.roomy g' hg', .step h.reachable (.flush hnone), h.reactivated,
      h.responses, h.periods⟩, fun _ => rfl⟩
    simp [exec, hready, hflush, record_flush, next]

/-- The reply of the message in flight is always taken. -/
theorem Invariant.reply (h : s.Invariant registry) (size : Int32)
    {batch : Batch WorkerHandle Group (List MessageUnit)} (hbatch : s.ledger.inFlight = some batch)
    {replyTag : MessageTag} {blocks : List (List MessageUnit)}
    (hreply : IsReply registry batch replyTag blocks) :
    ∃ s', s.exec registry size (.reply replyTag blocks) = some s' ∧ s'.Invariant registry := by
  have hsound := h.sound
  have hflying : s.ledger.flying = batch.requests := by simp [Ledger.flying, hbatch]
  obtain ⟨vc, hprocess, hrefines⟩ :=
    h.refines.reply hsound hbatch hreply s.vc.rank s.activeWorkers
  let next : Session :=
    { s with
      vc := vc
      activeWorkers := s.activeWorkers ++ s.ledger.flying.map Request.client
      ledger := s.ledger.answer blocks }
  refine ⟨next, ?_, ⟨hrefines, h.roomy, .step h.reachable (.answer hbatch hreply.length), ?_,
    h.responses, fun a ha => ?_⟩⟩
  · simp [exec, hbatch, hreply, hprocess, next]
  · show s.activeWorkers ++ _ = (s.ledger.answers ++ s.ledger.flying.zip blocks).map _
    rw [List.map_append, ← h.reactivated]
    refine congrArg _ ?_
    have hfst : (s.ledger.flying.zip blocks).map Prod.fst = s.ledger.flying :=
      List.map_fst_zip (by rw [hflying, hreply.length])
    rw [← hfst, List.map_map]
    simp [hfst]
  · rcases List.mem_append.mp ha with hold | hnew
    · exact h.periods a hold
    · obtain ⟨hrequest, hblock⟩ := List.of_mem_zip hnew
      have hgroup := (hsound.ordered batch (hsound.inFlight_mem batch hbatch)).2 a.1
        (hflying ▸ hrequest)
      rw [hgroup]
      exact hreply.blocks a.2 hblock

/-- A message without reply tag changes nothing. -/
theorem exec_receive {message : UnitMessage}
    (hstep : s.exec registry size (.receive message) = some s') : s' = s := by
  simp only [exec] at hstep
  split at hstep
  · rename_i htag
    have hsame : s.vc.processInbox registry [message] s.activeWorkers =
        some (s.vc, s.activeWorkers) := by
      simp [processInbox, htag]
    rw [hsame] at hstep
    cases hstep
    rfl
  · cases hstep

theorem Invariant.collect (h : s.Invariant registry) (size : Int32) {workerId : WorkerHandle}
    (hprocessed : s.vc.isMessageProcessed workerId = true) :
    ∃ s', s.exec registry size (.collect workerId) = some s' ∧ s'.Invariant registry := by
  obtain ⟨a, ha, hclient, hcollected, hout, hrefines⟩ := h.refines.collect h.sound hprocessed
  let next : Session :=
    { s with
      vc := (s.vc.getMessageResponseElements workerId []).1
      responses := s.responses ++ [(workerId, (s.vc.getMessageResponseElements workerId []).2)]
      ledger := s.ledger.collect workerId }
  refine ⟨next, ?_, ⟨hrefines, h.roomy, .step h.reachable (.collect ?_), h.reactivated, ?_,
    h.periods⟩⟩
  · simp [exec, hprocessed, next]
  · exact List.mem_map.mpr ⟨a, ha, hclient⟩
  · show s.responses ++ _ = (s.ledger.collect workerId).collected.map _
    rw [hcollected, List.map_append, ← h.responses, hout, ← hclient]
    rfl

theorem Invariant.step (h : s.Invariant registry) (haddressing : Addressing registry size)
    {step : SessionStep} (hstep : s.exec registry size step = some s') :
    s'.Invariant registry := by
  cases step with
  | push workerId group content => exact h.push haddressing hstep
  | forceFlush =>
      have hready : s.vc.isReady = true := by
        by_contra hnot
        simp [exec, hnot] at hstep
      obtain ⟨next, hexec, hnext, _⟩ := h.forceFlush size hready
      rw [hstep] at hexec
      cases hexec
      exact hnext
  | reply replyTag blocks =>
      cases hbatch : s.ledger.inFlight with
      | none => simp [exec, hbatch] at hstep
      | some batch =>
          have hreply : IsReply registry batch replyTag blocks := by
            by_contra hnot
            simp [exec, hbatch, hnot] at hstep
          obtain ⟨next, hexec, hnext⟩ := h.reply size hbatch hreply
          rw [hstep] at hexec
          cases hexec
          exact hnext
  | receive message =>
      rw [exec_receive hstep]
      exact h
  | collect workerId =>
      have hprocessed : s.vc.isMessageProcessed workerId = true := by
        by_contra hnot
        simp [exec, hnot] at hstep
      obtain ⟨next, hexec, hnext⟩ := h.collect size hprocessed
      rw [hstep] at hexec
      cases hexec
      exact hnext

theorem Invariant.processed (h : s.Invariant registry) {a : Query × List MessageUnit}
    (ha : a ∈ s.ledger.ready) : s.vc.isMessageProcessed a.1.client = true := by
  rw [isMessageProcessed, h.refines.responses, Option.isSome_map, List.find?_isSome]
  exact ⟨a, ha, by simp⟩

theorem Invariant.answersOwn (h : s.Invariant registry) : AnswersOwn registry s :=
  { pending := h.refines.pending
    sizes := h.refines.sizes
    contents := h.refines.sent
    ledger := h.sound
    once := h.sound.answers_nodup
    reactivated := h.reactivated
    responses := h.responses
    periods := h.periods
    processed := fun _ ha => h.processed ha }

end Session

theorem sessionSystem_inductive {registry : TagRegistry} {size : Int32}
    (haddressing : Addressing registry size) (rank activeDestination : Rank)
    (activeTag : MessageTag) :
    (sessionSystem registry size (Session.start rank activeDestination activeTag)).Inductive
      (Session.Invariant registry) := by
  refine ⟨fun s hs => ?_, fun s step s' h hstep => h.step haddressing hstep⟩
  rw [show s = Session.start rank activeDestination activeTag from hs]
  exact Session.start_invariant registry rank activeDestination activeTag

/-- Every worker gets its own answer in every run, and no query is stuck: the reply in
flight can be taken, answers can be collected, and waiting queries can be flushed. -/
theorem sessionSystem_answersOwn (registry : TagRegistry) (size : Int32)
    (rank activeDestination : Rank) (activeTag : MessageTag)
    (haddressing : Addressing registry size) (s : Session)
    (hs : (sessionSystem registry size
      (Session.start rank activeDestination activeTag)).Reachable s) :
    AnswersOwn registry s ∧
      (s.vc.isReady = true → s.ledger.waiting ≠ [] →
        ∃ s', s.exec registry size .forceFlush = some s' ∧ s'.ledger.inFlight.isSome = true) ∧
      (∀ batch replyTag blocks, s.ledger.inFlight = some batch →
        Session.IsReply registry batch replyTag blocks →
          ∃ s', s.exec registry size (.reply replyTag blocks) = some s') ∧
      ∀ a ∈ s.ledger.ready, ∃ s', s.exec registry size (.collect a.1.client) = some s' := by
  have h := (sessionSystem_inductive haddressing rank activeDestination activeTag).holds hs
  refine ⟨h.answersOwn, fun hready hwaiting => ?_, fun batch replyTag blocks hbatch hreply => ?_,
    fun a ha => ?_⟩
  · obtain ⟨s', hexec, _, hflying⟩ := h.forceFlush size hready
    exact ⟨s', hexec, hflying hwaiting⟩
  · obtain ⟨s', hexec, _⟩ := h.reply size hbatch hreply
    exact ⟨s', hexec⟩
  · obtain ⟨s', hexec, _⟩ := h.collect size (h.processed ha)
    exact ⟨s', hexec⟩

/-- Tag 3 has queries of two units, and replies with tag 4. -/
def pairRegistry : TagRegistry :=
  { elementSizes := fun tag => if tag = 3 then 2 else 0
    replyTagToQueryTag := fun tag => if tag = 4 then some 3 else none }

theorem pairRegistry_addressing : Addressing pairRegistry 4 := by
  refine ⟨fun tag htag => ?_, fun tag => ?_, by decide⟩
  · simp only [pairRegistry] at htag
    split at htag
    · rename_i heq
      rw [heq]
      decide
    · omega
  · simp only [pairRegistry]
    split <;> omega

theorem sessionSystem_answersOwn_pair : ∃ s,
    runAll (Session.exec pairRegistry 4) (Session.start 0 0 0)
        [.push 7 ⟨3, 1⟩ [10], .push 8 ⟨3, 1⟩ [20, 21], .forceFlush, .reply 4 [[1, 2], [5, 6]],
          .collect 8] = some s ∧
      s.responses = [(8, [5, 6])] ∧ AnswersOwn pairRegistry s := by
  have hrun : (runAll (Session.exec pairRegistry 4) (Session.start 0 0 0)
      [.push 7 ⟨3, 1⟩ [10], .push 8 ⟨3, 1⟩ [20, 21], .forceFlush, .reply 4 [[1, 2], [5, 6]],
        .collect 8]).map Session.responses = some [(8, [5, 6])] := by decide +kernel
  rw [Option.map_eq_some_iff] at hrun
  obtain ⟨s, hs, hresponses⟩ := hrun
  exact ⟨s, hs, hresponses, (sessionSystem_answersOwn pairRegistry 4 0 0 0 pairRegistry_addressing s
    (.runAll (.init rfl) hs)).1⟩

/-- One tag has queries of two units, and replies with tag 1. -/
def oneTagRegistry (tag : MessageTag) : TagRegistry :=
  { elementSizes := fun t => if t = tag then 2 else 0
    replyTagToQueryTag := fun t => if t = 1 then some tag else none }

/-- A run whose messages have no content does not answer its workers. -/
theorem not_answersOwn {registry : TagRegistry} {size : Int32} (steps : List SessionStep)
    (hrun : ((runAll (Session.exec registry size) (Session.start 0 0 0) steps).map fun s =>
      s.vc.outbox.map fun m => m.content.length) = some [0]) :
    ¬ ∀ s, (sessionSystem registry size (Session.start 0 0 0)).Reachable s →
      AnswersOwn registry s := by
  intro hall
  rw [Option.map_eq_some_iff] at hrun
  obtain ⟨s, hs, hlengths⟩ := hrun
  have hmem : 0 ∈ s.vc.outbox.map fun m => m.content.length := by simp [hlengths]
  obtain ⟨m, hm, hlength⟩ := List.mem_map.mp hmem
  have hsize := ((hall s (.runAll (.init rfl) hs)).sizes m hm).1
  omega

/-- Tag 0 with destination 1000000 has the identifier of tag 1 with destination 0, and
tag -1 is not the tag of its identifier: a forced flush sends an empty message to
another group, and the query stays behind. -/
theorem session_flushes_nothing :
    (¬ ∀ s, (sessionSystem (oneTagRegistry 0) 1000001 (Session.start 0 0 0)).Reachable s →
      AnswersOwn (oneTagRegistry 0) s) ∧
    ¬ ∀ s, (sessionSystem (oneTagRegistry (-1)) 4 (Session.start 0 0 0)).Reachable s →
      AnswersOwn (oneTagRegistry (-1)) s := by
  refine ⟨not_answersOwn [.push 7 ⟨0, 1000000⟩ [10], .forceFlush] ?_,
    not_answersOwn [.push 7 ⟨-1, 2⟩ [10], .forceFlush] ?_⟩
  · decide +kernel
  · decide +kernel

end RayPlatform
