import RayPlatform.Scheduling.VirtualProcessor

/-!
# The queries of the workers

What the calls of the VirtualProcessor do to the VirtualCommunicator, in terms of the
workers that have no answer yet: a worker that works may join them, the reply of the
message in flight gives some of them their answers, a flush keeps them.
-/

namespace RayPlatform

open Lib (Map Ledger Request Batch)
open VirtualCommunicator

/-- The workers whose queries are buffered or in flight. -/
def unanswered (l : QueryLedger) : List WorkerHandle :=
  (l.waiting ++ l.flying).map Request.client

/-- The workers whose answers are there. -/
def answeredWorkers (l : QueryLedger) : List WorkerHandle :=
  l.ready.map fun a => a.1.client

/-- A VirtualCommunicator does the service of a ledger. -/
structure Communicates (registry : TagRegistry) (vc : VirtualCommunicator) (l : QueryLedger) :
    Prop where
  refines : Refines registry vc l
  roomy : RoomyGroups registry l
  sound : l.Sound

/-- What `pushMessage` asserts of a query. -/
structure WorkerQuery.Valid (registry : TagRegistry) (size : Int32) (query : WorkerQuery) :
    Prop where
  nonempty : query.content ≠ []
  fits : query.content.length ≤ registry.elementSizes query.group.tag
  destination : 0 ≤ query.group.destination ∧ query.group.destination < size

/-- A message that `processInbox` takes as the reply of the message in flight. -/
structure VirtualCommunicator.Awaits (registry : TagRegistry) (vc : VirtualCommunicator)
    (message : UnitMessage) : Prop where
  pending : 0 < vc.pendingMessages
  tag : registry.replyTagToQueryTag message.tag = some vc.activeTag
  source : message.source = vc.activeDestination

/-- The reply has a block for each of the queries, as `processInbox` asserts. -/
def VirtualCommunicator.AcceptsReply (registry : TagRegistry) (vc : VirtualCommunicator)
    (message : UnitMessage) : Prop :=
  vc.Awaits registry message →
    message.content.length =
      (vc.workersOf ⟨vc.activeTag, vc.activeDestination⟩).length *
        registry.elementSizes vc.activeTag

namespace Communicates

variable {registry : TagRegistry} {size : Int32} {vc : VirtualCommunicator} {l : QueryLedger}

/-- The flags say nothing about the queries. -/
theorem setStatus (h : Communicates registry vc l) (localStatus globalStatus : Bool) :
    Communicates registry
      { vc with
        localPushedMessageStatus := localStatus
        globalPushedMessageStatus := globalStatus } l :=
  ⟨⟨h.refines.content, h.refines.workers, ⟨h.refines.indexed.queue, h.refines.indexed.noEmptySet,
    h.refines.indexed.addressable⟩, h.refines.pending, h.refines.active, h.refines.alone,
    h.refines.responses, h.refines.valid, h.refines.sent, h.refines.sizes⟩, h.roomy, h.sound⟩

theorem isReady_iff (h : Communicates registry vc l) :
    vc.isReady = true ↔ l.inFlight = none := by
  unfold VirtualCommunicator.isReady
  rw [h.refines.pending, decide_eq_true_iff]
  cases l.inFlight with
  | none => simp
  | some b => simp

theorem flying_nil (h : Communicates registry vc l) (hready : vc.isReady = true) :
    l.flying = [] := by
  rw [Ledger.flying, h.isReady_iff.mp hready]
  rfl

theorem isMessageProcessed_iff (h : Communicates registry vc l) {w : WorkerHandle} :
    vc.isMessageProcessed w = true ↔ w ∈ answeredWorkers l := by
  rw [isMessageProcessed, h.refines.responses, Option.isSome_map, List.find?_isSome,
    answeredWorkers, List.mem_map]
  simp

/-- A flush keeps the unanswered workers. -/
theorem unanswered_flush (hnone : l.inFlight = none) (g : Group) :
    (unanswered (l.flush g)).Perm (unanswered l) := by
  have hflying : l.flying = [] := by simp [Ledger.flying, hnone]
  unfold unanswered
  rw [hflying, List.append_nil, flying_flush]
  exact ((l.waitingFor_append_perm g).map _).symm

/-! ## The turn of a worker -/

/-- A worker takes its response, if it has one. -/
theorem collect (h : Communicates registry vc l) (workerId : WorkerHandle)
    (hprocessed : vc.isMessageProcessed workerId = true) :
    Communicates registry (vc.getMessageResponseElements workerId []).1 (l.collect workerId) := by
  obtain ⟨_, _, _, _, _, hrefines⟩ := h.refines.collect h.sound hprocessed
  exact ⟨hrefines, h.roomy, h.sound.collect workerId⟩

/-- A worker without a response and without an unanswered query has nothing outstanding. -/
theorem nothingOutstanding (h : Communicates registry vc l) {workerId : WorkerHandle}
    (hprocessed : vc.isMessageProcessed workerId = false) (hanswered : workerId ∉ unanswered l) :
    workerId ∉ l.outstanding.map Request.client := by
  rw [Ledger.outstanding, List.map_append, List.mem_append]
  rintro (hmem | hready)
  · exact hanswered hmem
  · rw [List.map_map] at hready
    rw [h.isMessageProcessed_iff.mpr hready] at hprocessed
    cases hprocessed

/-- The worker that pushes a query joins the unanswered ones. -/
theorem push (h : Communicates registry vc l) (haddressing : Addressing registry size)
    (hready : vc.isReady = true) {workerId : WorkerHandle} {query : WorkerQuery}
    (hvalid : query.Valid registry size)
    (houtstanding : workerId ∉ l.outstanding.map Request.client) {message : UnitMessage}
    (hcontent : message.content = query.content) (htag : message.tag = query.group.tag)
    (hdestination : message.destination = query.group.destination) :
    ∃ l', Communicates registry (vc.pushMessage registry workerId message) l' ∧
      (unanswered l').Perm (workerId :: unanswered l) ∧ l'.ready = l.ready := by
  have hnone := h.isReady_iff.mp hready
  have hperiod : 0 < registry.elementSizes query.group.tag :=
    Nat.lt_of_lt_of_le (List.length_pos_iff.mpr hvalid.nonempty) hvalid.fits
  have haddressable : query.group.Addressable := by
    obtain ⟨hge, hlt⟩ := hvalid.destination
    rw [Int32.lt_iff_toInt_lt] at hlt
    exact ⟨haddressing.tags _ hperiod, hge, Int.lt_of_lt_of_le hlt haddressing.size⟩
  obtain ⟨l', -, hrefines, hroomy, hcases⟩ := h.refines.push h.roomy hnone
    ⟨haddressable, hvalid.nonempty, hvalid.fits⟩ (haddressing.periods _) htag hdestination hcontent
  have hsound : (l.push workerId query.group query.content).Sound := h.sound.push houtstanding
  have hjoined : (unanswered (l.push workerId query.group query.content)).Perm
      (workerId :: unanswered l) := by
    have hflying : l.flying = [] := h.flying_nil hready
    show ((l.waiting ++ [_] ++ l.flying).map Request.client).Perm _
    unfold unanswered
    rw [hflying, List.append_nil, List.append_nil, List.map_append]
    exact List.perm_append_singleton _ _
  rcases hcases with rfl | rfl
  · exact ⟨_, ⟨hrefines, hroomy, hsound⟩, hjoined, rfl⟩
  · have hpushed : (l.push workerId query.group query.content).inFlight = none := hnone
    exact ⟨_, ⟨hrefines, hroomy, hsound.flush hnone⟩, (unanswered_flush hpushed _).trans hjoined,
      rfl⟩

/-- A worker that works joins the unanswered ones exactly if it pushes a query, and takes no
other answer than its own. -/
theorem perform (h : Communicates registry vc l) (haddressing : Addressing registry size)
    (hready : vc.isReady = true) {workerId : WorkerHandle} (hanswered : workerId ∉ unanswered l)
    {work : Work} (hvalid : ∀ query, work.query = some query → query.Valid registry size) :
    ∃ l', Communicates registry (work.perform registry vc workerId) l' ∧
      (work.perform registry vc workerId).localPushedMessageStatus =
        (vc.localPushedMessageStatus || work.query.isSome) ∧
      (unanswered l').Perm ((if work.query.isSome then [workerId] else []) ++ unanswered l) ∧
      ∀ w, w ≠ workerId → w ∈ answeredWorkers l → w ∈ answeredWorkers l' := by
  -- first the response, if there is one
  let taken :=
    if work.collects ∧ vc.isMessageProcessed workerId then
      (vc.getMessageResponseElements workerId []).1
    else vc
  have htaken : ∃ l₁, Communicates registry taken l₁ ∧ unanswered l₁ = unanswered l ∧
      taken.isReady = true ∧
      taken.localPushedMessageStatus = vc.localPushedMessageStatus ∧
      (work.collects = true → taken.isMessageProcessed workerId = false) ∧
      ∀ w, w ≠ workerId → w ∈ answeredWorkers l → w ∈ answeredWorkers l₁ := by
    by_cases htakes : work.collects = true ∧ vc.isMessageProcessed workerId = true
    · simp only [taken, if_pos htakes]
      refine ⟨l.collect workerId, h.collect workerId htakes.2, rfl, hready, rfl, fun _ => ?_,
        fun w hne hw => ?_⟩
      · show (Finmap.lookup workerId (vc.elementsForWorkers.erase workerId)).isSome = false
        rw [Finmap.lookup_erase]
        rfl
      · obtain ⟨a, ha, rfl⟩ := List.mem_map.mp hw
        exact List.mem_map_of_mem (List.mem_filter.mpr ⟨ha, by simpa using hne⟩)
    · simp only [taken, if_neg htakes]
      exact ⟨l, h, rfl, hready, trivial, fun hcollects => by simpa [hcollects] using htakes,
        fun w _ hw => hw⟩
  obtain ⟨l₁, hcommunicates, hsame, hready₁, hlocal, hnone, hothers⟩ := htaken
  cases hquery : work.query with
  | none =>
      have hperform : work.perform registry vc workerId = taken := by
        simp only [Work.perform, hquery, taken]
      rw [hperform]
      refine ⟨l₁, hcommunicates, ?_, ?_, hothers⟩
      · rw [hlocal]
        simp
      · rw [hsame]
        exact .refl _
  | some query =>
      let message : UnitMessage :=
        { content := query.content
          destination := query.group.destination
          tag := query.group.tag
          source := taken.rank }
      have hperform : work.perform registry vc workerId =
          taken.pushMessage registry workerId message := by
        simp only [Work.perform, hquery, taken, message]
      have hcollects := work.collected (by rw [hquery]; rfl)
      rw [← hsame] at hanswered
      obtain ⟨l', hpushed, hperm, hstay⟩ := hcommunicates.push haddressing hready₁
        (hvalid query hquery) (hcommunicates.nothingOutstanding (hnone hcollects) hanswered)
        (show message.content = query.content from rfl) rfl rfl
      rw [hperform]
      refine ⟨l', hpushed, ?_, ?_, fun w hne hw => ?_⟩
      · -- a flush does not touch the status
        unfold pushMessage
        simp only [Option.isSome_some, Bool.or_true]
        split <;> rfl
      · rw [← hsame]
        exact hperm
      · rw [answeredWorkers, hstay]
        exact hothers w hne hw

/-! ## The reply of the message in flight -/

/-- A list of blocks of one length. -/
theorem exists_blocks {α : Type} (period n : Nat) (content : List α)
    (h : content.length = n * period) :
    ∃ blocks : List (List α), blocks.length = n ∧ (∀ b ∈ blocks, b.length = period) ∧
      blocks.flatten = content := by
  induction n generalizing content with
  | zero =>
      rw [Nat.zero_mul, List.length_eq_zero_iff] at h
      exact ⟨[], rfl, fun b hb => (List.not_mem_nil hb).elim, by simp [h]⟩
  | succ n ih =>
      rw [Nat.succ_mul] at h
      obtain ⟨blocks, hlength, hblocks, hflatten⟩ := ih (content.drop period) (by
        rw [List.length_drop]
        omega)
      refine ⟨content.take period :: blocks, ?_, ?_, ?_⟩
      · rw [List.length_cons, hlength]
      · intro b hb
        rcases List.mem_cons.mp hb with rfl | hb
        · rw [List.length_take]
          omega
        · exact hblocks b hb
      · rw [List.flatten_cons, hflatten, List.take_append_drop]

/-- The workers of the group in flight. -/
theorem workersOf_active (h : Communicates registry vc l)
    {batch : Batch WorkerHandle Group (List MessageUnit)} (hbatch : l.inFlight = some batch) :
    vc.workersOf batch.group = batch.requests.map Request.client := by
  have hflying : l.flying = batch.requests := by simp [Ledger.flying, hbatch]
  have hall : (batch.requests.filter fun r => r.group = batch.group) = batch.requests :=
    List.filter_eq_self.mpr fun r hr => by
      simpa using (h.sound.ordered batch (h.sound.inFlight_mem batch hbatch)).2 r hr
  rw [h.refines.workers, hflying, hall, (h.refines.alone batch hbatch).2, List.append_nil]

/-- The reply of the message in flight gives all its workers their answers. -/
theorem reply (h : Communicates registry vc l) {message : UnitMessage}
    (hawaits : vc.Awaits registry message) (haccepts : vc.AcceptsReply registry message)
    (activeWorkers : List WorkerHandle) :
    ∃ vc' l' answered,
      vc.processInbox registry [message] activeWorkers = some (vc', activeWorkers ++ answered) ∧
        Communicates registry vc' l' ∧ vc'.isReady = true ∧
        (unanswered l).Perm (unanswered l' ++ answered) ∧
        answeredWorkers l' = answeredWorkers l ++ answered := by
  obtain ⟨batch, hbatch⟩ : ∃ batch, l.inFlight = some batch := by
    have hpending := hawaits.pending
    rw [h.refines.pending] at hpending
    cases hinFlight : l.inFlight with
    | none => simp [hinFlight] at hpending
    | some batch => exact ⟨batch, rfl⟩
  obtain ⟨htag, hdestination⟩ := h.refines.active batch hbatch
  have hlength := haccepts hawaits
  rw [htag, hdestination, h.workersOf_active hbatch, List.length_map] at hlength
  obtain ⟨blocks, hcount, hblocks, hflatten⟩ := exists_blocks _ _ _ hlength
  have hreply : Session.IsReply registry batch message.tag blocks :=
    ⟨by rw [hawaits.tag, htag], hcount, hblocks⟩
  obtain ⟨vc', hprocess, hrefines⟩ :=
    h.refines.reply h.sound hbatch hreply message.destination activeWorkers
  have hmessage : message =
      { content := blocks.flatten
        destination := message.destination
        tag := message.tag
        source := batch.group.destination } := by
    rw [hflatten, ← hdestination, ← hawaits.source]
  rw [← hmessage] at hprocess
  have hcommunicates : Communicates registry vc' (l.answer blocks) :=
    ⟨hrefines, h.roomy, h.sound.answer hbatch hcount⟩
  refine ⟨vc', l.answer blocks, l.flying.map Request.client, hprocess, hcommunicates,
    hcommunicates.isReady_iff.mpr rfl, ?_, ?_⟩
  · show ((l.waiting ++ l.flying).map Request.client).Perm _
    rw [List.map_append]
    refine List.Perm.append_right _ (.of_eq ?_)
    show l.waiting.map Request.client = ((l.waiting ++ []).map Request.client)
    rw [List.append_nil]
  · have hflying : l.flying.length = blocks.length := by
      rw [hcount, Ledger.flying, hbatch]
      rfl
    show (l.ready ++ l.flying.zip blocks).map _ = _
    rw [List.map_append]
    refine congrArg _ ?_
    have hfst : (l.flying.zip blocks).map Prod.fst = l.flying :=
      List.map_fst_zip (Nat.le_of_eq hflying)
    have hclients := congrArg (List.map Request.client) hfst
    rw [List.map_map] at hclients
    exact hclients

/-- Any other message is left alone. -/
theorem processInbox_other {message : UnitMessage} (hother : ¬ vc.Awaits registry message)
    (activeWorkers : List WorkerHandle) :
    vc.processInbox registry [message] activeWorkers = some (vc, activeWorkers) := by
  unfold processInbox
  split
  · rename_i hpending
    simp only
    split
    · rfl
    · rename_i queryTag htag
      split
      · rename_i hmatches
        exact absurd ⟨hpending, by rw [htag, hmatches.1], hmatches.2.symm⟩ hother
      · rfl
  · rfl

/-- What `processInbox` does with an inbox of one message at most: the workers that are
answered are no longer unanswered, and the communicator is ready. -/
theorem processInbox (h : Communicates registry vc l) {inbox : Option UnitMessage}
    (hinbox : ∀ message, inbox = some message → vc.AcceptsReply registry message)
    (activeWorkers : List WorkerHandle) :
    ∃ vc' l' answered,
      vc.processInbox registry inbox.toList activeWorkers =
          some (vc', activeWorkers ++ answered) ∧
        Communicates registry vc' l' ∧ (unanswered l).Perm (unanswered l' ++ answered) ∧
        answeredWorkers l' = answeredWorkers l ++ answered ∧
        (answered ≠ [] → vc'.isReady = true) ∧ (vc.isReady = true → vc'.isReady = true) ∧
        ∀ message, inbox = some message → vc.Awaits registry message → vc'.isReady = true := by
  by_cases hreply : ∃ message, inbox = some message ∧ vc.Awaits registry message
  · obtain ⟨message, rfl, hawaits⟩ := hreply
    obtain ⟨vc', l', answered, hprocess, hcommunicates, hready, hperm, hanswered⟩ :=
      h.reply hawaits (hinbox message rfl) activeWorkers
    exact ⟨vc', l', answered, hprocess, hcommunicates, hperm, hanswered, fun _ => hready,
      fun _ => hready, fun _ _ _ => hready⟩
  · have hsame : vc.processInbox registry inbox.toList activeWorkers =
        some (vc, activeWorkers) := by
      cases inbox with
      | none =>
          unfold VirtualCommunicator.processInbox
          split <;> rfl
      | some message =>
          exact processInbox_other (fun hawaits => hreply ⟨message, rfl, hawaits⟩) activeWorkers
    refine ⟨vc, l, [], ?_, h, ?_, ?_, fun hne => absurd rfl hne, id,
      fun message heq hawaits => ?_⟩
    · rw [hsame, List.append_nil]
    · rw [List.append_nil]
    · rw [List.append_nil]
    · exact absurd ⟨message, heq, hawaits⟩ hreply

/-- A communicator without a message in flight ignores the inbox. -/
theorem processInbox_ready (hready : vc.isReady = true) (inbox activeWorkers) :
    vc.processInbox registry inbox activeWorkers = some (vc, activeWorkers) := by
  have hpending : vc.pendingMessages = 0 := of_decide_eq_true hready
  unfold VirtualCommunicator.processInbox
  rw [if_neg (by omega)]

theorem outbox_processInbox {vc' : VirtualCommunicator} {inbox : List UnitMessage}
    {activeWorkers activeWorkers' : List WorkerHandle}
    (hprocess : vc.processInbox registry inbox activeWorkers = some (vc', activeWorkers')) :
    vc'.outbox = vc.outbox :=
  (processInbox_frame hprocess).2.2

/-! ## The end of a round -/

/-- `forceFlush` sends a buffered group, unless all workers are answered. -/
theorem forceFlush (h : Communicates registry vc l) (hready : vc.isReady = true) :
    ∃ vc' l', vc.forceFlush = some vc' ∧ Communicates registry vc' l' ∧
      (unanswered l').Perm (unanswered l) ∧ answeredWorkers l' = answeredWorkers l ∧
      ((unanswered l = [] ∧ vc' = vc) ∨
        ∃ g content, vc.contentOf g = some content ∧ content ≠ [] ∧
          vc' = vc.flushMessage g.tag g.destination) := by
  have hnone := h.isReady_iff.mp hready
  rcases h.refines.indexed.forceFlush with ⟨hempty, hflush⟩ | ⟨g, content, hg, hflush, -⟩
  · refine ⟨vc, l, hflush, h, .refl _, rfl, .inl ⟨?_, rfl⟩⟩
    have hwaiting : l.waiting = [] := by
      by_contra hne
      obtain ⟨r, hr⟩ := List.exists_mem_of_ne_nil _ hne
      have hmem : r ∈ l.waitingFor r.group := by simpa [Ledger.waitingFor] using hr
      have hcontent := h.refines.content r.group
      rw [hempty, if_neg (List.ne_nil_of_mem hmem)] at hcontent
      cases hcontent
    rw [unanswered, hwaiting, h.flying_nil hready]
    rfl
  · have hne : l.waitingFor g ≠ [] := by
      intro hnil
      rw [h.refines.content, if_pos hnil] at hg
      cases hg
    refine ⟨vc.flushMessage g.tag g.destination, l.flush g, hflush, ?_, unanswered_flush hnone g,
      rfl, .inr ⟨g, content, hg, (h.refines.indexed.addressable g content hg).2, rfl⟩⟩
    exact ⟨h.refines.flush hnone hne (Nat.le_of_lt (h.roomy g hne)),
      roomy_flush fun g' _ hg' => h.roomy g' hg', h.sound.flush hnone⟩

end Communicates

end RayPlatform
