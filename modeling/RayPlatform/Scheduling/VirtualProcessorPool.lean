import RayPlatform.Scheduling.WorkerRoster

/-!
# The pool of the workers

A VirtualProcessor, its communicator and the ledger of the queries, at any moment of a
tick. `VirtualProcessor.run` keeps the pool and prolongs its history, whichever way it goes
(`Pool.run`), and it never gets stuck: `Pool.run_progress` and `Pool.run_flushes`.
-/

namespace RayPlatform

open Lib (IsHistory LifeStage)
open VirtualCommunicator

/-- A processor with its communicator, at any moment of a tick. -/
structure Pool (registry : TagRegistry) (vp : VirtualProcessor) (vc : VirtualCommunicator)
    (workers : Nat) (l : QueryLedger) (stages : Nat → LifeStage) : Prop where
  roster : Roster vp workers stages
  sleepers : Sleepers vp l
  communicates : Communicates registry vc l

namespace Pool

variable {registry : TagRegistry} {size : Int32} {vp : VirtualProcessor} {vc : VirtualCommunicator}
  {workers : Nat} {stages : Nat → LifeStage} {l : QueryLedger} {history : PoolHistory}

/-- The workers of the reply are put on the list of those to restore. -/
theorem receive (h : Pool registry vp vc workers l stages) {inbox : Option UnitMessage}
    (hinbox : ∀ message, inbox = some message → vc.AcceptsReply registry message) :
    ∃ vc' l' answered,
      vc.processInbox registry inbox.toList vp.activeWorkersToRestore =
          some (vc', vp.activeWorkersToRestore ++ answered) ∧
        Pool registry
          { vp with activeWorkersToRestore := vp.activeWorkersToRestore ++ answered } vc' workers
          l' stages ∧
        (answered ≠ [] → vc'.isReady = true) ∧ (vc.isReady = true → vc'.isReady = true) ∧
        ∀ message, inbox = some message → vc.Awaits registry message → vc'.isReady = true := by
  obtain ⟨vc', l', answered, hprocess, hcommunicates, hperm, hanswered, hready⟩ :=
    h.communicates.processInbox hinbox vp.activeWorkersToRestore
  refine ⟨vc', l', answered, hprocess, ⟨h.roster.restore _, ?_, hcommunicates⟩, hready⟩
  refine h.sleepers.of_perm ?_ (fun w => .rfl) fun w hw => ?_
  · show (unanswered l ++ vp.activeWorkersToRestore).Perm
      (unanswered l' ++ (vp.activeWorkersToRestore ++ answered))
    refine (hperm.append_right _).trans ?_
    rw [List.append_assoc]
    exact List.Perm.append_left _ List.perm_append_comm
  · rw [hanswered, List.mem_append]
    rcases List.mem_append.mp hw with hold | hnew
    · exact .inl (h.sleepers.answered w hold)
    · exact .inr hnew

theorem initiateIterator (h : Pool registry vp vc workers l stages) :
    Pool registry vp.initiateIterator vc workers l stages := by
  refine ⟨h.roster.initiateIterator.1, ?_, h.communicates⟩
  unfold VirtualProcessor.initiateIterator
  split
  · exact h.sleepers
  · exact h.sleepers.of_perm (.refl _) (fun w => .rfl) h.sleepers.answered

theorem noMoreTasksAreComing (h : Pool registry vp vc workers l stages) :
    Pool registry vp.noMoreTasksAreComing vc workers l stages :=
  ⟨⟨h.roster.numbered, h.roster.distinct, h.roster.outside, h.roster.gone, h.roster.stage,
    h.roster.alive, h.roster.done, h.roster.doneOnce, h.roster.waiting, h.roster.iterator,
    h.roster.started⟩, h.sleepers.of_perm (.refl _) (fun _ => .rfl) h.sleepers.answered,
    h.communicates⟩

theorem reset (h : Pool registry vp vc workers l stages) (hnone : vp.hasWorkToDo = false) :
    Pool registry vp.reset vc workers l stages :=
  ⟨h.roster.reset hnone, h.sleepers.of_perm (.refl _) (fun _ => .rfl) h.sleepers.answered,
    h.communicates⟩

/-- The turn of a worker: it was awake, and sleeps afterwards exactly if it pushed a query. -/
theorem turn (h : Pool registry vp vc workers l stages) (haddressing : Addressing registry size)
    (hready : vc.isReady = true) (hstarted : vp.initiatedIterator = true) {k : WorkerHandle}
    (hk : vp.activeWorkerIterator = some k) {work : Work}
    (hvalid : ∀ query, work.query = some query → query.Valid registry size) :
    ∃ n vp' vc' l',
      vp.workCurrent registry vc k work =
          some (vp', vc', (n, .work) :: if work.query.isSome then [(n, .ask)] else []) ∧
        vp'.getCurrentWorker = some n ∧ stages n = .idle ∧ vp'.activeWorkers = vp.activeWorkers ∧
        Pool registry vp' vc' workers l'
          (Function.update stages n (Roster.stageAfter work.query.isSome work.isDone)) := by
  obtain ⟨n, hn, hidle, hawake⟩ := h.roster.idle hk
  obtain ⟨l', hcommunicates, hlocal, hperm, hanswered⟩ :=
    (h.communicates.setStatus false vc.globalPushedMessageStatus).perform haddressing hready
      (h.sleepers.notMem_unanswered hawake) hvalid
  rw [Bool.false_or] at hlocal
  let moved : VirtualProcessor :=
    { vp with
      currentWorker := k
      waitingWorkers :=
        if work.query.isSome then vp.waitingWorkers ++ [k] else vp.waitingWorkers
      workersDone :=
        if !work.query.isSome && work.isDone then vp.workersDone ++ [k] else vp.workersDone
      activeWorkerIterator := vp.next k }
  refine ⟨n, moved, work.perform registry { vc with localPushedMessageStatus := false } k, l', ?_,
    hn, hidle, rfl, ?_⟩
  · simp only [VirtualProcessor.workCurrent, hn, Option.bind_eq_bind, Option.bind_some, hlocal]
    rfl
  · exact ⟨h.roster.turn hstarted hk hn _ _,
      h.sleepers.turn (h.roster.iterator k hk).1 hn hawake _ _ hperm hanswered, hcommunicates⟩

/-- Without living workers nothing is left to do. -/
theorem hasWorkToDo_eq_false (h : Pool registry vp vc workers l stages)
    (hunanswered : unanswered l = []) (hrestore : vp.activeWorkersToRestore = [])
    (hactive : vp.activeWorkers = ∅) : vp.hasWorkToDo = false := by
  have hkeys : vp.aliveWorkers.keys = ∅ := by
    rw [Finset.eq_empty_iff_forall_notMem]
    intro w hw
    obtain ⟨n, hn⟩ := Finmap.mem_iff.mp (Finmap.mem_keys.mp hw)
    have hsleeps : vp.Sleeps w := ⟨⟨n, hn⟩, .inr (by rw [hactive]; exact Finset.notMem_empty w)⟩
    have hmem := (h.sleepers.mem w).mpr hsleeps
    rw [hunanswered, hrestore] at hmem
    exact List.not_mem_nil hmem
  simp [VirtualProcessor.hasWorkToDo, hkeys]

/-- The end of a round flushes a buffered group if a worker is unanswered. If not, there is
an active worker again, or no worker at all. -/
theorem endRound (h : Pool registry vp vc workers l stages) (hready : vc.isReady = true)
    (hhistory : IsHistory history stages) :
    ∃ vp' vc' l' stages' events,
      vp.endRound vc = some (vp', vc', events) ∧ IsHistory (history ++ events) stages' ∧
        Pool registry vp' vc' workers l' stages' ∧ vp'.activeWorkersToRestore = [] ∧
        (∀ w ∈ vp.activeWorkersToRestore, w ∈ vp'.activeWorkers) ∧
        ((∃ g content, vc.contentOf g = some content ∧ content ≠ [] ∧
            vc' = { vc with globalPushedMessageStatus := false }.flushMessage g.tag g.destination) ∨
          unanswered l = [] ∧
            (vp'.activeWorkerIterator.isSome = true ∨ vp'.hasWorkToDo = false)) := by
  obtain ⟨vc', l', hflush, hcommunicates, hperm, -, hcases⟩ :=
    (h.communicates.setStatus vc.localPushedMessageStatus false).forceFlush hready
  let vp' : VirtualProcessor :=
    { vp.updateStates.1 with activeWorkerIterator := vp.updateStates.1.begin }
  have hpool : Pool registry vp' vc' workers l' (Roster.stagesAfterRound vp stages) :=
    ⟨h.roster.endRound h.sleepers.restore_sleeps, h.sleepers.endRound h.roster hperm,
      hcommunicates⟩
  refine ⟨vp', vc', l', Roster.stagesAfterRound vp stages, vp.updateStates.2, ?_,
    h.roster.history_updateStates hhistory h.sleepers.restore_nodup h.sleepers.restore_sleeps,
    hpool, rfl, fun w hw => vp.mem_activeWorkers_updateStates.mpr (.inl hw), ?_⟩
  · simp only [VirtualProcessor.endRound, Bool.not_false, if_true, hflush, Option.bind_eq_bind,
      Option.bind_some]
    rfl
  · rcases hcases with ⟨hunanswered, -⟩ | ⟨g, content, hg, hne, rfl⟩
    · right
      refine ⟨hunanswered, ?_⟩
      cases hbegin : vp'.activeWorkerIterator with
      | some k => exact .inl rfl
      | none =>
          right
          rw [hunanswered] at hperm
          exact hpool.hasWorkToDo_eq_false hperm.eq_nil rfl
            ((VirtualProcessor.begin_eq_none_iff _).mp hbegin)
    · exact .inl ⟨g, content, hg, hne, rfl⟩

/-- `run`, once the inbox is processed. -/
theorem run_eq {vc' : VirtualCommunicator} {inbox : List UnitMessage} {restore : List WorkerHandle}
    (hprocess : vc.processInbox registry inbox vp.initiateIterator.activeWorkersToRestore =
      some (vc', restore)) (work : Work) :
    vp.run registry vc inbox work =
      let received := { vp.initiateIterator with activeWorkersToRestore := restore }
      if vc'.isReady = true then
        match received.activeWorkerIterator with
        | some k =>
            (received.workCurrent registry vc' k work).map fun r => (r.1, r.2.1, true, r.2.2)
        | none => (received.endRound vc').map fun r => (r.1, r.2.1, false, r.2.2)
      else some (received, vc', false, []) := by
  simp only [VirtualProcessor.run, hprocess, Option.bind_eq_bind, Option.bind_some]
  cases hready : vc'.isReady with
  | false => rfl
  | true =>
      cases hiterator : vp.initiateIterator.activeWorkerIterator with
      | some k =>
          simp only [Bool.not_true, Bool.false_eq_true, if_false, if_true]
          exact Option.map_eq_bind.symm
      | none =>
          simp only [Bool.not_true, Bool.false_eq_true, if_false, if_true]
          exact Option.map_eq_bind.symm

/-- Workers are to be restored only while others are active. -/
def Restored (vp : VirtualProcessor) : Prop :=
  vp.activeWorkersToRestore ≠ [] → vp.activeWorkers ≠ ∅

/-- The events of a worker that has had its turn. -/
theorem history_turn (hhistory : IsHistory history stages) {n : Nat} (hidle : stages n = .idle)
    (pushed : Bool) :
    IsHistory (history ++ ((n, .work) :: if pushed then [(n, .ask)] else []))
      (Function.update stages n (if pushed then .asleep else .idle)) := by
  have hwork : IsHistory (history ++ [(n, .work)]) stages := by
    have hsnoc := hhistory.snoc (show (stages n).next .work = some .idle by rw [hidle]; rfl)
    rw [← hidle, Function.update_eq_self] at hsnoc
    exact hsnoc
  cases pushed with
  | false =>
      refine hwork.congr fun m => ?_
      by_cases hm : m = n
      · simp [hm, hidle]
      · simp [hm]
  | true =>
      have hask := hwork.snoc (show (stages n).next .ask = some .asleep by rw [hidle]; rfl)
      rw [List.append_assoc] at hask
      exact hask

/-- A run keeps the pool, whichever way it goes. The worker that worked, if one did, may
still have to be completed. -/
theorem run (h : Pool registry vp vc workers l stages) (haddressing : Addressing registry size)
    (hhistory : IsHistory history stages) (hrestored : Restored vp) {inbox : Option UnitMessage}
    (hinbox : ∀ message, inbox = some message → vc.AcceptsReply registry message) {work : Work}
    (hvalid : ∀ query, work.query = some query → query.Valid registry size) :
    ∃ vp' vc' worked events l' stages',
      vp.run registry vc inbox.toList work = some (vp', vc', worked, events) ∧
        IsHistory (history ++ events) stages' ∧ Restored vp' ∧
        ((worked = false ∧ Pool registry vp' vc' workers l' stages') ∨
          worked = true ∧ ∃ n, vp'.getCurrentWorker = some n ∧
            stages' n = (if work.query.isSome then .asleep else .idle) ∧
            Pool registry vp' vc' workers l'
              (Function.update stages' n (Roster.stageAfter work.query.isSome work.isDone))) := by
  obtain ⟨vc₁, l₁, answered, hprocess, hpool, hanswered, -⟩ := h.initiateIterator.receive hinbox
  have hsame : vp.initiateIterator.activeWorkers = vp.activeWorkers ∧
      vp.initiateIterator.activeWorkersToRestore = vp.activeWorkersToRestore := by
    unfold VirtualProcessor.initiateIterator
    split <;> exact ⟨rfl, rfl⟩
  have hstarted := h.roster.initiateIterator.2
  rw [run_eq hprocess work]
  generalize hreceived : ({ vp.initiateIterator with
    activeWorkersToRestore := vp.initiateIterator.activeWorkersToRestore ++ answered } :
      VirtualProcessor) = received at hpool
  by_cases hready : vc₁.isReady = true
  · rw [if_pos hready]
    cases hiterator : received.activeWorkerIterator with
    | some k =>
        obtain ⟨n, vp', vc', l', hwork, hcurrent, hidle, hactive, hpool'⟩ :=
          hpool.turn haddressing hready (by rw [← hreceived]; exact hstarted) hiterator hvalid
        refine ⟨vp', vc', true, _, l', _, ?_, history_turn hhistory hidle work.query.isSome,
          fun _ => ?_, .inr ⟨rfl, n, hcurrent, Function.update_self _ _ _, ?_⟩⟩
        · simp only [hwork]
          rfl
        · rw [hactive]
          exact Finset.ne_empty_of_mem (hpool.roster.iterator k hiterator).1
        · rw [Function.update_idem]
          exact hpool'
    | none =>
        obtain ⟨vp', vc', l', stages', events, hend, hhistory', hpool', hnil, -, -⟩ :=
          hpool.endRound hready hhistory
        refine ⟨vp', vc', false, events, l', stages', ?_, hhistory', fun hne => absurd hnil hne,
          .inl ⟨rfl, hpool'⟩⟩
        simp only [hend]
        rfl
  · -- the communicator still waits for its reply
    have hnil : answered = [] := by
      by_contra hne
      exact hready (hanswered hne)
    refine ⟨received, vc₁, false, [], l₁, stages, if_neg hready, ?_, ?_, .inl ⟨rfl, hpool⟩⟩
    · rw [List.append_nil]
      exact hhistory
    · rw [← hreceived]
      show vp.initiateIterator.activeWorkersToRestore ++ answered ≠ [] →
        vp.initiateIterator.activeWorkers ≠ ∅
      rw [hnil, List.append_nil, hsame.1, hsame.2]
      exact hrestored

/-- A run of a processor whose communicator is ready, or gets its reply: a worker works, a
message is sent, a worker has its turn next, or nothing is left to do. -/
theorem run_progress (h : Pool registry vp vc workers l stages)
    (haddressing : Addressing registry size) (hhistory : IsHistory history stages)
    {inbox : Option UnitMessage}
    (hinbox : ∀ message, inbox = some message → vc.AcceptsReply registry message)
    (hready : vc.isReady = true ∨ ∃ message, inbox = some message ∧ vc.Awaits registry message)
    {work : Work} (hvalid : ∀ query, work.query = some query → query.Valid registry size) :
    ∃ vp' vc' worked events,
      vp.run registry vc inbox.toList work = some (vp', vc', worked, events) ∧
        (worked = true ∨
          (∃ message, vc'.outbox = vc.outbox ++ [message] ∧ message.content ≠ []) ∨
          vp'.activeWorkerIterator.isSome = true ∨ vp'.hasWorkToDo = false) := by
  obtain ⟨vc₁, l₁, answered, hprocess, hpool, -, hstays, hreplied⟩ :=
    h.initiateIterator.receive hinbox
  have hready₁ : vc₁.isReady = true := by
    rcases hready with hready | ⟨message, hmessage, hawaits⟩
    · exact hstays hready
    · exact hreplied message hmessage hawaits
  have hstarted := h.roster.initiateIterator.2
  rw [run_eq hprocess work]
  generalize hreceived : ({ vp.initiateIterator with
    activeWorkersToRestore := vp.initiateIterator.activeWorkersToRestore ++ answered } :
      VirtualProcessor) = received at hpool
  rw [if_pos hready₁]
  cases hiterator : received.activeWorkerIterator with
  | some k =>
      obtain ⟨n, vp', vc', l', hwork, -⟩ :=
        hpool.turn haddressing hready₁ (by rw [← hreceived]; exact hstarted) hiterator hvalid
      refine ⟨vp', vc', true, (n, .work) :: if work.query.isSome then [(n, .ask)] else [], ?_,
        .inl rfl⟩
      simp only [hwork]
      rfl
  | none =>
      obtain ⟨vp', vc', l', stages', events, hend, -, -, -, -, hcases⟩ :=
        hpool.endRound hready₁ hhistory
      refine ⟨vp', vc', false, events, ?_, .inr ?_⟩
      · simp only [hend]
        rfl
      · rcases hcases with ⟨g, content, hg, hne, rfl⟩ | ⟨-, hdone⟩
        · refine .inl ⟨⟨content, g.destination, g.tag, vc₁.rank⟩, ?_, hne⟩
          rw [← Communicates.outbox_processInbox hprocess]
          have hcontent : (vc₁.messageContent.get g.tag).get g.destination = content := by
            show (vc₁.contentOf g).getD default = _
            rw [hg]
            rfl
          rw [← hcontent]
          rfl
        · exact .inr hdone

/-- When all active workers had their turn and no message is in flight, the next run flushes
a buffered group, or all the workers asleep are answered and become active. -/
theorem run_flushes (h : Pool registry vp vc workers l stages)
    (hhistory : IsHistory history stages) (hrestored : Restored vp)
    (hturns : ∀ w ∈ vp.activeWorkers, w ∈ vp.waitingWorkers ∨ w ∈ vp.workersDone)
    (hready : vc.isReady = true) {w : WorkerHandle} (hw : vp.Sleeps w)
    (inbox : List UnitMessage) (work : Work) :
    ∃ vp' vc' events, vp.run registry vc inbox work = some (vp', vc', false, events) ∧
      ((∃ g content, vc.contentOf g = some content ∧ content ≠ [] ∧
          vc' = { vc with globalPushedMessageStatus := false }.flushMessage g.tag g.destination) ∨
        vp.activeWorkers ≠ ∅ ∧
          ∀ w, vp.Sleeps w → w ∈ vp.activeWorkersToRestore ∧ w ∈ vp'.activeWorkers) := by
  have hprocess : vc.processInbox registry inbox vp.initiateIterator.activeWorkersToRestore =
      some (vc, vp.initiateIterator.activeWorkersToRestore) :=
    Communicates.processInbox_ready hready inbox _
  have hnot : ∀ k ∈ vp.activeWorkers,
      ¬ ∀ w, w ∈ vp.workersDone ∨ w ∈ vp.waitingWorkers → w < k := by
    intro k hk hbehind
    exact lt_irrefl k (hbehind k (hturns k hk).symm)
  have hstart := h.roster.initiateIterator.1
  have hsame : vp.initiateIterator.activeWorkers = vp.activeWorkers ∧
      vp.initiateIterator.workersDone = vp.workersDone ∧
      vp.initiateIterator.waitingWorkers = vp.waitingWorkers ∧
      vp.initiateIterator.activeWorkersToRestore = vp.activeWorkersToRestore := by
    unfold VirtualProcessor.initiateIterator
    split <;> exact ⟨rfl, rfl, rfl, rfl⟩
  have hiterator : vp.initiateIterator.activeWorkerIterator = none := by
    cases hk : vp.initiateIterator.activeWorkerIterator with
    | none => rfl
    | some k =>
        obtain ⟨hmem, hbehind⟩ := hstart.iterator k hk
        rw [hsame.1] at hmem
        rw [hsame.2.1, hsame.2.2.1] at hbehind
        exact absurd hbehind (hnot k hmem)
  obtain ⟨vp', vc', l', stages', events, hend, -, -, -, hactive, hcases⟩ :=
    h.initiateIterator.endRound hready hhistory
  refine ⟨vp', vc', events, ?_, ?_⟩
  · rw [run_eq hprocess work]
    generalize hreceived : ({ vp.initiateIterator with
      activeWorkersToRestore := vp.initiateIterator.activeWorkersToRestore } :
        VirtualProcessor) = received
    have hsame' : received = vp.initiateIterator := hreceived.symm
    rw [hsame', if_pos hready]
    simp only [hiterator, hend]
    rfl
  · rcases hcases with hflushed | ⟨hunanswered, -⟩
    · exact .inl hflushed
    · -- no worker is unanswered
      have hrestore : ∀ w, vp.Sleeps w → w ∈ vp.activeWorkersToRestore := by
        intro w hw
        have hmem := (h.sleepers.mem w).mpr hw
        rwa [hunanswered, List.nil_append] at hmem
      refine .inr ⟨hrestored (List.ne_nil_of_mem (hrestore w hw)),
        fun w hw => ⟨hrestore w hw, ?_⟩⟩
      apply hactive
      rw [hsame.2.2.2]
      exact hrestore w hw

end Pool

end RayPlatform
