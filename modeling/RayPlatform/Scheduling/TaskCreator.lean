import RayPlatform.Scheduling.VirtualProcessorPool

/-!
# TaskCreator

Each tick of a TaskCreator may add a worker for the next task, lets the VirtualProcessor
run, and completes and destroys the worker that has worked if it is done. Whatever the
workers do and whenever the replies arrive, no worker works while it waits, each is
completed once before it leaves, and the pool does not get stuck
(`taskCreator_schedulesSoundly`).
-/

namespace RayPlatform

open Lib (IsHistory LifeEvent LifeStage ProperHistory TransitionSystem)
open Lib.TransitionSystem (runAll)
open VirtualCommunicator

structure TaskCreator where
  initialized : Bool
  completedJobs : Nat
  virtualProcessor : VirtualProcessor
  virtualCommunicator : VirtualCommunicator
  /-- how many workers were created -/
  workers : Nat
  history : PoolHistory

/-- What one call of `mainLoop` gets from the tasks, from the network and from the worker
whose turn it is. -/
structure Tick where
  /-- the handle of the worker of `assignNextTask`, if there is an unassigned task -/
  task : Option WorkerHandle
  /-- `!hasUnassignedTask()` after the assignment -/
  isLast : Bool
  /-- `hasUnassignedTask` at the end of the call -/
  hasUnassignedTask : Bool
  /-- the inbox has one message at most -/
  inbox : Option UnitMessage
  work : Work

namespace TaskCreator

def constructor (vp : VirtualProcessor) (vc : VirtualCommunicator) : TaskCreator :=
  { initialized := false
    completedJobs := 0
    virtualProcessor := vp
    virtualCommunicator := vc
    workers := 0
    history := [] }

variable (tc : TaskCreator)

def initializeOnce : TaskCreator :=
  if tc.initialized then tc
  else
    { tc with
      initialized := true
      completedJobs := 0 }

/-- A worker for the next task, if there is one and the processor has room. -/
def assignTask (tick : Tick) : TaskCreator :=
  match tick.task with
  | none => tc
  | some workerId =>
      if tc.virtualProcessor.canAddWorker then
        let vp := tc.virtualProcessor.addWorker workerId tc.workers
        { tc with
          virtualProcessor := if tick.isLast then vp.noMoreTasksAreComing else vp
          workers := tc.workers + 1
          history := tc.history ++ [(tc.workers, .add)] }
      else tc

/-- A worker that is done after its turn is completed and destroyed. -/
def finishWorker (aWorkerWorked : Bool) (work : Work) : Option TaskCreator :=
  if aWorkerWorked && work.isDone then do
    let worker ← tc.virtualProcessor.getCurrentWorker
    return { tc with
      completedJobs := tc.completedJobs + 1
      history := tc.history ++ [(worker, .complete), (worker, .destroy)] }
  else some tc

/-- The reset when nothing is left to do. -/
def finish (hasUnassignedTask : Bool) : TaskCreator :=
  if !hasUnassignedTask && !tc.virtualProcessor.hasWorkToDo then
    { tc with virtualProcessor := tc.virtualProcessor.reset }
  else tc

def mainLoop (registry : TagRegistry) (tick : Tick) : Option TaskCreator := do
  let tc := tc.initializeOnce.assignTask tick
  let (vp, vc, aWorkerWorked, events) ←
    tc.virtualProcessor.run registry tc.virtualCommunicator tick.inbox.toList tick.work
  let tc :=
    { tc with
      virtualProcessor := vp
      virtualCommunicator := vc
      history := tc.history ++ events }
  let tc ← tc.finishWorker aWorkerWorked tick.work
  return tc.finish tick.hasUnassignedTask

/-- The contract of a tick: a new worker has a handle of its own, as `addWorker` asserts, a
query is one that `pushMessage` accepts, and a reply has a block for each query. -/
structure Allowed (registry : TagRegistry) (size : Int32) (tick : Tick) : Prop where
  fresh : ∀ w ∈ tick.task, tc.virtualProcessor.canAddWorker = true →
    tc.virtualProcessor.aliveWorkers.lookup w = none
  query : ∀ query ∈ tick.work.query, query.Valid registry size
  reply : ∀ message ∈ tick.inbox, tc.virtualCommunicator.AcceptsReply registry message

end TaskCreator

def taskSystem (registry : TagRegistry) (size : Int32) (start : TaskCreator) :
    TransitionSystem TaskCreator Tick :=
  (TransitionSystem.ofExec start fun tc tick => tc.mainLoop registry tick).restrict
    fun tc tick => tc.Allowed registry size tick

/-! ## What is owed to the workers -/

/-- Where the query of a worker is. -/
inductive QueryPlace
  | buffered (group : Group)
  | inFlight
  | answered

namespace TaskCreator

variable (tc : TaskCreator)

def QueryAt (w : WorkerHandle) : QueryPlace → Prop
  | .buffered group =>
      w ∈ tc.virtualCommunicator.workersOf group ∧
        (tc.virtualCommunicator.contentOf group).isSome = true
  | .inFlight =>
      tc.virtualCommunicator.pendingMessages = 1 ∧
        w ∈ tc.virtualCommunicator.workersOf
          ⟨tc.virtualCommunicator.activeTag, tc.virtualCommunicator.activeDestination⟩
  | .answered =>
      w ∈ tc.virtualProcessor.activeWorkersToRestore ∧
        tc.virtualCommunicator.isMessageProcessed w = true

end TaskCreator

/-- What holds of a TaskCreator between two ticks. -/
structure SchedulesSoundly (registry : TagRegistry) (size : Int32) (tc : TaskCreator) : Prop where
  /-- no worker works while it is unanswered or after it was destroyed, none is completed or
  destroyed twice, and those that leave were completed -/
  history : ProperHistory tc.history
  /-- a worker is alive or has left -/
  accounted : ∀ n < tc.workers,
    (∃ w, tc.virtualProcessor.aliveWorkers.lookup w = some n) ∨ (n, .leave) ∈ tc.history
  pending : tc.virtualCommunicator.pendingMessages = 0 ∨
    tc.virtualCommunicator.pendingMessages = 1
  /-- the query of a worker that waits is in one place, and there once -/
  places : ∀ w, tc.virtualProcessor.Sleeps w → ∃! place, tc.QueryAt w place
  once : (∀ group, (tc.virtualCommunicator.workersOf group).Nodup) ∧
    tc.virtualProcessor.activeWorkersToRestore.Nodup
  /-- no tick fails -/
  continues : ∀ tick, tc.Allowed registry size tick → ∃ tc', tc.mainLoop registry tick = some tc'
  /-- when no worker has a turn left and nothing is pending, but a worker waits, the next run
  flushes a buffered group, or has all those that wait active again with their answers -/
  flushes : (∀ w ∈ tc.virtualProcessor.activeWorkers,
      w ∈ tc.virtualProcessor.waitingWorkers ∨ w ∈ tc.virtualProcessor.workersDone) →
    tc.virtualCommunicator.isReady = true → (∃ w, tc.virtualProcessor.Sleeps w) →
    ∀ inbox work, ∃ vp vc events,
      tc.virtualProcessor.run registry tc.virtualCommunicator inbox work =
          some (vp, vc, false, events) ∧
        ((∃ g content, tc.virtualCommunicator.contentOf g = some content ∧ content ≠ [] ∧
            vc = { tc.virtualCommunicator with globalPushedMessageStatus := false }.flushMessage
              g.tag g.destination) ∨
          tc.virtualProcessor.activeWorkers ≠ ∅ ∧ ∀ w, tc.virtualProcessor.Sleeps w →
            w ∈ tc.virtualProcessor.activeWorkersToRestore ∧ w ∈ vp.activeWorkers)
  /-- and any run that need not wait for a reply goes on -/
  progresses : ∀ tick, tc.Allowed registry size tick →
    (tc.virtualCommunicator.isReady = true ∨
      ∃ message ∈ tick.inbox, tc.virtualCommunicator.Awaits registry message) →
    ∃ vp vc worked events,
      tc.virtualProcessor.run registry tc.virtualCommunicator tick.inbox.toList tick.work =
          some (vp, vc, worked, events) ∧
        (worked = true ∨
          (∃ message, vc.outbox = tc.virtualCommunicator.outbox ++ [message] ∧
            message.content ≠ []) ∨
          vp.activeWorkerIterator.isSome = true ∨ vp.hasWorkToDo = false)

/-! ## One tick -/

namespace TaskCreator

/-- The invariant of the ticks. -/
structure Invariant (registry : TagRegistry) (tc : TaskCreator) (l : QueryLedger)
    (stages : Nat → LifeStage) : Prop where
  pool : Pool registry tc.virtualProcessor tc.virtualCommunicator tc.workers l stages
  history : IsHistory tc.history stages
  restored : Pool.Restored tc.virtualProcessor

variable {registry : TagRegistry} {size : Int32} {tc : TaskCreator} {tick : Tick}
  {l : QueryLedger} {stages : Nat → LifeStage}

theorem Invariant.initializeOnce (h : tc.Invariant registry l stages) :
    tc.initializeOnce.Invariant registry l stages := by
  unfold TaskCreator.initializeOnce
  split
  · exact h
  · exact ⟨h.pool, h.history, h.restored⟩

/-- The worker of a new task is idle. -/
theorem Invariant.assignTask (h : tc.Invariant registry l stages)
    (hfresh : ∀ w ∈ tick.task, tc.virtualProcessor.canAddWorker = true →
      tc.virtualProcessor.aliveWorkers.lookup w = none) :
    ∃ stages', (tc.assignTask tick).Invariant registry l stages' ∧
      (tc.assignTask tick).virtualCommunicator = tc.virtualCommunicator := by
  unfold TaskCreator.assignTask
  cases htask : tick.task with
  | none => exact ⟨stages, h, rfl⟩
  | some w =>
      by_cases hroom : tc.virtualProcessor.canAddWorker = true
      · simp only [hroom, if_true]
        have hnone := hfresh w htask hroom
        have hadded : Pool registry (tc.virtualProcessor.addWorker w tc.workers)
            tc.virtualCommunicator (tc.workers + 1) l
            (Function.update stages tc.workers .idle) :=
          ⟨h.pool.roster.addWorker hnone, h.pool.sleepers.addWorker h.pool.roster hnone,
            h.pool.communicates⟩
        have hactive : (tc.virtualProcessor.addWorker w tc.workers).activeWorkers ≠ ∅ :=
          Finset.ne_empty_of_mem (Finset.mem_insert_self w _)
        have hnext : (stages tc.workers).next .add = some .idle := by
          rw [h.pool.roster.outside tc.workers (Nat.le_refl _)]
          rfl
        refine ⟨Function.update stages tc.workers .idle, ⟨?_, h.history.snoc hnext, ?_⟩, trivial⟩
        · cases tick.isLast with
          | false => exact hadded
          | true => exact hadded.noMoreTasksAreComing
        · cases tick.isLast with
          | false => exact fun _ => hactive
          | true => exact fun _ => hactive
      · simp only [hroom]
        exact ⟨stages, h, rfl⟩

/-- The worker that has worked, completed and destroyed if it is done. -/
theorem Invariant.finishWorker {n : Nat} {work : Work}
    (hcurrent : tc.virtualProcessor.getCurrentWorker = some n)
    (hhistory : IsHistory tc.history stages)
    (hstage : stages n = if work.query.isSome then .asleep else .idle)
    (hpool : Pool registry tc.virtualProcessor tc.virtualCommunicator tc.workers l
      (Function.update stages n (Roster.stageAfter work.query.isSome work.isDone)))
    (hrestored : Pool.Restored tc.virtualProcessor) :
    ∃ tc' stages', tc.finishWorker true work = some tc' ∧ tc'.Invariant registry l stages' := by
  cases hdone : work.isDone with
  | false =>
      refine ⟨tc, stages, ?_, ?_, hhistory, hrestored⟩
      · simp [TaskCreator.finishWorker, hdone]
      · have hsame : Roster.stageAfter work.query.isSome work.isDone = stages n := by
          rw [hstage, hdone]
          rfl
        rw [hsame, Function.update_eq_self] at hpool
        exact hpool
  | true =>
      have hquery := work.answered hdone
      rw [hquery] at hstage hpool
      have hidle : stages n = .idle := hstage
      have hcompleted := hhistory.snoc (show (stages n).next .complete = some .completed by
        rw [hidle]
        rfl)
      have hdestroyed := hcompleted.snoc
        (show (Function.update stages n LifeStage.completed n).next .destroy = some .destroyed by
          rw [Function.update_self]
          rfl)
      rw [Function.update_idem, List.append_assoc] at hdestroyed
      rw [hdone] at hpool
      let finished : TaskCreator :=
        { tc with
          completedJobs := tc.completedJobs + 1
          history := tc.history ++ [(n, .complete), (n, .destroy)] }
      refine ⟨finished, _, ?_, hpool, hdestroyed, hrestored⟩
      simp [TaskCreator.finishWorker, hdone, hcurrent, finished]

/-- The reset when nothing is left to do. -/
theorem Invariant.finish (h : tc.Invariant registry l stages) (hasUnassignedTask : Bool) :
    (tc.finish hasUnassignedTask).Invariant registry l stages := by
  unfold TaskCreator.finish
  split
  · rename_i hnone
    rw [Bool.and_eq_true, Bool.not_eq_true', Bool.not_eq_true'] at hnone
    exact ⟨h.pool.reset hnone.2, h.history, h.restored⟩
  · exact h

/-- A tick that keeps the contract succeeds, and keeps the invariant. -/
theorem Invariant.mainLoop (h : tc.Invariant registry l stages)
    (haddressing : Addressing registry size) (hallowed : tc.Allowed registry size tick) :
    ∃ tc' l' stages', tc.mainLoop registry tick = some tc' ∧
      tc'.Invariant registry l' stages' := by
  have hinit := h.initializeOnce
  have hsame : tc.initializeOnce.virtualProcessor = tc.virtualProcessor ∧
      tc.initializeOnce.virtualCommunicator = tc.virtualCommunicator := by
    unfold TaskCreator.initializeOnce
    split <;> exact ⟨rfl, rfl⟩
  obtain ⟨stages₁, hassigned, hvc⟩ := hinit.assignTask (by rw [hsame.1]; exact hallowed.fresh)
  rw [hsame.2] at hvc
  obtain ⟨vp, vc, worked, events, l', stages₂, hrun, hhistory, hrestored, hcases⟩ :=
    hassigned.pool.run haddressing hassigned.history hassigned.restored
      (by rw [hvc]; exact hallowed.reply) hallowed.query
  let ran : TaskCreator :=
    { tc.initializeOnce.assignTask tick with
      virtualProcessor := vp
      virtualCommunicator := vc
      history := (tc.initializeOnce.assignTask tick).history ++ events }
  have hloop : tc.mainLoop registry tick =
      (ran.finishWorker worked tick.work).map fun tc => tc.finish tick.hasUnassignedTask := by
    simp only [TaskCreator.mainLoop, hrun, Option.bind_eq_bind, Option.bind_some]
    exact Option.map_eq_bind.symm
  rw [hloop]
  rcases hcases with ⟨rfl, hpool⟩ | ⟨rfl, n, hcurrent, hstage, hpool⟩
  · have hran : ran.Invariant registry l' stages₂ := ⟨hpool, hhistory, hrestored⟩
    exact ⟨_, l', stages₂, rfl, hran.finish tick.hasUnassignedTask⟩
  · have hfinished : ∃ tc' stages', ran.finishWorker true tick.work = some tc' ∧
        tc'.Invariant registry l' stages' :=
      Invariant.finishWorker hcurrent hhistory hstage hpool hrestored
    obtain ⟨tc', stages', hfinish, hinvariant⟩ := hfinished
    refine ⟨_, l', stages', ?_, hinvariant.finish tick.hasUnassignedTask⟩
    rw [hfinish]
    rfl

/-! ## The places of the queries -/

/-- The workers of the requests that wait, those in flight, and those that are answered are
different. -/
theorem Invariant.apart (h : tc.Invariant registry l stages) :
    (l.waiting.map Lib.Request.client ++ (l.flying.map Lib.Request.client ++
      tc.virtualProcessor.activeWorkersToRestore)).Nodup := by
  have honce := h.pool.sleepers.once
  rw [unanswered, List.map_append, List.append_assoc] at honce
  exact honce

/-- A group that has content is not in flight. -/
theorem Invariant.queryAt_buffered (h : tc.Invariant registry l stages) {w : WorkerHandle}
    {group : Group} :
    tc.QueryAt w (.buffered group) ↔ ∃ r ∈ l.waiting, r.group = group ∧ r.client = w := by
  have hcommunicates := h.pool.communicates
  show w ∈ tc.virtualCommunicator.workersOf group ∧
    (tc.virtualCommunicator.contentOf group).isSome = true ↔ _
  rw [hcommunicates.refines.workers, hcommunicates.refines.content]
  constructor
  · rintro ⟨hw, hcontent⟩
    have hne : l.waitingFor group ≠ [] := by
      intro hnil
      simp [hnil] at hcontent
    obtain ⟨r, hr, hclient⟩ := List.mem_map.mp hw
    rcases List.mem_append.mp hr with hflying | hwaiting
    · exfalso
      obtain ⟨hmem, hgroup⟩ := List.mem_filter.mp hflying
      cases hbatch : l.inFlight with
      | none =>
          rw [Lib.Ledger.flying, hbatch] at hmem
          exact List.not_mem_nil hmem
      | some batch =>
          rw [Lib.Ledger.flying, hbatch] at hmem
          have hsame := (hcommunicates.sound.ordered batch
            (hcommunicates.sound.inFlight_mem batch hbatch)).2 r hmem
          have hempty := (hcommunicates.refines.alone batch hbatch).2
          rw [← hsame, show r.group = group by simpa using hgroup] at hempty
          exact hne hempty
    · obtain ⟨hmem, hgroup⟩ := mem_waitingFor hwaiting
      exact ⟨r, hmem, hgroup, hclient⟩
  · rintro ⟨r, hr, rfl, rfl⟩
    have hmem : r ∈ l.waitingFor r.group := by simpa [Lib.Ledger.waitingFor] using hr
    refine ⟨List.mem_map_of_mem (List.mem_append_right _ hmem), ?_⟩
    rw [if_neg (List.ne_nil_of_mem hmem)]
    rfl

theorem Invariant.queryAt_inFlight (h : tc.Invariant registry l stages) {w : WorkerHandle} :
    tc.QueryAt w .inFlight ↔ w ∈ l.flying.map Lib.Request.client := by
  have hcommunicates := h.pool.communicates
  show tc.virtualCommunicator.pendingMessages = 1 ∧ _ ↔ _
  rw [hcommunicates.refines.pending]
  cases hbatch : l.inFlight with
  | none => simp [Lib.Ledger.flying, hbatch]
  | some batch =>
      obtain ⟨htag, hdestination⟩ := hcommunicates.refines.active batch hbatch
      rw [htag, hdestination, hcommunicates.workersOf_active hbatch, Lib.Ledger.flying, hbatch]
      simp

theorem Invariant.queryAt_answered (h : tc.Invariant registry l stages) {w : WorkerHandle} :
    tc.QueryAt w .answered ↔ w ∈ tc.virtualProcessor.activeWorkersToRestore :=
  ⟨fun hw => hw.1, fun hw => ⟨hw, h.pool.communicates.isMessageProcessed_iff.mpr
    (h.pool.sleepers.answered w hw)⟩⟩

/-- The query of a worker that waits is in one place. -/
theorem Invariant.place (h : tc.Invariant registry l stages) {w : WorkerHandle}
    (hw : tc.virtualProcessor.Sleeps w) : ∃! place, tc.QueryAt w place := by
  obtain ⟨hwaiting, hrest, hapart⟩ := List.nodup_append.mp h.apart
  obtain ⟨-, -, hapart'⟩ := List.nodup_append.mp hrest
  -- two places of one worker are the same
  have hunique : ∀ p q, tc.QueryAt w p → tc.QueryAt w q → p = q := by
    have hbuffered : ∀ group, tc.QueryAt w (.buffered group) →
        w ∈ l.waiting.map Lib.Request.client := by
      intro group hp
      obtain ⟨r, hr, -, hclient⟩ := h.queryAt_buffered.mp hp
      exact List.mem_map.mpr ⟨r, hr, hclient⟩
    have hfirst : ∀ group q, tc.QueryAt w (.buffered group) → tc.QueryAt w q →
        q = .buffered group := by
      intro group q hp hq
      have hmem := hbuffered group hp
      cases q with
      | buffered group' =>
          obtain ⟨r, hr, rfl, hclient⟩ := h.queryAt_buffered.mp hp
          obtain ⟨r', hr', rfl, hclient'⟩ := h.queryAt_buffered.mp hq
          rw [List.inj_on_of_nodup_map hwaiting hr hr' (hclient.trans hclient'.symm)]
      | inFlight =>
          exact absurd rfl (hapart w hmem w
            (List.mem_append_left _ (h.queryAt_inFlight.mp hq)))
      | answered =>
          exact absurd rfl (hapart w hmem w
            (List.mem_append_right _ (h.queryAt_answered.mp hq)))
    intro p q hp hq
    cases p with
    | buffered group => exact (hfirst group q hp hq).symm
    | inFlight =>
        cases q with
        | buffered group => exact hfirst group .inFlight hq hp
        | inFlight => rfl
        | answered =>
            exact absurd rfl (hapart' w (h.queryAt_inFlight.mp hp) w (h.queryAt_answered.mp hq))
    | answered =>
        cases q with
        | buffered group => exact hfirst group .answered hq hp
        | inFlight =>
            exact absurd rfl (hapart' w (h.queryAt_inFlight.mp hq) w (h.queryAt_answered.mp hp))
        | answered => rfl
  have hsome : ∃ place, tc.QueryAt w place := by
    have hmem := (h.pool.sleepers.mem w).mpr hw
    rw [unanswered, List.map_append, List.append_assoc, List.mem_append, List.mem_append] at hmem
    rcases hmem with hmem | hmem | hmem
    · obtain ⟨r, hr, hclient⟩ := List.mem_map.mp hmem
      exact ⟨.buffered r.group, h.queryAt_buffered.mpr ⟨r, hr, rfl, hclient⟩⟩
    · exact ⟨.inFlight, h.queryAt_inFlight.mpr hmem⟩
    · exact ⟨.answered, h.queryAt_answered.mpr hmem⟩
  obtain ⟨place, hplace⟩ := hsome
  exact ⟨place, hplace, fun q hq => hunique q place hq hplace⟩

/-- No worker is in a group twice. -/
theorem Invariant.workersOf_nodup (h : tc.Invariant registry l stages) (group : Group) :
    (tc.virtualCommunicator.workersOf group).Nodup := by
  obtain ⟨hwaiting, hrest, hapart⟩ := List.nodup_append.mp h.apart
  obtain ⟨hflying, -, -⟩ := List.nodup_append.mp hrest
  rw [h.pool.communicates.refines.workers, List.map_append]
  refine List.nodup_append.mpr ⟨hflying.sublist (List.filter_sublist.map _),
    hwaiting.sublist (List.filter_sublist.map _), fun w hw w' hw' heq => ?_⟩
  have hmem := (List.filter_sublist.map Lib.Request.client).subset hw
  have hmem' := (List.filter_sublist.map Lib.Request.client).subset hw'
  exact hapart w' hmem' w (List.mem_append_left _ hmem) heq.symm

theorem Invariant.schedulesSoundly (h : tc.Invariant registry l stages)
    (haddressing : Addressing registry size) : SchedulesSoundly registry size tc := by
  refine ⟨h.history.proper, fun n hn => ?_, ?_, fun w hw => h.place hw,
    ⟨h.workersOf_nodup, h.pool.sleepers.restore_nodup⟩, fun tick hallowed => ?_,
    fun hturns hready ⟨w, hw⟩ inbox work => ?_, fun tick hallowed hready => ?_⟩
  · by_cases halive : ∃ w, tc.virtualProcessor.aliveWorkers.lookup w = some n
    · exact .inl halive
    · right
      have hgone := h.pool.roster.gone n hn fun w hw => halive ⟨w, hw⟩
      have hleft := (h.history.past n).left
      rw [hgone] at hleft
      exact List.count_pos_iff.mp (by rw [hleft]; exact Nat.one_pos)
  · rw [h.pool.communicates.refines.pending]
    split
    · exact .inr rfl
    · exact .inl rfl
  · obtain ⟨tc', -, -, hloop, -⟩ := h.mainLoop haddressing hallowed
    exact ⟨tc', hloop⟩
  · exact h.pool.run_flushes h.history h.restored hturns hready hw inbox work
  · exact h.pool.run_progress haddressing h.history hallowed.reply hready hallowed.query

/-- A processor, a communicator and a task creator that have not started yet. -/
def start (rank activeDestination : Rank) (activeTag : MessageTag)
    (currentWorker : WorkerHandle) : TaskCreator :=
  constructor (.constructor currentWorker) (.constructor rank activeDestination activeTag)

theorem start_invariant (registry : TagRegistry) (rank activeDestination : Rank)
    (activeTag : MessageTag) (currentWorker : WorkerHandle) :
    (start rank activeDestination activeTag currentWorker).Invariant registry .empty
      fun _ => .outside := by
  have hsession := Session.start_invariant registry rank activeDestination activeTag
  refine ⟨⟨.constructor currentWorker, ⟨.nil, fun w => ?_, fun w hw => absurd hw List.not_mem_nil⟩,
    hsession.refines, hsession.roomy, hsession.sound⟩, .nil, fun hne => absurd rfl hne⟩
  refine iff_of_false List.not_mem_nil ?_
  rintro ⟨⟨n, hn⟩, -⟩
  cases hn

end TaskCreator

/-- Every run of a TaskCreator schedules its workers soundly. -/
theorem taskCreator_schedulesSoundly (registry : TagRegistry) (size : Int32)
    (haddressing : Addressing registry size) (rank activeDestination : Rank)
    (activeTag : MessageTag) (currentWorker : WorkerHandle) (tc : TaskCreator)
    (htc : (taskSystem registry size
      (TaskCreator.start rank activeDestination activeTag currentWorker)).Reachable tc) :
    SchedulesSoundly registry size tc := by
  have hinductive : (taskSystem registry size
      (TaskCreator.start rank activeDestination activeTag currentWorker)).Inductive
        fun tc => ∃ l stages, tc.Invariant registry l stages := by
    refine ⟨fun tc hinit => ?_, fun tc tick tc' ⟨l, stages, h⟩ ⟨hallowed, hstep⟩ => ?_⟩
    · rw [show tc = _ from hinit]
      exact ⟨_, _, TaskCreator.start_invariant registry rank activeDestination activeTag _⟩
    · obtain ⟨next, l', stages', hloop, hnext⟩ := h.mainLoop haddressing hallowed
      rw [show tc.mainLoop registry tick = some tc' from hstep] at hloop
      cases hloop
      exact ⟨l', stages', hnext⟩
  obtain ⟨l, stages, h⟩ := hinductive.holds htc
  exact h.schedulesSoundly haddressing

/-! ## Runs -/

instance decidableWorkerQueryValid (registry : TagRegistry) (size : Int32) (query : WorkerQuery) :
    Decidable (query.Valid registry size) :=
  decidable_of_iff (query.content ≠ [] ∧
      query.content.length ≤ registry.elementSizes query.group.tag ∧
      0 ≤ query.group.destination ∧ query.group.destination < size)
    ⟨fun ⟨hne, hfits, hdestination⟩ => ⟨hne, hfits, hdestination⟩,
      fun ⟨hne, hfits, hdestination⟩ => ⟨hne, hfits, hdestination⟩⟩

instance (registry : TagRegistry) (vc : VirtualCommunicator) (message : UnitMessage) :
    Decidable (vc.Awaits registry message) :=
  decidable_of_iff (0 < vc.pendingMessages ∧
      registry.replyTagToQueryTag message.tag = some vc.activeTag ∧
      message.source = vc.activeDestination)
    ⟨fun ⟨hpending, htag, hsource⟩ => ⟨hpending, htag, hsource⟩,
      fun ⟨hpending, htag, hsource⟩ => ⟨hpending, htag, hsource⟩⟩

instance (registry : TagRegistry) (vc : VirtualCommunicator) (message : UnitMessage) :
    Decidable (vc.AcceptsReply registry message) :=
  inferInstanceAs (Decidable (_ → _))

instance (registry : TagRegistry) (size : Int32) (tc : TaskCreator) (tick : Tick) :
    Decidable (tc.Allowed registry size tick) :=
  -- The search is over the handle of the tick, not over all handles.
  haveI : Decidable (∀ w ∈ tick.task, tc.virtualProcessor.canAddWorker = true →
      tc.virtualProcessor.aliveWorkers.lookup w = none) := Option.decidableForallMem _
  decidable_of_iff ((∀ w ∈ tick.task, tc.virtualProcessor.canAddWorker = true →
        tc.virtualProcessor.aliveWorkers.lookup w = none) ∧
      (∀ query ∈ tick.work.query, query.Valid registry size) ∧
      ∀ message ∈ tick.inbox, tc.virtualCommunicator.AcceptsReply registry message)
    ⟨fun ⟨hfresh, hquery, hreply⟩ => ⟨hfresh, hquery, hreply⟩,
      fun ⟨hfresh, hquery, hreply⟩ => ⟨hfresh, hquery, hreply⟩⟩

namespace Work

def asks (query : WorkerQuery) : Work :=
  ⟨true, some query, false, fun _ => rfl, fun h => by cases h⟩

/-- The worker takes its response and is done. -/
def ends : Work :=
  ⟨true, none, true, fun _ => rfl, fun _ => rfl⟩

end Work

/-- A run of ticks that keep the contract. -/
def runTicks (registry : TagRegistry) (size : Int32) : List Tick → Option TaskCreator :=
  runAll (Lib.TransitionSystem.guarded (fun tc tick => TaskCreator.Allowed tc registry size tick)
    fun tc tick => tc.mainLoop registry tick) (.start 0 0 0 0)

theorem reachable_runTicks {registry : TagRegistry} {size : Int32} {ticks : List Tick}
    {tc : TaskCreator} (hticks : runTicks registry size ticks = some tc) :
    (taskSystem registry size (.start 0 0 0 0)).Reachable tc :=
  .of_guarded (.runAll (.init rfl) hticks)

/-- Two workers: the first asks and is answered while the second works. -/
theorem taskCreator_schedulesSoundly_two : ∃ tc : TaskCreator,
    tc.history = [(0, .add), (0, .work), (0, .ask), (1, .add), (1, .work), (1, .complete),
      (1, .destroy), (1, .leave), (0, .reactivate), (0, .work), (0, .complete), (0, .destroy),
      (0, .leave)] ∧ SchedulesSoundly pairRegistry 4 tc := by
  let idle : Tick := ⟨none, true, false, none, .ends⟩
  have hrun : (runTicks pairRegistry 4 [⟨some 7, false, true, none, .asks ⟨⟨3, 1⟩, [10]⟩⟩,
      ⟨some 8, true, false, none, .ends⟩, idle, { idle with inbox := some ⟨[1, 2], 0, 4, 1⟩ },
      idle, idle, idle]).map TaskCreator.history =
      some [(0, .add), (0, .work), (0, .ask), (1, .add), (1, .work), (1, .complete),
        (1, .destroy), (1, .leave), (0, .reactivate), (0, .work), (0, .complete), (0, .destroy),
        (0, .leave)] := by decide +kernel
  obtain ⟨tc, hticks, hhistory⟩ := Option.map_eq_some_iff.mp hrun
  exact ⟨tc, hhistory, taskCreator_schedulesSoundly pairRegistry 4 pairRegistry_addressing 0 0 0 0
    tc (reachable_runTicks hticks)⟩

/-- One worker waits, and all messages that the next run sends are empty. -/
def SendsNothing (registry : TagRegistry) (w : WorkerHandle) (tc : TaskCreator) : Prop :=
  tc.virtualProcessor.aliveWorkers.lookup w = some 0 ∧ tc.virtualProcessor.waitingWorkers = [w] ∧
    tc.virtualProcessor.activeWorkers = {w} ∧
    tc.virtualProcessor.activeWorkersToRestore = [] ∧ tc.virtualCommunicator.isReady = true ∧
    (tc.virtualProcessor.run registry tc.virtualCommunicator [] .ends).map
      (fun r => r.2.1.outbox.map UnitMessage.content) = some [[]]

instance (registry : TagRegistry) (w : WorkerHandle) (tc : TaskCreator) :
    Decidable (SendsNothing registry w tc) :=
  inferInstanceAs (Decidable (_ ∧ _))

theorem SendsNothing.not_schedulesSoundly {registry : TagRegistry} {size : Int32}
    {w : WorkerHandle} {tc : TaskCreator} (h : SendsNothing registry w tc) :
    ¬ SchedulesSoundly registry size tc := by
  intro hsound
  obtain ⟨halive, hwaiting, hactive, hrestore, hready, hsent⟩ := h
  have hturns : ∀ v ∈ tc.virtualProcessor.activeWorkers,
      v ∈ tc.virtualProcessor.waitingWorkers ∨ v ∈ tc.virtualProcessor.workersDone := by
    intro v hv
    rw [hactive, Finset.mem_singleton] at hv
    rw [hwaiting, hv]
    exact .inl List.mem_cons_self
  have hsleeps : tc.virtualProcessor.Sleeps w :=
    ⟨⟨0, halive⟩, .inl (by rw [hwaiting]; exact List.mem_cons_self)⟩
  obtain ⟨vp, vc, events, hrun, hcases⟩ :=
    hsound.flushes hturns hready ⟨w, hsleeps⟩ [] .ends
  rcases hcases with ⟨g, content, hg, hne, rfl⟩ | ⟨-, hrestored⟩
  · rw [hrun] at hsent
    have hmem : content ∈ [([] : List MessageUnit)] := by
      rw [← Option.some.inj hsent]
      refine List.mem_map.mpr ⟨_, List.mem_append_right _ List.mem_cons_self, ?_⟩
      show (tc.virtualCommunicator.contentOf g).getD default = content
      rw [hg]
      rfl
    exact hne (List.mem_singleton.mp hmem)
  · have hmem := (hrestored w hsleeps).1
    rw [hrestore] at hmem
    exact List.not_mem_nil hmem

/-- With tag -1, or with destination 1000000, the end of the round sends an empty message to
another group, and the query of the worker stays where it is. -/
theorem taskCreator_flushes_nothing :
    (¬ ∀ tc, (taskSystem (oneTagRegistry (-1)) 4 (.start 0 0 0 0)).Reachable tc →
      SchedulesSoundly (oneTagRegistry (-1)) 4 tc) ∧
    ¬ ∀ tc, (taskSystem (oneTagRegistry 0) 1000001 (.start 0 0 0 0)).Reachable tc →
      SchedulesSoundly (oneTagRegistry 0) 1000001 tc := by
  have hstuck : ∀ {registry : TagRegistry} {size : Int32} {w : WorkerHandle} {ticks : List Tick},
      (runTicks registry size ticks).map (fun tc => decide (SendsNothing registry w tc)) =
        some true →
      ¬ ∀ tc, (taskSystem registry size (.start 0 0 0 0)).Reachable tc →
        SchedulesSoundly registry size tc := by
    intro registry size w ticks hrun hall
    obtain ⟨tc, hticks, hnothing⟩ := Option.map_eq_some_iff.mp hrun
    exact (of_decide_eq_true hnothing).not_schedulesSoundly (hall tc (reachable_runTicks hticks))
  constructor
  · exact hstuck (show (runTicks _ _ [⟨some 7, true, false, none, .asks ⟨⟨-1, 2⟩, [10]⟩⟩]).map
      (fun tc => decide (SendsNothing _ 7 tc)) = some true by decide +kernel)
  · exact hstuck (show (runTicks _ _ [⟨some 7, true, false, none,
      .asks ⟨⟨0, 1000000⟩, [10]⟩⟩]).map (fun tc => decide (SendsNothing _ 7 tc)) = some true by
        decide +kernel)

end RayPlatform
