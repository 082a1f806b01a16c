import RayPlatform.Scheduling.WorkerQueries

/-!
# The roster of the workers

`Roster` relates the sets of a VirtualProcessor to the stages of the workers' lives: an
active worker is idle until it has had its turn, one that waits or is not active is
asleep. The workers asleep are those that are unanswered or about to be restored
(`Sleepers`). Both survive a new worker, the turn of a worker and the end of a round.
-/

namespace RayPlatform

open Lib (Map IsHistory LifeEvent LifeStage)
open Lib.Map (first?_eq_none_iff first?_mem)
open VirtualCommunicator

/-! ## Sets of workers -/

theorem mem_foldl_erase {ws : List WorkerHandle} {s : Finset WorkerHandle} {w : WorkerHandle} :
    w ∈ ws.foldl Finset.erase s ↔ w ∈ s ∧ w ∉ ws := by
  induction ws generalizing s with
  | nil => simp
  | cons v ws ih =>
      rw [List.foldl_cons, ih, Finset.mem_erase, List.mem_cons]
      tauto

theorem mem_foldl_insert {ws : List WorkerHandle} {s : Finset WorkerHandle} {w : WorkerHandle} :
    w ∈ ws.foldl (fun active v => insert v active) s ↔ w ∈ ws ∨ w ∈ s := by
  induction ws generalizing s with
  | nil => simp
  | cons v ws ih =>
      rw [List.foldl_cons, ih, Finset.mem_insert, List.mem_cons]
      tauto

theorem lookup_foldl_erase {ws : List WorkerHandle} {m : Map WorkerHandle Nat}
    {w : WorkerHandle} :
    (ws.foldl (fun alive v => Finmap.erase v alive) m).lookup w =
      if w ∈ ws then none else m.lookup w := by
  induction ws generalizing m with
  | nil => simp
  | cons v ws ih =>
      rw [List.foldl_cons, ih]
      by_cases hw : w = v
      · rw [hw, Finmap.lookup_erase]
        simp
      · simp [hw, Finmap.lookup_erase_ne hw]

namespace VirtualProcessor

variable (vp : VirtualProcessor)

/-- A living worker that waits for its answer. -/
def Sleeps (w : WorkerHandle) : Prop :=
  (∃ n, vp.aliveWorkers.lookup w = some n) ∧ (w ∈ vp.waitingWorkers ∨ w ∉ vp.activeWorkers)

/-- The stage of a living worker. -/
def stageOf (w : WorkerHandle) : LifeStage :=
  if w ∈ vp.workersDone then .destroyed
  else if w ∈ vp.waitingWorkers ∨ w ∉ vp.activeWorkers then .asleep
  else .idle

/-- The numbers of the workers that are alive. -/
def numbersOf (ws : List WorkerHandle) : List Nat :=
  ws.filterMap vp.aliveWorkers.lookup

theorem eventsOf_eq (event : LifeEvent) (ws : List WorkerHandle) :
    vp.eventsOf event ws = (vp.numbersOf ws).map fun n => (n, event) := by
  unfold eventsOf numbersOf
  rw [List.map_filterMap]

theorem mem_numbersOf {ws : List WorkerHandle} {n : Nat} :
    n ∈ vp.numbersOf ws ↔ ∃ w ∈ ws, vp.aliveWorkers.lookup w = some n :=
  List.mem_filterMap

/-- Who is alive after a worker was added. -/
theorem lookup_addWorker (w₀ w : WorkerHandle) (n : Nat) :
    (vp.addWorker w₀ n).aliveWorkers.lookup w =
      if w = w₀ then some n else vp.aliveWorkers.lookup w := by
  show (vp.aliveWorkers.insert w₀ n).lookup w = _
  split
  case isTrue hw => rw [hw, Finmap.lookup_insert]
  case isFalse hw => rw [Finmap.lookup_insert_of_ne _ hw]

/-- Who is alive after the end of a round. -/
theorem lookup_updateStates (w : WorkerHandle) :
    vp.updateStates.1.aliveWorkers.lookup w =
      if w ∈ vp.workersDone then none else vp.aliveWorkers.lookup w :=
  lookup_foldl_erase

/-- Who is active after the end of a round. -/
theorem mem_activeWorkers_updateStates {w : WorkerHandle} :
    w ∈ vp.updateStates.1.activeWorkers ↔ w ∈ vp.activeWorkersToRestore ∨
      (w ∈ vp.activeWorkers ∧ w ∉ vp.workersDone) ∧ w ∉ vp.waitingWorkers := by
  show w ∈ vp.activeWorkersToRestore.foldl _ (vp.waitingWorkers.foldl Finset.erase
    (vp.workersDone.foldl Finset.erase vp.activeWorkers)) ↔ _
  rw [mem_foldl_insert, mem_foldl_erase, mem_foldl_erase]

theorem mem_begin {k : WorkerHandle} (h : vp.begin = some k) : k ∈ vp.activeWorkers :=
  first?_mem h

theorem begin_eq_none_iff : vp.begin = none ↔ vp.activeWorkers = ∅ :=
  first?_eq_none_iff

theorem mem_next {w k : WorkerHandle} (h : vp.next w = some k) : k ∈ vp.activeWorkers ∧ w < k := by
  simpa using first?_mem h

end VirtualProcessor

/-! ## The roster -/

/-- The sets of a VirtualProcessor, against the stages of the workers created so far. -/
structure Roster (vp : VirtualProcessor) (workers : Nat)
    (stages : Nat → LifeStage) : Prop where
  numbered : ∀ w n, vp.aliveWorkers.lookup w = some n → n < workers
  distinct : ∀ w w' n, vp.aliveWorkers.lookup w = some n → vp.aliveWorkers.lookup w' = some n →
    w = w'
  outside : ∀ n, workers ≤ n → stages n = .outside
  gone : ∀ n, n < workers → (∀ w, vp.aliveWorkers.lookup w ≠ some n) → stages n = .gone
  stage : ∀ w n, vp.aliveWorkers.lookup w = some n → stages n = vp.stageOf w
  alive : ∀ w ∈ vp.activeWorkers, ∃ n, vp.aliveWorkers.lookup w = some n
  done : ∀ w ∈ vp.workersDone, w ∈ vp.activeWorkers ∧ w ∉ vp.waitingWorkers
  doneOnce : vp.workersDone.Nodup
  waiting : ∀ w ∈ vp.waitingWorkers, w ∈ vp.activeWorkers
  /-- the workers that had their turn are behind the iterator -/
  iterator : ∀ k, vp.activeWorkerIterator = some k →
    k ∈ vp.activeWorkers ∧ ∀ w, w ∈ vp.workersDone ∨ w ∈ vp.waitingWorkers → w < k
  started : vp.initiatedIterator = false → vp.workersDone = [] ∧ vp.waitingWorkers = []

namespace Roster

variable {vp : VirtualProcessor} {workers : Nat} {stages : Nat → LifeStage}
  {history : PoolHistory}

theorem constructor (currentWorker : WorkerHandle) :
    Roster (VirtualProcessor.constructor currentWorker) 0 fun _ => .outside := by
  have hnone : ∀ w, (VirtualProcessor.constructor currentWorker).aliveWorkers.lookup w = none :=
    fun w => rfl
  refine ⟨fun w n h => ?_, fun w w' n h => ?_, fun _ _ => rfl, fun n hn => ?_, fun w n h => ?_,
    fun w hw => absurd hw (Finset.notMem_empty w), fun w hw => absurd hw List.not_mem_nil, .nil,
    fun w hw => absurd hw List.not_mem_nil, (fun k hk => by cases hk), fun _ => ⟨rfl, rfl⟩⟩
  · rw [hnone] at h
    cases h
  · rw [hnone] at h
    cases h
  · omega
  · rw [hnone] at h
    cases h

/-- Only idle workers get a turn. -/
theorem idle (h : Roster vp workers stages) {k : WorkerHandle}
    (hk : vp.activeWorkerIterator = some k) :
    ∃ n, vp.aliveWorkers.lookup k = some n ∧ stages n = .idle ∧ ¬ vp.Sleeps k := by
  obtain ⟨hactive, hbehind⟩ := h.iterator k hk
  obtain ⟨n, hn⟩ := h.alive k hactive
  have hdone : k ∉ vp.workersDone := fun hmem => lt_irrefl k (hbehind k (.inl hmem))
  have hwaiting : k ∉ vp.waitingWorkers := fun hmem => lt_irrefl k (hbehind k (.inr hmem))
  refine ⟨n, hn, ?_, ?_⟩
  · rw [h.stage k n hn, VirtualProcessor.stageOf, if_neg hdone, if_neg]
    rintro (hmem | hmem)
    · exact hwaiting hmem
    · exact hmem hactive
  · rintro ⟨-, hmem | hmem⟩
    · exact hwaiting hmem
    · exact hmem hactive

theorem numbersOf_nodup (h : Roster vp workers stages) {ws : List WorkerHandle}
    (hnodup : ws.Nodup) : (vp.numbersOf ws).Nodup :=
  hnodup.filterMap fun w w' n hw hw' => h.distinct w w' n hw hw'

/-- The numbers of a list are those of its workers only. -/
theorem mem_numbersOf_iff (h : Roster vp workers stages) {ws : List WorkerHandle}
    {w : WorkerHandle} {n : Nat} (hn : vp.aliveWorkers.lookup w = some n) :
    n ∈ vp.numbersOf ws ↔ w ∈ ws := by
  rw [vp.mem_numbersOf]
  constructor
  · rintro ⟨w', hw', hn'⟩
    rw [h.distinct w w' n hn hn']
    exact hw'
  · intro hw
    exact ⟨w, hw, hn⟩

/-- A worker that is not alive is in none of the sets. -/
theorem notMem_of_fresh (h : Roster vp workers stages) {w₀ : WorkerHandle}
    (hfresh : vp.aliveWorkers.lookup w₀ = none) :
    w₀ ∉ vp.activeWorkers ∧ w₀ ∉ vp.workersDone ∧ w₀ ∉ vp.waitingWorkers := by
  have hnew : w₀ ∉ vp.activeWorkers := by
    intro hmem
    obtain ⟨n, hn⟩ := h.alive w₀ hmem
    rw [hfresh] at hn
    cases hn
  exact ⟨hnew, fun hmem => hnew (h.done w₀ hmem).1, fun hmem => hnew (h.waiting w₀ hmem)⟩

/-- A new worker is idle. -/
theorem addWorker (h : Roster vp workers stages) {w₀ : WorkerHandle}
    (hfresh : vp.aliveWorkers.lookup w₀ = none) :
    Roster (vp.addWorker w₀ workers) (workers + 1) (Function.update stages workers .idle) := by
  have hlookup := fun w => vp.lookup_addWorker w₀ w workers
  have hactive : ∀ w, w ∈ (vp.addWorker w₀ workers).activeWorkers ↔
      w = w₀ ∨ w ∈ vp.activeWorkers := fun w => Finset.mem_insert
  obtain ⟨hnew, hdone, hwaiting⟩ := h.notMem_of_fresh hfresh
  have hold : ∀ w n, w ≠ w₀ → (vp.addWorker w₀ workers).aliveWorkers.lookup w = some n →
      vp.aliveWorkers.lookup w = some n ∧ n < workers := by
    intro w n hw hn
    rw [hlookup, if_neg hw] at hn
    exact ⟨hn, h.numbered w n hn⟩
  refine ⟨fun w n hn => ?_, fun w w' n hn hn' => ?_, fun n hn => ?_, fun n hn hout => ?_,
    fun w n hn => ?_, fun w hw => ?_, fun w hw => ?_, h.doneOnce, fun w hw => ?_, fun k hk => ?_,
    h.started⟩
  · by_cases hw : w = w₀
    · rw [hlookup, if_pos hw] at hn
      cases hn
      omega
    · exact Nat.lt_succ_of_lt (hold w n hw hn).2
  · by_cases hw : w = w₀
    · by_cases hw' : w' = w₀
      · rw [hw, hw']
      · rw [hlookup, if_pos hw] at hn
        cases hn
        exact absurd (hold w' _ hw' hn').2 (lt_irrefl _)
    · by_cases hw' : w' = w₀
      · rw [hlookup, if_pos hw'] at hn'
        cases hn'
        exact absurd (hold w _ hw hn).2 (lt_irrefl _)
      · exact h.distinct w w' n (hold w n hw hn).1 (hold w' n hw' hn').1
  · rw [Function.update_of_ne (by omega)]
    exact h.outside n (by omega)
  · have hne : n ≠ workers := by
      rintro rfl
      exact hout w₀ (by rw [hlookup, if_pos rfl])
    rw [Function.update_of_ne hne]
    refine h.gone n (by omega) fun w hn => hout w ?_
    rw [hlookup, if_neg]
    · exact hn
    · rintro rfl
      rw [hfresh] at hn
      cases hn
  · by_cases hw : w = w₀
    · rw [hlookup, if_pos hw] at hn
      cases hn
      rw [Function.update_self, hw]
      unfold VirtualProcessor.stageOf
      rw [if_neg (show w₀ ∉ (vp.addWorker w₀ workers).workersDone from hdone), if_neg]
      rintro (hmem | hmem)
      · exact hwaiting hmem
      · exact hmem ((hactive w₀).mpr (.inl rfl))
    · obtain ⟨hn, hlt⟩ := hold w n hw hn
      rw [Function.update_of_ne (Nat.ne_of_lt hlt), h.stage w n hn]
      unfold VirtualProcessor.stageOf
      simp only [hactive, hw, false_or]
      rfl
  · rcases (hactive w).mp hw with rfl | hmem
    · exact ⟨workers, by rw [hlookup, if_pos rfl]⟩
    · obtain ⟨n, hn⟩ := h.alive w hmem
      refine ⟨n, ?_⟩
      rw [hlookup, if_neg]
      · exact hn
      · rintro rfl
        exact hnew hmem
  · exact ⟨(hactive w).mpr (.inr (h.done w hw).1), (h.done w hw).2⟩
  · exact (hactive w).mpr (.inr (h.waiting w hw))
  · obtain ⟨hmem, hbehind⟩ := h.iterator k hk
    exact ⟨(hactive k).mpr (.inr hmem), hbehind⟩

/-- The list of the workers to restore is no part of the roster. -/
theorem restore (h : Roster vp workers stages) (answered : List WorkerHandle) :
    Roster { vp with activeWorkersToRestore := answered } workers stages :=
  ⟨h.numbered, h.distinct, h.outside, h.gone, h.stage, h.alive, h.done, h.doneOnce, h.waiting,
    h.iterator, h.started⟩

theorem initiateIterator (h : Roster vp workers stages) :
    Roster vp.initiateIterator workers stages ∧ vp.initiateIterator.initiatedIterator = true := by
  unfold VirtualProcessor.initiateIterator
  split
  · rename_i hstarted
    exact ⟨h, hstarted⟩
  · rename_i hstarted
    obtain ⟨hdone, hwaiting⟩ := h.started (by simpa using hstarted)
    refine ⟨⟨h.numbered, h.distinct, h.outside, h.gone, h.stage, h.alive, h.done, h.doneOnce,
      h.waiting, fun k hk => ⟨vp.mem_begin hk, fun w hw => ?_⟩, fun hfalse => by cases hfalse⟩, rfl⟩
    rw [show ({ vp with
      activeWorkerIterator := vp.begin
      initiatedIterator := true } : VirtualProcessor).workersDone = [] from hdone,
      show ({ vp with
        activeWorkerIterator := vp.begin
        initiatedIterator := true } : VirtualProcessor).waitingWorkers = [] from hwaiting] at hw
    simp at hw

/-- Who is in a list after a worker may have been put behind it. -/
theorem mem_push {ws : List WorkerHandle} {w k : WorkerHandle} {b : Bool} :
    w ∈ (if b then ws ++ [k] else ws) ↔ w ∈ ws ∨ (b = true ∧ w = k) := by
  cases b with
  | false => simp
  | true => simp

/-- The stage of a worker after its turn. -/
def stageAfter (pushed isDone : Bool) : LifeStage :=
  if pushed then .asleep else if isDone then .destroyed else .idle

/-- The turn of a worker, which waits afterwards, is done, or stays idle. -/
theorem turn (h : Roster vp workers stages) (hstarted : vp.initiatedIterator = true)
    {k : WorkerHandle} (hk : vp.activeWorkerIterator = some k) {n : Nat}
    (hn : vp.aliveWorkers.lookup k = some n) (pushed isDone : Bool) :
    Roster
      { vp with
        currentWorker := k
        waitingWorkers := if pushed then vp.waitingWorkers ++ [k] else vp.waitingWorkers
        workersDone := if !pushed && isDone then vp.workersDone ++ [k] else vp.workersDone
        activeWorkerIterator := vp.next k } workers
      (Function.update stages n (stageAfter pushed isDone)) := by
  obtain ⟨hactive, hbehind⟩ := h.iterator k hk
  have hdone : k ∉ vp.workersDone := fun hmem => lt_irrefl k (hbehind k (.inl hmem))
  have hwaiting : k ∉ vp.waitingWorkers := fun hmem => lt_irrefl k (hbehind k (.inr hmem))
  refine ⟨h.numbered, h.distinct, fun m hm => ?_, fun m hm hout => ?_, fun w m hm => ?_, h.alive,
    fun w hw => ?_, ?_, fun w hw => ?_, fun k' hk' => ?_, fun hfalse => ?_⟩
  · have hlt := h.numbered k n hn
    rw [Function.update_of_ne (by omega)]
    exact h.outside m hm
  · have hne : m ≠ n := by
      rintro rfl
      exact hout k hn
    rw [Function.update_of_ne hne]
    exact h.gone m hm hout
  · by_cases hw : w = k
    · subst hw
      have heq : m = n := by
        have hm' : vp.aliveWorkers.lookup w = some m := hm
        rw [hn] at hm'
        exact (Option.some.inj hm').symm
      rw [heq, Function.update_self]
      unfold VirtualProcessor.stageOf stageAfter
      cases pushed with
      | true => simp [hdone]
      | false =>
          cases isDone with
          | true => simp
          | false => simp [hdone, hwaiting, hactive]
    · have hne : m ≠ n := by
        rintro rfl
        exact hw (h.distinct w k m hm hn)
      rw [Function.update_of_ne hne, h.stage w m hm]
      unfold VirtualProcessor.stageOf
      simp only [mem_push, hw, and_false, or_false]
  · rcases mem_push.mp hw with hold | ⟨hnew, rfl⟩
    · refine ⟨(h.done w hold).1, fun hmem => ?_⟩
      rcases mem_push.mp hmem with hmem | ⟨-, rfl⟩
      · exact (h.done w hold).2 hmem
      · exact hdone hold
    · refine ⟨hactive, fun hmem => ?_⟩
      rcases mem_push.mp hmem with hmem | ⟨hpushed, -⟩
      · exact hwaiting hmem
      · simp [hpushed] at hnew
  · show (if !pushed && isDone then vp.workersDone ++ [k] else vp.workersDone).Nodup
    split
    · exact List.nodup_append.mpr ⟨h.doneOnce, List.nodup_singleton k, fun w hw v hv => by
        rw [List.mem_singleton.mp hv]
        rintro rfl
        exact hdone hw⟩
    · exact h.doneOnce
  · rcases mem_push.mp hw with hold | ⟨-, rfl⟩
    · exact h.waiting w hold
    · exact hactive
  · obtain ⟨hmem, hlt⟩ := vp.mem_next hk'
    refine ⟨hmem, fun w hw => ?_⟩
    have hle : w ≤ k := by
      rcases hw with hw | hw
      · rcases mem_push.mp hw with hold | ⟨-, rfl⟩
        · exact le_of_lt (hbehind w (.inl hold))
        · exact le_refl w
      · rcases mem_push.mp hw with hold | ⟨-, rfl⟩
        · exact le_of_lt (hbehind w (.inr hold))
        · exact le_refl w
    exact lt_of_le_of_lt hle hlt
  · rw [show vp.initiatedIterator = false from hfalse] at hstarted
    cases hstarted

/-- The stages after the end of a round: those that are done have left, those that were
answered are idle. -/
def stagesAfterRound (vp : VirtualProcessor) (stages : Nat → LifeStage) (n : Nat) : LifeStage :=
  if n ∈ vp.numbersOf vp.activeWorkersToRestore then .idle
  else if n ∈ vp.numbersOf vp.workersDone then .gone
  else stages n

/-- A worker that sleeps is not done. -/
theorem not_done_of_sleeps (h : Roster vp workers stages) {w : WorkerHandle} (hw : vp.Sleeps w) :
    w ∉ vp.workersDone := by
  intro hdone
  obtain ⟨hactive, hwaiting⟩ := h.done w hdone
  rcases hw.2 with hmem | hmem
  · exact hwaiting hmem
  · exact hmem hactive

/-- The stage of the workers whose number is in a list. -/
theorem stage_of_numbersOf (h : Roster vp workers stages) {ws : List WorkerHandle}
    {stage : LifeStage} (hws : ∀ w ∈ ws, vp.stageOf w = stage) :
    ∀ n ∈ vp.numbersOf ws, stages n = stage := by
  intro n hn
  obtain ⟨w, hw, hlookup⟩ := vp.mem_numbersOf.mp hn
  rw [h.stage w n hlookup]
  exact hws w hw

/-- The end of a round is a part of the history. -/
theorem history_updateStates (h : Roster vp workers stages) (hhistory : IsHistory history stages)
    (honce : vp.activeWorkersToRestore.Nodup)
    (hsleeps : ∀ w ∈ vp.activeWorkersToRestore, vp.Sleeps w) :
    IsHistory (history ++ vp.updateStates.2) (stagesAfterRound vp stages) := by
  have hdestroyed : ∀ n ∈ vp.numbersOf vp.workersDone, stages n = .destroyed :=
    h.stage_of_numbersOf fun w hw => by rw [VirtualProcessor.stageOf, if_pos hw]
  have hleft := hhistory.all (show LifeStage.next .destroyed .leave = some .gone from rfl)
    (h.numbersOf_nodup h.doneOnce) hdestroyed
  -- those that are restored are not done
  have hasleep : ∀ n ∈ vp.numbersOf vp.activeWorkersToRestore,
      (if n ∈ vp.numbersOf vp.workersDone then LifeStage.gone else stages n) = .asleep := by
    intro n hn
    have hstage : stages n = .asleep :=
      h.stage_of_numbersOf (fun w hw => by
        rw [VirtualProcessor.stageOf, if_neg (h.not_done_of_sleeps (hsleeps w hw)),
          if_pos (hsleeps w hw).2]) n hn
    rw [if_neg]
    · exact hstage
    · intro hdone
      rw [hdestroyed n hdone] at hstage
      cases hstage
  have hrestored := hleft.all (show LifeStage.next .asleep .reactivate = some .idle from rfl)
    (h.numbersOf_nodup honce) hasleep
  have halive : ∀ w ∈ vp.activeWorkersToRestore,
      vp.eraseDone.sleepWaiting.aliveWorkers.lookup w = vp.aliveWorkers.lookup w := by
    intro w hw
    rw [show vp.eraseDone.sleepWaiting.aliveWorkers.lookup w = _ from vp.lookup_updateStates w,
      if_neg (h.not_done_of_sleeps (hsleeps w hw))]
  have hevents : vp.updateStates.2 = (vp.numbersOf vp.workersDone).map (fun n => (n, .leave)) ++
      (vp.numbersOf vp.activeWorkersToRestore).map fun n => (n, .reactivate) := by
    show vp.eventsOf .leave vp.workersDone ++
      vp.eraseDone.sleepWaiting.eventsOf .reactivate vp.activeWorkersToRestore = _
    rw [VirtualProcessor.eventsOf_eq, VirtualProcessor.eventsOf_eq]
    unfold VirtualProcessor.numbersOf
    rw [List.filterMap_congr halive]
  rw [hevents, ← List.append_assoc]
  exact hrestored

/-- After the end of a round all active workers are idle, and the others asleep. -/
theorem endRound (h : Roster vp workers stages)
    (hsleeps : ∀ w ∈ vp.activeWorkersToRestore, vp.Sleeps w) :
    Roster
      { vp.updateStates.1 with activeWorkerIterator := vp.updateStates.1.begin } workers
      (stagesAfterRound vp stages) := by
  have halive : ∀ w n, vp.updateStates.1.aliveWorkers.lookup w = some n →
      w ∉ vp.workersDone ∧ vp.aliveWorkers.lookup w = some n := by
    intro w n hn
    rw [vp.lookup_updateStates] at hn
    split at hn
    · cases hn
    · rename_i hdone
      exact ⟨hdone, hn⟩
  have hnone : ∀ {ws : List WorkerHandle} {n : Nat},
      (∀ w, vp.aliveWorkers.lookup w ≠ some n) → n ∉ vp.numbersOf ws := by
    intro ws n hout hmem
    obtain ⟨w, -, hn⟩ := vp.mem_numbersOf.mp hmem
    exact hout w hn
  refine ⟨fun w n hn => h.numbered w n (halive w n hn).2, fun w w' n hn hn' => ?_, fun n hn => ?_,
    fun n hn hout => ?_, fun w n hn => ?_, fun w hw => ?_, fun w hw => absurd hw List.not_mem_nil,
    .nil, fun w hw => absurd hw List.not_mem_nil, fun k hk => ?_, fun _ => ⟨rfl, rfl⟩⟩
  · exact h.distinct w w' n (halive w n hn).2 (halive w' n hn').2
  · have hout : ∀ w, vp.aliveWorkers.lookup w ≠ some n := fun w hw => by
      have hlt := h.numbered w n hw
      omega
    rw [stagesAfterRound, if_neg (hnone hout), if_neg (hnone hout)]
    exact h.outside n hn
  · by_cases hleft : n ∈ vp.numbersOf vp.workersDone
    · obtain ⟨w, hw, hlookup⟩ := vp.mem_numbersOf.mp hleft
      have hrestored : n ∉ vp.numbersOf vp.activeWorkersToRestore := by
        rw [h.mem_numbersOf_iff hlookup]
        exact fun hmem => h.not_done_of_sleeps (hsleeps w hmem) hw
      rw [stagesAfterRound, if_neg hrestored, if_pos hleft]
    · have hout' : ∀ w, vp.aliveWorkers.lookup w ≠ some n := by
        intro w hw
        apply hout w
        show vp.updateStates.1.aliveWorkers.lookup w = some n
        rw [vp.lookup_updateStates, if_neg]
        · exact hw
        · exact fun hdone => hleft ((h.mem_numbersOf_iff hw).mpr hdone)
      rw [stagesAfterRound, if_neg (hnone hout'), if_neg hleft]
      exact h.gone n hn hout'
  · obtain ⟨hdone, hold⟩ := halive w n hn
    have hstage : VirtualProcessor.stageOf
        { vp.updateStates.1 with activeWorkerIterator := vp.updateStates.1.begin } w =
          if w ∈ vp.updateStates.1.activeWorkers then .idle else .asleep := by
      show (if w ∈ ([] : List WorkerHandle) then LifeStage.destroyed
        else if w ∈ ([] : List WorkerHandle) ∨ w ∉ vp.updateStates.1.activeWorkers then .asleep
          else .idle) = _
      by_cases hw : w ∈ vp.updateStates.1.activeWorkers
      · simp [hw]
      · simp [hw]
    rw [hstage, stagesAfterRound]
    simp only [h.mem_numbersOf_iff hold, vp.mem_activeWorkers_updateStates, if_neg hdone]
    by_cases hw : w ∈ vp.activeWorkersToRestore
    · rw [if_pos hw, if_pos (.inl hw)]
    · rw [if_neg hw, h.stage w n hold, VirtualProcessor.stageOf, if_neg hdone]
      by_cases hactive : w ∈ vp.activeWorkers
      · by_cases hwaiting : w ∈ vp.waitingWorkers
        · simp [hw, hwaiting]
        · simp [hactive, hwaiting, hdone]
      · simp [hw, hactive]
  · have hold : ∃ n, vp.aliveWorkers.lookup w = some n ∧ w ∉ vp.workersDone := by
      rcases vp.mem_activeWorkers_updateStates.mp hw with hmem | ⟨⟨hmem, hdone⟩, -⟩
      · obtain ⟨n, hn⟩ := (hsleeps w hmem).1
        exact ⟨n, hn, h.not_done_of_sleeps (hsleeps w hmem)⟩
      · obtain ⟨n, hn⟩ := h.alive w hmem
        exact ⟨n, hn, hdone⟩
    obtain ⟨n, hn, hdone⟩ := hold
    exact ⟨n, by rw [show _ = _ from vp.lookup_updateStates w, if_neg hdone, hn]⟩
  · refine ⟨VirtualProcessor.mem_begin _ hk, fun w hw => ?_⟩
    rcases hw with hw | hw
    · exact absurd hw List.not_mem_nil
    · exact absurd hw List.not_mem_nil

/-- Without living workers all the sets are empty. -/
theorem empty (h : Roster vp workers stages) (hnone : vp.hasWorkToDo = false) :
    vp.activeWorkers = ∅ ∧ vp.workersDone = [] ∧ vp.waitingWorkers = [] := by
  have hcard : vp.aliveWorkers.keys.card = 0 := by
    simpa [VirtualProcessor.hasWorkToDo] using hnone
  have hactive : vp.activeWorkers = ∅ := by
    rw [Finset.eq_empty_iff_forall_notMem]
    intro w hw
    obtain ⟨n, hn⟩ := h.alive w hw
    have hmem : w ∈ vp.aliveWorkers.keys := Finmap.mem_keys.mpr (Finmap.mem_of_lookup_eq_some hn)
    rw [Finset.card_eq_zero.mp hcard] at hmem
    exact Finset.notMem_empty w hmem
  refine ⟨hactive, ?_, ?_⟩
  · rw [List.eq_nil_iff_forall_not_mem]
    intro w hw
    have hmem := (h.done w hw).1
    rw [hactive] at hmem
    exact Finset.notMem_empty w hmem
  · rw [List.eq_nil_iff_forall_not_mem]
    intro w hw
    have hmem := h.waiting w hw
    rw [hactive] at hmem
    exact Finset.notMem_empty w hmem

theorem reset (h : Roster vp workers stages) (hnone : vp.hasWorkToDo = false) :
    Roster vp.reset workers stages :=
  ⟨h.numbered, h.distinct, h.outside, h.gone, h.stage, h.alive, h.done, h.doneOnce, h.waiting,
    h.iterator, fun _ => (h.empty hnone).2⟩

end Roster

/-! ## The workers asleep -/

/-- A worker sleeps exactly while it is unanswered or about to be restored. -/
structure Sleepers (vp : VirtualProcessor) (l : QueryLedger) : Prop where
  once : (unanswered l ++ vp.activeWorkersToRestore).Nodup
  mem : ∀ w, w ∈ unanswered l ++ vp.activeWorkersToRestore ↔ vp.Sleeps w
  answered : ∀ w ∈ vp.activeWorkersToRestore, w ∈ answeredWorkers l

namespace Sleepers

variable {vp : VirtualProcessor} {workers : Nat} {stages : Nat → LifeStage} {l l' : QueryLedger}

theorem restore_nodup (h : Sleepers vp l) : vp.activeWorkersToRestore.Nodup :=
  (List.nodup_append.mp h.once).2.1

theorem restore_sleeps (h : Sleepers vp l) : ∀ w ∈ vp.activeWorkersToRestore, vp.Sleeps w :=
  fun w hw => (h.mem w).mp (List.mem_append_right _ hw)

theorem notMem_unanswered (h : Sleepers vp l) {w : WorkerHandle} (hw : ¬ vp.Sleeps w) :
    w ∉ unanswered l :=
  fun hmem => hw ((h.mem w).mp (List.mem_append_left _ hmem))

/-- A processor with the same sleepers, and a ledger with the same workers. -/
theorem of_perm (h : Sleepers vp l) {vp' : VirtualProcessor}
    (hperm : (unanswered l ++ vp.activeWorkersToRestore).Perm
      (unanswered l' ++ vp'.activeWorkersToRestore))
    (hsleeps : ∀ w, vp'.Sleeps w ↔ vp.Sleeps w)
    (hanswered : ∀ w ∈ vp'.activeWorkersToRestore, w ∈ answeredWorkers l') : Sleepers vp' l' := by
  refine ⟨hperm.nodup_iff.mp h.once, fun w => ?_, hanswered⟩
  rw [← hperm.mem_iff, hsleeps]
  exact h.mem w

/-- A new worker is awake. -/
theorem addWorker (h : Sleepers vp l) {w₀ : WorkerHandle} {n : Nat}
    (hroster : Roster vp workers stages) (hfresh : vp.aliveWorkers.lookup w₀ = none) :
    Sleepers (vp.addWorker w₀ n) l := by
  obtain ⟨-, -, hwaiting⟩ := hroster.notMem_of_fresh hfresh
  refine h.of_perm (.refl _) (fun w => ?_) h.answered
  unfold VirtualProcessor.Sleeps
  by_cases hw : w = w₀
  · subst hw
    rw [hfresh]
    refine iff_of_false ?_ ?_
    · rintro ⟨-, hmem | hmem⟩
      · exact hwaiting hmem
      · exact hmem (Finset.mem_insert_self _ _)
    · rintro ⟨⟨n, hn⟩, -⟩
      cases hn
  · have hlookup := vp.lookup_addWorker w₀ w n
    rw [if_neg hw] at hlookup
    have hactive : w ∈ (vp.addWorker w₀ n).activeWorkers ↔ w ∈ vp.activeWorkers := by
      show w ∈ insert w₀ vp.activeWorkers ↔ _
      rw [Finset.mem_insert]
      exact or_iff_right hw
    rw [hlookup, hactive]
    rfl

/-- A worker that has pushed a query sleeps after its turn. -/
theorem turn (h : Sleepers vp l) {k : WorkerHandle} (hk : k ∈ vp.activeWorkers)
    {n : Nat} (hn : vp.aliveWorkers.lookup k = some n) (hawake : ¬ vp.Sleeps k)
    (pushed isDone : Bool)
    (hperm : (unanswered l').Perm ((if pushed then [k] else []) ++ unanswered l))
    (hanswered : ∀ w, w ≠ k → w ∈ answeredWorkers l → w ∈ answeredWorkers l') :
    Sleepers
      { vp with
        currentWorker := k
        waitingWorkers := if pushed then vp.waitingWorkers ++ [k] else vp.waitingWorkers
        workersDone := if !pushed && isDone then vp.workersDone ++ [k] else vp.workersDone
        activeWorkerIterator := vp.next k } l' := by
  have hout : k ∉ unanswered l ++ vp.activeWorkersToRestore :=
    fun hmem => hawake ((h.mem k).mp hmem)
  have hall : (unanswered l' ++ vp.activeWorkersToRestore).Perm
      ((if pushed then [k] else []) ++ (unanswered l ++ vp.activeWorkersToRestore)) := by
    rw [← List.append_assoc]
    exact hperm.append_right _
  refine ⟨?_, fun w => ?_, fun w hw => hanswered w ?_ (h.answered w hw)⟩
  · refine hall.nodup_iff.mpr ?_
    cases pushed with
    | false => exact h.once
    | true => exact List.nodup_cons.mpr ⟨hout, h.once⟩
  · rw [hall.mem_iff, List.mem_append, h.mem]
    unfold VirtualProcessor.Sleeps
    simp only [Roster.mem_push]
    cases pushed with
    | false => simp
    | true =>
        by_cases hw : w = k
        · subst hw
          simp [hn]
        · simp [hw]
  · rintro rfl
    exact hout (List.mem_append_right _ hw)

/-- After the end of a round the sleepers are the unanswered workers. -/
theorem endRound (h : Sleepers vp l) (hroster : Roster vp workers stages)
    (hperm : (unanswered l').Perm (unanswered l)) :
    Sleepers { vp.updateStates.1 with activeWorkerIterator := vp.updateStates.1.begin } l' := by
  obtain ⟨hunanswered, -, hapart⟩ := List.nodup_append.mp h.once
  have hnil : ({ vp.updateStates.1 with
      activeWorkerIterator := vp.updateStates.1.begin } : VirtualProcessor).activeWorkersToRestore =
        [] := rfl
  refine ⟨?_, fun w => ?_, fun w hw => absurd hw List.not_mem_nil⟩
  · rw [hnil, List.append_nil]
    exact hperm.nodup_iff.mpr hunanswered
  · rw [hnil, List.append_nil, hperm.mem_iff]
    have hsleeps : VirtualProcessor.Sleeps
        { vp.updateStates.1 with activeWorkerIterator := vp.updateStates.1.begin } w ↔
          (∃ n, vp.updateStates.1.aliveWorkers.lookup w = some n) ∧
            w ∉ vp.updateStates.1.activeWorkers :=
      and_congr_right fun _ => or_iff_right List.not_mem_nil
    have hold : w ∈ unanswered l ∨ w ∈ vp.activeWorkersToRestore ↔ vp.Sleeps w := by
      rw [← h.mem w, List.mem_append]
    rw [hsleeps, vp.lookup_updateStates, vp.mem_activeWorkers_updateStates]
    constructor
    · intro hmem
      have hsleeping := hold.mp (.inl hmem)
      have hdone := hroster.not_done_of_sleeps hsleeping
      refine ⟨by rw [if_neg hdone]; exact hsleeping.1, ?_⟩
      rintro (hrestored | ⟨⟨hactive, -⟩, hwaiting⟩)
      · exact hapart w hmem w hrestored rfl
      · rcases hsleeping.2 with hmem' | hmem'
        · exact hwaiting hmem'
        · exact hmem' hactive
    · rintro ⟨halive, hout⟩
      have hdone : w ∉ vp.workersDone := by
        intro hdone
        rw [if_pos hdone] at halive
        obtain ⟨n, hn⟩ := halive
        cases hn
      rw [if_neg hdone] at halive
      have hrestored : w ∉ vp.activeWorkersToRestore := fun hmem => hout (.inl hmem)
      have hsleeping : vp.Sleeps w := by
        refine ⟨halive, ?_⟩
        by_cases hactive : w ∈ vp.activeWorkers
        · left
          by_contra hwaiting
          exact hout (.inr ⟨⟨hactive, hdone⟩, hwaiting⟩)
        · exact .inr hactive
      exact (hold.mpr hsleeping).resolve_right hrestored

end Sleepers

end RayPlatform
