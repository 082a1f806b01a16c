import Mathlib.Data.List.Count
import Mathlib.Data.List.Induction
import RayPlatform.Lib.TransitionSystem

/-!
# The lives of workers

A worker of a pool works, asks for something and sleeps until it is reactivated; in the
end it is completed, destroyed, and leaves the pool. The history of a pool is the list of
what happened to its workers.

* `next` — which events may follow in the life of a worker;
* `IsHistory` — a history in which each worker lives such a life;
* `IsHistory.proper` — in such a history no worker works while it sleeps or after its end,
  none ends twice, and none leaves unless it was completed.
-/

namespace RayPlatform.Lib

open TransitionSystem (runAll runAll_append)

inductive LifeStage
  | outside
  | idle
  | asleep
  | completed
  | destroyed
  | gone
  deriving DecidableEq, Repr

inductive LifeEvent
  | add
  | work
  | ask
  | reactivate
  | complete
  | destroy
  | leave
  deriving DecidableEq, Repr

namespace LifeStage

def next : LifeStage → LifeEvent → Option LifeStage
  | outside, .add => some idle
  | idle, .work => some idle
  | idle, .ask => some asleep
  | asleep, .reactivate => some idle
  | idle, .complete => some completed
  | completed, .destroy => some destroyed
  | destroyed, .leave => some gone
  | _, _ => none

/-- How many requests have no answer yet. -/
def asked : LifeStage → Nat
  | asleep => 1
  | _ => 0

def completions : LifeStage → Nat
  | completed | destroyed | gone => 1
  | _ => 0

def destructions : LifeStage → Nat
  | destroyed | gone => 1
  | _ => 0

def departures : LifeStage → Nat
  | gone => 1
  | _ => 0

end LifeStage

variable {ι : Type} [DecidableEq ι]

/-- One event of one worker. -/
def live (stages : ι → LifeStage) (e : ι × LifeEvent) : Option (ι → LifeStage) :=
  ((stages e.1).next e.2).map (Function.update stages e.1)

/-- A history that leads to the stages, from a pool without workers. -/
def IsHistory (log : List (ι × LifeEvent)) (stages : ι → LifeStage) : Prop :=
  runAll live (fun _ => LifeStage.outside) log = some stages

/-- What is asked of the history of a pool. -/
structure ProperHistory (log : List (ι × LifeEvent)) : Prop where
  /-- a worker works when all its requests were answered, and before its end -/
  work : ∀ earlier later i, log = earlier ++ (i, .work) :: later →
    earlier.count (i, .ask) = earlier.count (i, .reactivate) ∧ (i, .destroy) ∉ earlier
  completeOnce : ∀ i, log.count (i, .complete) ≤ 1
  destroyOnce : ∀ i, log.count (i, .destroy) ≤ 1
  /-- a worker that leaves was completed -/
  leave : ∀ earlier later i, log = earlier ++ (i, .leave) :: later → (i, .complete) ∈ earlier

variable {log : List (ι × LifeEvent)} {stages : ι → LifeStage} {i : ι} {event : LifeEvent}

theorem IsHistory.nil : IsHistory ([] : List (ι × LifeEvent)) fun _ => .outside :=
  rfl

theorem IsHistory.congr (h : IsHistory log stages) {stages' : ι → LifeStage}
    (heq : ∀ i, stages i = stages' i) : IsHistory log stages' := by
  rw [← funext heq]
  exact h

/-- A history goes on with what may happen next. -/
theorem IsHistory.snoc (h : IsHistory log stages) {stage : LifeStage}
    (hnext : (stages i).next event = some stage) :
    IsHistory (log ++ [(i, event)]) (Function.update stages i stage) := by
  unfold IsHistory at *
  rw [runAll_append, h]
  simp [runAll, live, hnext]

/-- The same happens to several workers of one stage. -/
theorem IsHistory.all (h : IsHistory log stages) {stage stage' : LifeStage}
    (hnext : stage.next event = some stage') {workers : List ι} (hnodup : workers.Nodup)
    (hstage : ∀ i ∈ workers, stages i = stage) :
    IsHistory (log ++ workers.map fun i => (i, event))
      fun i => if i ∈ workers then stage' else stages i := by
  induction workers generalizing log stages with
  | nil => simpa using h
  | cons j workers ih =>
      rw [List.nodup_cons] at hnodup
      have hfirst : IsHistory (log ++ [(j, event)]) (Function.update stages j stage') := by
        apply h.snoc
        rw [hstage j List.mem_cons_self]
        exact hnext
      have hrest := ih hfirst hnodup.2 fun i hi => by
        have hne : i ≠ j := fun heq => hnodup.1 (heq ▸ hi)
        rw [Function.update_of_ne hne]
        exact hstage i (List.mem_cons_of_mem _ hi)
      rw [List.append_assoc] at hrest
      refine hrest.congr fun i => ?_
      by_cases hij : i = j
      · simp [hij]
      · simp [hij]

/-- What happened last may happen after what was before. -/
theorem IsHistory.of_snoc (h : IsHistory (log ++ [(i, event)]) stages) :
    ∃ before stage, IsHistory log before ∧ (before i).next event = some stage ∧
      stages = Function.update before i stage := by
  unfold IsHistory at *
  rw [runAll_append, Option.bind_eq_some_iff] at h
  obtain ⟨before, hbefore, hlast⟩ := h
  simp only [runAll, live, Option.bind_eq_some_iff, Option.map_eq_some_iff] at hlast
  obtain ⟨_, ⟨stage, hnext, rfl⟩, hlast⟩ := hlast
  cases hlast
  exact ⟨before, stage, hbefore, hnext, rfl⟩

/-- The beginning of a history is one, and its next event may happen there. -/
theorem IsHistory.split {earlier later : List (ι × LifeEvent)}
    (h : IsHistory (earlier ++ (i, event) :: later) stages) :
    ∃ before stage, IsHistory earlier before ∧ (before i).next event = some stage := by
  unfold IsHistory at *
  rw [runAll_append, Option.bind_eq_some_iff] at h
  obtain ⟨before, hbefore, hrest⟩ := h
  rw [runAll, Option.bind_eq_some_iff] at hrest
  obtain ⟨_, hlive, -⟩ := hrest
  obtain ⟨stage, hnext, -⟩ := Option.map_eq_some_iff.mp hlive
  exact ⟨before, stage, hbefore, hnext⟩

/-- What the stage of a worker says about its past. -/
structure Past (log : List (ι × LifeEvent)) (i : ι) (stage : LifeStage) : Prop where
  asked : log.count (i, .ask) = log.count (i, .reactivate) + stage.asked
  completed : log.count (i, .complete) = stage.completions
  destroyed : log.count (i, .destroy) = stage.destructions
  left : log.count (i, .leave) = stage.departures

/-- The past of a worker after one more event of its own. -/
theorem Past.snoc {stage stage' : LifeStage} (h : Past log i stage)
    (hnext : stage.next event = some stage') : Past (log ++ [(i, event)]) i stage' := by
  obtain ⟨hasked, hcompleted, hdestroyed, hleft⟩ := h
  constructor
  all_goals
    simp only [List.count_append, List.count_singleton, beq_iff_eq, Prod.mk.injEq, true_and]
    cases stage <;> cases event <;> cases hnext <;>
      simp_all [LifeStage.asked, LifeStage.completions, LifeStage.destructions,
        LifeStage.departures]

/-- The past of a worker after an event of another. -/
theorem Past.snoc_of_ne {j : ι} {stage : LifeStage} (h : Past log i stage) (hne : i ≠ j) :
    Past (log ++ [(j, event)]) i stage := by
  have hother : ∀ e, List.count (i, e) [(j, event)] = 0 := by
    intro e
    rw [List.count_singleton]
    simp [hne.symm]
  refine ⟨?_, ?_, ?_, ?_⟩
  · rw [List.count_append, List.count_append, hother, hother]
    exact h.asked
  · rw [List.count_append, hother]
    exact h.completed
  · rw [List.count_append, hother]
    exact h.destroyed
  · rw [List.count_append, hother]
    exact h.left

theorem IsHistory.past (h : IsHistory log stages) (i : ι) : Past log i (stages i) := by
  induction log using List.reverseRecOn generalizing stages with
  | nil =>
      cases h
      exact ⟨rfl, rfl, rfl, rfl⟩
  | append_singleton log e ih =>
      obtain ⟨j, event⟩ := e
      obtain ⟨before, stage, hbefore, hnext, rfl⟩ := h.of_snoc
      by_cases hij : i = j
      · subst hij
        rw [Function.update_self]
        exact (ih hbefore).snoc hnext
      · rw [Function.update_of_ne hij]
        exact (ih hbefore).snoc_of_ne hij

theorem IsHistory.proper (h : IsHistory log stages) : ProperHistory log := by
  refine ⟨fun earlier later i hlog => ?_, fun i => ?_, fun i => ?_, fun earlier later i hlog => ?_⟩
  · rw [hlog] at h
    obtain ⟨before, stage, hbefore, hnext⟩ := h.split
    have hpast := hbefore.past i
    have hidle : before i = .idle := by
      cases hbefore : before i with
      | idle => rfl
      | _ => simp [hbefore, LifeStage.next] at hnext
    rw [hidle] at hpast
    exact ⟨hpast.asked, List.count_eq_zero.mp hpast.destroyed⟩
  · rw [(h.past i).completed]
    cases stages i <;> decide
  · rw [(h.past i).destroyed]
    cases stages i <;> decide
  · rw [hlog] at h
    obtain ⟨before, stage, hbefore, hnext⟩ := h.split
    have hdestroyed : before i = .destroyed := by
      cases hbefore : before i with
      | destroyed => rfl
      | _ => simp [hbefore, LifeStage.next] at hnext
    have hpast := (hbefore.past i).completed
    rw [hdestroyed] at hpast
    exact List.count_pos_iff.mp (by rw [hpast]; decide)

end RayPlatform.Lib
