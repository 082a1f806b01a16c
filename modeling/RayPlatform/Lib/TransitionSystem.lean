import Mathlib.Logic.Function.Basic
import Mathlib.Tactic.TypeStar

/-!
# Labelled transition systems

A system is a predicate of initial states and a labelled step relation.

* `Inductive.holds` — what holds initially and survives every step holds of every
  reachable state;
* `restrict` — the runs all of whose steps meet a condition; they are runs of the
  system (`Reachable.of_restrict`), and an invariant that only the guarded steps
  keep holds along them (`Inductive.holds` at the restricted system);
* `ofExec` — the system of a partial step function, and its runs (`Reachable.runAll`); their
  length is bounded by what every step decreases (`length_le_of_runAll`);
* `Simulation` — every reachable state of the concrete system is matched by a
  reachable state of the abstract one (`Simulation.reachable`);
* `StutterSimulation` — the same where steps of the concrete system may be invisible;
* `indexed` — components that take steps in any order, each a run of its own
  (`Reachable.component`).
-/

namespace RayPlatform.Lib

structure TransitionSystem (S L : Type*) where
  init : S → Prop
  step : S → L → S → Prop

namespace TransitionSystem

variable {S T L : Type*} (sys : TransitionSystem S L)

/-- The states that a run reaches. -/
inductive Reachable : S → Prop
  | init {s : S} : sys.init s → Reachable s
  | step {s s' : S} {l : L} : Reachable s → sys.step s l s' → Reachable s'

/-- A property that holds initially and that every step keeps. -/
structure Inductive (I : S → Prop) : Prop where
  init : ∀ s, sys.init s → I s
  step : ∀ s l s', I s → sys.step s l s' → I s'

/-- The system whose steps all meet a condition on the state and the label. -/
def restrict (guard : S → L → Prop) : TransitionSystem S L :=
  { init := sys.init
    step := fun s l s' => guard s l ∧ sys.step s l s' }

variable {sys}

/-- An inductive property holds of every reachable state. -/
theorem Inductive.holds {I : S → Prop} (h : sys.Inductive I) {s : S} (hs : sys.Reachable s) :
    I s := by
  induction hs with
  | init hinit => exact h.init _ hinit
  | step _ hstep ih => exact h.step _ _ _ ih hstep

theorem Reachable.of_restrict {guard : S → L → Prop} {s : S}
    (hs : (sys.restrict guard).Reachable s) : sys.Reachable s := by
  induction hs with
  | init hinit => exact .init hinit
  | step _ hstep ih => exact .step ih hstep.2

/-- A condition in two parts is a condition on the runs that meet the first. -/
theorem Reachable.restrict_restrict {guard guard' : S → L → Prop} {s : S}
    (hs : (sys.restrict fun s l => guard' s l ∧ guard s l).Reachable s) :
    ((sys.restrict guard).restrict guard').Reachable s := by
  induction hs with
  | init hinit => exact .init hinit
  | step _ hstep ih => exact .step ih ⟨hstep.1.1, hstep.1.2, hstep.2⟩

/-- The system that starts in one state and whose steps a partial function executes. -/
def ofExec (start : S) (exec : S → L → Option S) : TransitionSystem S L :=
  { init := fun s => s = start
    step := fun s l s' => exec s l = some s' }

/-- Steps in sequence. -/
def runAll (exec : S → L → Option S) (s : S) : List L → Option S
  | [] => some s
  | l :: ls => (exec s l).bind fun s => runAll exec s ls

theorem runAll_append (exec : S → L → Option S) (s : S) (ls ls' : List L) :
    runAll exec s (ls ++ ls') = (runAll exec s ls).bind fun s => runAll exec s ls' := by
  induction ls generalizing s with
  | nil => rfl
  | cons l ls ih =>
      simp only [List.cons_append, runAll, ih]
      rw [Option.bind_assoc]

theorem Reachable.runAll {start : S} {exec : S → L → Option S} {s s' : S} {ls : List L}
    (hs : (ofExec start exec).Reachable s)
    (hrun : TransitionSystem.runAll exec s ls = some s') : (ofExec start exec).Reachable s' := by
  induction ls generalizing s with
  | nil =>
      cases hrun
      exact hs
  | cons l ls ih =>
      rw [TransitionSystem.runAll, Option.bind_eq_some_iff] at hrun
      obtain ⟨next, hstep, hrun⟩ := hrun
      exact ih (.step hs hstep) hrun

/-- What every step keeps, a run keeps. -/
theorem keeps_of_runAll {exec : S → L → Option S} {I : S → Prop}
    (hstep : ∀ s l s', I s → exec s l = some s' → I s') {s s' : S} {ls : List L} (hs : I s)
    (hrun : TransitionSystem.runAll exec s ls = some s') : I s' := by
  induction ls generalizing s with
  | nil =>
      cases hrun
      exact hs
  | cons l ls ih =>
      rw [TransitionSystem.runAll, Option.bind_eq_some_iff] at hrun
      obtain ⟨next, hnext, hrun⟩ := hrun
      exact ih (hstep _ _ _ hs hnext) hrun

/-- Where every step decreases a measure or gets stuck, a run that is not stuck is no longer than
the measure. -/
theorem length_le_of_runAll {exec : S → L → Option S} {I Stuck : S → Prop} {left : S → Nat}
    (hstep : ∀ s l s', I s → exec s l = some s' → Stuck s' ∨ (I s' ∧ left s' < left s))
    (hstuck : ∀ s l s', Stuck s → exec s l = some s' → Stuck s') {s s' : S} {ls : List L}
    (hs : I s) (hrun : TransitionSystem.runAll exec s ls = some s') :
    Stuck s' ∨ (I s' ∧ ls.length + left s' ≤ left s) := by
  induction ls generalizing s with
  | nil =>
      cases hrun
      exact .inr ⟨hs, Nat.le_of_eq (Nat.zero_add _)⟩
  | cons l ls ih =>
      rw [TransitionSystem.runAll, Option.bind_eq_some_iff] at hrun
      obtain ⟨next, hnext, hrun⟩ := hrun
      obtain h | ⟨hI, hlt⟩ := hstep _ _ _ hs hnext
      · exact .inl (keeps_of_runAll hstuck h hrun)
      · refine (ih hI hrun).imp id fun ⟨hI', hle⟩ => ⟨hI', ?_⟩
        rw [List.length_cons]
        omega

/-- A step that decreases a measure, taken until there is nothing left. -/
theorem exists_runAll_replicate {exec : S → L → Option S} {I Final : S → Prop} {left : S → Nat}
    (l : L) (hstep : ∀ s, I s → Final s ∨ ∃ s', exec s l = some s' ∧ I s' ∧ left s' < left s)
    {s : S} (hs : I s) : ∃ k ≤ left s, ∃ s',
      TransitionSystem.runAll exec s (List.replicate k l) = some s' ∧ Final s' := by
  induction hleft : left s using Nat.strongRecOn generalizing s with
  | _ bound ih =>
      obtain hfinal | ⟨next, hnext, hI, hlt⟩ := hstep s hs
      · exact ⟨0, Nat.zero_le _, s, rfl, hfinal⟩
      · obtain ⟨k, hk, s', hrun, hfinal⟩ := ih (left next) (hleft ▸ hlt) hI rfl
        refine ⟨k + 1, by omega, s', ?_, hfinal⟩
        rw [List.replicate_succ, TransitionSystem.runAll, hnext]
        exact hrun

/-- The step function that refuses the steps that do not meet a condition. -/
def guarded (guard : S → L → Prop) [∀ s l, Decidable (guard s l)] (exec : S → L → Option S)
    (s : S) (l : L) : Option S :=
  if guard s l then exec s l else none

theorem Reachable.of_guarded {guard : S → L → Prop} [∀ s l, Decidable (guard s l)] {start : S}
    {exec : S → L → Option S} {s : S}
    (hs : (ofExec start (guarded guard exec)).Reachable s) :
    ((ofExec start exec).restrict guard).Reachable s := by
  induction hs with
  | init hinit => exact .init hinit
  | @step s s' l _ hstep ih =>
      have hexec : guarded guard exec s l = some s' := hstep
      unfold guarded at hexec
      split at hexec
      · next hguard => exact .step ih ⟨hguard, hexec⟩
      · cases hexec

/-- A forward simulation between two systems with the same labels. -/
structure Simulation (C : TransitionSystem S L) (A : TransitionSystem T L)
    (R : S → T → Prop) : Prop where
  init : ∀ s, C.init s → ∃ t, A.init t ∧ R s t
  step : ∀ s t l s', R s t → C.step s l s' → ∃ t', A.step t l t' ∧ R s' t'

/-- Every reachable concrete state is related to a reachable abstract one. -/
theorem Simulation.reachable {C : TransitionSystem S L} {A : TransitionSystem T L}
    {R : S → T → Prop} (h : Simulation C A R) {s : S} (hs : C.Reachable s) :
    ∃ t, A.Reachable t ∧ R s t := by
  induction hs with
  | init hinit =>
      obtain ⟨t, ht, hr⟩ := h.init _ hinit
      exact ⟨t, .init ht, hr⟩
  | step _ hstep ih =>
      obtain ⟨t, ht, hr⟩ := ih
      obtain ⟨t', hstep', hr'⟩ := h.step _ _ _ _ hr hstep
      exact ⟨t', .step ht hstep', hr'⟩

/-- A forward simulation in which a step shows as an abstract one, or not at all. -/
structure StutterSimulation {M : Type*} (C : TransitionSystem S L) (A : TransitionSystem T M)
    (visible : L → Option M) (R : S → T → Prop) : Prop where
  init : ∀ s, C.init s → ∃ t, A.init t ∧ R s t
  silent : ∀ s t l s', R s t → C.step s l s' → visible l = none → R s' t
  step : ∀ s t l m s', R s t → C.step s l s' → visible l = some m → ∃ t', A.step t m t' ∧ R s' t'

theorem StutterSimulation.reachable {M : Type*} {C : TransitionSystem S L}
    {A : TransitionSystem T M} {visible : L → Option M} {R : S → T → Prop}
    (h : StutterSimulation C A visible R) {s : S} (hs : C.Reachable s) :
    ∃ t, A.Reachable t ∧ R s t := by
  induction hs with
  | init hinit =>
      obtain ⟨t, ht, hr⟩ := h.init _ hinit
      exact ⟨t, .init ht, hr⟩
  | @step s s' l _ hstep ih =>
      obtain ⟨t, ht, hr⟩ := ih
      cases hvisible : visible l with
      | none => exact ⟨t, ht, h.silent _ _ _ _ hr hstep hvisible⟩
      | some m =>
          obtain ⟨t', hstep', hr'⟩ := h.step _ _ _ _ _ hr hstep hvisible
          exact ⟨t', .step ht hstep', hr'⟩

/-- Components side by side: each step is a step of one of them. -/
def indexed {ι : Type*} (sys : ι → TransitionSystem S L) : TransitionSystem (ι → S) (ι × L) :=
  { init := fun s => ∀ i, (sys i).init (s i)
    step := fun s l s' => (sys l.1).step (s l.1) l.2 (s' l.1) ∧ ∀ i, i ≠ l.1 → s' i = s i }

/-- A run of one component, beside others that do not move. -/
theorem Reachable.exists_indexed {ι : Type*} [DecidableEq ι] {sys : ι → TransitionSystem S L}
    {start : ι → S} (hstart : ∀ i, (sys i).init (start i)) {i : ι} {t : S}
    (ht : (sys i).Reachable t) : ∃ s, (indexed sys).Reachable s ∧ s i = t := by
  induction ht with
  | @init t hinit =>
      refine ⟨Function.update start i t, .init fun j => ?_, Function.update_self _ _ _⟩
      by_cases hj : j = i
      · subst hj
        rw [Function.update_self]
        exact hinit
      · rw [Function.update_of_ne hj]
        exact hstart j
  | @step t t' l _ hstep ih =>
      obtain ⟨s, hs, rfl⟩ := ih
      let next : ι → S := Function.update s i t'
      have hmoves : (indexed sys).step s (i, l) next := by
        refine ⟨?_, fun j hj => Function.update_of_ne hj _ _⟩
        show (sys i).step (s i) l (Function.update s i t' i)
        rw [Function.update_self]
        exact hstep
      exact ⟨next, .step hs hmoves, Function.update_self _ _ _⟩

/-- Each component takes a run of its own. -/
theorem Reachable.component {ι : Type*} {sys : ι → TransitionSystem S L} {s : ι → S}
    (hs : (indexed sys).Reachable s) (i : ι) : (sys i).Reachable (s i) := by
  induction hs with
  | init hinit => exact .init (hinit i)
  | @step s s' l _ hstep ih =>
      by_cases hi : i = l.1
      · subst hi
        exact .step ih hstep.1
      · rw [hstep.2 i hi]
        exact ih

end TransitionSystem

end RayPlatform.Lib
