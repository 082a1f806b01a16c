import Mathlib.Algebra.BigOperators.Group.Finset.Basic
import Mathlib.Data.Finset.Card
import RayPlatform.Lib.TransitionSystem

/-!
# Barriers

A round is opened for all members at once; each is invited, enters, leaves and is counted.
A round may be opened only at the start, or when all members are counted, so that there is
never more than one. At any time the members are in four stages, whose numbers add up to
the number of members (`number_add`).
-/

namespace RayPlatform.Lib

inductive Stage
  /-- the invitation is on its way -/
  | opening
  | inside
  /-- the answer is on its way -/
  | completing
  | counted
  deriving DecidableEq, Repr

structure Barrier (ι : Type*) where
  rounds : Nat
  stage : ι → Stage

inductive BarrierEvent (ι : Type*)
  | openRound
  | enter (i : ι)
  | leave (i : ι)
  | count (i : ι)

namespace Barrier

variable {ι : Type*} [DecidableEq ι]

/-- The member goes to the next stage. -/
def move (b : Barrier ι) (i : ι) (stage : Stage) : Barrier ι :=
  { b with stage := Function.update b.stage i stage }

@[simp] theorem rounds_move (b : Barrier ι) (i : ι) (stage : Stage) :
    (b.move i stage).rounds = b.rounds :=
  rfl

@[simp] theorem stage_move_self (b : Barrier ι) (i : ι) (stage : Stage) :
    (b.move i stage).stage i = stage :=
  Function.update_self _ _ _

theorem stage_move_of_ne (b : Barrier ι) {i j : ι} (stage : Stage) (hne : j ≠ i) :
    (b.move i stage).stage j = b.stage j :=
  Function.update_of_ne hne _ _

inductive Step (members : Finset ι) : Barrier ι → BarrierEvent ι → Barrier ι → Prop
  | openRound {b : Barrier ι} : (b.rounds = 0 ∨ ∀ i ∈ members, b.stage i = .counted) →
      Step members b .openRound { rounds := b.rounds + 1, stage := fun _ => .opening }
  | enter {b : Barrier ι} {i : ι} : i ∈ members → b.stage i = .opening →
      Step members b (.enter i) (b.move i .inside)
  | leave {b : Barrier ι} {i : ι} : i ∈ members → b.stage i = .inside →
      Step members b (.leave i) (b.move i .completing)
  | count {b : Barrier ι} {i : ι} : i ∈ members → b.stage i = .completing →
      Step members b (.count i) (b.move i .counted)

def start : Barrier ι :=
  { rounds := 0, stage := fun _ => .counted }

omit [DecidableEq ι] in
/-- The number of members in a stage. -/
def number (members : Finset ι) (b : Barrier ι) (stage : Stage) : Nat :=
  (members.filter fun i => b.stage i = stage).card

omit [DecidableEq ι] in
/-- Each member is in one stage. -/
theorem number_add (members : Finset ι) (b : Barrier ι) :
    b.number members .counted + b.number members .opening + b.number members .inside +
      b.number members .completing = members.card := by
  classical
  unfold number
  induction members using Finset.induction_on with
  | empty => rfl
  | insert i members hi ih =>
      have hout : ∀ stage, i ∉ members.filter fun j => b.stage j = stage := fun stage h =>
        hi (Finset.mem_filter.mp h).1
      rw [Finset.card_insert_of_notMem hi, ← ih]
      simp only [Finset.filter_insert]
      cases b.stage i <;> simp [Finset.card_insert_of_notMem (hout _)] <;> omega

omit [DecidableEq ι] in
theorem number_counted (members : Finset ι) (b : Barrier ι) :
    b.number members .counted = members.card ↔ ∀ i ∈ members, b.stage i = .counted := by
  rw [number, Finset.card_filter_eq_iff]

variable {members : Finset ι} {b : Barrier ι} {i : ι} {stage other : Stage}

/-- A member that goes to a stage is one more in it. -/
theorem number_move_self (hi : i ∈ members) (hne : b.stage i ≠ stage) :
    (b.move i stage).number members stage = b.number members stage + 1 := by
  have hmembers : members.filter (fun j => (b.move i stage).stage j = stage) =
      insert i (members.filter fun j => b.stage j = stage) := by
    ext j
    rw [Finset.mem_filter, Finset.mem_insert, Finset.mem_filter]
    show j ∈ members ∧ Function.update b.stage i stage j = stage ↔ _
    by_cases hj : j = i
    · subst hj
      simp [hi]
    · simp [hj]
  rw [number, hmembers, Finset.card_insert_of_notMem (by simp [hne])]
  rfl

/-- The numbers of the other stages stay. -/
theorem number_move_of_ne (hold : b.stage i ≠ other) (hnew : stage ≠ other) :
    (b.move i stage).number members other = b.number members other := by
  have hmembers : members.filter (fun j => (b.move i stage).stage j = other) =
      members.filter fun j => b.stage j = other := by
    ext j
    rw [Finset.mem_filter, Finset.mem_filter]
    show j ∈ members ∧ Function.update b.stage i stage j = other ↔ _
    by_cases hj : j = i
    · subst hj
      simp [hold, hnew]
    · simp [hj]
  rw [number, hmembers]
  rfl

end Barrier

def barrierSystem {ι : Type*} [DecidableEq ι] (members : Finset ι) :
    TransitionSystem (Barrier ι) (BarrierEvent ι) :=
  { init := fun b => b = Barrier.start
    step := Barrier.Step members }

end RayPlatform.Lib
