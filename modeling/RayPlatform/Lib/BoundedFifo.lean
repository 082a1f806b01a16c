import Mathlib.Data.List.Infix
import RayPlatform.Lib.TransitionSystem

/-!
# Bounded queues

A first-in first-out queue with a capacity, as the sequences of what was pushed and
what was popped.

* `Step` — a push that finds the queue full is refused, a pop that finds it empty
  misses, and nothing else is;
* `Sound` — what was popped is a prefix of what was pushed, and the rest fits;
* `tryPush`, `tryPop` — the calls, which take these steps (`tryPush_step`, `tryPop_step`).
-/

namespace RayPlatform.Lib

variable {α : Type}

structure Fifo (α : Type) where
  pushed : List α
  popped : List α

inductive FifoEvent (α : Type)
  | pushed (a : α)
  /-- a push that returns false -/
  | refused
  | popped (a : α)
  /-- a pop that returns false -/
  | missed

namespace Fifo

def empty : Fifo α :=
  { pushed := [], popped := [] }

inductive Step (capacity : Nat) : Fifo α → FifoEvent α → Fifo α → Prop
  | pushed {q : Fifo α} {a : α} : q.pushed.length < q.popped.length + capacity →
      Step capacity q (.pushed a) { q with pushed := q.pushed ++ [a] }
  | refused {q : Fifo α} : q.pushed.length = q.popped.length + capacity →
      Step capacity q .refused q
  | popped {q : Fifo α} {a : α} : q.pushed[q.popped.length]? = some a →
      Step capacity q (.popped a) { q with popped := q.popped ++ [a] }
  | missed {q : Fifo α} : q.pushed.length = q.popped.length → Step capacity q .missed q

/-- A step that may show nothing. -/
def Moves (capacity : Nat) (q : Fifo α) : Option (FifoEvent α) → Fifo α → Prop
  | none, q' => q' = q
  | some e, q' => Step capacity q e q'

structure Sound (capacity : Nat) (q : Fifo α) : Prop where
  in_order : q.popped <+: q.pushed
  bounded : q.pushed.length ≤ q.popped.length + capacity

/-- What was pushed and not popped. -/
def waiting (q : Fifo α) : List α :=
  q.pushed.drop q.popped.length

theorem Sound.popped_append_waiting {capacity : Nat} {q : Fifo α} (h : q.Sound capacity) :
    q.popped ++ q.waiting = q.pushed := by
  rw [waiting]
  conv_lhs => rw [List.prefix_iff_eq_take.mp h.in_order]
  rw [List.length_take, Nat.min_eq_left h.in_order.length_le]
  exact List.take_append_drop _ _

/-- A prefix extended by the next element. -/
theorem concat_isPrefix {l l' : List α} {a : α} (h : l <+: l') (ha : l'[l.length]? = some a) :
    l ++ [a] <+: l' := by
  obtain ⟨rest, hrest⟩ := h
  rw [← hrest, List.getElem?_append_right (Nat.le_refl _), Nat.sub_self] at ha
  cases rest with
  | nil => cases ha
  | cons b rest =>
      cases ha
      exact ⟨rest, by rw [← hrest, List.append_assoc]; rfl⟩

theorem Step.full {capacity : Nat} {q q' : Fifo α} (h : Step capacity q .refused q') :
    q.pushed.length = q.popped.length + capacity := by
  cases h with
  | refused hfull => exact hfull

theorem Step.drained {capacity : Nat} {q q' : Fifo α} (h : Step capacity q .missed q') :
    q.pushed.length = q.popped.length := by
  cases h with
  | missed hempty => exact hempty

theorem Sound.step {capacity : Nat} {q q' : Fifo α} {e : FifoEvent α} (h : q.Sound capacity)
    (hstep : Step capacity q e q') : q'.Sound capacity := by
  cases hstep with
  | pushed hroom =>
      refine ⟨h.in_order.trans (List.prefix_append _ _), ?_⟩
      rw [List.length_append, List.length_singleton]
      exact hroom
  | refused _ => exact h
  | popped ha =>
      refine ⟨concat_isPrefix h.in_order ha, ?_⟩
      have hbounded := h.bounded
      simp only [List.length_append, List.length_singleton]
      omega
  | missed _ => exact h

/-! ## The calls -/

/-- A push, unless the queue is full. -/
def tryPush (capacity : Nat) (q : Fifo α) (a : α) : Option (Fifo α) :=
  if q.pushed.length < q.popped.length + capacity then some { q with pushed := q.pushed ++ [a] }
  else none

/-- A pop, unless the queue is empty. -/
def tryPop (q : Fifo α) : Option (α × Fifo α) :=
  q.pushed[q.popped.length]?.map fun a => (a, { q with popped := q.popped ++ [a] })

theorem tryPush_step {capacity : Nat} {q q' : Fifo α} {a : α} (h : q.tryPush capacity a = some q') :
    Step capacity q (.pushed a) q' := by
  rw [tryPush] at h
  split at h
  · next hroom =>
      cases h
      exact .pushed hroom
  · cases h

/-- A push that fails finds the queue full. -/
theorem tryPush_refused {capacity : Nat} {q : Fifo α} {a : α} (hq : q.Sound capacity)
    (h : q.tryPush capacity a = none) : Step capacity q .refused q := by
  rw [tryPush] at h
  split at h
  · cases h
  · next hfull =>
      have := hq.bounded
      exact .refused (by omega)

theorem tryPop_step {capacity : Nat} {q q' : Fifo α} {a : α} (h : q.tryPop = some (a, q')) :
    Step capacity q (.popped a) q' := by
  obtain ⟨_, ha, heq⟩ := Option.map_eq_some_iff.mp h
  cases heq
  exact .popped ha

/-- A pop that fails finds the queue empty. -/
theorem tryPop_missed {capacity : Nat} {q : Fifo α} (hq : q.Sound capacity)
    (h : q.tryPop = none) : q.popped = q.pushed := by
  rw [tryPop, Option.map_eq_none_iff, List.getElem?_eq_none_iff] at h
  exact hq.in_order.eq_of_length_le h

end Fifo

def fifoSystem (α : Type) (capacity : Nat) : TransitionSystem (Fifo α) (FifoEvent α) :=
  { init := fun q => q = .empty
    step := Fifo.Step capacity }

theorem fifoSystem_inductive (capacity : Nat) :
    (fifoSystem α capacity).Inductive (Fifo.Sound capacity) := by
  refine ⟨fun q hq => ?_, fun q e q' h hstep => h.step hstep⟩
  rw [show q = Fifo.empty from hq]
  exact ⟨List.prefix_refl _, Nat.zero_le _⟩

end RayPlatform.Lib
