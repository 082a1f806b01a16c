import Mathlib.Order.Lattice
import Mathlib.Tactic.TypeStar

/-!
# Loops that end

A loop is a function of the number of rounds that it may take, which is `none` when it
runs out of them. `Returns loop a` says that the loop ends with `a`: every number of
rounds from some number on gives `a`.

* `Returns.next` — one round of a loop;
* `Returns.bind` — one loop after another;
* `Returns.unique` — a loop that ends has one result.
-/

namespace RayPlatform.Lib

variable {α β : Type*}

/-- The loop ends with `a`. -/
def Returns (loop : Nat → Option α) (a : α) : Prop :=
  ∃ enough, ∀ fuel ≥ enough, loop fuel = some a

namespace Returns

variable {loop loop' : Nat → Option α} {a a' : α} {b : β}

theorem done (a : α) : Returns (fun _ => some a) a :=
  ⟨0, fun _ _ => rfl⟩

theorem congr (hsame : ∀ fuel, loop fuel = loop' fuel) (h : Returns loop' a) :
    Returns loop a := by
  obtain ⟨enough, h⟩ := h
  exact ⟨enough, fun fuel hfuel => (hsame fuel).trans (h fuel hfuel)⟩

/-- One round, after which the loop goes on as `loop'`. -/
theorem next (hround : ∀ fuel, loop (fuel + 1) = loop' fuel) (h : Returns loop' a) :
    Returns loop a := by
  obtain ⟨enough, h⟩ := h
  refine ⟨enough + 1, fun fuel hfuel => ?_⟩
  obtain ⟨less, rfl⟩ : ∃ less, fuel = less + 1 := ⟨fuel - 1, by omega⟩
  exact (hround less).trans (h less (by omega))

theorem bind (rest : α → Nat → Option β) (h : Returns loop a) (hrest : Returns (rest a) b) :
    Returns (fun fuel => (loop fuel).bind fun x => rest x fuel) b := by
  obtain ⟨enough, h⟩ := h
  obtain ⟨enough', hrest⟩ := hrest
  refine ⟨max enough enough', fun fuel hfuel => ?_⟩
  show (loop fuel).bind _ = some b
  rw [h fuel ((le_max_left _ _).trans hfuel)]
  exact hrest fuel ((le_max_right _ _).trans hfuel)

/-- Some number of rounds is enough for two loops. -/
theorem exists_both {loop' : Nat → Option β} (h : Returns loop a) (h' : Returns loop' b) :
    ∃ fuel, loop fuel = some a ∧ loop' fuel = some b := by
  obtain ⟨enough, h⟩ := h
  obtain ⟨enough', h'⟩ := h'
  exact ⟨max enough enough', h _ (le_max_left _ _), h' _ (le_max_right _ _)⟩

theorem exists_eq (h : Returns loop a) : ∃ fuel, loop fuel = some a := by
  obtain ⟨fuel, hfuel, -⟩ := h.exists_both h
  exact ⟨fuel, hfuel⟩

theorem unique (h : Returns loop a) (h' : Returns loop a') : a = a' := by
  obtain ⟨fuel, hfuel, hfuel'⟩ := h.exists_both h'
  exact Option.some.inj (hfuel.symm.trans hfuel')

/-- A loop that never gives a result does not end. -/
theorem not_of_none (hnone : ∀ fuel, loop fuel = none) : ¬ Returns loop a := by
  intro h
  obtain ⟨fuel, hfuel⟩ := h.exists_eq
  rw [hnone] at hfuel
  cases hfuel

end Returns

end RayPlatform.Lib
