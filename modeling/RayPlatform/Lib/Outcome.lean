import Mathlib.Tactic.TypeStar

/-!
# Computations that may fail

A computation in `Except` that may fail for some reasons and must not for others:
`Meets permitted r post` says that `r` ends with a result that satisfies `post`, or with a
permitted fault.

* `Meets.bind`, `Meets.bind_ok` — one computation after another;
* `Meets.outcome` — what a caller sees.
-/

namespace RayPlatform.Lib

universe u

variable {ε : Type*} {α β : Type u}

def Meets (permitted : ε → Prop) (r : Except ε α) (post : α → Prop) : Prop :=
  match r with
  | .ok a => post a
  | .error fault => permitted fault

namespace Meets

variable {permitted : ε → Prop} {r : Except ε α} {post post' : α → Prop} {a : α}

theorem ok (h : post a) : Meets permitted (.ok a) post :=
  h

theorem fault {e : ε} (h : permitted e) : Meets permitted (.error e) post :=
  h

theorem mono (h : Meets permitted r post) (hpost : ∀ a, post a → post' a) :
    Meets permitted r post' := by
  cases r with
  | ok a => exact hpost a h
  | error fault => exact h

theorem bind {f : α → Except ε β} {rest : β → Prop} (h : Meets permitted r post)
    (hrest : ∀ a, post a → Meets permitted (f a) rest) : Meets permitted (r >>= f) rest := by
  cases r with
  | ok a => exact hrest a h
  | error fault => exact h

/-- A computation that does not fail. -/
theorem bind_ok {f : α → Except ε β} {rest : β → Prop} (h : r = .ok a)
    (hrest : Meets permitted (f a) rest) : Meets permitted (r >>= f) rest := by
  rw [h]
  exact hrest

theorem outcome (h : Meets permitted r post) :
    (∃ a, r = .ok a ∧ post a) ∨ ∃ e, r = .error e ∧ permitted e := by
  cases r with
  | ok a => exact .inl ⟨a, rfl, h⟩
  | error fault => exact .inr ⟨fault, rfl, h⟩

theorem of_ok (h : Meets permitted r post) (hr : r = .ok a) : post a := by
  rw [hr] at h
  exact h

end Meets

end RayPlatform.Lib
