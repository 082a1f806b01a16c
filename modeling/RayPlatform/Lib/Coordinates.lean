import Mathlib.Algebra.BigOperators.Group.List.Basic
import Mathlib.Algebra.GroupWithZero.Nat
import Mathlib.Order.MinMax

/-!
# Distances by coordinates

Words of the same length, with a distance between symbols. The distance between two words
is the sum over the coordinates.

* `distance_set`: changing one coordinate changes the sum by what changes there, so that
  a step in one coordinate that brings the symbol one closer brings the word one closer
  (`distance_set_succ`);
* `mismatch` counts differing symbols, so that its sum is the Hamming distance;
* `cyclic r` is the shorter way around a ring of `r` symbols; a step in the direction of
  the shorter way brings the symbols one closer (`cyclic_down`, `cyclic_up`).
-/

namespace RayPlatform.Lib

variable {α : Type*} {δ : α → α → Nat}

/-- The sum of the distances of the symbols. -/
def distance (δ : α → α → Nat) (a b : List α) : Nat :=
  (List.zipWith δ a b).sum

theorem distance_cons (x y : α) (a b : List α) :
    distance δ (x :: a) (y :: b) = δ x y + distance δ a b := by
  simp [distance]

theorem distance_eq_zero_iff {a b : List α} (hδ : ∀ x ∈ a, ∀ y ∈ b, δ x y = 0 ↔ x = y)
    (hlen : a.length = b.length) : distance δ a b = 0 ↔ a = b := by
  induction a generalizing b with
  | nil =>
      obtain rfl := List.length_eq_zero_iff.mp hlen.symm
      simp [distance]
  | cons x a ih =>
      obtain ⟨y, b, rfl⟩ := List.exists_cons_of_length_eq_add_one hlen.symm
      have htail := ih (b := b) (fun x hx y hy => hδ x (by simp [hx]) y (by simp [hy]))
        (by simpa using hlen)
      rw [distance_cons, Nat.add_eq_zero_iff, hδ x (by simp) y (by simp), htail, List.cons.injEq]

theorem distance_set {a b : List α} {p : Nat} (ha : p < a.length) (hb : p < b.length) (v : α) :
    distance δ (a.set p v) b + δ a[p] b[p] = distance δ a b + δ v b[p] := by
  induction a generalizing b p with
  | nil => simp at ha
  | cons x a ih =>
      obtain _ | ⟨y, b⟩ := b
      · simp at hb
      · cases p with
        | zero =>
            simp only [List.set_cons_zero, distance_cons, List.getElem_cons_zero]
            omega
        | succ p =>
            have := ih (b := b) (p := p) (by simpa using ha) (by simpa using hb)
            simp only [List.set_cons_succ, distance_cons, List.getElem_cons_succ]
            omega

/-- A symbol that comes one closer brings the word one closer. -/
theorem distance_set_succ {a b : List α} {p : Nat} (ha : p < a.length) (hb : p < b.length) {v : α}
    (h : δ a[p] b[p] = δ v b[p] + 1) : distance δ a b = distance δ (a.set p v) b + 1 := by
  have := distance_set (δ := δ) ha hb v
  omega

/-! ## Mismatches -/

def mismatch [DecidableEq α] (x y : α) : Nat :=
  if x = y then 0 else 1

theorem mismatch_eq_zero_iff [DecidableEq α] (x y : α) : mismatch x y = 0 ↔ x = y := by
  simp [mismatch]

theorem mismatch_of_ne [DecidableEq α] {x y : α} (h : x ≠ y) :
    mismatch x y = mismatch y y + 1 := by
  simp [mismatch, h]

/-! ## Rings -/

/-- The steps from `x` down to `y` on a ring of `r` symbols. -/
def stepsDown (r x y : Nat) : Nat :=
  (x + r - y) % r

/-- The shorter way. -/
def cyclic (r x y : Nat) : Nat :=
  min (stepsDown r x y) (stepsDown r y x)

theorem stepsDown_cases {r x y : Nat} (hx : x < r) (hy : y < r) :
    y ≤ x ∧ stepsDown r x y = x - y ∨ x < y ∧ stepsDown r x y = x + r - y := by
  rw [stepsDown]
  rcases Nat.lt_or_ge x y with h | h
  · exact .inr ⟨h, Nat.mod_eq_of_lt (by omega)⟩
  · refine .inl ⟨h, ?_⟩
    rw [show x + r - y = x - y + r by omega, Nat.add_mod_right]
    exact Nat.mod_eq_of_lt (by omega)

theorem cyclic_eq_zero_iff {r x y : Nat} (hx : x < r) (hy : y < r) : cyclic r x y = 0 ↔ x = y := by
  have hdown := stepsDown_cases hx hy
  have hup := stepsDown_cases hy hx
  rw [cyclic]
  omega

/-- The two ways make a full round. -/
theorem stepsDown_add {r x y : Nat} (hx : x < r) (hy : y < r) (hne : x ≠ y) :
    stepsDown r x y + stepsDown r y x = r := by
  rcases stepsDown_cases hx hy with ⟨hle, hdown⟩ | ⟨hlt, hdown⟩ <;>
    rcases stepsDown_cases hy hx with ⟨hle', hup⟩ | ⟨hlt', hup⟩ <;> omega

theorem stepsDown_self {r x : Nat} (hx : x < r) : stepsDown r x x = 0 := by
  rcases stepsDown_cases hx hx with ⟨-, h⟩ | ⟨hlt, -⟩ <;> omega

/-- A step down shortens the way down. -/
theorem stepsDown_pred {r x y : Nat} (hx : x < r) (hy : y < r) (hne : x ≠ y) :
    stepsDown r x y = stepsDown r ((x + r - 1) % r) y + 1 := by
  have hone := stepsDown_cases hx (show 1 < r by omega)
  rw [stepsDown] at hone
  have hdown := stepsDown_cases hx hy
  have hdown' := stepsDown_cases (Nat.mod_lt (x + r - 1) (by omega : r > 0)) hy
  omega

/-- A step up shortens the way up. -/
theorem stepsDown_succ {r x y : Nat} (hx : x < r) (hy : y < r) (hne : x ≠ y) :
    stepsDown r y x = stepsDown r y ((x + 1) % r) + 1 := by
  have hup := stepsDown_cases hy hx
  have hup' := stepsDown_cases hy (Nat.mod_lt (x + 1) (by omega : r > 0))
  rcases Nat.lt_or_ge (x + 1) r with hlt | hge
  · rw [Nat.mod_eq_of_lt hlt] at hup' ⊢
    omega
  · rw [show x + 1 = r by omega, Nat.mod_self] at hup' ⊢
    omega

/-- A step down, where the way down is not the longer one. -/
theorem cyclic_down {r x y : Nat} (hx : x < r) (hy : y < r) (hne : x ≠ y)
    (h : stepsDown r x y ≤ stepsDown r y x) :
    cyclic r x y = cyclic r ((x + r - 1) % r) y + 1 := by
  have hv : (x + r - 1) % r < r := Nat.mod_lt _ (by omega)
  have hround := stepsDown_add hx hy hne
  have hstep := stepsDown_pred hx hy hne
  rw [cyclic, cyclic]
  by_cases hthere : (x + r - 1) % r = y
  · rw [hthere, stepsDown_self hy] at hstep ⊢
    omega
  · have hround' := stepsDown_add hv hy hthere
    omega

/-- A step up, where the way up is not the longer one. -/
theorem cyclic_up {r x y : Nat} (hx : x < r) (hy : y < r) (hne : x ≠ y)
    (h : stepsDown r y x ≤ stepsDown r x y) :
    cyclic r x y = cyclic r ((x + 1) % r) y + 1 := by
  have hv : (x + 1) % r < r := Nat.mod_lt _ (by omega)
  have hround := stepsDown_add hx hy hne
  have hstep := stepsDown_succ hx hy hne
  rw [cyclic, cyclic]
  by_cases hthere : (x + 1) % r = y
  · rw [hthere, stepsDown_self hy] at hstep ⊢
    omega
  · have hround' := stepsDown_add hv hy hthere
    omega

end RayPlatform.Lib
