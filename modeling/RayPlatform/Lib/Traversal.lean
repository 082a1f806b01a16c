import Mathlib.Data.List.Basic

/-!
# Lists of results that may fail

`l.mapM f` in `Option`: `f` of every element, or nothing if it fails for one.

* `mapM_eq_some_iff`, `mapM_isSome` — when there is a result, and which;
* `mapM_range_of_forall` — the elements of a list computed from their indexes.
-/

namespace RayPlatform.Lib

variable {α β γ : Type*}

theorem mapM_eq_some_iff {f : α → Option β} {l : List α} {l' : List β} :
    l.mapM f = some l' ↔ l.map f = l'.map some := by
  induction l generalizing l' with
  | nil => cases l' <;> simp
  | cons x l ih =>
      rw [List.mapM_cons]
      cases l' with
      | nil =>
          cases hx : f x with
          | none => simp [hx]
          | some y => cases hl : l.mapM f <;> simp [hx]
      | cons y l' =>
          cases hx : f x with
          | none => simp [hx]
          | some z => cases hl : l.mapM f <;> simp [hx, ← ih, hl]

theorem length_of_mapM {f : α → Option β} {l : List α} {table : List β}
    (h : l.mapM f = some table) : table.length = l.length := by
  have hlength := congrArg List.length (mapM_eq_some_iff.mp h)
  simpa using hlength.symm

theorem mapM_isSome {f : β → Option α} {l : List β}
    (h : ∀ x ∈ l, ∃ t, f x = some t) :
    ∃ table, l.mapM f = some table ∧ ∀ i (hi : i < l.length), table[i]? = f l[i] := by
  induction l with
  | nil => exact ⟨[], rfl, by simp⟩
  | cons x l ih =>
      obtain ⟨t, ht⟩ := h x (by simp)
      obtain ⟨table, htable, hentry⟩ := ih fun y hy => h y (by simp [hy])
      refine ⟨t :: table, by simp [List.mapM_cons, ht, htable], fun i hi => ?_⟩
      cases i with
      | zero => simp [ht]
      | succ i => simpa using hentry i (by simpa using hi)

theorem mapM_range_of_forall {f : Nat → Option β} {view : β → γ} {expected : List γ}
    (h : ∀ i (hi : i < expected.length), ∃ b, f i = some b ∧ view b = expected[i]) :
    ∃ table, (List.range expected.length).mapM f = some table ∧ table.map view = expected := by
  obtain ⟨table, htable, hentry⟩ := mapM_isSome (f := f) (l := List.range expected.length)
    fun i hi => (h i (List.mem_range.mp hi)).imp fun _ hb => hb.1
  have hlength := length_of_mapM htable
  rw [List.length_range] at hlength
  refine ⟨table, htable, List.ext_getElem (by simpa using hlength) fun i hi hi' => ?_⟩
  obtain ⟨b, hb, hview⟩ := h i hi'
  have hnow := hentry i (by simpa using hi')
  rw [List.getElem_range, hb] at hnow
  obtain ⟨hbound, hget⟩ := List.getElem?_eq_some_iff.mp hnow
  rw [List.getElem_map, hget, hview]

end RayPlatform.Lib
