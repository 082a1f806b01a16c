import RayPlatform.Lib.OrderedMap
import Mathlib.Logic.Function.Basic

/-!
# Exact indexes

Things have a place in an order, or none, and an identifier. `Lists index name place`
says that an index lists each thing that has a place under it, by its identifier, and
nothing else.

* `Lists.insert`, `Lists.erase` — a thing gets a place, or loses it;
* `Lists.name_mem_iff` — where the identifier of a thing is listed;
* `Lists.top?_spec` — the top of the index is a thing in the last place.
-/

namespace RayPlatform.Lib

open Map (NoEmptySet)

variable {κ α γ : Type} [DecidableEq κ]

/-- The index lists the things by their identifiers, each under its place. -/
structure Lists (index : Map κ (Finset α)) (name : γ → α) (place : γ → Option κ) : Prop where
  mem_iff : ∀ k a, a ∈ index.get k ↔ ∃ g, place g = some k ∧ name g = a
  noEmptySet : NoEmptySet index
  name_inj : ∀ g g', (place g).isSome → (place g').isSome → name g = name g' → g = g'

namespace Lists

variable {index : Map κ (Finset α)} {name : γ → α} {place : γ → Option κ} {g : γ} {k : κ} {a : α}

theorem empty (name : γ → α) : Lists (∅ : Map κ (Finset α)) name fun _ => none := by
  refine ⟨fun k a => ?_, Map.noEmptySet_empty, fun g g' hg _ _ => ?_⟩
  · rw [Map.get_empty]
    simp [default]
  · cases hg

/-- The identifier of a thing is under its place only, if no other thing has it. -/
theorem name_mem_iff (h : Lists index name place)
    (hname : ∀ g', (place g').isSome → name g' = name g → g' = g) :
    name g ∈ index.get k ↔ place g = some k := by
  rw [h.mem_iff]
  constructor
  · rintro ⟨g', hg', heq⟩
    have hsome : (place g').isSome := by rw [hg', Option.isSome_some]
    rw [← hname g' hsome heq]
    exact hg'
  · intro hg
    exact ⟨g, hg, rfl⟩

theorem keys_card (h : Lists index name place) :
    index.keys.card = 0 ↔ ∀ g, place g = none := by
  rw [h.noEmptySet.keys_card]
  constructor
  · intro hnone g
    cases hg : place g with
    | none => rfl
    | some k => exact absurd ((h.mem_iff k _).mpr ⟨g, hg, rfl⟩) (hnone k _)
  · intro hnone k a ha
    obtain ⟨g, hg, _⟩ := (h.mem_iff k a).mp ha
    rw [hnone] at hg
    cases hg

section Changes

variable [DecidableEq α]

/-- Nothing changes where nothing is listed. -/
theorem erase_absent (h : Lists index name place) (hk : ∀ g, place g ≠ some k) (a : α) :
    Lists (index.eraseFrom k a) name place := by
  refine ⟨fun j b => ?_, h.noEmptySet.eraseFrom, h.name_inj⟩
  rw [Map.mem_eraseFrom, h.mem_iff]
  refine ⟨fun ⟨_, hlisted⟩ => hlisted, fun hlisted => ⟨?_, hlisted⟩⟩
  rintro ⟨rfl, rfl⟩
  obtain ⟨g, hg, _⟩ := hlisted
  exact hk g hg

variable [DecidableEq γ]

/-- A thing leaves its place. -/
theorem erase (h : Lists index name place) (hg : place g = some k) :
    Lists (index.eraseFrom k (name g)) name (Function.update place g none) := by
  have hsome : (place g).isSome := by rw [hg, Option.isSome_some]
  have hother : ∀ g', (Function.update place g none g').isSome → g' ≠ g ∧ (place g').isSome := by
    intro g' hg'
    by_cases heq : g' = g
    · rw [heq, Function.update_self] at hg'
      cases hg'
    · rw [Function.update_of_ne heq] at hg'
      exact ⟨heq, hg'⟩
  refine ⟨fun j a => ?_, h.noEmptySet.eraseFrom, fun g₁ g₂ hg₁ hg₂ heq => ?_⟩
  · rw [Map.mem_eraseFrom, h.mem_iff]
    constructor
    · rintro ⟨hnot, g', hg', rfl⟩
      refine ⟨g', ?_, rfl⟩
      rw [Function.update_of_ne, hg']
      rintro rfl
      rw [hg] at hg'
      cases hg'
      exact hnot ⟨rfl, rfl⟩
    · rintro ⟨g', hg', rfl⟩
      obtain ⟨hne, hsome'⟩ := hother g' (by rw [hg', Option.isSome_some])
      rw [Function.update_of_ne hne] at hg'
      exact ⟨fun heq => hne (h.name_inj g' g hsome' hsome heq.2), g', hg', rfl⟩
  · exact h.name_inj g₁ g₂ (hother g₁ hg₁).2 (hother g₂ hg₂).2 heq

/-- A thing without place gets one. -/
theorem insert (h : Lists index name place) (hg : place g = none) (k : κ)
    (hname : ∀ g', (place g').isSome → name g' = name g → g' = g) :
    Lists (index.insertIn k (name g)) name (Function.update place g (some k)) := by
  refine ⟨fun j a => ?_, h.noEmptySet.insertIn, fun g₁ g₂ hg₁ hg₂ heq => ?_⟩
  · rw [Map.mem_insertIn, h.mem_iff]
    constructor
    · rintro (⟨rfl, rfl⟩ | ⟨g', hg', rfl⟩)
      · exact ⟨g, Function.update_self _ _ _, rfl⟩
      · refine ⟨g', ?_, rfl⟩
        rw [Function.update_of_ne, hg']
        rintro rfl
        rw [hg] at hg'
        cases hg'
    · rintro ⟨g', hg', rfl⟩
      by_cases heq : g' = g
      · subst heq
        rw [Function.update_self] at hg'
        cases hg'
        exact .inl ⟨rfl, rfl⟩
      · rw [Function.update_of_ne heq] at hg'
        exact .inr ⟨g', hg', rfl⟩
  · by_cases h₁ : g₁ = g
    · by_cases h₂ : g₂ = g
      · rw [h₁, h₂]
      · rw [Function.update_of_ne h₂] at hg₂
        rw [h₁] at heq ⊢
        exact (hname g₂ hg₂ heq.symm).symm
    · rw [Function.update_of_ne h₁] at hg₁
      by_cases h₂ : g₂ = g
      · rw [h₂] at heq ⊢
        exact hname g₁ hg₁ heq
      · rw [Function.update_of_ne h₂] at hg₂
        exact h.name_inj g₁ g₂ hg₁ hg₂ heq

end Changes

variable [LinearOrder κ] [LinearOrder α]

/-- The top of the index is one of the things in the last place, if there is any. -/
theorem top?_spec (h : Lists index name place) :
    (∀ g, place g = none) ∨
      ∃ g k, place g = some k ∧ index.top? = some (name g) ∧
        ∀ g' k', place g' = some k' → k' ≤ k := by
  by_cases hnone : ∀ g, place g = none
  · exact .inl hnone
  · rw [← h.keys_card, h.noEmptySet.keys_card] at hnone
    simp only [not_forall, not_not] at hnone
    obtain ⟨k, a, ha⟩ := hnone
    obtain ⟨last, top, htop, hlast, hmax⟩ := h.noEmptySet.top?_spec ha
    obtain ⟨g, hg, rfl⟩ := (h.mem_iff last top).mp hlast
    refine .inr ⟨g, last, hg, htop, fun g' k' hg' => ?_⟩
    exact hmax k' (name g') ((h.mem_iff k' (name g')).mpr ⟨g', hg', rfl⟩)

end Lists

end RayPlatform.Lib
