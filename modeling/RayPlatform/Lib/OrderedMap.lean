import Mathlib.Data.Finmap
import Mathlib.Data.Finset.Max

/-!
# Ordered maps with default values

Finite maps in the manner of `std::map`: `get` and `modify` are the two uses of
`operator[]`, which takes a default value for a key without entry.

* `modifyInner`, `eraseInner` — a map of maps that keeps no empty inner map
  (`NoEmptyInner`);
* `insertIn`, `eraseFrom` — an index, that is a map of sets that keeps no empty set
  (`NoEmptySet`);
* `top?` — the first element under the last key of an index.
-/

namespace RayPlatform.Lib

abbrev Map (κ α : Type) := Finmap fun _ : κ => α

namespace Map

variable {κ ι α : Type} [DecidableEq κ] [DecidableEq ι]

section Default

variable [Inhabited α] (m : Map κ α) {j k : κ}

/-- `m[k]` -/
def get (k : κ) : α :=
  (m.lookup k).getD default

/-- `m[k] = f(m[k])` -/
def modify (k : κ) (f : α → α) : Map κ α :=
  m.insert k (f (m.get k))

@[simp]
theorem get_empty : Map.get (∅ : Map κ α) k = default := by
  simp [Map.get]

@[simp]
theorem get_insert_self {a : α} : Map.get (m.insert k a) k = a := by
  simp [Map.get]

theorem get_insert_of_ne {a : α} (h : j ≠ k) : Map.get (m.insert k a) j = m.get j := by
  simp [Map.get, Finmap.lookup_insert_of_ne _ h]

@[simp]
theorem get_erase_self : Map.get (m.erase k) k = default := by
  simp [Map.get]

theorem get_erase_of_ne (h : j ≠ k) : Map.get (m.erase k) j = m.get j := by
  simp [Map.get, Finmap.lookup_erase_ne h]

@[simp]
theorem get_modify_self {f : α → α} : (m.modify k f).get k = f (m.get k) :=
  m.get_insert_self

theorem get_modify_of_ne {f : α → α} (h : j ≠ k) : (m.modify k f).get j = m.get j :=
  m.get_insert_of_ne h

theorem lookup_modify {f : α → α} :
    (m.modify k f).lookup j = if j = k then some (f (m.get k)) else m.lookup j := by
  unfold modify
  split
  · rename_i hkey
    rw [hkey, Finmap.lookup_insert]
  · rename_i hkey
    rw [Finmap.lookup_insert_of_ne _ hkey]

end Default

/-! ## Maps of maps -/

/-- `m[k][i] = f(m[k][i])` -/
def modifyInner [Inhabited α] (m : Map κ (Map ι α)) (k : κ) (i : ι) (f : α → α) :
    Map κ (Map ι α) :=
  m.modify k fun inner => inner.modify i f

/-- `m[k].erase(i); if(m[k].size() == 0) m.erase(k);` -/
def eraseInner (m : Map κ (Map ι α)) (k : κ) (i : ι) : Map κ (Map ι α) :=
  if (Finmap.erase i (m.get k)).keys.card = 0 then m.erase k
  else m.insert k (Finmap.erase i (m.get k))

theorem lookup_modifyInner [Inhabited α] (m : Map κ (Map ι α)) {j k : κ} {i i' : ι} {f : α → α} :
    ((m.modifyInner k i f).get j).lookup i' =
      if j = k ∧ i' = i then some (f ((m.get k).get i)) else (m.get j).lookup i' := by
  unfold modifyInner
  by_cases hkey : j = k
  · subst hkey
    rw [get_modify_self, lookup_modify]
    simp
  · rw [get_modify_of_ne _ hkey]
    simp [hkey]

theorem get_modifyInner [Inhabited α] (m : Map κ (Map ι α)) {j k : κ} {i i' : ι} {f : α → α} :
    ((m.modifyInner k i f).get j).get i' =
      if j = k ∧ i' = i then f ((m.get k).get i) else (m.get j).get i' := by
  rw [Map.get, lookup_modifyInner]
  split <;> rfl

theorem lookup_eraseInner (m : Map κ (Map ι α)) {j k : κ} {i i' : ι} :
    ((m.eraseInner k i).get j).lookup i' =
      if j = k ∧ i' = i then none else (m.get j).lookup i' := by
  have herase : (Finmap.erase i (m.get k)).lookup i' =
      if i' = i then none else (m.get k).lookup i' := by
    split
    · rename_i hinner
      rw [hinner, Finmap.lookup_erase]
    · rename_i hinner
      rw [Finmap.lookup_erase_ne hinner]
  unfold eraseInner
  by_cases hkey : j = k
  · subst hkey
    simp only [true_and]
    rw [← herase]
    split
    · rename_i hempty
      rw [get_erase_self, eq_comm]
      apply Finmap.lookup_eq_none.mpr
      rw [← Finmap.mem_keys, Finset.card_eq_zero.mp hempty]
      exact Finset.notMem_empty i'
    · rw [get_insert_self]
  · have hother : ¬ (j = k ∧ i' = i) := fun heq => hkey heq.1
    rw [if_neg hother]
    split
    · rw [get_erase_of_ne _ hkey]
    · rw [get_insert_of_ne _ hkey]

/-- No key of a map of maps has an empty map. -/
def NoEmptyInner (m : Map κ (Map ι α)) : Prop :=
  ∀ k, m.lookup k ≠ some ∅

section NoEmptyInner

variable {m : Map κ (Map ι α)} {k : κ} {i : ι}

omit [DecidableEq ι] in
theorem noEmptyInner_empty : NoEmptyInner (∅ : Map κ (Map ι α)) := by
  intro k
  simp

theorem NoEmptyInner.modifyInner [Inhabited α] (h : NoEmptyInner m) (f : α → α) :
    NoEmptyInner (m.modifyInner k i f) := by
  intro j
  unfold Map.modifyInner
  rw [lookup_modify]
  split
  · intro hempty
    have hlookup : Finmap.lookup i ((m.get k).modify i f) = some (f ((m.get k).get i)) := by
      rw [lookup_modify, if_pos rfl]
    rw [Option.some.inj hempty, Finmap.lookup_empty] at hlookup
    cases hlookup
  · exact h j

theorem NoEmptyInner.eraseInner (h : NoEmptyInner m) : NoEmptyInner (m.eraseInner k i) := by
  intro j
  unfold Map.eraseInner
  by_cases hkey : j = k
  · subst hkey
    split
    · rw [Finmap.lookup_erase]
      simp
    · rename_i hsome
      rw [Finmap.lookup_insert]
      intro hempty
      exact hsome (by rw [Option.some.inj hempty, Finmap.keys_empty, Finset.card_empty])
  · split
    · rw [Finmap.lookup_erase_ne hkey]
      exact h j
    · rw [Finmap.lookup_insert_of_ne _ hkey]
      exact h j

/-- A map of maps is empty if nothing is in it. -/
theorem NoEmptyInner.keys_card (h : NoEmptyInner m) :
    m.keys.card = 0 ↔ ∀ k i, (m.get k).lookup i = none := by
  rw [Finset.card_eq_zero, Finset.eq_empty_iff_forall_notMem]
  refine ⟨fun hkeys k i => ?_, fun hnone k hk => ?_⟩
  · have hlookup : m.lookup k = none :=
      Finmap.lookup_eq_none.mpr fun hmem => hkeys k (Finmap.mem_keys.mpr hmem)
    rw [Map.get, hlookup]
    exact Finmap.lookup_empty i
  · obtain ⟨inner, hinner⟩ := Finmap.mem_iff.mp (Finmap.mem_keys.mp hk)
    have hget : m.get k = inner := by
      rw [Map.get, hinner]
      rfl
    have hempty : inner = ∅ := by
      apply Finmap.ext_lookup
      intro i
      rw [← hget, hnone, Finmap.lookup_empty]
    exact h k (by rw [hinner, hempty])

end NoEmptyInner

/-! ## Indexes -/

variable [DecidableEq α]

/-- `index[k].insert(a)` -/
def insertIn (index : Map κ (Finset α)) (k : κ) (a : α) : Map κ (Finset α) :=
  index.modify k (insert a)

/-- `index[k].erase(a); if(index[k].size() == 0) index.erase(k);` -/
def eraseFrom (index : Map κ (Finset α)) (k : κ) (a : α) : Map κ (Finset α) :=
  if ((index.get k).erase a).card = 0 then Finmap.erase k index
  else Finmap.insert k ((index.get k).erase a) index

/-- No key of an index has an empty set. -/
def NoEmptySet (index : Map κ (Finset α)) : Prop :=
  ∀ k, index.lookup k ≠ some ∅

variable {index : Map κ (Finset α)} {j k : κ} {a b : α}

omit [DecidableEq α] in
theorem noEmptySet_empty : NoEmptySet (∅ : Map κ (Finset α)) := by
  intro k
  simp

theorem mem_insertIn : b ∈ (index.insertIn k a).get j ↔ (j = k ∧ b = a) ∨ b ∈ index.get j := by
  unfold insertIn
  by_cases hkey : j = k
  · subst hkey
    simp
  · rw [get_modify_of_ne _ hkey]
    simp [hkey]

theorem mem_eraseFrom :
    b ∈ (index.eraseFrom k a).get j ↔ ¬ (j = k ∧ b = a) ∧ b ∈ index.get j := by
  unfold eraseFrom
  by_cases hkey : j = k
  · subst hkey
    split
    · rename_i hempty
      rw [get_erase_self]
      have hnone : b ∉ (index.get j).erase a := by
        rw [Finset.card_eq_zero.mp hempty]
        exact Finset.notMem_empty b
      rw [Finset.mem_erase] at hnone
      exact iff_of_false (Finset.notMem_empty b) (by simpa using hnone)
    · rw [get_insert_self, Finset.mem_erase]
      simp
  · split
    · rw [get_erase_of_ne _ hkey]
      simp [hkey]
    · rw [get_insert_of_ne _ hkey]
      simp [hkey]

theorem NoEmptySet.insertIn (h : NoEmptySet index) : NoEmptySet (index.insertIn k a) := by
  intro j
  unfold Map.insertIn
  by_cases hkey : j = k
  · subst hkey
    rw [lookup_modify, if_pos rfl]
    simp
  · rw [lookup_modify, if_neg hkey]
    exact h j

theorem NoEmptySet.eraseFrom (h : NoEmptySet index) : NoEmptySet (index.eraseFrom k a) := by
  intro j
  unfold Map.eraseFrom
  by_cases hkey : j = k
  · subst hkey
    split
    · simp
    · rename_i hsome
      rw [Finmap.lookup_insert]
      intro hempty
      exact hsome (by rw [Option.some.inj hempty, Finset.card_empty])
  · split
    · rw [Finmap.lookup_erase_ne hkey]
      exact h j
    · rw [Finmap.lookup_insert_of_ne _ hkey]
      exact h j

omit [DecidableEq α] in
/-- An index is empty if nothing is in it. -/
theorem NoEmptySet.keys_card (h : NoEmptySet index) :
    index.keys.card = 0 ↔ ∀ k a, a ∉ index.get k := by
  rw [Finset.card_eq_zero, Finset.eq_empty_iff_forall_notMem]
  refine ⟨fun hkeys k a ha => ?_, fun hnone k hk => ?_⟩
  · have hlookup : index.lookup k = none :=
      Finmap.lookup_eq_none.mpr fun hmem => hkeys k (Finmap.mem_keys.mpr hmem)
    rw [Map.get, hlookup] at ha
    exact Finset.notMem_empty a ha
  · obtain ⟨s, hs⟩ := Finmap.mem_iff.mp (Finmap.mem_keys.mp hk)
    have hempty : s = ∅ := Finset.eq_empty_iff_forall_notMem.mpr fun a ha =>
      hnone k a (by rw [Map.get, hs]; exact ha)
    exact h k (by rw [hs, hempty])

omit [DecidableEq α] in
/-- What is in an index is under one of its keys. -/
theorem mem_keys_of_mem_get (h : a ∈ index.get k) : k ∈ index.keys := by
  by_contra hout
  rw [Finmap.mem_keys, ← Finmap.lookup_eq_none] at hout
  rw [Map.get, hout] at h
  exact Finset.notMem_empty a h

variable [LinearOrder κ] [LinearOrder α]

/-- `*s.begin()` -/
def first? (s : Finset α) : Option α :=
  if h : s.Nonempty then some (s.min' h) else none

/-- `m.rbegin()->first` -/
def lastKey? {β : Type} (m : Map κ β) : Option κ :=
  if h : m.keys.Nonempty then some (m.keys.max' h) else none

/-- `*index.rbegin()->second.begin()` -/
def top? (index : Map κ (Finset α)) : Option α := do
  let k ← index.lastKey?
  first? (index.get k)

omit [DecidableEq κ] [DecidableEq ι] [DecidableEq α] [LinearOrder κ] in
theorem first?_eq_none_iff {s : Finset α} : first? s = none ↔ s = ∅ := by
  unfold first?
  rw [← Finset.not_nonempty_iff_eq_empty]
  split <;> simp_all

omit [DecidableEq κ] [DecidableEq ι] [DecidableEq α] [LinearOrder κ] in
theorem first?_mem {s : Finset α} (h : first? s = some a) : a ∈ s := by
  unfold first? at h
  split at h
  · cases h
    exact s.min'_mem _
  · cases h

omit [DecidableEq α] in
/-- The top of an index is in the last of its sets. -/
theorem NoEmptySet.top?_spec (h : NoEmptySet index) (ha : a ∈ index.get k) :
    ∃ p top, index.top? = some top ∧ top ∈ index.get p ∧ ∀ j b, b ∈ index.get j → j ≤ p := by
  have hkeys : index.keys.Nonempty := ⟨k, mem_keys_of_mem_get ha⟩
  obtain ⟨s, hs⟩ := Finmap.mem_iff.mp (Finmap.mem_keys.mp (index.keys.max'_mem hkeys))
  have hget : index.get (index.keys.max' hkeys) = s := by
    rw [Map.get, hs]
    rfl
  have hne : s.Nonempty := by
    rw [Finset.nonempty_iff_ne_empty]
    intro hempty
    exact h _ (by rw [hs, hempty])
  refine ⟨index.keys.max' hkeys, s.min' hne, ?_, ?_, fun j b hb =>
    Finset.le_max' _ j (mem_keys_of_mem_get hb)⟩
  · rw [top?, lastKey?, dif_pos hkeys]
    show first? (index.get _) = _
    rw [hget, first?, dif_pos hne]
  · rw [hget]
    exact s.min'_mem hne

end Map

end RayPlatform.Lib
