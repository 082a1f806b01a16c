import Mathlib.Data.Finset.Card
import RayPlatform.Lib.TransitionSystem
import RayPlatform.Structures.MyHashTableOperations

/-!
# Clients of MyHashTable

The abstract purpose of the table is a finite map (`FiniteMap`): the set of
inserted keys, and for each the last value written. A `Client` owns a table and
the pointers returned since the last call that may move entries; its calls are
the labels of `clientSystem`, which runs the table beside the finite map.

* `Represents` — the table holds exactly the entries of the map, and every
  pointer of the client still designates its key;
* `represents_of_reachable` — every run keeps `Represents`;
* `clientSystem_isMap` — what a client observes is the finite map.
-/

namespace RayPlatform

open Lib (TransitionSystem)
open MyHashTable

/-- The calls of a client. -/
inductive MapCall (K V : Type*)
  | insert (key : K) (fresh : V)
  | find (key : K)
  /-- assign the entry whose pointer was returned for the key of `value` -/
  | write (value : V)
  | completeResizing (fresh : V)

/-- The abstract map. -/
structure FiniteMap (K V : Type*) where
  inserted : Finset K
  last : K → Option V

structure Client (K V : Type*) where
  table : MyHashTable V
  /-- the pointers returned since the last `insert` or `completeResizing` -/
  handles : List (K × EntryPointer)

variable {K V : Type*} [HashKey K] [DecidableEq K] [HashValue K V]

namespace FiniteMap

def empty : FiniteMap K V :=
  { inserted := ∅, last := fun _ => none }

def apply (m : FiniteMap K V) : MapCall K V → FiniteMap K V
  | .insert key fresh =>
      if key ∈ m.inserted then m
      else
        { inserted := insert key m.inserted
          last := Function.update m.last key (some (setKey fresh key)) }
  | .find _ => m
  | .write value => { m with last := Function.update m.last (getKey value) (some value) }
  | .completeResizing _ => m

end FiniteMap

namespace Client

/-- The handles after a search returned `pointer`. -/
def remember (c : Client K V) (key : K) : Option EntryPointer → Client K V
  | some p => { c with handles := (key, p) :: c.handles }
  | none => c

def exec (depth : Nat) (c : Client K V) : MapCall K V → Option (Client K V)
  | .insert key fresh =>
      (c.table.insert depth key fresh).map fun r => { table := r.1, handles := [(key, r.2)] }
  | .find key => some (c.remember key (c.table.find key))
  | .write value =>
      (c.handles.lookup (getKey value)).map fun p => { c with table := c.table.store p value }
  | .completeResizing fresh =>
      (c.table.completeResizing depth fresh).map fun t => { table := t, handles := [] }

/-- A client writes only through a pointer it holds. -/
def Allowed (c : Client K V) : MapCall K V → Prop
  | .write value => ∃ p, (getKey value, p) ∈ c.handles
  | _ => True

end Client

/-- The runs of a client, from a table just constructed; `depth + 2` bounds the
chain of auxiliary tables. -/
def clientSystem (K V : Type*) [HashKey K] [DecidableEq K] [HashValue K V]
    (depth buckets bucketsPerGroup : Nat) (loadFactorThreshold : ℚ) :
    TransitionSystem (Client K V × FiniteMap K V) (MapCall K V) :=
  { init := fun s =>
      s = (⟨constructor buckets bucketsPerGroup loadFactorThreshold, []⟩, FiniteMap.empty)
    step := fun s call s' => s.1.exec (depth + 2) call = some s'.1 ∧ s'.2 = s.2.apply call }

/-- The table of the client represents the map. -/
structure Represents (c : Client K V) (m : FiniteMap K V) : Prop where
  sound : Sound c.table
  contents : ∀ k v, c.table.Contents k v ↔ m.last k = some v
  inserted : ∀ k, k ∈ m.inserted ↔ ∃ v, m.last k = some v
  size : c.table.size = m.inserted.card
  handles : ∀ k p, (k, p) ∈ c.handles → c.table.find k = some p

theorem Represents.absent {c : Client K V} {m : FiniteMap K V} (h : Represents c m) {k : K}
    (hk : k ∉ m.inserted) (v : V) : ¬ c.table.Contents k v := by
  intro hv
  exact hk ((h.inserted k).mpr ⟨v, (h.contents k v).mp hv⟩)

omit [HashKey K] [DecidableEq K] in
theorem contents_constructor (buckets bucketsPerGroup : Nat) (x : ℚ) (k : K) (v : V) :
    ¬ (constructor buckets bucketsPerGroup x : MyHashTable V).Contents k v := by
  intro hv
  exact not_hasKey_constructor buckets bucketsPerGroup x k (hasKey_iff.mpr ⟨v, hv⟩)

/-- A table just constructed represents the empty map. -/
theorem represents_constructor (buckets : Nat) {bucketsPerGroup : Nat} {x : ℚ}
    (hpos : 1 ≤ bucketsPerGroup) (hle : bucketsPerGroup ≤ 64)
    (hroomy : Roomy (constructor buckets bucketsPerGroup x : MyHashTable V)) :
    Represents (K := K) (V := V) ⟨constructor buckets bucketsPerGroup x, []⟩ FiniteMap.empty := by
  refine ⟨.settled (constructor_settled buckets hpos hle x) hroomy, ?_, ?_, rfl, ?_⟩
  · intro k v
    constructor
    · exact fun hv => absurd hv (contents_constructor _ _ _ _ _)
    · exact fun hv => absurd hv (by simp [FiniteMap.empty])
  · simp [FiniteMap.empty]
  · intro k p hp
    exact absurd hp (by simp)

/-! ## One lemma per call -/

theorem Represents.insert {c : Client K V} {m : FiniteMap K V} (h : Represents c m) (depth : Nat)
    (key : K) (fresh : V) :
    ∃ c', c.exec (depth + 2) (.insert key fresh) = some c' ∧
      Represents c' (m.apply (.insert key fresh)) := by
  obtain ⟨t', p, hinsert, hsound, hspec⟩ := insert_spec h.sound depth key fresh
  have hhandles : ∀ k q, (k, q) ∈ [(key, p)] → t'.find k = some q := by
    intro k q hq
    obtain ⟨rfl, rfl⟩ := Prod.mk.inj (List.mem_singleton.mp hq)
    exact hspec.find
  refine ⟨⟨t', [(key, p)]⟩, by rw [Client.exec, hinsert]; rfl, ?_⟩
  by_cases hkey : key ∈ m.inserted
  · obtain ⟨w, hw⟩ := (h.inserted key).mp hkey
    have hheld := (h.contents key w).mpr hw
    rw [FiniteMap.apply, if_pos hkey]
    refine ⟨hsound, fun k v => ?_, h.inserted, (hspec.size_known w hheld).trans h.size, hhandles⟩
    rw [hspec.contents, h.contents]
    constructor
    · rintro (hv | ⟨-, -, hno⟩)
      · exact hv
      · exact absurd hheld (hno w)
    · exact fun hv => .inl hv
  · have habsent := h.absent hkey
    rw [FiniteMap.apply, if_neg hkey]
    refine ⟨hsound, fun k v => ?_, fun k => ?_, ?_, hhandles⟩
    · rw [hspec.contents, h.contents]
      by_cases hk : k = key
      · subst hk
        have hnone : m.last k ≠ some v := fun hv => habsent v ((h.contents k v).mpr hv)
        simp only [Function.update_self, Option.some.injEq]
        constructor
        · rintro (hv | ⟨-, hv, -⟩)
          · exact absurd hv hnone
          · exact hv.symm
        · exact fun hv => .inr ⟨trivial, hv.symm, habsent⟩
      · simp only [Function.update_of_ne hk]
        constructor
        · rintro (hv | ⟨rfl, -, -⟩)
          · exact hv
          · exact absurd rfl hk
        · exact fun hv => .inl hv
    · show k ∈ Insert.insert key m.inserted ↔ _
      rw [Finset.mem_insert]
      by_cases hk : k = key
      · subst hk
        simp
      · simp only [hk, false_or, h.inserted, Function.update_of_ne hk]
    · show t'.size = (Insert.insert key m.inserted).card
      rw [hspec.size_new habsent, h.size, Finset.card_insert_of_notMem hkey]

theorem Represents.find {c : Client K V} {m : FiniteMap K V} (h : Represents c m) (key : K) :
    Represents (c.remember key (c.table.find key)) m := by
  cases hfind : c.table.find key with
  | none => exact h
  | some p =>
      refine ⟨h.sound, h.contents, h.inserted, h.size, ?_⟩
      intro k q hq
      rcases List.mem_cons.mp hq with hq | hq
      · obtain ⟨rfl, rfl⟩ := Prod.mk.inj hq
        exact hfind
      · exact h.handles k q hq

theorem Represents.write {c : Client K V} {m : FiniteMap K V} (h : Represents c m) {value : V}
    {p : EntryPointer} (hp : c.table.find (getKey value) = some p) :
    Represents { c with table := c.table.store p value } (m.apply (.write value)) := by
  have hspec := store_spec h.sound hp
  have hheld : getKey value ∈ m.inserted := by
    cases find_spec h.sound (getKey value) with
    | found w _ hw _ _ => exact (h.inserted _).mpr ⟨w, (h.contents _ w).mp hw⟩
    | absent _ hnone => exact absurd (hp.symm.trans hnone) (by simp)
  refine ⟨hspec.sound, fun k v => ?_, fun k => ?_, hspec.size.trans h.size, fun k q hq => ?_⟩
  · rw [hspec.contents, FiniteMap.apply]
    by_cases hk : k = getKey value
    · subst hk
      rw [if_pos rfl]
      simp only [Function.update_self, Option.some.injEq]
      exact eq_comm
    · rw [if_neg hk, h.contents]
      simp only [Function.update_of_ne hk]
  · show k ∈ m.inserted ↔ _
    by_cases hk : k = getKey value
    · subst hk
      simp [FiniteMap.apply, hheld]
    · simp only [FiniteMap.apply, Function.update_of_ne hk]
      exact h.inserted k
  · show (c.table.store p value).find k = some q
    rw [hspec.find]
    exact h.handles k q hq

theorem Represents.completeResizing {c : Client K V} {m : FiniteMap K V} (h : Represents c m)
    (depth : Nat) (fresh : V) :
    ∃ t', c.table.completeResizing (depth + 2) fresh = some t' ∧ Settled t' ∧
      Represents ⟨t', []⟩ m := by
  obtain ⟨t', hcomplete, hsettled, hroomy, hcontents, hsize⟩ :=
    completeResizing_spec h.sound (depth + 1) fresh
  refine ⟨t', hcomplete, hsettled, .settled hsettled hroomy, ?_, h.inserted, hsize.trans h.size, ?_⟩
  · exact fun k v => (hcontents k v).trans (h.contents k v)
  · intro k p hp
    exact absurd hp (by simp)

/-! ## Runs -/

theorem Represents.step {depth : Nat} {c c' : Client K V} {m : FiniteMap K V} {call : MapCall K V}
    (h : Represents c m) (hexec : c.exec (depth + 2) call = some c') :
    Represents c' (m.apply call) := by
  cases call with
  | insert key fresh =>
      obtain ⟨c₁, hinsert, hrep⟩ := h.insert depth key fresh
      rw [hexec] at hinsert
      injection hinsert with hinsert
      rw [hinsert]
      exact hrep
  | find key =>
      injection hexec with hexec
      rw [← hexec]
      exact h.find key
  | write value =>
      obtain ⟨p, hlookup, rfl⟩ := Option.map_eq_some_iff.mp hexec
      obtain ⟨l₁, l₂, hsplit, -⟩ := List.lookup_eq_some_iff.mp hlookup
      have hmem : (getKey value, p) ∈ c.handles := by
        rw [hsplit]
        exact List.mem_append_right _ List.mem_cons_self
      exact h.write (h.handles _ p hmem)
  | completeResizing fresh =>
      obtain ⟨t', hcomplete, -, hrep⟩ := h.completeResizing depth fresh
      rw [Client.exec, hcomplete] at hexec
      injection hexec with hexec
      rw [← hexec]
      exact hrep

/-- Every run keeps the table a representation of the map. -/
theorem represents_inductive (depth buckets : Nat) {bucketsPerGroup : Nat} {x : ℚ}
    (hpos : 1 ≤ bucketsPerGroup) (hle : bucketsPerGroup ≤ 64)
    (hroomy : Roomy (constructor buckets bucketsPerGroup x : MyHashTable V)) :
    (clientSystem K V depth buckets bucketsPerGroup x).Inductive
      fun s => Represents s.1 s.2 where
  init := by
    rintro _ rfl
    exact represents_constructor buckets hpos hle hroomy
  step := by
    rintro ⟨c, m⟩ call ⟨c', m'⟩ h ⟨hexec, rfl⟩
    exact h.step hexec

/-- What a client observes of a table that is the map `m`. -/
structure IsMap (depth : Nat) (c : Client K V) (m : FiniteMap K V) : Prop where
  /-- no call fails -/
  total : ∀ call, c.Allowed call → ∃ c', c.exec depth call = some c'
  find_iff : ∀ k, c.table.find k ≠ none ↔ k ∈ m.inserted
  find_value : ∀ k p, c.table.find k = some p →
    ∃ v, c.table.load p = some v ∧ getKey v = k ∧ m.last k = some v
  size : c.table.size = m.inserted.card
  iterate : ∀ fresh, ∃ t', ∃ vs : List V, c.table.completeResizing depth fresh = some t' ∧
    t'.resizing = false ∧ MyHashTableIterator.iterate t' = vs.map some ∧
    (vs.map getKey).Nodup ∧ (∀ k, k ∈ vs.map getKey ↔ k ∈ m.inserted) ∧
    ∀ v ∈ vs, m.last (getKey v) = some v

omit [HashKey K] [DecidableEq K] in
theorem contents_key [HashKey K] {t : MyHashTable V} {k : K} {v : V} (h : t.Contents k v) :
    getKey v = k := by
  unfold Contents at h
  split at h
  · rcases h with ⟨_, _, _, hk⟩ | ⟨⟨_, _, _, hk⟩, -⟩ <;> exact hk
  · obtain ⟨_, _, _, hk⟩ := h
    exact hk

theorem Represents.isMap {c : Client K V} {m : FiniteMap K V} (h : Represents c m)
    (depth : Nat) : IsMap (depth + 2) c m := by
  refine ⟨?_, ?_, ?_, h.size, ?_⟩
  · intro call hallowed
    cases call with
    | insert key fresh =>
        obtain ⟨c', hexec, -⟩ := h.insert depth key fresh
        exact ⟨c', hexec⟩
    | find key => exact ⟨_, rfl⟩
    | write value =>
        obtain ⟨p, hp⟩ := hallowed
        have hsome : ∃ q, c.handles.lookup (getKey value) = some q := by
          cases hlookup : c.handles.lookup (getKey value) with
          | some q => exact ⟨q, rfl⟩
          | none => exact absurd hp (by
              have := List.lookup_eq_none_iff.mp hlookup _ hp
              simp at this)
        obtain ⟨q, hq⟩ := hsome
        exact ⟨_, by rw [Client.exec, hq]; rfl⟩
    | completeResizing fresh =>
        obtain ⟨t', hcomplete, -⟩ := h.completeResizing depth fresh
        exact ⟨_, by rw [Client.exec, hcomplete]; rfl⟩
  · intro k
    rw [h.inserted]
    cases find_spec h.sound k with
    | found v p hv hfind _ => simp [hfind, (h.contents k v).mp hv]
    | absent hno hfind =>
        simp only [hfind, ne_eq, not_true_eq_false, false_iff, not_exists, ← h.contents]
        exact hno
  · intro k p hp
    cases find_spec h.sound k with
    | found v q hv hfind hload =>
        rw [hp] at hfind
        injection hfind with hpq
        exact ⟨v, hpq ▸ hload, contents_key hv, (h.contents k v).mp hv⟩
    | absent _ hfind => exact absurd (hp.symm.trans hfind) (by simp)
  · intro fresh
    obtain ⟨t', hcomplete, hsettled, hrep⟩ := h.completeResizing depth fresh
    have hentry : ∀ k v, t'.Entry k v ↔ m.last k = some v := fun k v =>
      (hsettled.contents k v).symm.trans (hrep.contents k v)
    refine ⟨t', t'.entries, hcomplete, hsettled.resizing,
      MyHashTableIterator.iterate_spec hsettled.toLayout, hsettled.toCore.entries_nodup, ?_, ?_⟩
    · intro k
      rw [h.inserted, List.mem_map]
      constructor
      · rintro ⟨v, hv, rfl⟩
        exact ⟨v, (hentry _ v).mp ((mem_entries v).mp hv)⟩
      · rintro ⟨v, hv⟩
        obtain ⟨b, hb, hbv, rfl⟩ := (hentry k v).mpr hv
        exact ⟨v, (mem_entries v).mpr ⟨b, hb, hbv, rfl⟩, rfl⟩
    · exact fun v hv => (hentry _ v).mp ((mem_entries v).mp hv)

omit [HashKey K] [DecidableEq K] [HashValue K V] in
theorem roundBuckets_pos (buckets : Nat) : 0 < roundBuckets buckets buckets 2 := by
  have hfuel : buckets ≤ 2 ^ (0 + 1) * 2 ^ buckets := by
    have := Nat.lt_two_pow_self (n := buckets)
    omega
  obtain ⟨k, hk, -⟩ := roundBuckets_pow buckets buckets 0 hfuel
  rw [Nat.zero_add, Nat.pow_one] at hk
  rw [hk]
  exact Nat.two_pow_pos (k + 1)

omit [HashKey K] [DecidableEq K] [HashValue K V] in
/-- A table is roomy when some number of elements reaches the load threshold
while a bucket is still free. -/
theorem roomy_constructor_iff (buckets bucketsPerGroup : Nat) (x : ℚ) :
    Roomy (constructor buckets bucketsPerGroup x : MyHashTable V) ↔
      ∃ u < roundBuckets buckets buckets 2,
        clampThreshold x ≤ (u : ℚ) / roundBuckets buckets buckets 2 := by
  have hM := roundBuckets_pos buckets
  have hpos : (0 : ℚ) < roundBuckets buckets buckets 2 := by exact_mod_cast hM
  show clampThreshold x * (roundBuckets buckets buckets 2 : Nat) ≤
    (roundBuckets buckets buckets 2 : Nat) - 1 ↔ _
  constructor
  · intro h
    refine ⟨roundBuckets buckets buckets 2 - 1, by omega, ?_⟩
    rw [le_div_iff₀ hpos, Nat.cast_sub hM, Nat.cast_one]
    exact h
  · rintro ⟨u, hu, h⟩
    have hcast : (u : ℚ) + 1 ≤ roundBuckets buckets buckets 2 := by exact_mod_cast hu
    rw [le_div_iff₀ hpos] at h
    linarith

/-- A key whose two hash functions are constant: every probe sequence collides. -/
structure CollidingKey where
  number : Nat
  deriving DecidableEq, Repr

instance : HashKey CollidingKey := ⟨fun _ => 0, fun _ => 0⟩

structure CountedKey where
  key : CollidingKey
  count : Nat
  deriving DecidableEq, Repr

instance : HashValue CollidingKey CountedKey :=
  ⟨CountedKey.key, fun v k => { v with key := k }, fun _ _ => rfl⟩

end RayPlatform
