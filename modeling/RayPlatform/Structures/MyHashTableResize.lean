import RayPlatform.Structures.MyHashTableMain

/-!
# Incremental resizing of MyHashTable

While a table is resizing, its buckets below `currentBucketToTransfer` have been
copied to the auxiliary table and new keys go to the auxiliary table. The
invariant is `Transferring`; its `pace` field bounds how fast the auxiliary table
fills, which is why it never starts growing itself (`Transferring.below`).

* `transferBucket_spec` / `transferBuckets_spec` — what moving buckets does;
* `resize_spec` — a call to `resize` moves two buckets, and the last call puts the
  auxiliary table in the place of the main table;
* `Contents` — the entries a table holds for its clients, which moving buckets
  does not change.
-/

namespace RayPlatform

namespace MyHashTable

open Lib.OpenAddressing

variable {K V : Type*} [HashKey K] [DecidableEq K] [HashValue K V]

/-- The table holds the entry `v` for the key `k`: the auxiliary table answers
first, and an entry of the main table is current when it has not been copied. -/
def Contents (t : MyHashTable V) (k : K) (v : V) : Prop :=
  match t.auxiliaryTableForIncrementalResize with
  | some a => a.Entry k v ∨ (t.Entry k v ∧ ¬ a.HasKey k)
  | none => t.Entry k v

/-- Growth triggers while a bucket of the table is still free. -/
def Roomy (t : MyHashTable V) : Prop :=
  t.maximumLoadFactor * t.totalNumberOfBuckets ≤ t.totalNumberOfBuckets - 1

/-- A resizing in progress: `r` bounds the keys inserted since it started. -/
structure Transferring (r : Nat) (t a : MyHashTable V) : Prop extends Core t where
  resizing : t.resizing = true
  auxiliary : t.auxiliaryTableForIncrementalResize = some a
  settled : Settled a
  auxiliaryTotal : a.totalNumberOfBuckets = 2 * t.totalNumberOfBuckets
  auxiliaryLoad : a.maximumLoadFactor = t.maximumLoadFactor
  auxiliaryWidth : a.numberOfBucketsInGroup = t.numberOfBucketsInGroup
  current : t.currentBucketToTransfer ≤ t.totalNumberOfBuckets
  free : t.utilisedBuckets < t.totalNumberOfBuckets
  /-- growth was triggered by the insertion that reached the threshold -/
  tight : (t.utilisedBuckets : ℚ) - 1 < t.maximumLoadFactor * t.totalNumberOfBuckets
  budget : r + 2 ≤ t.totalNumberOfBuckets
  pace : 2 * a.utilisedBuckets ≤ 2 * occupied t.bucket t.currentBucketToTransfer + r
  moved : ∀ b < t.currentBucketToTransfer, ∀ v, t.bucket b = some v → a.HasKey (getKey v)
  unmoved : ∀ b, t.currentBucketToTransfer ≤ b → b < t.totalNumberOfBuckets →
    ∀ v, t.bucket b = some v → ¬ a.HasKey (getKey v)
  size : t.size + occupied t.bucket t.currentBucketToTransfer =
    a.utilisedBuckets + t.utilisedBuckets

/-- A resizing in progress, also of a main table that is full. -/
structure Moving (r : Nat) (t a : MyHashTable V) : Prop extends Core t where
  resizing : t.resizing = true
  auxiliary : t.auxiliaryTableForIncrementalResize = some a
  settled : Settled a
  auxiliaryTotal : a.totalNumberOfBuckets = 2 * t.totalNumberOfBuckets
  auxiliaryLoad : a.maximumLoadFactor = t.maximumLoadFactor
  auxiliaryWidth : a.numberOfBucketsInGroup = t.numberOfBucketsInGroup
  current : t.currentBucketToTransfer ≤ t.totalNumberOfBuckets
  /-- growth was triggered by the insertion that reached the threshold -/
  tight : (t.utilisedBuckets : ℚ) - 1 < t.maximumLoadFactor * t.totalNumberOfBuckets
  budget : r + 2 ≤ t.totalNumberOfBuckets
  pace : 2 * a.utilisedBuckets ≤ 2 * occupied t.bucket t.currentBucketToTransfer + r
  moved : ∀ b < t.currentBucketToTransfer, ∀ v, t.bucket b = some v → a.HasKey (getKey v)
  unmoved : ∀ b, t.currentBucketToTransfer ≤ b → b < t.totalNumberOfBuckets →
    ∀ v, t.bucket b = some v → ¬ a.HasKey (getKey v)
  size : t.size + occupied t.bucket t.currentBucketToTransfer =
    a.utilisedBuckets + t.utilisedBuckets

omit [DecidableEq K] in
theorem Transferring.moving {r : Nat} {t a : MyHashTable V} (h : Transferring r t a) :
    Moving r t a :=
  { h with }

omit [DecidableEq K] in
theorem Moving.transferring {r : Nat} {t a : MyHashTable V} (h : Moving r t a)
    (hfree : t.utilisedBuckets < t.totalNumberOfBuckets) : Transferring r t a :=
  { h with free := hfree }

omit [DecidableEq K] in
/-- The auxiliary table stays below its threshold. -/
theorem Moving.below {r : Nat} {t a : MyHashTable V} (h : Moving r t a) {n : Nat}
    (hn : 2 * n + 2 ≤ 2 * t.utilisedBuckets + t.totalNumberOfBuckets) :
    (n : ℚ) / a.totalNumberOfBuckets < a.maximumLoadFactor := by
  have hM := h.toLayout.two_le
  have hpos : (0 : ℚ) < t.totalNumberOfBuckets := by exact_mod_cast (by omega)
  have hcast : (a.totalNumberOfBuckets : ℚ) = 2 * t.totalNumberOfBuckets := by
    rw [h.auxiliaryTotal]
    push_cast
    ring
  have hn' : 2 * (n : ℚ) + 2 ≤ 2 * t.utilisedBuckets + t.totalNumberOfBuckets := by
    exact_mod_cast hn
  have hge := mul_le_mul_of_nonneg_right h.load_ge (le_of_lt hpos)
  rw [hcast, h.auxiliaryLoad, div_lt_iff₀ (by linarith)]
  linarith [h.tight]

omit [DecidableEq K] in
/-- There is room for the entry of an occupied bucket that has not been moved. -/
theorem Moving.room {r : Nat} {t a : MyHashTable V} (h : Moving r t a)
    (hcur : t.currentBucketToTransfer < t.totalNumberOfBuckets)
    (hocc : occupied t.bucket (t.currentBucketToTransfer + 1) =
      occupied t.bucket t.currentBucketToTransfer + 1) :
    2 * (a.utilisedBuckets + 1) + 2 ≤ 2 * t.utilisedBuckets + t.totalNumberOfBuckets := by
  have hmono : occupied t.bucket (t.currentBucketToTransfer + 1) ≤
      occupied t.bucket t.totalNumberOfBuckets := occupied_mono hcur
  have hutilised := h.utilised
  have hpace := h.pace
  have hbudget := h.budget
  omega

/-! ## Inserting in a settled table -/

/-- One more entry, and nothing else, in a settled table. -/
structure PutSpec (a a' : MyHashTable V) (v : V) : Prop where
  settled : Settled a'
  entry : ∀ k w, a'.Entry k w ↔ a.Entry k w ∨ (w = v ∧ getKey v = k)
  utilised : a'.utilisedBuckets = a.utilisedBuckets + 1
  load : a'.maximumLoadFactor = a.maximumLoadFactor
  total : a'.totalNumberOfBuckets = a.totalNumberOfBuckets
  width : a'.numberOfBucketsInGroup = a.numberOfBucketsInGroup

omit [DecidableEq K] in
theorem PutSpec.hasKey {a a' : MyHashTable V} {v : V} (h : PutSpec a a' v) (k : K) :
    a'.HasKey k ↔ a.HasKey k ∨ getKey v = k := by
  simp only [hasKey_iff, h.entry]
  constructor
  · rintro ⟨w, hw | ⟨-, hk⟩⟩
    · exact .inl ⟨w, hw⟩
    · exact .inr hk
  · rintro (⟨w, hw⟩ | hk)
    · exact ⟨w, .inl hw⟩
    · exact ⟨v, .inr ⟨rfl, hk⟩⟩

omit [HashKey K] [DecidableEq K] in
/-- The entries after filling a free bucket. -/
theorem entry_update {t t' : MyHashTable V} {b : Nat} {v : V}
    (htotal : t'.totalNumberOfBuckets = t.totalNumberOfBuckets)
    (hbucket : t'.bucket = Function.update t.bucket b (some v))
    (hb : b < t.totalNumberOfBuckets) (hfree : t.bucket b = none) (k : K) (w : V) :
    t'.Entry k w ↔ t.Entry k w ∨ (w = v ∧ getKey v = k) := by
  constructor
  · rintro ⟨c, hc, hw, hk⟩
    rw [hbucket] at hw
    by_cases hcb : c = b
    · subst hcb
      rw [Function.update_self] at hw
      injection hw with hw
      subst hw
      exact .inr ⟨rfl, hk⟩
    · rw [Function.update_of_ne hcb] at hw
      exact .inl ⟨c, htotal ▸ hc, hw, hk⟩
  · rintro (⟨c, hc, hw, hk⟩ | ⟨rfl, hk⟩)
    · have hcb : c ≠ b := by
        rintro rfl
        rw [hfree] at hw
        exact absurd hw (by simp)
      exact ⟨c, htotal.symm ▸ hc, by rw [hbucket, Function.update_of_ne hcb, hw], hk⟩
    · exact ⟨b, htotal.symm ▸ hb, by rw [hbucket, Function.update_self], hk⟩

/-- A table that is not resizing inserts in its main table. -/
theorem insert_settled {t : MyHashTable V} (h : Settled t) (depth : Nat) (key : K) (fresh : V) :
    t.insert (depth + 1) key fresh = some (t.insertInMain key fresh) := by
  simp [insert, insertResized, h.resizing]

/-- Inserting a new key in a settled table that stays below its threshold. -/
theorem Settled.insert_absent {a : MyHashTable V} (h : Settled a) {key : K}
    (habsent : ¬ a.HasKey key)
    (hbelow : ((a.utilisedBuckets + 1 : Nat) : ℚ) / a.totalNumberOfBuckets <
      a.maximumLoadFactor) (fresh : V) :
    ∃ a' b, a.insertInMain key fresh = (a', a'.pointerTo b) ∧ b < a.totalNumberOfBuckets ∧
      a'.bucket b = some (setKey fresh key) ∧ PutSpec a a' (setKey fresh key) := by
  obtain ⟨a', b, hplace, hinsert⟩ := insertInMain_absent h.toCore habsent h.exists_free fresh
  have hres : a'.resizing = false := hplace.resizing.trans h.resizing
  have hbelow' : (a'.utilisedBuckets : ℚ) / a'.totalNumberOfBuckets < a'.maximumLoadFactor := by
    rw [hplace.utilised, hplace.total, hplace.load]
    exact hbelow
  rw [growIfNecessary_below hres hbelow'] at hinsert
  have hsettled : Settled a' :=
    ⟨hplace.core, hres, hplace.auxiliary.trans h.auxiliary,
      by rw [hplace.size, hplace.utilised, h.size], hbelow'⟩
  exact ⟨a', b, hinsert, hplace.lt, by rw [hplace.bucket, Function.update_self], hsettled,
    entry_update hplace.total hplace.bucket hplace.lt hplace.free, hplace.utilised, hplace.load,
    hplace.total, hplace.width⟩

/-- Assigning through the pointer of a bucket keeps a table settled. -/
theorem Settled.store {a : MyHashTable V} (h : Settled a) {b : Nat} {v w : V}
    (hb : b < a.totalNumberOfBuckets) (hw : a.bucket b = some w) (hkey : getKey v = getKey w) :
    Settled (a.store (a.pointerTo b) v) := by
  have hs := h.toCore.store hb hw hkey
  refine ⟨hs.core, hs.resizing.trans h.resizing, hs.auxiliary.trans h.auxiliary, ?_, ?_⟩
  · rw [hs.size, hs.utilised, h.size]
  · rw [hs.utilised, hs.total, hs.load]
    exact h.below

/-- The entries after overwriting a bucket with an entry of the same key. -/
theorem Core.entry_store {t t' : MyHashTable V} (h : Core t) {b : Nat} {v w : V}
    (hs : StoreSpec t t' b v) (hb : b < t.totalNumberOfBuckets) (hw : t.bucket b = some w)
    (hkey : getKey v = getKey w) (k : K) (u : V) :
    t'.Entry k u ↔ if k = getKey v then u = v else t.Entry k u := by
  have hself : t'.bucket b = some v := by rw [hs.bucket, Function.update_self]
  constructor
  · rintro ⟨c, hc, hu, rfl⟩
    rw [hs.total] at hc
    by_cases hcb : c = b
    · subst hcb
      rw [hself] at hu
      injection hu with hu
      rw [if_pos (by rw [hu]), hu]
    · rw [hs.bucket, Function.update_of_ne hcb] at hu
      have hne : getKey u ≠ getKey v := fun he =>
        hcb (h.placed.injective hc hb hu hw (he.trans hkey))
      rw [if_neg hne]
      exact ⟨c, hc, hu, rfl⟩
  · intro hu
    split at hu
    · rename_i hk
      exact ⟨b, hs.total.symm ▸ hb, by rw [hself, hu], by rw [hu, hk]⟩
    · rename_i hk
      obtain ⟨c, hc, hcu, hck⟩ := hu
      have hcb : c ≠ b := by
        rintro rfl
        rw [hw] at hcu
        injection hcu with hcu
        exact hk (by rw [← hck, ← hcu, hkey])
      exact ⟨c, hs.total.symm ▸ hc, by rw [hs.bucket, Function.update_of_ne hcb, hcu], hck⟩

/-- Inserting a key and assigning its entry, as a transfer does. -/
theorem Settled.put {a : MyHashTable V} (h : Settled a) {v : V} (habsent : ¬ a.HasKey (getKey v))
    (hbelow : ((a.utilisedBuckets + 1 : Nat) : ℚ) / a.totalNumberOfBuckets <
      a.maximumLoadFactor) (depth : Nat) (fresh : V) :
    ∃ a' p, a.insert (depth + 1) (getKey v) fresh = some (a', p) ∧ PutSpec a (a'.store p v) v := by
  obtain ⟨a', b, hinsert, hb, hw, hput⟩ := h.insert_absent habsent hbelow fresh
  have hb' : b < a'.totalNumberOfBuckets := hput.total.symm ▸ hb
  have hkey : getKey v = getKey (setKey fresh (getKey v)) := (HashValue.getKey_setKey ..).symm
  have hs := hput.settled.toCore.store hb' hw hkey
  refine ⟨a', a'.pointerTo b, by rw [insert_settled h, hinsert], hput.settled.store hb' hw hkey,
    ?_, hs.utilised.trans hput.utilised, hs.load.trans hput.load, hs.total.trans hput.total,
    hs.width.trans hput.width⟩
  intro k w
  rw [hput.settled.toCore.entry_store hs hb' hw hkey, hput.entry]
  by_cases hk : k = getKey v
  · rw [if_pos hk]
    constructor
    · rintro rfl
      exact .inr ⟨rfl, hk.symm⟩
    · rintro (hw' | ⟨rfl, -⟩)
      · exact absurd (hasKey_iff.mpr ⟨w, hk ▸ hw'⟩) habsent
      · rfl
  · rw [if_neg hk, HashValue.getKey_setKey]
    constructor
    · rintro (hw' | ⟨-, rfl⟩)
      · exact .inl hw'
      · exact absurd rfl hk
    · rintro (hw' | ⟨-, rfl⟩)
      · exact .inl hw'
      · exact absurd rfl hk

/-! ## Moving buckets -/

omit [HashKey K] [DecidableEq K] [HashValue K V] in
/-- The main table with another auxiliary table and another current bucket. -/
def advance (t a : MyHashTable V) (current : Nat) : MyHashTable V :=
  { t with
    auxiliaryTableForIncrementalResize := some a
    currentBucketToTransfer := current }

omit [HashKey K] [DecidableEq K] [HashValue K V] in
theorem advance_self {t a : MyHashTable V} (h : t.auxiliaryTableForIncrementalResize = some a) :
    t.advance a t.currentBucketToTransfer = t := by
  cases t
  simp only at h
  subst h
  rfl

omit [DecidableEq K] in
theorem Core.advance {t : MyHashTable V} (h : Core t) (a : MyHashTable V) (n : Nat) :
    Core (t.advance a n) :=
  ⟨⟨h.pow, h.width_pos, h.width, h.length, h.groups⟩, h.placed, h.utilised, h.load_ge, h.load_le⟩

omit [DecidableEq K] in
theorem Moving.contents {r : Nat} {t a : MyHashTable V} (h : Moving r t a) (k : K) (v : V) :
    t.Contents k v ↔ a.Entry k v ∨ (t.Entry k v ∧ ¬ a.HasKey k) := by
  rw [Contents, h.auxiliary]

omit [DecidableEq K] in
theorem Transferring.contents {r : Nat} {t a : MyHashTable V} (h : Transferring r t a) (k : K)
    (v : V) : t.Contents k v ↔ a.Entry k v ∨ (t.Entry k v ∧ ¬ a.HasKey k) :=
  h.moving.contents k v

/-- What the transfer of a bucket does to the auxiliary table. -/
inductive Transferred (t a a' : MyHashTable V) : Prop
  | empty (free : t.bucket t.currentBucketToTransfer = none) (same : a' = a)
  | entry (v : V) (held : t.bucket t.currentBucketToTransfer = some v)
      (absent : ¬ a.HasKey (getKey v)) (put : PutSpec a a' v)

/-- Putting the entry of the current bucket in the auxiliary table leaves the contents. -/
theorem Moving.contents_put {r : Nat} {t a a' : MyHashTable V} {v : V} (h : Moving r t a)
    (hcur : t.currentBucketToTransfer < t.totalNumberOfBuckets)
    (hv : t.bucket t.currentBucketToTransfer = some v) (habsent : ¬ a.HasKey (getKey v))
    (hput : PutSpec a a' v) (k : K) (u : V) :
    a'.Entry k u ∨ (t.Entry k u ∧ ¬ a'.HasKey k) ↔ t.Contents k u := by
  rw [h.contents, hput.hasKey, hput.entry]
  constructor
  · rintro ((hu | ⟨rfl, rfl⟩) | ⟨hu, hno⟩)
    · exact .inl hu
    · exact .inr ⟨⟨_, hcur, hv, rfl⟩, habsent⟩
    · exact .inr ⟨hu, fun hk => hno (.inl hk)⟩
  · rintro (hu | ⟨hu, hno⟩)
    · exact .inl (.inl hu)
    · by_cases hk : getKey v = k
      · have huv := h.toCore.entry_unique hu ⟨_, hcur, hv, hk⟩
        exact .inl (.inr ⟨huv, hk⟩)
      · exact .inr ⟨hu, by rintro (hk' | hk') <;> contradiction⟩

omit [DecidableEq K] in
/-- An empty bucket is passed. -/
theorem Moving.advance_empty {r : Nat} {t a : MyHashTable V} (h : Moving r t a)
    (hcur : t.currentBucketToTransfer < t.totalNumberOfBuckets)
    (hv : t.bucket t.currentBucketToTransfer = none) :
    Moving r (t.advance a (t.currentBucketToTransfer + 1)) a := by
  have hocc := occupied_succ (T := t.bucket) t.currentBucketToTransfer
  rw [hv] at hocc
  refine ⟨h.toCore.advance _ _, h.resizing, rfl, h.settled, h.auxiliaryTotal,
    h.auxiliaryLoad, h.auxiliaryWidth, hcur, h.tight, h.budget, ?_, ?_, ?_, ?_⟩
  · show 2 * a.utilisedBuckets ≤ 2 * occupied t.bucket (t.currentBucketToTransfer + 1) + r
    rw [hocc]
    exact h.pace
  · intro b hb v hbv
    rcases Nat.lt_succ_iff_lt_or_eq.mp hb with hb | rfl
    · exact h.moved b hb v hbv
    · exact absurd (hbv.symm.trans hv) (by simp)
  · intro b hb
    exact h.unmoved b (Nat.le_of_succ_le hb)
  · show t.size + occupied t.bucket (t.currentBucketToTransfer + 1) = _
    rw [hocc]
    exact h.size

omit [DecidableEq K] in
/-- The entry of the current bucket is in the auxiliary table, and the bucket is passed. -/
theorem Moving.advance_put {r : Nat} {t a a' : MyHashTable V} {v : V} (h : Moving r t a)
    (hcur : t.currentBucketToTransfer < t.totalNumberOfBuckets)
    (hv : t.bucket t.currentBucketToTransfer = some v) (hput : PutSpec a a' v) :
    Moving r (t.advance a' (t.currentBucketToTransfer + 1)) a' := by
  have hocc := occupied_succ (T := t.bucket) t.currentBucketToTransfer
  rw [hv] at hocc
  simp only [Option.isSome_some, if_true] at hocc
  refine ⟨h.toCore.advance _ _, h.resizing, rfl, hput.settled,
    hput.total.trans h.auxiliaryTotal, hput.load.trans h.auxiliaryLoad,
    hput.width.trans h.auxiliaryWidth, hcur, h.tight, h.budget, ?_, ?_, ?_, ?_⟩
  · show 2 * a'.utilisedBuckets ≤ 2 * occupied t.bucket (t.currentBucketToTransfer + 1) + r
    rw [hocc, hput.utilised]
    have := h.pace
    omega
  · intro b hb u hbu
    change t.bucket b = some u at hbu
    rw [hput.hasKey]
    rcases Nat.lt_succ_iff_lt_or_eq.mp hb with hb | rfl
    · exact .inl (h.moved b hb u hbu)
    · rw [hv] at hbu
      injection hbu with hbu
      exact .inr (by rw [hbu])
  · intro b hb hlt u hbu
    rw [hput.hasKey]
    rintro (hk | hk)
    · exact h.unmoved b (Nat.le_of_succ_le hb) hlt u hbu hk
    · -- two buckets of the main table never hold the same key
      have hsame := h.placed.injective hcur hlt hv hbu hk
      exact absurd hb (hsame ▸ Nat.not_succ_le_self _)
  · show t.size + occupied t.bucket (t.currentBucketToTransfer + 1) =
      a'.utilisedBuckets + t.utilisedBuckets
    rw [hocc, hput.utilised]
    have := h.size
    omega

/-- What one iteration of the transfer loop does. -/
theorem transferBucket_spec {r : Nat} {t a : MyHashTable V} (h : Moving r t a)
    (hcur : t.currentBucketToTransfer < t.totalNumberOfBuckets) (depth : Nat) (fresh : V) :
    ∃ a', transferBucket (insert (depth + 1)) t fresh =
        some (t.advance a' t.currentBucketToTransfer) ∧
      Moving r (t.advance a' (t.currentBucketToTransfer + 1)) a' ∧ Transferred t a a' ∧
      ∀ k v, (t.advance a' (t.currentBucketToTransfer + 1)).Contents k v ↔ t.Contents k v := by
  cases hv : t.bucket t.currentBucketToTransfer with
  | none =>
      have havailable : t.isAvailable t.currentBucketToTransfer = true := by
        rw [isAvailable_eq h.toLayout, hv]
        rfl
      refine ⟨a, ?_, h.advance_empty hcur hv, .empty hv rfl, fun k v => (h.contents k v).symm⟩
      rw [transferBucket, if_pos havailable, advance_self h.auxiliary]
  | some v =>
      have havailable : ¬ t.isAvailable t.currentBucketToTransfer = true := by
        rw [isAvailable_eq h.toLayout, hv]
        simp
      have hat : t.atBucket t.currentBucketToTransfer = some v := by
        rw [atBucket_eq h.toLayout (by simp [hv]), hv]
      have hocc := occupied_succ (T := t.bucket) t.currentBucketToTransfer
      rw [hv] at hocc
      simp only [Option.isSome_some, if_true] at hocc
      have habsent := h.unmoved _ (Nat.le_refl _) hcur v hv
      obtain ⟨a₁, p, hinsert, hput⟩ := h.settled.put habsent (h.below (h.room hcur hocc))
        depth fresh
      refine ⟨a₁.store p v, ?_, h.advance_put hcur hv hput, .entry v hv habsent hput,
        h.contents_put hcur hv habsent hput⟩
      rw [transferBucket, if_neg havailable]
      simp only [hat, h.auxiliary, hinsert, Option.bind_eq_bind, Option.bind_some]
      rfl

/-- What `n` iterations of the transfer loop do. -/
theorem transferBuckets_spec {r : Nat} (depth : Nat) (fresh : V) :
    ∀ n (t a : MyHashTable V), Moving r t a →
      ∃ a', transferBuckets (insert (depth + 1)) fresh n t =
          some (t.advance a' (min (t.currentBucketToTransfer + n) t.totalNumberOfBuckets)) ∧
        Moving r
          (t.advance a' (min (t.currentBucketToTransfer + n) t.totalNumberOfBuckets)) a' ∧
        ∀ k v, a'.Entry k v ∨ (t.Entry k v ∧ ¬ a'.HasKey k) ↔ t.Contents k v := by
  intro n
  induction n with
  | zero =>
      intro t a h
      have hmin : min (t.currentBucketToTransfer + 0) t.totalNumberOfBuckets =
          t.currentBucketToTransfer := Nat.min_eq_left h.current
      rw [hmin]
      refine ⟨a, ?_, ?_, fun k v => (h.contents k v).symm⟩
      · rw [advance_self h.auxiliary]
        rfl
      · rw [advance_self h.auxiliary]
        exact h
  | succ n ih =>
      intro t a h
      by_cases hcur : t.currentBucketToTransfer < t.totalNumberOfBuckets
      · obtain ⟨a₁, hone, hmoving, -, hcontents⟩ := transferBucket_spec h hcur depth fresh
        obtain ⟨a', hrest, hmoving', hcontents'⟩ := ih _ a₁ hmoving
        have hmin : min (t.currentBucketToTransfer + 1 + n) t.totalNumberOfBuckets =
            min (t.currentBucketToTransfer + (n + 1)) t.totalNumberOfBuckets := by
          rw [Nat.add_assoc, Nat.add_comm 1 n]
        refine ⟨a', ?_, ?_, fun k v => (hcontents' k v).trans (hcontents k v)⟩
        · rw [← hmin, transferBuckets, capacity, if_pos hcur, hone]
          exact hrest
        · rw [← hmin]
          exact hmoving'
      · have hmin : min (t.currentBucketToTransfer + (n + 1)) t.totalNumberOfBuckets =
            t.currentBucketToTransfer := by
          have := h.current
          omega
        rw [hmin]
        refine ⟨a, ?_, ?_, fun k v => (h.contents k v).symm⟩
        · rw [transferBuckets, capacity, if_neg hcur, advance_self h.auxiliary]
        · rw [advance_self h.auxiliary]
          exact h

/-! ## The end of a resizing -/

omit [HashKey K] [DecidableEq K] [HashValue K V] in
/-- The promoted table is the auxiliary table, up to its unused current bucket. -/
theorem promote_eq {t a : MyHashTable V} (hres : a.resizing = false)
    (haux : a.auxiliaryTableForIncrementalResize = none)
    (hload : a.maximumLoadFactor = t.maximumLoadFactor)
    (hwidth : a.numberOfBucketsInGroup = t.numberOfBucketsInGroup) :
    t.promote a = { a with currentBucketToTransfer := t.currentBucketToTransfer } := by
  cases t
  cases a
  simp only at hres haux hload hwidth
  subst hres haux hload hwidth
  rfl

omit [DecidableEq K] in
theorem Settled.withCurrent {a : MyHashTable V} (h : Settled a) (n : Nat) :
    Settled { a with currentBucketToTransfer := n } :=
  ⟨⟨⟨h.pow, h.width_pos, h.width, h.length, h.groups⟩, h.placed, h.utilised, h.load_ge,
    h.load_le⟩, h.resizing, h.auxiliary, h.size, h.below⟩

omit [HashKey K] [DecidableEq K] in
theorem Roomy.double {t t' : MyHashTable V} (h : Roomy t)
    (htotal : t'.totalNumberOfBuckets = 2 * t.totalNumberOfBuckets)
    (hload : t'.maximumLoadFactor = t.maximumLoadFactor) : Roomy t' := by
  unfold Roomy at h ⊢
  rw [htotal, hload]
  push_cast
  linarith

/-- The states between two calls of a client. -/
inductive Sound (t : MyHashTable V) : Prop
  | settled (h : Settled t) (roomy : Roomy t)
  | resizing (a : MyHashTable V) (h : Transferring t.currentBucketToTransfer t a)
      (lt : t.currentBucketToTransfer < t.totalNumberOfBuckets)
      (even : t.currentBucketToTransfer % 2 = 0) (roomy : Roomy t)

/-- A call to `resize` moves two buckets, and the last one promotes the auxiliary table. -/
theorem Moving.resize {t a : MyHashTable V} (h : Moving t.currentBucketToTransfer t a)
    (hlt : t.currentBucketToTransfer < t.totalNumberOfBuckets)
    (heven : t.currentBucketToTransfer % 2 = 0) (depth : Nat) (fresh : V) :
    ∃ t', t.resize (insert (depth + 1)) fresh = some t' ∧
      (∀ k v, t'.Contents k v ↔ t.Contents k v) ∧ t'.size = t.size ∧
      ((∃ a', t' = t.advance a' (t.currentBucketToTransfer + 2) ∧
          Moving t.currentBucketToTransfer t' a' ∧
          t.currentBucketToTransfer + 2 < t.totalNumberOfBuckets) ∨
        (Settled t' ∧ t.currentBucketToTransfer + 2 = t.totalNumberOfBuckets ∧
          t'.totalNumberOfBuckets = 2 * t.totalNumberOfBuckets ∧
          t'.maximumLoadFactor = t.maximumLoadFactor)) := by
  have hM := h.toLayout.even
  obtain ⟨a', hloop, hmoving, hcontents⟩ := transferBuckets_spec depth fresh 2 t a h
  have hmin : min (t.currentBucketToTransfer + 2) t.totalNumberOfBuckets =
      t.currentBucketToTransfer + 2 := Nat.min_eq_left (by omega)
  rw [hmin] at hloop hmoving
  by_cases hlast : t.currentBucketToTransfer + 2 = t.totalNumberOfBuckets
  · have hpromote : (t.advance a' (t.currentBucketToTransfer + 2)).promote a' =
        { a' with currentBucketToTransfer := t.currentBucketToTransfer + 2 } :=
      promote_eq hmoving.settled.resizing hmoving.settled.auxiliary hmoving.auxiliaryLoad
        hmoving.auxiliaryWidth
    refine ⟨{ a' with currentBucketToTransfer := t.currentBucketToTransfer + 2 }, ?_, ?_, ?_,
      .inr ⟨hmoving.settled.withCurrent _, hlast, hmoving.auxiliaryTotal, hmoving.auxiliaryLoad⟩⟩
    · rw [MyHashTable.resize, hloop, ← hpromote]
      exact if_pos hlast
    · -- every bucket of the main table has been moved
      intro k v
      rw [← hcontents]
      have hnone : ({ a' with currentBucketToTransfer := t.currentBucketToTransfer + 2 } :
          MyHashTable V).Contents k v ↔ a'.Entry k v := by
        rw [Contents]
        simp only [hmoving.settled.auxiliary]
        exact Iff.rfl
      rw [hnone]
      constructor
      · exact fun hv => .inl hv
      · rintro (hv | ⟨⟨b, hb, hv, rfl⟩, hno⟩)
        · exact hv
        · exact absurd (hmoving.moved b (by rw [← hlast] at hb; exact hb) v hv) hno
    · have hsize := hmoving.size
      have hutilised := hmoving.utilised
      have hsettled := hmoving.settled.size
      change t.size + occupied t.bucket (t.currentBucketToTransfer + 2) =
        a'.utilisedBuckets + t.utilisedBuckets at hsize
      change t.utilisedBuckets = occupied t.bucket t.totalNumberOfBuckets at hutilised
      show a'.size = t.size
      rw [hlast] at hsize
      omega
  · refine ⟨t.advance a' (t.currentBucketToTransfer + 2), ?_, hcontents, rfl,
      .inl ⟨a', rfl, hmoving, by omega⟩⟩
    rw [MyHashTable.resize, hloop]
    exact if_neg hlast

/-- What a call to `resize` does. -/
structure ResizeSpec (t t' : MyHashTable V) : Prop where
  contents : ∀ k v, t'.Contents k v ↔ t.Contents k v
  size : t'.size = t.size
  roomy : Roomy t'
  outcome :
    (∃ a', Transferring t.currentBucketToTransfer t' a' ∧
      t'.currentBucketToTransfer = t.currentBucketToTransfer + 2 ∧
      t'.currentBucketToTransfer < t'.totalNumberOfBuckets ∧
      t'.totalNumberOfBuckets = t.totalNumberOfBuckets) ∨
    (Settled t' ∧ t.currentBucketToTransfer + 2 = t.totalNumberOfBuckets)

theorem resize_spec {t a : MyHashTable V} (h : Transferring t.currentBucketToTransfer t a)
    (hlt : t.currentBucketToTransfer < t.totalNumberOfBuckets)
    (heven : t.currentBucketToTransfer % 2 = 0) (hroomy : Roomy t) (depth : Nat) (fresh : V) :
    ∃ t', t.resize (insert (depth + 1)) fresh = some t' ∧ ResizeSpec t t' := by
  obtain ⟨t', hresize, hcontents, hsize,
      ⟨a', rfl, hmoving, hlt'⟩ | ⟨hsettled, hlast, htotal, hload⟩⟩ :=
    h.moving.resize hlt heven depth fresh
  · exact ⟨_, hresize, hcontents, rfl, hroomy, .inl ⟨a', hmoving.transferring h.free, rfl, hlt', rfl⟩⟩
  · exact ⟨t', hresize, hcontents, hsize, hroomy.double htotal hload, .inr ⟨hsettled, hlast⟩⟩

end MyHashTable

end RayPlatform
