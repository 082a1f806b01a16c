import Mathlib.Algebra.Order.Field.Basic
import Mathlib.Tactic.Linarith
import Mathlib.Tactic.FieldSimp
import Mathlib.Tactic.Ring
import RayPlatform.Structures.MyHashTableProbe

/-!
# The main table of MyHashTable

One table, its auxiliary table aside. `Core` is what every reachable main table
satisfies; the lemmas below say what each operation does to its buckets:
finding (`findKey_held`, `findKey_absent`), assigning through a pointer
(`Core.store`), inserting (`insertInMain_held`, `insertInMain_absent`) and
building a new table (`constructor_settled`).
-/

namespace RayPlatform

namespace MyHashTable

open Lib.OpenAddressing
open Lib.SparseArray (rank)

variable {K V : Type*} [HashKey K] [DecidableEq K] [HashValue K V]

/-- The invariant of the buckets of one table. -/
structure Core (t : MyHashTable V) : Prop extends Layout t where
  placed : Placed getKey (probeBucket t.totalNumberOfBuckets) t.totalNumberOfBuckets t.bucket
  utilised : t.utilisedBuckets = occupied t.bucket t.totalNumberOfBuckets
  load_ge : 1 / 2 ≤ t.maximumLoadFactor
  load_le : t.maximumLoadFactor ≤ 1

/-- The main table holds the entry `v` for the key `k`. -/
def Entry (t : MyHashTable V) (k : K) (v : V) : Prop :=
  ∃ b < t.totalNumberOfBuckets, t.bucket b = some v ∧ getKey v = k

/-- The main table holds the key `k`. -/
abbrev HasKey (t : MyHashTable V) (k : K) : Prop :=
  Holds getKey t.totalNumberOfBuckets t.bucket k

/-- The pointer to the entry of bucket `b`. -/
def pointerTo (t : MyHashTable V) (b : Nat) : EntryPointer :=
  .main (b / t.numberOfBucketsInGroup)
    (rank (t.groupAt (b / t.numberOfBucketsInGroup)).occ (b % t.numberOfBucketsInGroup))

omit [HashKey K] [DecidableEq K] in
theorem hasKey_iff {t : MyHashTable V} {k : K} : t.HasKey k ↔ ∃ v, t.Entry k v :=
  ⟨fun ⟨b, hb, v, hv, hk⟩ => ⟨v, b, hb, hv, hk⟩, fun ⟨v, b, hb, hv, hk⟩ => ⟨b, hb, v, hv, hk⟩⟩

omit [DecidableEq K] in
theorem Core.entry_unique {t : MyHashTable V} (h : Core t) {k : K} {v w : V}
    (hv : t.Entry k v) (hw : t.Entry k w) : v = w := by
  obtain ⟨b, hb, hbv, rfl⟩ := hv
  obtain ⟨c, hc, hcw, hkey⟩ := hw
  have hbc := h.placed.injective hb hc hbv hcw hkey.symm
  rw [hbc, hcw] at hbv
  injection hbv with hbv
  exact hbv.symm

/-! ## Finding -/

theorem findKey_false (t : MyHashTable V) (key : K) :
    t.findKey key false = t.findInGroup key := by
  cases t with
  | mk _ auxiliary => cases auxiliary <;> simp [findKey]

/-- `findKey` in the main table, once the stop of the search is known. -/
theorem findKey_false_of_stop {t : MyHashTable V} (h : Layout t) {key : K} {i : Nat}
    (hi : t.Stop key i) :
    t.findKey key false = (t.bucket (probeBucket t.totalNumberOfBuckets key i)).map
      fun _ => t.pointerTo (probeBucket t.totalNumberOfBuckets key i) := by
  obtain ⟨j, hj, hgroup, hin⟩ := findBucketWithKey_isStop h key
  obtain rfl := hj.unique hi
  simp only [findKey_false, findInGroup, hgroup, hin, bucket]
  rw [MyHashTableGroup.find_eq _ (h.groupAt_wf _) (Nat.mod_lt _ h.width_pos), Option.map_map]
  rfl

theorem findKey_held {t : MyHashTable V} (h : Core t) {b : Nat} {v : V}
    (hb : b < t.totalNumberOfBuckets) (hv : t.bucket b = some v) :
    t.findKey (getKey v) false = some (t.pointerTo b) := by
  obtain ⟨i, hi, -⟩ := findBucketWithKey_isStop h.toLayout (getKey v)
  rw [findKey_false_of_stop h.toLayout hi, stop_of_holds h.placed hb hv hi, hv, Option.map_some]

theorem findKey_absent {t : MyHashTable V} (h : Core t) {key : K} (habsent : ¬ t.HasKey key)
    (hfree : ∃ b < t.totalNumberOfBuckets, t.bucket b = none) :
    t.findKey key false = none := by
  obtain ⟨i, hi, -⟩ := findBucketWithKey_isStop h.toLayout key
  have hnone := stop_free (probeBucket_exhaustive h.toLayout) habsent hfree hi
  rw [findKey_false_of_stop h.toLayout hi, hnone, Option.map_none]

omit [HashKey K] [DecidableEq K] [HashValue K V] in
theorem load_pointerTo {t : MyHashTable V} (b : Nat) (hv : t.bucket b ≠ none) :
    t.load (t.pointerTo b) = t.bucket b :=
  MyHashTableGroup.entry_eq_getElem _ hv

/-! ## Replacing one group -/

section

omit [HashKey K] [DecidableEq K] [HashValue K V]

theorem groupAt_set (t : MyHashTable V) {i : Nat} (hi : i < t.groups.length)
    (g : MyHashTableGroup V) (j : Nat) :
    ({ t with groups := t.groups.set i g } : MyHashTable V).groupAt j =
      if j = i then g else t.groupAt j := by
  simp only [groupAt, List.getD_eq_getElem?_getD]
  by_cases hij : j = i
  · subst hij
    simp [hi]
  · rw [List.getElem?_set_ne (Ne.symm hij), if_neg hij]

theorem set_groupAt (t : MyHashTable V) (i : Nat) :
    t.groups.set i (t.groupAt i) = t.groups := by
  apply List.ext_getElem?
  intro j
  by_cases hij : i = j
  · subst hij
    by_cases hi : i < t.groups.length
    · simp [groupAt, hi]
    · simp [hi]
  · rw [List.getElem?_set_ne hij]

/-- Replacing the group of bucket `b` so that only `b` changes in it changes only
bucket `b` of the table. -/
theorem bucket_set {t : MyHashTable V} (h : Layout t) {b : Nat}
    (hb : b < t.totalNumberOfBuckets) {g : MyHashTableGroup V} {e : Option V}
    (hg : g.entry = Function.update (t.groupAt (b / t.numberOfBucketsInGroup)).entry
      (b % t.numberOfBucketsInGroup) e) :
    ({ t with groups := t.groups.set (b / t.numberOfBucketsInGroup) g } : MyHashTable V).bucket =
      Function.update t.bucket b e := by
  funext c
  unfold bucket
  rw [groupAt_set t (h.group_lt hb)]
  by_cases hgroup : c / t.numberOfBucketsInGroup = b / t.numberOfBucketsInGroup
  · rw [if_pos hgroup, hg]
    by_cases hcb : c = b
    · subst hcb
      simp
    · have hmod : c % t.numberOfBucketsInGroup ≠ b % t.numberOfBucketsInGroup := by
        intro hmod
        have hc := Nat.div_add_mod c t.numberOfBucketsInGroup
        rw [hgroup, hmod, Nat.div_add_mod] at hc
        exact hcb hc.symm
      rw [Function.update_of_ne hmod, Function.update_of_ne hcb, hgroup]
  · have hcb : c ≠ b := by
      rintro rfl
      exact hgroup rfl
    rw [if_neg hgroup, Function.update_of_ne hcb]

theorem Layout.set {t : MyHashTable V} (h : Layout t) (i : Nat) {g : MyHashTableGroup V}
    (hg : g.Wf t.numberOfBucketsInGroup) :
    Layout ({ t with groups := t.groups.set i g } : MyHashTable V) := by
  refine ⟨h.pow, h.width_pos, h.width, by simpa using h.length, ?_⟩
  intro g' hg'
  rcases List.mem_or_eq_of_mem_set hg' with hmem | rfl
  · exact h.groups g' hmem
  · exact hg

end

/-! ## Assigning through a pointer -/

omit [HashKey K] [DecidableEq K] [HashValue K V] in
theorem map_const_congr {e e' : Option V} (h : e.isSome = e'.isSome) {p : EntryPointer} :
    (e.map fun _ => p) = e'.map fun _ => p := by
  cases e with
  | none => cases e' with
      | none => rfl
      | some _ => exact absurd h (by simp)
  | some _ => cases e' with
      | none => exact absurd h (by simp)
      | some _ => rfl

/-- What an assignment through the pointer of bucket `b` leaves unchanged. -/
structure StoreSpec (t t' : MyHashTable V) (b : Nat) (v : V) : Prop where
  core : Core t'
  bucket : t'.bucket = Function.update t.bucket b (some v)
  findKey : ∀ k : K, t'.findKey k false = t.findKey k false
  resizing : t'.resizing = t.resizing
  auxiliary : t'.auxiliaryTableForIncrementalResize = t.auxiliaryTableForIncrementalResize
  current : t'.currentBucketToTransfer = t.currentBucketToTransfer
  load : t'.maximumLoadFactor = t.maximumLoadFactor
  total : t'.totalNumberOfBuckets = t.totalNumberOfBuckets
  utilised : t'.utilisedBuckets = t.utilisedBuckets
  size : t'.size = t.size
  width : t'.numberOfBucketsInGroup = t.numberOfBucketsInGroup

theorem Core.store {t : MyHashTable V} (h : Core t) {b : Nat} {v w : V}
    (hb : b < t.totalNumberOfBuckets) (hw : t.bucket b = some w) (hkey : getKey v = getKey w) :
    StoreSpec t (t.store (t.pointerTo b) v) b v := by
  have hin := Nat.mod_lt b h.width_pos
  have hocc : (t.groupAt (b / t.numberOfBucketsInGroup)).entry (b % t.numberOfBucketsInGroup) ≠
      none := by
    change t.bucket b ≠ none
    simp [hw]
  have hwf := h.groupAt_wf (b / t.numberOfBucketsInGroup)
  have hbucket : (t.store (t.pointerTo b) v).bucket = Function.update t.bucket b (some v) :=
    bucket_set h.toLayout hb (MyHashTableGroup.entry_store hwf hin hocc v)
  have hlayout : Layout (t.store (t.pointerTo b) v) :=
    h.toLayout.set _ (MyHashTableGroup.store_wf hwf _ _)
  have hsome : ∀ c, ((Function.update t.bucket b (some v)) c).isSome = (t.bucket c).isSome := by
    intro c
    by_cases hc : c = b
    · subst hc
      simp [hw]
    · rw [Function.update_of_ne hc]
  have hsuits : ∀ (k : K) c, Suits getKey (Function.update t.bucket b (some v)) k c ↔
      Suits getKey t.bucket k c := by
    intro k c
    by_cases hc : c = b
    · subst hc
      simp [Suits, hw, hkey]
    · simp [Suits, Function.update_of_ne hc]
  refine ⟨⟨hlayout, ?_, ?_, h.load_ge, h.load_le⟩, hbucket, ?_, rfl, rfl, rfl, rfl, rfl, rfl,
    rfl, rfl⟩
  · rw [hbucket]
    exact h.placed.replace hw hkey
  · rw [hbucket]
    exact h.utilised.trans (occupied_congr fun c _ => (hsome c).symm)
  · -- keys and occupancy are unchanged, so every search stops where it did
    intro k
    obtain ⟨i, hi, -⟩ := findBucketWithKey_isStop h.toLayout k
    have hi' : (t.store (t.pointerTo b) v).Stop k i := by
      refine ⟨hi.lt, ?_, ?_⟩
      · intro j hj
        rw [hbucket, hsuits]
        exact hi.before j hj
      · rw [hbucket, hsuits]
        exact hi.stop
    have hpointer : ∀ c, (t.store (t.pointerTo b) v).pointerTo c = t.pointerTo c := by
      intro c
      have hgroup := groupAt_set t (h.group_lt hb)
        ((t.groupAt (b / t.numberOfBucketsInGroup)).store
          (rank (t.groupAt (b / t.numberOfBucketsInGroup)).occ (b % t.numberOfBucketsInGroup)) v)
        (c / t.numberOfBucketsInGroup)
      have hgroup' : (t.store (t.pointerTo b) v).groupAt (c / t.numberOfBucketsInGroup) = _ :=
        hgroup
      show EntryPointer.main (c / t.numberOfBucketsInGroup)
        (rank ((t.store (t.pointerTo b) v).groupAt (c / t.numberOfBucketsInGroup)).occ
          (c % t.numberOfBucketsInGroup)) = t.pointerTo c
      rw [hgroup', pointerTo]
      split
      · rename_i hc
        rw [hc]
        rfl
      · rfl
    rw [findKey_false_of_stop hlayout hi', findKey_false_of_stop h.toLayout hi, hpointer, hbucket]
    exact map_const_congr (hsome (probeBucket t.totalNumberOfBuckets k i))

/-! ## Inserting -/

/-- Inserting a key whose search ends on an occupied bucket returns the entry there. -/
theorem insertInMain_occupied {t : MyHashTable V} (h : Layout t) {key : K} {i : Nat}
    (hi : t.Stop key i) (hocc : t.bucket (probeBucket t.totalNumberOfBuckets key i) ≠ none)
    (fresh : V) :
    t.insertInMain key fresh =
      (t.growIfNecessary, t.pointerTo (probeBucket t.totalNumberOfBuckets key i)) := by
  obtain ⟨j, hj, hgroup, hin⟩ := findBucketWithKey_isStop h key
  obtain rfl := hj.unique hi
  generalize probeBucket t.totalNumberOfBuckets key j = b at hgroup hin hocc
  have hinsert := MyHashTableGroup.insert_occupied _ (h.groupAt_wf (b / t.numberOfBucketsInGroup))
    (Nat.mod_lt b h.width_pos) hocc key fresh
  simp only [insertInMain, hgroup, hin, hinsert, set_groupAt, Bool.false_eq_true, if_false]
  cases t
  rfl

/-- Inserting a key that the main table holds returns its entry. -/
theorem insertInMain_held {t : MyHashTable V} (h : Core t) {b : Nat} {v : V}
    (hb : b < t.totalNumberOfBuckets) (hv : t.bucket b = some v) (fresh : V) :
    t.insertInMain (getKey v) fresh = (t.growIfNecessary, t.pointerTo b) := by
  obtain ⟨i, hi, -⟩ := findBucketWithKey_isStop h.toLayout (getKey v)
  have hstop := stop_of_holds h.placed hb hv hi
  rw [insertInMain_occupied h.toLayout hi (by simp [hstop, hv]), hstop]

/-- What inserting a new key in the main table does, before the table grows. -/
structure PlaceSpec (t t' : MyHashTable V) (b : Nat) (v : V) : Prop where
  core : Core t'
  lt : b < t.totalNumberOfBuckets
  free : t.bucket b = none
  bucket : t'.bucket = Function.update t.bucket b (some v)
  utilised : t'.utilisedBuckets = t.utilisedBuckets + 1
  size : t'.size = t.size + 1
  resizing : t'.resizing = t.resizing
  auxiliary : t'.auxiliaryTableForIncrementalResize = t.auxiliaryTableForIncrementalResize
  load : t'.maximumLoadFactor = t.maximumLoadFactor
  total : t'.totalNumberOfBuckets = t.totalNumberOfBuckets
  width : t'.numberOfBucketsInGroup = t.numberOfBucketsInGroup

omit [DecidableEq K] in
/-- Placed in a table below its threshold, an entry passes the threshold by less than one. -/
theorem PlaceSpec.tight {t t' : MyHashTable V} {b : Nat} {v : V} (h : PlaceSpec t t' b v)
    (htwo : 2 ≤ t.totalNumberOfBuckets)
    (hbelow : (t.utilisedBuckets : ℚ) / t.totalNumberOfBuckets < t.maximumLoadFactor) :
    (t'.utilisedBuckets : ℚ) - 1 < t'.maximumLoadFactor * t'.totalNumberOfBuckets := by
  have hpos : (0 : ℚ) < t.totalNumberOfBuckets := by exact_mod_cast (by omega)
  have hlt := (div_lt_iff₀ hpos).mp hbelow
  rw [h.utilised, h.load, h.total]
  push_cast
  linarith

theorem insertInMain_absent {t : MyHashTable V} (h : Core t) {key : K}
    (habsent : ¬ t.HasKey key) (hfree : ∃ b < t.totalNumberOfBuckets, t.bucket b = none)
    (fresh : V) :
    ∃ t' b, PlaceSpec t t' b (setKey fresh key) ∧
      t.insertInMain key fresh = (t'.growIfNecessary, t'.pointerTo b) := by
  obtain ⟨i, hi, hgroup, hin⟩ := findBucketWithKey_isStop h.toLayout key
  have hexh := probeBucket_exhaustive (K := K) h.toLayout
  have hnone := stop_free hexh habsent hfree hi
  have hb := hexh.lt key i
  generalize hbdef : probeBucket t.totalNumberOfBuckets key i = b at hgroup hin hnone hb
  obtain ⟨g, hinsert, hgwf, hgentry⟩ := MyHashTableGroup.insert_free _
    (h.groupAt_wf (b / t.numberOfBucketsInGroup)) (Nat.mod_lt b h.width_pos) hnone key fresh
  let t' : MyHashTable V :=
    { t with
      groups := t.groups.set (b / t.numberOfBucketsInGroup) g
      utilisedBuckets := t.utilisedBuckets + 1
      size := t.size + 1 }
  have hbucket : t'.bucket = Function.update t.bucket b (some (setKey fresh key)) :=
    bucket_set h.toLayout hb hgentry
  refine ⟨t', b, ⟨⟨?_, ?_, ?_, h.load_ge, h.load_le⟩, hb, hnone, hbucket, rfl, rfl, rfl, rfl,
    rfl, rfl, rfl⟩, ?_⟩
  · have hset := h.toLayout.set (b / t.numberOfBucketsInGroup) hgwf
    exact ⟨hset.pow, hset.width_pos, hset.width, hset.length, hset.groups⟩
  · rw [hbucket, ← hbdef]
    have hstop : t.Stop (getKey (setKey fresh key)) i := by simpa using hi
    have hplaced := h.placed.insert hstop (by simpa [hbdef] using hnone)
    simpa using hplaced
  · change t.utilisedBuckets + 1 = occupied t'.bucket t.totalNumberOfBuckets
    rw [hbucket, occupied_insert hnone, if_pos hb, h.utilised]
  · have hgroup' : t'.groupAt (b / t.numberOfBucketsInGroup) = g := by
      have := groupAt_set t (h.group_lt hb) g (b / t.numberOfBucketsInGroup)
      rw [if_pos rfl] at this
      exact this
    simp only [insertInMain, hgroup, hin, hinsert]
    change (growIfNecessary t', _) = (growIfNecessary t', EntryPointer.main _ (rank
      (t'.groupAt (b / t.numberOfBucketsInGroup)).occ (b % t.numberOfBucketsInGroup)))
    rw [hgroup']

/-! ## A table that is not resizing -/

/-- A table that is not resizing is below its load threshold. -/
structure Settled (t : MyHashTable V) : Prop extends Core t where
  resizing : t.resizing = false
  auxiliary : t.auxiliaryTableForIncrementalResize = none
  size : t.size = t.utilisedBuckets
  below : (t.utilisedBuckets : ℚ) / t.totalNumberOfBuckets < t.maximumLoadFactor

omit [DecidableEq K] in
theorem Settled.utilised_lt {t : MyHashTable V} (h : Settled t) :
    t.utilisedBuckets < t.totalNumberOfBuckets := by
  have hM := h.toLayout.two_le
  have hpos : (0 : ℚ) < t.totalNumberOfBuckets := by exact_mod_cast (by omega)
  have hlt := lt_of_lt_of_le h.below h.load_le
  rw [div_lt_one hpos] at hlt
  exact_mod_cast hlt

omit [DecidableEq K] in
theorem Settled.exists_free {t : MyHashTable V} (h : Settled t) :
    ∃ b < t.totalNumberOfBuckets, t.bucket b = none :=
  Lib.OpenAddressing.exists_free (h.utilised ▸ h.utilised_lt)

theorem Settled.findKey_true {t : MyHashTable V} (h : Settled t) (key : K) :
    t.find key = t.findKey key false := by
  have hres := h.resizing
  cases t with
  | mk _ auxiliary =>
      simp only at hres
      subst hres
      cases auxiliary <;> simp [find, findKey]

theorem Settled.find_held {t : MyHashTable V} (h : Settled t) {b : Nat} {v : V}
    (hb : b < t.totalNumberOfBuckets) (hv : t.bucket b = some v) :
    t.find (getKey v) = some (t.pointerTo b) := by
  rw [h.findKey_true, findKey_held h.toCore hb hv]

theorem growIfNecessary_below {t : MyHashTable V} (hres : t.resizing = false)
    (hbelow : (t.utilisedBuckets : ℚ) / t.totalNumberOfBuckets < t.maximumLoadFactor) :
    t.growIfNecessary = t := by
  simp [growIfNecessary, hres, hbelow]

theorem growIfNecessary_resizing {t : MyHashTable V} (hres : t.resizing = true) :
    t.growIfNecessary = t := by
  simp [growIfNecessary, hres]

/-! ## Construction -/

omit [HashKey K] [DecidableEq K] [HashValue K V] in
theorem roundBuckets_pow (buckets : Nat) : ∀ fuel m, buckets ≤ 2 ^ (m + 1) * 2 ^ fuel →
    ∃ k, roundBuckets buckets fuel (2 ^ (m + 1)) = 2 ^ (k + 1) ∧ buckets ≤ 2 ^ (k + 1) := by
  intro fuel
  induction fuel with
  | zero =>
      intro m h
      exact ⟨m, rfl, by simpa using h⟩
  | succ fuel ih =>
      intro m h
      unfold roundBuckets
      split
      · have hpow : 2 ^ (m + 1) * 2 = 2 ^ (m + 1 + 1) := (Nat.pow_succ ..).symm
        rw [hpow]
        apply ih
        rw [← hpow, Nat.mul_assoc, ← Nat.pow_succ']
        exact h
      · exact ⟨m, rfl, by omega⟩

omit [HashKey K] [DecidableEq K] [HashValue K V] in
/-- A power of two is its own rounding. -/
theorem roundBuckets_self (k : Nat) : ∀ fuel m, m ≤ k → k ≤ m + fuel →
    roundBuckets (2 ^ (k + 1)) fuel (2 ^ (m + 1)) = 2 ^ (k + 1) := by
  intro fuel
  induction fuel with
  | zero =>
      intro m hm hk
      obtain rfl : m = k := by omega
      rfl
  | succ fuel ih =>
      intro m hm hk
      unfold roundBuckets
      split
      · rename_i hlt
        have hlt' : m < k := by
          have := (Nat.pow_lt_pow_iff_right (by omega : 1 < 2)).mp hlt
          omega
        rw [← Nat.pow_succ]
        exact ih (m + 1) hlt' (by omega)
      · rename_i hge
        have hle := (Nat.pow_le_pow_iff_right (by omega : 1 < 2)).mp (Nat.not_lt.mp hge)
        obtain rfl : m = k := by omega
        rfl

theorem clampThreshold_bounds (x : ℚ) : 1 / 2 ≤ clampThreshold x ∧ clampThreshold x ≤ 1 := by
  unfold clampThreshold
  simp only
  split <;> split <;> constructor <;> linarith

theorem clampThreshold_self {x : ℚ} (hge : 1 / 2 ≤ x) (hle : x ≤ 1) : clampThreshold x = x := by
  unfold clampThreshold
  simp only [if_neg (not_lt.mpr hge), if_neg (not_lt.mpr hle)]

omit [HashKey K] [DecidableEq K] [HashValue K V] in
theorem bucket_constructor (buckets bucketsPerGroup : Nat) (x : ℚ) (b : Nat) :
    (constructor buckets bucketsPerGroup x : MyHashTable V).bucket b = none := by
  have hgroup : ∀ i, (constructor buckets bucketsPerGroup x : MyHashTable V).groupAt i =
      MyHashTableGroup.empty := by
    intro i
    simp only [groupAt, constructor, List.getD_eq_getElem?_getD, List.getElem?_replicate]
    split <;> rfl
  rw [bucket, hgroup, MyHashTableGroup.entry_empty]

omit [DecidableEq K] in
/-- Every configuration the constructor accepts gives an empty settled table. -/
theorem constructor_settled (buckets : Nat) {bucketsPerGroup : Nat}
    (hpos : 1 ≤ bucketsPerGroup) (hle : bucketsPerGroup ≤ 64) (x : ℚ) :
    Settled (constructor buckets bucketsPerGroup x : MyHashTable V) := by
  have hfuel : buckets ≤ 2 ^ (0 + 1) * 2 ^ buckets := by
    have := Nat.lt_two_pow_self (n := buckets)
    omega
  obtain ⟨k, hk, -⟩ := roundBuckets_pow buckets buckets 0 hfuel
  have hclamp := clampThreshold_bounds x
  have hempty := bucket_constructor (V := V) buckets bucketsPerGroup x
  refine ⟨⟨⟨⟨k, hk⟩, hpos, hle, by simp [constructor], ?_⟩, ?_, ?_, hclamp.1, hclamp.2⟩,
    rfl, rfl, rfl, ?_⟩
  · intro g hg
    rw [List.eq_of_mem_replicate hg]
    exact MyHashTableGroup.empty_wf hle
  · intro b v _ hv
    rw [hempty] at hv
    exact absurd hv (by simp)
  · change 0 = _
    rw [eq_comm, occupied, Nat.count_iff_forall_not]
    intro b _
    simp [hempty]
  · change ((0 : Nat) : ℚ) / _ < clampThreshold x
    rw [Nat.cast_zero, zero_div]
    linarith [hclamp.1]

omit [HashKey K] [DecidableEq K] [HashValue K V] in
theorem constructor_total (k bucketsPerGroup : Nat) (x : ℚ) :
    (constructor (2 ^ (k + 1)) bucketsPerGroup x : MyHashTable V).totalNumberOfBuckets =
      2 ^ (k + 1) := by
  have hlt := Nat.lt_two_pow_self (n := k)
  have hpow : 2 ^ (k + 1) = 2 ^ k * 2 := Nat.pow_succ ..
  exact roundBuckets_self k _ 0 (by omega) (by omega)

end MyHashTable

end RayPlatform
