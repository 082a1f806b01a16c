import RayPlatform.Structures.MyHashTableClient

/-!
# Double hashing in MyHashTable

The probes of a key on the 64-bit words of the source, and where `findBucketWithKey` stops in a
table with any content: on the bucket of the key when no free bucket precedes it on the probe
sequence, else on the first free bucket (`findBucketWithKey_stops`).
-/

namespace RayPlatform

namespace MyHashTable

open Lib.OpenAddressing

variable {K V : Type*} [HashKey K]

/-! ## The probes on 64-bit words -/

/-- `h2` as computed on probe 1. -/
def strideWord (totalNumberOfBuckets : UInt64) (key : K) : UInt64 :=
  let h2 := hashFunction1 key % totalNumberOfBuckets
  let h2 := if h2 = 0 then 1 else h2
  if h2 % 2 = 0 then h2 - 1 else h2

/-- `if(h2>bucket) bucket+=m_totalNumberOfBuckets; bucket-=h2;` -/
def nextBucketWord (totalNumberOfBuckets h2 bucket : UInt64) : UInt64 :=
  (if h2 > bucket then bucket + totalNumberOfBuckets else bucket) - h2

def probeBucketWord (totalNumberOfBuckets : UInt64) (key : K) : Nat → UInt64
  | 0 => hashFunction2 key % totalNumberOfBuckets
  | i + 1 => nextBucketWord totalNumberOfBuckets (strideWord totalNumberOfBuckets key)
      (probeBucketWord totalNumberOfBuckets key i)

theorem toNat_eq_zero {x : UInt64} : x.toNat = 0 ↔ x = 0 :=
  UInt64.toNat_inj (b := 0)

theorem strideWord_toNat (M : UInt64) (key : K) :
    (strideWord M key).toNat = stride M.toNat key := by
  have hmod : (hashFunction1 key % M).toNat = (hashFunction1 key).toNat % M.toNat :=
    UInt64.toNat_mod _ _
  rw [strideWord, stride, ← hmod]
  generalize hashFunction1 key % M = h2
  have hnonzero : (if h2 = 0 then 1 else h2).toNat = if h2.toNat = 0 then 1 else h2.toNat := by
    rw [apply_ite UInt64.toNat]
    exact if_congr toNat_eq_zero.symm rfl rfl
  have hpos : 0 < (if h2.toNat = 0 then 1 else h2.toNat) := by
    split <;> omega
  rw [← hnonzero] at hpos ⊢
  generalize (if h2 = 0 then (1 : UInt64) else h2) = odd at hpos
  have heven : odd % 2 = 0 ↔ odd.toNat % 2 = 0 := by
    rw [← toNat_eq_zero, UInt64.toNat_mod]
    rfl
  by_cases hodd : odd % 2 = 0
  · rw [if_pos hodd, if_pos (heven.mp hodd)]
    exact UInt64.toNat_sub_of_le _ _ (UInt64.le_iff_toNat_le.mpr hpos)
  · rw [if_neg hodd, if_neg fun h => hodd (heven.mpr h)]

/-- A power of two that is a word leaves room for the addition. -/
theorem nextBucketWord_toNat {M h2 b : UInt64} (hM : M.toNat ≤ 2 ^ 63) (hb : b.toNat < M.toNat)
    (h2lt : h2.toNat < M.toNat) :
    (nextBucketWord M h2 b).toNat = nextBucket M.toNat h2.toNat b.toNat := by
  have hadd : (b + M).toNat = b.toNat + M.toNat := by
    rw [UInt64.toNat_add]
    exact Nat.mod_eq_of_lt (by omega)
  rw [nextBucketWord, nextBucket]
  by_cases hgt : h2 > b
  · have hgt' : h2.toNat > b.toNat := UInt64.lt_iff_toNat_lt.mp hgt
    have hle : h2 ≤ b + M := UInt64.le_iff_toNat_le.mpr (by omega)
    rw [if_pos hgt, if_pos hgt', UInt64.toNat_sub_of_le _ _ hle, hadd]
  · have hgt' : ¬h2.toNat > b.toNat := fun h => hgt (UInt64.lt_iff_toNat_lt.mpr h)
    have hle : h2 ≤ b := UInt64.le_iff_toNat_le.mpr (by omega)
    rw [if_neg hgt, if_neg hgt', UInt64.toNat_sub_of_le _ _ hle]

/-- The words never wrap around. -/
theorem probeBucketWord_toNat {M : UInt64} (hpow : ∃ m, M.toNat = 2 ^ (m + 1)) (key : K) (i : Nat) :
    (probeBucketWord M key i).toNat = probeBucket M.toNat key i := by
  obtain ⟨m, hm⟩ := hpow
  have hword : M.toNat < 2 ^ 64 := M.toNat_lt
  have hm63 : m + 1 ≤ 63 := by
    rw [hm] at hword
    have := (Nat.pow_lt_pow_iff_right (by decide : 1 < 2)).mp hword
    omega
  have hM : M.toNat ≤ 2 ^ 63 := by
    rw [hm]
    exact Nat.pow_le_pow_right (by decide) hm63
  have htwo : 2 ≤ M.toNat := by
    rw [hm, Nat.pow_succ]
    have := Nat.one_le_two_pow (n := m)
    omega
  induction i with
  | zero => exact UInt64.toNat_mod _ _
  | succ i ih =>
      have hstride := strideWord_toNat M key
      have hlt := probeBucket_lt htwo key i
      have h2lt := stride_lt htwo key
      rw [probeBucketWord, nextBucketWord_toNat hM (ih ▸ hlt) (hstride ▸ h2lt), ih, hstride]
      rfl

/-! ## Where the search stops -/

variable [DecidableEq K] [HashValue K V]

/-- The bucket that `findBucketWithKey` designates, among all buckets. -/
def foundBucket (t : MyHashTable V) (key : K) : Nat :=
  (t.findBucketWithKey key).group * t.numberOfBucketsInGroup +
    (t.findBucketWithKey key).bucketInGroup

omit [HashKey K] [DecidableEq K] in
/-- The bucket holds the entry of `key`. -/
def HoldsKey (t : MyHashTable V) (key : K) (b : Nat) : Prop :=
  ∃ v, t.bucket b = some v ∧ HashValue.getKey v = key

omit [HashKey K] [DecidableEq K] in
theorem suits_iff {t : MyHashTable V} {key : K} {b : Nat} :
    Suits HashValue.getKey t.bucket key b ↔ t.HoldsKey key b ∨ t.bucket b = none := by
  constructor
  · intro hsuits
    cases hb : t.bucket b with
    | none => exact .inr rfl
    | some v => exact .inl ⟨v, hb, hsuits v hb⟩
  · rintro (⟨v, hv, hkey⟩ | hfree) v' hv'
    · rw [hv] at hv'
      cases hv'
      exact hkey
    · rw [hfree] at hv'
      cases hv'

theorem foundBucket_isStop {t : MyHashTable V} (h : Layout t) (key : K) :
    ∃ i, Stop t key i ∧ t.foundBucket key = probeBucket t.totalNumberOfBuckets key i := by
  obtain ⟨i, hstop, hgroup, hbucket⟩ := findBucketWithKey_isStop h key
  refine ⟨i, hstop, ?_⟩
  rw [foundBucket, hgroup, hbucket]
  exact Nat.div_add_mod' _ _

/-- The first probe that suits the key is the one found. -/
theorem foundBucket_eq {t : MyHashTable V} (h : Layout t) {key : K} {i : Nat}
    (hi : i < t.totalNumberOfBuckets)
    (hbefore : ∀ j < i, ¬t.HoldsKey key (probeBucket t.totalNumberOfBuckets key j) ∧
      t.bucket (probeBucket t.totalNumberOfBuckets key j) ≠ none)
    (hsuits : t.HoldsKey key (probeBucket t.totalNumberOfBuckets key i) ∨
      t.bucket (probeBucket t.totalNumberOfBuckets key i) = none) :
    t.foundBucket key = probeBucket t.totalNumberOfBuckets key i := by
  obtain ⟨i', hstop, hfound⟩ := foundBucket_isStop h key
  have hstop' : Stop t key i := by
    refine ⟨hi, fun j hj hsuits => ?_, .inl (suits_iff.mpr hsuits)⟩
    rcases suits_iff.mp hsuits with hholds | hfree
    · exact (hbefore j hj).1 hholds
    · exact (hbefore j hj).2 hfree
  rw [hfound, hstop.unique hstop']

/-- With the key on the sequence or a free bucket, the loop stops on a bucket that suits it. -/
theorem foundBucket_suits {t : MyHashTable V} (h : Layout t) {key : K}
    (hroom : (∃ i < t.totalNumberOfBuckets,
        t.HoldsKey key (probeBucket t.totalNumberOfBuckets key i)) ∨
      ∃ b < t.totalNumberOfBuckets, t.bucket b = none) :
    t.HoldsKey key (t.foundBucket key) ∨ t.bucket (t.foundBucket key) = none := by
  obtain ⟨i, hstop, hfound⟩ := foundBucket_isStop h key
  have hsome : ∃ k < t.totalNumberOfBuckets, Suits HashValue.getKey t.bucket key
      (probeBucket t.totalNumberOfBuckets key k) := by
    rcases hroom with ⟨k, hk, hholds⟩ | ⟨b, hb, hfree⟩
    · exact ⟨k, hk, suits_iff.mpr (.inl hholds)⟩
    · obtain ⟨k, hk, rfl⟩ := (probeBucket_exhaustive h).visits key b hb
      exact ⟨k, hk, suits_iff.mpr (.inr hfree)⟩
  rw [hfound, ← suits_iff]
  rcases hstop.stop with hsuits | hlast
  · exact hsuits
  · -- every other probe was tried before the last one
    obtain ⟨k, hk, hsuits⟩ := hsome
    have hle : i ≤ k := Nat.le_of_not_lt fun hlt => hstop.before k hlt hsuits
    have heq : k = i := by omega
    exact heq ▸ hsuits

end MyHashTable

end RayPlatform
