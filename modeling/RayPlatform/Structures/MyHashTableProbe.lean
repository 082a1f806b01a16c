import Mathlib.Data.Nat.ModEq
import Mathlib.Data.Nat.Prime.Basic
import Mathlib.Data.Fintype.EquivFin
import RayPlatform.Lib.OpenAddressing
import RayPlatform.Structures.MyHashTable

/-!
# Probing in MyHashTable

The groups of a table are read as one array of buckets (`bucket`), and
`findBucketWithKey` as a search of open addressing over it:

* the stride is odd and the bucket count is a power of two, so the probe sequence
  of every key visits every bucket (`probeBucket_exhaustive`);
* the probing loop ends at the stop of the search (`findBucketWithKey_isStop`).
-/

namespace RayPlatform

namespace MyHashTable

open Lib.OpenAddressing

variable {K V : Type*}

/-- The entry of a bucket, through its group. -/
def bucket (t : MyHashTable V) (b : Nat) : Option V :=
  (t.groupAt (b / t.numberOfBucketsInGroup)).entry (b % t.numberOfBucketsInGroup)

/-- The shape every constructed table has and no operation changes. -/
structure Layout (t : MyHashTable V) : Prop where
  pow : ∃ m, t.totalNumberOfBuckets = 2 ^ (m + 1)
  width_pos : 0 < t.numberOfBucketsInGroup
  width : t.numberOfBucketsInGroup ≤ 64
  length : t.groups.length = (t.totalNumberOfBuckets - 1) / t.numberOfBucketsInGroup + 1
  groups : ∀ g ∈ t.groups, g.Wf t.numberOfBucketsInGroup

theorem Layout.two_le {t : MyHashTable V} (h : Layout t) : 2 ≤ t.totalNumberOfBuckets := by
  obtain ⟨m, hm⟩ := h.pow
  have := Nat.one_le_two_pow (n := m)
  rw [hm, Nat.pow_succ]
  omega

theorem Layout.even {t : MyHashTable V} (h : Layout t) : t.totalNumberOfBuckets % 2 = 0 := by
  obtain ⟨m, hm⟩ := h.pow
  rw [hm, Nat.pow_succ]
  omega

theorem Layout.groupAt_wf {t : MyHashTable V} (h : Layout t) (i : Nat) :
    (t.groupAt i).Wf t.numberOfBucketsInGroup := by
  unfold groupAt
  rw [List.getD_eq_getElem?_getD]
  cases hg : t.groups[i]? with
  | none => exact MyHashTableGroup.empty_wf h.width
  | some g => exact h.groups g (List.mem_of_getElem? hg)

/-- The group of a bucket of the table is one of the table's groups. -/
theorem Layout.group_lt {t : MyHashTable V} (h : Layout t) {b : Nat}
    (hb : b < t.totalNumberOfBuckets) :
    b / t.numberOfBucketsInGroup < t.groups.length := by
  rw [h.length]
  have := Nat.div_le_div_right (c := t.numberOfBucketsInGroup)
    (by omega : b ≤ t.totalNumberOfBuckets - 1)
  omega

theorem isAvailable_eq {t : MyHashTable V} (h : Layout t) (b : Nat) :
    t.isAvailable b = (t.bucket b).isNone := by
  have hb := Nat.mod_lt b h.width_pos
  have hiff := (t.groupAt (b / t.numberOfBucketsInGroup)).getBit_eq_zero_iff
    (h.groupAt_wf _) hb
  rw [isAvailable, bucket, Bool.eq_iff_iff, beq_iff_eq, Option.isNone_iff_eq_none]
  exact hiff

/-- `at` points to the entry of an occupied bucket. -/
theorem atBucket_eq {t : MyHashTable V} (h : Layout t) {b : Nat} (hocc : t.bucket b ≠ none) :
    t.atBucket b = t.bucket b := by
  have hb := Nat.mod_lt b h.width_pos
  have hw := h.width
  have hcell := (t.groupAt (b / t.numberOfBucketsInGroup)).entry_eq_getElem hocc
  simp only [atBucket, MyHashTableGroup.getBucket]
  rw [MyHashTableGroup.getBucketsBefore_eq _ (by omega), hcell]
  rfl

/-! ## The probe sequence -/

variable [HashKey K]

/-- The bucket of probe `i`. -/
def probeBucket (M : Nat) (key : K) : Nat → Nat
  | 0 => (hashFunction2 key).toNat % M
  | i + 1 => nextBucket M (stride M key) (probeBucket M key i)

theorem stride_odd (M : Nat) (key : K) : stride M key % 2 = 1 := by
  simp only [stride]
  split <;> split <;> omega

theorem stride_lt {M : Nat} (hM : 2 ≤ M) (key : K) : stride M key < M := by
  have hmod := Nat.mod_lt (hashFunction1 key).toNat (by omega : 0 < M)
  simp only [stride]
  split <;> split <;> omega

theorem nextBucket_lt {M h2 b : Nat} (h2pos : 0 < h2) (hlt : h2 < M) (hb : b < M) :
    nextBucket M h2 b < M := by
  unfold nextBucket
  split <;> omega

theorem probeBucket_lt {M : Nat} (hM : 2 ≤ M) (key : K) (i : Nat) :
    probeBucket M key i < M := by
  induction i with
  | zero => exact Nat.mod_lt _ (by omega)
  | succ i ih =>
      have hodd := stride_odd M key
      exact nextBucket_lt (by omega) (stride_lt hM key) ih

/-- Probe `i` is `h1 - i * h2` modulo the number of buckets. -/
theorem probeBucket_modEq {M : Nat} (hM : 2 ≤ M) (key : K) (i : Nat) :
    probeBucket M key i + i * stride M key ≡ (hashFunction2 key).toNat [MOD M] := by
  induction i with
  | zero => simpa [probeBucket] using Nat.mod_modEq _ _
  | succ i ih =>
      have hlt := stride_lt hM key
      have hstep : nextBucket M (stride M key) (probeBucket M key i) + stride M key ≡
          probeBucket M key i [MOD M] := by
        unfold nextBucket
        split
        · rw [Nat.sub_add_cancel (by omega)]
          simp [Nat.ModEq]
        · rw [Nat.sub_add_cancel (by omega)]
      have hadd := (hstep.add_right (i * stride M key)).trans ih
      rw [probeBucket, Nat.succ_mul]
      rwa [Nat.add_assoc, Nat.add_comm (stride M key)] at hadd

/-- The probes of one key below a power of two are pairwise distinct. -/
theorem probeBucket_injective {M : Nat} (hpow : ∃ m, M = 2 ^ (m + 1)) (key : K) {i j : Nat}
    (hi : i < M) (hj : j < M) (h : probeBucket M key i = probeBucket M key j) : i = j := by
  obtain ⟨m, hm⟩ := hpow
  have hM : 2 ≤ M := by
    have := Nat.one_le_two_pow (n := m)
    rw [hm, Nat.pow_succ]
    omega
  have hboth := (probeBucket_modEq hM key i).trans (probeBucket_modEq hM key j).symm
  rw [h] at hboth
  have hmul := Nat.ModEq.add_left_cancel' _ hboth
  -- the stride is odd, so it can be cancelled modulo a power of two
  have hcoprime : Nat.gcd M (stride M key) = 1 := by
    have hodd := Nat.coprime_two_left.mpr (Nat.odd_iff.mpr (stride_odd M key))
    have hpow := Nat.Coprime.pow_left (m + 1) hodd
    rwa [← hm] at hpow
  have hcancel := Nat.ModEq.cancel_right_of_coprime hcoprime hmul
  rwa [Nat.ModEq, Nat.mod_eq_of_lt hi, Nat.mod_eq_of_lt hj] at hcancel

/-- Double hashing visits every bucket. -/
theorem probeBucket_exhaustive {t : MyHashTable V} (h : Layout t) :
    Exhaustive (probeBucket t.totalNumberOfBuckets : K → Nat → Nat) t.totalNumberOfBuckets := by
  have hM := h.two_le
  refine ⟨fun k i => probeBucket_lt hM k i, ?_⟩
  intro k b hb
  let f : Fin t.totalNumberOfBuckets → Fin t.totalNumberOfBuckets :=
    fun i => ⟨probeBucket t.totalNumberOfBuckets k i, probeBucket_lt hM k i⟩
  have hinj : Function.Injective f := by
    intro i j hij
    have hval : probeBucket t.totalNumberOfBuckets k i = probeBucket t.totalNumberOfBuckets k j :=
      congrArg Fin.val hij
    exact Fin.ext (probeBucket_injective h.pow k i.isLt j.isLt hval)
  obtain ⟨i, hi⟩ := Finite.surjective_of_injective hinj ⟨b, hb⟩
  exact ⟨i, i.isLt, congrArg Fin.val hi⟩

/-! ## The probing loop -/

variable [DecidableEq K] [HashValue K V]

/-- The stop of the search for `key` in the main table. -/
abbrev Stop (t : MyHashTable V) (key : K) (i : Nat) : Prop :=
  IsStop getKey (probeBucket t.totalNumberOfBuckets) t.totalNumberOfBuckets t.bucket key i

omit [HashKey K] in
theorem someoneElse_iff {t : MyHashTable V} (h : Layout t) (b : Nat) (key : K) :
    (t.groupAt (b / t.numberOfBucketsInGroup)).bucketIsUtilisedBySomeoneElse
      (b % t.numberOfBucketsInGroup) key = true ↔ ¬ Suits getKey t.bucket key b := by
  rw [not_suits]
  exact MyHashTableGroup.bucketIsUtilisedBySomeoneElse_eq _ (h.groupAt_wf _)
    (Nat.mod_lt b h.width_pos) key

/-- From probe `i`, the loop runs to the stop of the search. -/
theorem probeLoop_isStop {t : MyHashTable V} (h : Layout t) (key : K) :
    ∀ fuel i h2, t.totalNumberOfBuckets ≤ fuel + i → i < t.totalNumberOfBuckets →
      (i = 0 ∨ h2 = stride t.totalNumberOfBuckets key) →
      (∀ j < i, ¬ Suits getKey t.bucket key (probeBucket t.totalNumberOfBuckets key j)) →
      ∃ r, t.probeLoop key fuel i h2 (probeBucket t.totalNumberOfBuckets key i) =
        (r, probeBucket t.totalNumberOfBuckets key r) ∧ Stop t key r := by
  intro fuel
  induction fuel with
  | zero =>
      intro i h2 hfuel hi
      omega
  | succ fuel ih =>
      intro i h2 hfuel hi hstride hbefore
      by_cases hgo : ¬ Suits getKey t.bucket key (probeBucket t.totalNumberOfBuckets key i) ∧
          i + 1 < t.totalNumberOfBuckets
      · -- the bucket belongs to another key and probes remain
        obtain ⟨hns, hlt⟩ := hgo
        have helse := (someoneElse_iff h _ key).mpr hns
        have hnext : (if i + 1 = 1 then stride t.totalNumberOfBuckets key else h2) =
            stride t.totalNumberOfBuckets key := by
          split
          · rfl
          · exact hstride.resolve_left (by omega)
        have hrec := ih (i + 1) (stride t.totalNumberOfBuckets key) (by omega) hlt (.inr rfl) (by
          intro j hj
          rcases Nat.lt_succ_iff_lt_or_eq.mp hj with hj | rfl
          · exact hbefore j hj
          · exact hns)
        obtain ⟨r, hr, hstop⟩ := hrec
        refine ⟨r, ?_, hstop⟩
        rw [← hr, probeLoop]
        simp only [helse, hlt, decide_true, Bool.and_true, if_true, hnext]
        rfl
      · refine ⟨i, ?_, hi, hbefore, ?_⟩
        · rw [probeLoop, if_neg]
          simp only [Bool.and_eq_true, decide_eq_true_eq, someoneElse_iff h]
          exact hgo
        · rcases not_and_or.mp hgo with hs | hlast
          · exact .inl (not_not.mp hs)
          · exact .inr (by omega)

/-- `findBucketWithKey` designates the bucket at the stop of the search. -/
theorem findBucketWithKey_isStop {t : MyHashTable V} (h : Layout t) (key : K) :
    ∃ i, Stop t key i ∧
      (t.findBucketWithKey key).group =
        probeBucket t.totalNumberOfBuckets key i / t.numberOfBucketsInGroup ∧
      (t.findBucketWithKey key).bucketInGroup =
        probeBucket t.totalNumberOfBuckets key i % t.numberOfBucketsInGroup := by
  have hM := h.two_le
  obtain ⟨i, hi, hstop⟩ := probeLoop_isStop h key t.totalNumberOfBuckets 0 0 (by omega)
    (by omega) (.inl rfl) (by intro j hj; omega)
  refine ⟨i, hstop, ?_⟩
  have hstart : ((hashFunction2 key).toNat % t.totalNumberOfBuckets + 0 * 0) %
      t.totalNumberOfBuckets = probeBucket t.totalNumberOfBuckets key 0 := by
    simp [probeBucket]
  simp only [findBucketWithKey, hstart, hi, and_self]

end MyHashTable

end RayPlatform
