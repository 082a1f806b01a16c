import Mathlib.Data.Set.Finite.Basic
import RayPlatform.Structures.MyHashTableClient

/-!
# When MyHashTable conflates keys

`findBucketWithKey` gives up after as many probes as there are buckets, and
`MyHashTableGroup` then trusts the bucket without comparing keys. The search is
right as long as a bucket of the table is free (`Core.designates`), which is so
exactly when the load threshold is reached before the table is full:

* `neverConflates_iff` — a configuration keeps keys apart in every run if and only
  if some number of elements below the number of buckets reaches the threshold;
* `fillingRun` — otherwise inserting one key per bucket fills the main table, and
  the next search ends on the bucket of another key (`full_not_designates`).
-/

namespace RayPlatform

open Lib (TransitionSystem)
open Lib.OpenAddressing
open MyHashTable

variable {K V : Type*} [HashKey K] [DecidableEq K] [HashValue K V]

namespace MyHashTable

/-- The bucket `findBucketWithKey` designates is free or holds the key. -/
def Designates (t : MyHashTable V) (key : K) : Prop :=
  (t.groupAt (t.findBucketWithKey key).group).entry (t.findBucketWithKey key).bucketInGroup = none ∨
    ∃ v, (t.groupAt (t.findBucketWithKey key).group).entry
      (t.findBucketWithKey key).bucketInGroup = some v ∧ getKey v = key

theorem designates_iff_suits {t : MyHashTable V} (h : Layout t) {key : K} {i : Nat}
    (hi : t.Stop key i) :
    t.Designates key ↔ Suits getKey t.bucket key (probeBucket t.totalNumberOfBuckets key i) := by
  obtain ⟨j, hj, hgroup, hin⟩ := findBucketWithKey_isStop h key
  obtain rfl := hj.unique hi
  have hentry : (t.groupAt (t.findBucketWithKey key).group).entry
      (t.findBucketWithKey key).bucketInGroup =
        t.bucket (probeBucket t.totalNumberOfBuckets key j) := by
    rw [hgroup, hin]
    rfl
  unfold Designates Suits
  rw [hentry]
  cases t.bucket (probeBucket t.totalNumberOfBuckets key j) with
  | none => simp
  | some v => simp

theorem Core.designates {t : MyHashTable V} (h : Core t)
    (hfree : ∃ b < t.totalNumberOfBuckets, t.bucket b = none) (key : K) : t.Designates key := by
  obtain ⟨i, hi, -⟩ := findBucketWithKey_isStop h.toLayout key
  rw [designates_iff_suits h.toLayout hi]
  exact stop_suits (probeBucket_exhaustive h.toLayout) h.placed (.inr hfree) hi

/-- In a full table, the search of an absent key ends on another key. -/
theorem full_not_designates {t : MyHashTable V} (h : Layout t)
    (hfull : occupied t.bucket t.totalNumberOfBuckets = t.totalNumberOfBuckets) {key : K}
    (habsent : ¬ t.HasKey key) : ¬ t.Designates key := by
  obtain ⟨i, hi, -⟩ := findBucketWithKey_isStop h key
  rw [designates_iff_suits h hi]
  exact stop_other (probeBucket_exhaustive h) habsent (full_of_occupied hfull) i

omit [HashKey K] [DecidableEq K] [HashValue K V] in
/-- Starting a resizing leaves the main table as it is. -/
theorem growIfNecessary_main {t : MyHashTable V} (h : Layout t) :
    Layout t.growIfNecessary ∧ t.growIfNecessary.bucket = t.bucket ∧
      t.growIfNecessary.totalNumberOfBuckets = t.totalNumberOfBuckets := by
  have hself : Layout t ∧ t.bucket = t.bucket ∧ t.totalNumberOfBuckets = t.totalNumberOfBuckets :=
    ⟨h, rfl, rfl⟩
  unfold growIfNecessary
  split
  · exact hself
  · split
    · exact hself
    · simp only
      split
      · exact hself
      · split
        · exact hself
        · exact ⟨⟨h.pow, h.width_pos, h.width, h.length, h.groups⟩, rfl, rfl⟩

end MyHashTable

/-- The table keeps keys apart: in its main table and in its auxiliary table,
after any number of bucket transfers of the next call, for a search and for an
insertion of a key that was never inserted. -/
structure NeverConflates (depth : Nat) (c : Client K V) (m : FiniteMap K V) : Prop where
  designates : ∀ n fresh t', (n = 0 ∨ c.table.resizing = true) →
    transferBuckets (insert (depth + 1)) fresh n c.table = some t' →
    ∀ key : K, t'.Designates key ∧
      ∀ a, t'.auxiliaryTableForIncrementalResize = some a → a.Designates key
  find : ∀ key ∉ m.inserted, c.table.find key = none
  insert : ∀ key ∉ m.inserted, ∀ fresh, ∃ t' p,
    c.table.insert (depth + 2) key fresh = some (t', p) ∧ t'.find key = some p ∧
      t'.load p = some (setKey fresh key) ∧ t'.size = c.table.size + 1

/-- The calls a run of `searchSystem` is made of. -/
def IsSearchCall : MapCall K V → Prop
  | .insert _ _ => True
  | .find _ => True
  | _ => False

/-- The runs made of insertions and searches. -/
def searchSystem (K V : Type*) [HashKey K] [DecidableEq K] [HashValue K V]
    (depth buckets bucketsPerGroup : Nat) (loadFactorThreshold : ℚ) :
    TransitionSystem (Client K V × FiniteMap K V) (MapCall K V) :=
  (clientSystem K V depth buckets bucketsPerGroup loadFactorThreshold).restrict fun _ call =>
    IsSearchCall call

theorem Represents.neverConflates {c : Client K V} {m : FiniteMap K V} (h : Represents c m)
    (depth : Nat) : NeverConflates depth c m := by
  refine ⟨?_, ?_, ?_⟩
  · intro n fresh t' hn hloop key
    cases h.sound with
    | settled hs _ =>
        have hn0 : n = 0 := hn.resolve_right (by simp [hs.resizing])
        subst hn0
        injection hloop with hloop
        subst hloop
        refine ⟨hs.toCore.designates hs.exists_free key, fun a ha => ?_⟩
        exact absurd (hs.auxiliary.symm.trans ha) (by simp)
    | resizing a hs _ _ _ =>
        obtain ⟨a', hloop', hmoving, -⟩ :=
          transferBuckets_spec depth fresh n c.table a hs.moving
        rw [hloop] at hloop'
        injection hloop' with hloop'
        subst hloop'
        have htransferring := hmoving.transferring hs.free
        refine ⟨htransferring.toCore.designates htransferring.exists_free key, fun a₁ ha => ?_⟩
        rw [htransferring.auxiliary] at ha
        injection ha with ha
        subst ha
        exact htransferring.settled.toCore.designates htransferring.settled.exists_free key
  · intro key hkey
    cases find_spec h.sound key with
    | found v _ hv _ _ => exact absurd hv (h.absent hkey v)
    | absent _ hfind => exact hfind
  · intro key hkey fresh
    obtain ⟨t', p, hinsert, hsound, hspec⟩ := insert_spec h.sound depth key fresh
    refine ⟨t', p, hinsert, hspec.find, ?_, hspec.size_new (h.absent hkey)⟩
    cases find_spec hsound key with
    | found v q hv hfind hload =>
        rw [hspec.find] at hfind
        injection hfind with hpq
        rcases (hspec.contents key v).mp hv with hold | ⟨-, hnew, -⟩
        · exact absurd hold (h.absent hkey v)
        · rw [hpq, hload, hnew]
    | absent _ hfind => exact absurd (hspec.find.symm.trans hfind) (by simp)

/-! ## Filling a table -/

/-- A settled table after `n` insertions of distinct keys. -/
structure Filled (buckets : Nat) (x : ℚ) (e : Nat → K) (n : Nat) (c : Client K V)
    (m : FiniteMap K V) : Prop where
  settled : Settled c.table
  total : c.table.totalNumberOfBuckets = roundBuckets buckets buckets 2
  load : c.table.maximumLoadFactor = clampThreshold x
  utilised : c.table.utilisedBuckets = n
  entry : ∀ k v, c.table.Entry k v → ∃ i < n, k = e i

omit [DecidableEq K] in
theorem Filled.absent {buckets : Nat} {x : ℚ} {e : Nat → K} {n : Nat} {c : Client K V}
    {m : FiniteMap K V} (h : Filled buckets x e n c m) (he : Function.Injective e) {i : Nat}
    (hi : n ≤ i) : ¬ c.table.HasKey (e i) := by
  intro hkey
  obtain ⟨v, hv⟩ := hasKey_iff.mp hkey
  obtain ⟨j, hj, hij⟩ := h.entry _ v hv
  have := he hij
  omega

/-- Below the threshold, one key after the other goes to the main table. -/
theorem fillingRun (depth : Nat) {buckets bucketsPerGroup : Nat} {x : ℚ}
    (hpos : 1 ≤ bucketsPerGroup) (hle : bucketsPerGroup ≤ 64) {e : Nat → K}
    (he : Function.Injective e) (fresh : V)
    (hnever : ∀ u < roundBuckets buckets buckets 2,
      (u : ℚ) / roundBuckets buckets buckets 2 < clampThreshold x) :
    ∀ n < roundBuckets buckets buckets 2, ∃ c m,
      (searchSystem K V depth buckets bucketsPerGroup x).Reachable (c, m) ∧
        Filled buckets x e n c m := by
  intro n
  induction n with
  | zero =>
      intro _
      refine ⟨_, _, .init rfl, constructor_settled buckets hpos hle x, rfl, rfl, rfl, ?_⟩
      intro k v hv
      exact absurd (hasKey_iff.mpr ⟨v, hv⟩) (not_hasKey_constructor _ _ _ k)
  | succ n ih =>
      intro hn
      obtain ⟨c, m, hreach, hfilled⟩ := ih (by omega)
      have hbelow : ((c.table.utilisedBuckets + 1 : Nat) : ℚ) / c.table.totalNumberOfBuckets <
          c.table.maximumLoadFactor := by
        rw [hfilled.utilised, hfilled.total, hfilled.load]
        exact hnever (n + 1) hn
      obtain ⟨t', b, hinsert, -, -, hput⟩ :=
        hfilled.settled.insert_absent (hfilled.absent he (Nat.le_refl n)) hbelow fresh
      have hexec : c.exec (depth + 2) (.insert (e n) fresh) =
          some ⟨t', [(e n, t'.pointerTo b)]⟩ := by
        rw [Client.exec, insert_settled hfilled.settled, hinsert]
        rfl
      refine ⟨_, m.apply (.insert (e n) fresh), hreach.step (l := .insert (e n) fresh)
        ⟨trivial, hexec, rfl⟩, hput.settled, hput.total.trans hfilled.total,
        hput.load.trans hfilled.load, by rw [hput.utilised, hfilled.utilised], ?_⟩
      intro k v hv
      rcases (hput.entry k v).mp hv with hv | ⟨-, hk⟩
      · obtain ⟨i, hi, hk⟩ := hfilled.entry k v hv
        exact ⟨i, by omega, hk⟩
      · rw [HashValue.getKey_setKey] at hk
        exact ⟨n, by omega, hk.symm⟩

/-- The insertion that fills the table comes too late to keep keys apart. -/
theorem exists_conflation (depth : Nat) {buckets bucketsPerGroup : Nat} {x : ℚ}
    (hpos : 1 ≤ bucketsPerGroup) (hle : bucketsPerGroup ≤ 64) {e : Nat → K}
    (he : Function.Injective e) (fresh : V)
    (hnever : ∀ u < roundBuckets buckets buckets 2,
      (u : ℚ) / roundBuckets buckets buckets 2 < clampThreshold x) :
    ∃ c m, (searchSystem K V depth buckets bucketsPerGroup x).Reachable (c, m) ∧
      ¬ NeverConflates depth c m := by
  have hM := roundBuckets_pos buckets
  obtain ⟨c, m, hreach, hfilled⟩ := fillingRun depth hpos hle he fresh hnever
    (roundBuckets buckets buckets 2 - 1) (by omega)
  generalize hn : roundBuckets buckets buckets 2 - 1 = n at hfilled
  have hnew := hfilled.absent he (Nat.le_refl n)
  have hother := hfilled.absent he (Nat.le_succ n)
  obtain ⟨t', b, hplace, hinsert⟩ :=
    insertInMain_absent hfilled.settled.toCore hnew hfilled.settled.exists_free fresh
  have hexec : c.exec (depth + 2) (.insert (e n) fresh) =
      some ⟨t'.growIfNecessary, [(e n, t'.pointerTo b)]⟩ := by
    rw [Client.exec, insert_settled hfilled.settled, hinsert]
    rfl
  refine ⟨_, m.apply (.insert (e n) fresh), hreach.step (l := .insert (e n) fresh)
    ⟨trivial, hexec, rfl⟩, ?_⟩
  intro hsafe
  obtain ⟨hlayout, hbucket, htotal⟩ := growIfNecessary_main hplace.core.toLayout
  have hfull : occupied t'.growIfNecessary.bucket t'.growIfNecessary.totalNumberOfBuckets =
      t'.growIfNecessary.totalNumberOfBuckets := by
    rw [hbucket, htotal, ← hplace.core.utilised, hplace.utilised, hfilled.utilised, hplace.total,
      hfilled.total]
    omega
  have habsent : ¬ t'.growIfNecessary.HasKey (e (n + 1)) := by
    have hiff := entry_update hplace.total hplace.bucket hplace.lt hplace.free
    intro hkey
    have hkey' : t'.HasKey (e (n + 1)) := by
      unfold HasKey at hkey ⊢
      rw [hbucket, htotal] at hkey
      exact hkey
    obtain ⟨v, hv⟩ := hasKey_iff.mp hkey'
    rcases (hiff _ v).mp hv with hv | ⟨-, hk⟩
    · exact hother (hasKey_iff.mpr ⟨v, hv⟩)
    · rw [HashValue.getKey_setKey] at hk
      have := he hk
      omega
  exact full_not_designates hlayout hfull habsent
    (hsafe.designates 0 fresh _ (.inl rfl) rfl (e (n + 1))).1

instance : Infinite CollidingKey :=
  Infinite.of_injective CollidingKey.mk fun _ _ h => CollidingKey.mk.inj h

/-- Calls in sequence. -/
def Client.runAll (depth : Nat) (c : Client K V) : List (MapCall K V) → Option (Client K V)
  | [] => some c
  | call :: calls => (c.exec depth call).bind fun c => c.runAll depth calls

theorem reachable_of_runAll {depth buckets bucketsPerGroup : Nat} {x : ℚ}
    {calls : List (MapCall K V)} (hcalls : ∀ call ∈ calls, IsSearchCall call) {c c' : Client K V}
    {m : FiniteMap K V}
    (hreach : (searchSystem K V depth buckets bucketsPerGroup x).Reachable (c, m))
    (hrun : c.runAll (depth + 2) calls = some c') :
    (searchSystem K V depth buckets bucketsPerGroup x).Reachable
      (c', calls.foldl FiniteMap.apply m) := by
  induction calls generalizing c m with
  | nil =>
      injection hrun with hrun
      subst hrun
      exact hreach
  | cons call calls ih =>
      obtain ⟨c₁, hexec, hrest⟩ := Option.bind_eq_some_iff.mp hrun
      have hstep : (searchSystem K V depth buckets bucketsPerGroup x).Reachable
          (c₁, m.apply call) := hreach.step (l := call) ⟨hcalls call List.mem_cons_self, hexec, rfl⟩
      exact ih (fun call hcall => hcalls call (List.mem_cons_of_mem _ hcall)) hstep hrest

end RayPlatform
