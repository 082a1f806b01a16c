import Mathlib.Data.Nat.Count

/-!
# Open addressing

A table is a partial function from bucket numbers below `M` to entries; every
key has a probe sequence. A bucket *suits* a key when it is free or already holds
that key, and a search stops at the first suitable bucket, or gives up at probe
`M - 1` whatever is there (`IsStop`).

`Placed` is the invariant of every table built by inserting at the stop of a
search and never removing: each entry is where a search for its key stops. From
it come the three rules the clients use:

* `stop_of_holds` — the search of a present key stops on its bucket;
* `stop_free` — with exhaustive probing and a free bucket left, the search of an
  absent key stops on a free bucket;
* `Placed.insert` / `Placed.replace` — inserting at the stop, and replacing an
  entry by one of the same key, keep the invariant.

`stop_other` is the failure mode: without a free bucket the search of an absent
key stops on a bucket of another key.
-/

namespace RayPlatform.Lib.OpenAddressing

variable {K V : Type*} (keyOf : V → K) (probe : K → Nat → Nat) (M : Nat)

/-- Bucket `b` is free or holds the key `k`. -/
def Suits (T : Nat → Option V) (k : K) (b : Nat) : Prop :=
  ∀ v, T b = some v → keyOf v = k

/-- Some bucket of the table holds an entry with key `k`. -/
def Holds (T : Nat → Option V) (k : K) : Prop :=
  ∃ b < M, ∃ v, T b = some v ∧ keyOf v = k

/-- Probe `i` is where the search for `k` ends. -/
structure IsStop (T : Nat → Option V) (k : K) (i : Nat) : Prop where
  lt : i < M
  before : ∀ j < i, ¬ Suits keyOf T k (probe k j)
  stop : Suits keyOf T k (probe k i) ∨ i + 1 = M

/-- Every probe sequence stays in the table and visits all of it. -/
structure Exhaustive : Prop where
  lt : ∀ k i, probe k i < M
  visits : ∀ k b, b < M → ∃ i < M, probe k i = b

/-- Every entry is at the end of the search for its key. -/
def Placed (T : Nat → Option V) : Prop :=
  ∀ b v, b < M → T b = some v →
    ∃ i < M, probe (keyOf v) i = b ∧ ∀ j < i, ¬ Suits keyOf T (keyOf v) (probe (keyOf v) j)

/-- The number of occupied buckets below `n`. -/
def occupied (T : Nat → Option V) (n : Nat) : Nat :=
  Nat.count (fun b => (T b).isSome = true) n

variable {keyOf probe M} {T : Nat → Option V}

theorem suits_of_free {k : K} {b : Nat} (h : T b = none) : Suits keyOf T k b := by
  intro v hv
  rw [h] at hv
  exact absurd hv (by simp)

theorem not_suits {k : K} {b : Nat} :
    ¬ Suits keyOf T k b ↔ ∃ v, T b = some v ∧ keyOf v ≠ k := by
  simp [Suits]

/-- A search ends at one probe only. -/
theorem IsStop.unique {k : K} {i j : Nat} (hi : IsStop keyOf probe M T k i)
    (hj : IsStop keyOf probe M T k j) : i = j := by
  rcases Nat.lt_trichotomy i j with h | h | h
  · rcases hi.stop with hs | hs
    · exact absurd hs (hj.before i h)
    · have := hj.lt
      omega
  · exact h
  · rcases hj.stop with hs | hs
    · exact absurd hs (hi.before j h)
    · have := hi.lt
      omega

/-- The search of a present key stops on the bucket that holds it. -/
theorem stop_of_holds (hp : Placed keyOf probe M T) {b : Nat} {v : V} (hb : b < M)
    (hv : T b = some v) {i : Nat} (hi : IsStop keyOf probe M T (keyOf v) i) :
    probe (keyOf v) i = b := by
  obtain ⟨j, hj, hjb, hbefore⟩ := hp b v hb hv
  have hsuits : Suits keyOf T (keyOf v) (probe (keyOf v) j) := by
    intro w hw
    rw [hjb, hv] at hw
    injection hw with hw
    rw [hw]
  have hstop : IsStop keyOf probe M T (keyOf v) j := ⟨hj, hbefore, .inl hsuits⟩
  rw [hi.unique hstop, hjb]

/-- Two buckets never hold the same key. -/
theorem Placed.injective (hp : Placed keyOf probe M T) {b c : Nat} {v w : V} (hb : b < M)
    (hc : c < M) (hv : T b = some v) (hw : T c = some w) (hkey : keyOf v = keyOf w) :
    b = c := by
  obtain ⟨i, hi, hib, hbefore⟩ := hp b v hb hv
  have hsuits : Suits keyOf T (keyOf v) (probe (keyOf v) i) := by
    intro u hu
    rw [hib, hv] at hu
    injection hu with hu
    rw [hu]
  have hstop : IsStop keyOf probe M T (keyOf v) i := ⟨hi, hbefore, .inl hsuits⟩
  have hc' := stop_of_holds hp hc hw (hkey ▸ hstop)
  rw [← hib, hkey, hc']

/-- With a free bucket left, the search of an absent key stops on a free bucket. -/
theorem stop_free (he : Exhaustive probe M) {k : K} (habsent : ¬ Holds keyOf M T k)
    (hfree : ∃ b < M, T b = none) {i : Nat} (hi : IsStop keyOf probe M T k i) :
    T (probe k i) = none := by
  have hnone : ∀ b < M, Suits keyOf T k b → T b = none := by
    intro b hb hs
    cases hv : T b with
    | none => rfl
    | some v => exact absurd ⟨b, hb, v, hv, hs v hv⟩ habsent
  rcases hi.stop with hs | hlast
  · exact hnone _ (he.lt k i) hs
  · -- the search gave up at its last probe, so the free bucket can only be that one
    obtain ⟨b, hb, hbfree⟩ := hfree
    obtain ⟨j, hj, hjb⟩ := he.visits k b hb
    have hji : j = i := by
      by_contra hne
      exact hi.before j (by omega) (suits_of_free (hjb ▸ hbfree))
    rw [← hji, hjb, hbfree]

/-- The bucket a search stops on is free or holds the key, as soon as the key is
present or some bucket is free. -/
theorem stop_suits (he : Exhaustive probe M) (hp : Placed keyOf probe M T) {k : K}
    (hroom : Holds keyOf M T k ∨ ∃ b < M, T b = none) {i : Nat}
    (hi : IsStop keyOf probe M T k i) : Suits keyOf T k (probe k i) := by
  by_cases hk : Holds keyOf M T k
  · obtain ⟨b, hb, v, hv, rfl⟩ := hk
    rw [stop_of_holds hp hb hv hi]
    intro w hw
    rw [hv] at hw
    injection hw with hw
    rw [hw]
  · exact suits_of_free (stop_free he hk (hroom.resolve_left hk) hi)

/-- Without a free bucket, the search of an absent key stops on another key. -/
theorem stop_other (he : Exhaustive probe M) {k : K} (habsent : ¬ Holds keyOf M T k)
    (hfull : ∀ b < M, T b ≠ none) (i : Nat) : ¬ Suits keyOf T k (probe k i) := by
  intro hs
  obtain ⟨v, hv⟩ := Option.ne_none_iff_exists'.mp (hfull _ (he.lt k i))
  exact habsent ⟨_, he.lt k i, v, hv, hs v hv⟩

/-- Inserting an absent key at the stop of its search keeps every entry placed. -/
theorem Placed.insert (hp : Placed keyOf probe M T) {i : Nat} {v : V}
    (hi : IsStop keyOf probe M T (keyOf v) i) (hfree : T (probe (keyOf v) i) = none) :
    Placed keyOf probe M (Function.update T (probe (keyOf v) i) (some v)) := by
  -- a bucket that did not suit a key was occupied, so the insertion left it alone
  have hkeep : ∀ k b, ¬ Suits keyOf T k b →
      ¬ Suits keyOf (Function.update T (probe (keyOf v) i) (some v)) k b := by
    intro k b hns
    obtain ⟨w, hw, hwk⟩ := not_suits.mp hns
    have hne : b ≠ probe (keyOf v) i := by
      rintro rfl
      rw [hfree] at hw
      exact absurd hw (by simp)
    exact not_suits.mpr ⟨w, by rw [Function.update_of_ne hne, hw], hwk⟩
  intro b w hb hw
  by_cases hbi : b = probe (keyOf v) i
  · subst hbi
    rw [Function.update_self] at hw
    injection hw with hw
    subst hw
    exact ⟨i, hi.lt, rfl, fun j hj => hkeep _ _ (hi.before j hj)⟩
  · rw [Function.update_of_ne hbi] at hw
    obtain ⟨j, hj, hjb, hbefore⟩ := hp b w hb hw
    exact ⟨j, hj, hjb, fun l hl => hkeep _ _ (hbefore l hl)⟩

/-- Replacing an entry by one with the same key keeps every entry placed. -/
theorem Placed.replace (hp : Placed keyOf probe M T) {b : Nat} {v w : V} (hv : T b = some v)
    (hkey : keyOf w = keyOf v) : Placed keyOf probe M (Function.update T b (some w)) := by
  have hsuits : ∀ k c, Suits keyOf (Function.update T b (some w)) k c ↔ Suits keyOf T k c := by
    intro k c
    by_cases hcb : c = b
    · subst hcb
      simp [Suits, hv, hkey]
    · simp [Suits, Function.update_of_ne hcb]
  intro c u hc hu
  by_cases hcb : c = b
  · subst hcb
    rw [Function.update_self] at hu
    injection hu with hu
    subst hu
    obtain ⟨j, hj, hjb, hbefore⟩ := hp c v hc hv
    rw [hkey]
    exact ⟨j, hj, hjb, fun l hl => by rw [hsuits]; exact hbefore l hl⟩
  · rw [Function.update_of_ne hcb] at hu
    obtain ⟨j, hj, hjb, hbefore⟩ := hp c u hc hu
    exact ⟨j, hj, hjb, fun l hl => by rw [hsuits]; exact hbefore l hl⟩

/-! ## Counting occupied buckets -/

theorem occupied_zero : occupied T 0 = 0 := by
  simp [occupied]

theorem occupied_succ (n : Nat) :
    occupied T (n + 1) = occupied T n + if (T n).isSome then 1 else 0 := by
  simp [occupied, Nat.count_succ]

theorem occupied_mono {m n : Nat} (h : m ≤ n) : occupied T m ≤ occupied T n :=
  Nat.count_monotone _ h

theorem occupied_congr {T' : Nat → Option V} {n : Nat}
    (h : ∀ b < n, (T b).isSome = (T' b).isSome) : occupied T n = occupied T' n := by
  induction n with
  | zero => simp [occupied]
  | succ n ih =>
      rw [occupied_succ, occupied_succ, ih (fun b hb => h b (by omega)), h n (by omega)]

theorem occupied_insert {b : Nat} {v : V} (hfree : T b = none) (n : Nat) :
    occupied (Function.update T b (some v)) n = occupied T n + if b < n then 1 else 0 := by
  induction n with
  | zero => simp [occupied]
  | succ n ih =>
      rw [occupied_succ, occupied_succ, ih]
      rcases Nat.lt_trichotomy b n with h | h | h
      · have hne : n ≠ b := by omega
        rw [Function.update_of_ne hne, if_pos h, if_pos (by omega : b < n + 1)]
        omega
      · subst h
        simp [hfree]
      · have hne : n ≠ b := by omega
        rw [Function.update_of_ne hne, if_neg (by omega : ¬ b < n),
          if_neg (by omega : ¬ b < n + 1)]
        omega

/-- Fewer occupied buckets than buckets leave a free one. -/
theorem exists_free {n : Nat} (h : occupied T n < n) : ∃ b < n, T b = none := by
  by_contra hnone
  simp only [not_exists, not_and] at hnone
  have hall : occupied T n = n :=
    Nat.count_iff_forall.mpr fun b hb => Option.isSome_iff_ne_none.mpr (hnone b hb)
  omega

/-- As many occupied buckets as buckets leave none free. -/
theorem full_of_occupied {n : Nat} (h : occupied T n = n) : ∀ b < n, T b ≠ none :=
  fun b hb => Option.isSome_iff_ne_none.mp (Nat.count_iff_forall.mp h b hb)

end RayPlatform.Lib.OpenAddressing
