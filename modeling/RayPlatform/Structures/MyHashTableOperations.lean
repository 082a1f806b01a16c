import RayPlatform.Structures.MyHashTableResize

/-!
# The operations of MyHashTable

One lemma per operation a client has, from any state between two calls (`Sound`):

* `find_spec` — a search finds the entry of a held key, and nothing otherwise;
* `insert_spec` — an insertion adds the key if it is new, and finds it if not;
* `store_spec` — an assignment through the pointer of a key changes that entry;
* `completeResizing_spec` — completing a resizing changes no entry;
* `iterate_spec` — an iteration lists the entries of a table that is not resizing.
-/

namespace RayPlatform

namespace MyHashTable

open Lib.OpenAddressing

variable {K V : Type*} [HashKey K] [DecidableEq K] [HashValue K V]

/-! ## Finding -/

/-- Searching one table with a free bucket. -/
theorem Core.findKey_cases {t : MyHashTable V} (h : Core t)
    (hfree : ∃ b < t.totalNumberOfBuckets, t.bucket b = none) (key : K) :
    (∃ b < t.totalNumberOfBuckets, ∃ v, t.bucket b = some v ∧ getKey v = key ∧
      t.findKey key false = some (t.pointerTo b)) ∨
    (¬ t.HasKey key ∧ t.findKey key false = none) := by
  by_cases hkey : t.HasKey key
  · obtain ⟨b, hb, v, hv, rfl⟩ := hkey
    exact .inl ⟨b, hb, v, hv, rfl, findKey_held h hb hv⟩
  · exact .inr ⟨hkey, findKey_absent h hkey hfree⟩

omit [DecidableEq K] in
theorem Transferring.exists_free {r : Nat} {t a : MyHashTable V} (h : Transferring r t a) :
    ∃ b < t.totalNumberOfBuckets, t.bucket b = none :=
  Lib.OpenAddressing.exists_free (h.utilised ▸ h.free)

/-- While resizing, the auxiliary table is checked first. -/
theorem Transferring.find_eq {r : Nat} {t a : MyHashTable V} (h : Transferring r t a) (key : K) :
    t.find key = ((a.findKey key false).map .auxiliary).or (t.findKey key false) := by
  have hfind := h.settled.findKey_true key
  have hres := h.resizing
  have haux := h.auxiliary
  rw [← hfind]
  cases t
  simp only at hres haux
  subst hres haux
  simp [find, findKey]

omit [HashKey K] [DecidableEq K] in
theorem Transferring.load_auxiliary {t a : MyHashTable V}
    (haux : t.auxiliaryTableForIncrementalResize = some a) (p : EntryPointer) :
    t.load (.auxiliary p) = a.load p := by
  rw [load, haux]

omit [HashKey K] [DecidableEq K] in
theorem Settled.contents [HashKey K] {t : MyHashTable V} (h : Settled t) (k : K) (v : V) :
    t.Contents k v ↔ t.Entry k v := by
  rw [Contents, h.auxiliary]

/-- What a search in a sound table finds. -/
inductive FindSpec (t : MyHashTable V) (key : K) : Prop
  | found (v : V) (p : EntryPointer) (held : t.Contents key v) (find : t.find key = some p)
      (load : t.load p = some v)
  | absent (absent : ∀ v, ¬ t.Contents key v) (find : t.find key = none)

theorem find_spec {t : MyHashTable V} (h : Sound t) (key : K) : FindSpec t key := by
  cases h with
  | settled h _ =>
      rcases h.toCore.findKey_cases h.exists_free key with ⟨b, hb, v, hv, hk, hfind⟩ | ⟨hno, hfind⟩
      · refine .found v (t.pointerTo b) ((h.contents key v).mpr ⟨b, hb, hv, hk⟩) ?_ ?_
        · rw [h.findKey_true, hfind]
        · rw [load_pointerTo b (by simp [hv]), hv]
      · refine .absent (fun v hv => hno (hasKey_iff.mpr ⟨v, (h.contents key v).mp hv⟩)) ?_
        rw [h.findKey_true, hfind]
  | resizing a h _ _ _ =>
      have hfindeq := h.find_eq key
      rcases h.settled.toCore.findKey_cases h.settled.exists_free key with
        ⟨b, hb, v, hv, hk, hfind⟩ | ⟨hno, hfind⟩
      · refine .found v (.auxiliary (a.pointerTo b))
          ((h.contents key v).mpr (.inl ⟨b, hb, hv, hk⟩)) ?_ ?_
        · rw [hfindeq, hfind]
          rfl
        · rw [Transferring.load_auxiliary h.auxiliary, load_pointerTo b (by simp [hv]), hv]
      · rcases h.toCore.findKey_cases h.exists_free key with
          ⟨b, hb, v, hv, hk, hfind'⟩ | ⟨hno', hfind'⟩
        · refine .found v (t.pointerTo b)
            ((h.contents key v).mpr (.inr ⟨⟨b, hb, hv, hk⟩, hno⟩)) ?_ ?_
          · rw [hfindeq, hfind, hfind']
            rfl
          · rw [load_pointerTo b (by simp [hv]), hv]
        · refine .absent (fun v hv => ?_) ?_
          · rcases (h.contents key v).mp hv with hv | ⟨hv, -⟩
            · exact hno (hasKey_iff.mpr ⟨v, hv⟩)
            · exact hno' (hasKey_iff.mpr ⟨v, hv⟩)
          · rw [hfindeq, hfind, hfind']
            rfl

omit [DecidableEq K] in
/-- A table holds one entry for a key. -/
theorem Sound.contents_unique {t : MyHashTable V} (h : Sound t) {k : K} {v w : V}
    (hv : t.Contents k v) (hw : t.Contents k w) : v = w := by
  cases h with
  | settled h _ =>
      rw [h.contents] at hv hw
      exact h.toCore.entry_unique hv hw
  | resizing a h _ _ _ =>
      rw [h.contents] at hv hw
      rcases hv with hv | ⟨hv, hno⟩ <;> rcases hw with hw | ⟨hw, hno'⟩
      · exact h.settled.toCore.entry_unique hv hw
      · exact absurd (hasKey_iff.mpr ⟨v, hv⟩) hno'
      · exact absurd (hasKey_iff.mpr ⟨w, hw⟩) hno
      · exact h.toCore.entry_unique hv hw

/-! ## Growing -/

omit [DecidableEq K] [HashKey K] [HashValue K V] in
/-- The table starts resizing. -/
theorem growIfNecessary_above {t : MyHashTable V} (hres : t.resizing = false)
    (habove : ¬ (t.utilisedBuckets : ℚ) / t.totalNumberOfBuckets < t.maximumLoadFactor)
    (hle : t.utilisedBuckets ≤ t.totalNumberOfBuckets) :
    t.growIfNecessary =
      { t with
        currentBucketToTransfer := 0
        resizing := true
        auxiliaryTableForIncrementalResize := some (constructor (t.totalNumberOfBuckets * 2)
          t.numberOfBucketsInGroup t.maximumLoadFactor) } := by
  rw [growIfNecessary, if_neg (by simp [hres]), if_neg habove]
  simp only
  rw [if_neg (by omega), if_neg (by omega)]

omit [HashKey K] [DecidableEq K] in
theorem not_hasKey_constructor (buckets bucketsPerGroup : Nat) (x : ℚ) (k : K) :
    ¬ (constructor buckets bucketsPerGroup x : MyHashTable V).HasKey k := by
  rintro ⟨b, -, v, hv, -⟩
  rw [bucket_constructor] at hv
  exact absurd hv (by simp)

omit [DecidableEq K] in
/-- A resizing starts with an empty auxiliary table. -/
theorem Core.startMoving {t : MyHashTable V} (h : Core t) (hsize : t.size = t.utilisedBuckets)
    (htight : (t.utilisedBuckets : ℚ) - 1 < t.maximumLoadFactor * t.totalNumberOfBuckets) :
    Moving 0
      { t with
        currentBucketToTransfer := 0
        resizing := true
        auxiliaryTableForIncrementalResize := some (constructor (t.totalNumberOfBuckets * 2)
          t.numberOfBucketsInGroup t.maximumLoadFactor) }
      (constructor (t.totalNumberOfBuckets * 2) t.numberOfBucketsInGroup t.maximumLoadFactor) := by
  have htotal : (constructor (t.totalNumberOfBuckets * 2) t.numberOfBucketsInGroup
      t.maximumLoadFactor : MyHashTable V).totalNumberOfBuckets = 2 * t.totalNumberOfBuckets := by
    obtain ⟨m, hm⟩ := h.pow
    rw [hm, ← Nat.pow_succ, constructor_total, Nat.pow_succ, Nat.mul_comm]
  refine ⟨⟨⟨h.pow, h.width_pos, h.width, h.length, h.groups⟩, h.placed, h.utilised, h.load_ge,
    h.load_le⟩, rfl, rfl, constructor_settled _ h.width_pos h.width _, htotal,
    clampThreshold_self h.load_ge h.load_le, rfl, Nat.zero_le _, htight, h.two_le,
    Nat.zero_le _, ?_, ?_, ?_⟩
  · intro b hb
    exact absurd hb (Nat.not_lt_zero b)
  · exact fun _ _ _ _ _ => not_hasKey_constructor _ _ _ _
  · show t.size + occupied t.bucket 0 = 0 + t.utilisedBuckets
    rw [occupied_zero, hsize, Nat.add_comm]

omit [DecidableEq K] in
theorem Core.start {t : MyHashTable V} (h : Core t) (hsize : t.size = t.utilisedBuckets)
    (hfree : t.utilisedBuckets < t.totalNumberOfBuckets)
    (htight : (t.utilisedBuckets : ℚ) - 1 < t.maximumLoadFactor * t.totalNumberOfBuckets) :
    Transferring 0
      { t with
        currentBucketToTransfer := 0
        resizing := true
        auxiliaryTableForIncrementalResize := some (constructor (t.totalNumberOfBuckets * 2)
          t.numberOfBucketsInGroup t.maximumLoadFactor) }
      (constructor (t.totalNumberOfBuckets * 2) t.numberOfBucketsInGroup t.maximumLoadFactor) :=
  (h.startMoving hsize htight).transferring hfree

/-! ## Inserting -/

/-- What an insertion does for its client. -/
structure InsertSpec (t t' : MyHashTable V) (key : K) (fresh : V) (p : EntryPointer) : Prop where
  contents : ∀ k v, t'.Contents k v ↔
    t.Contents k v ∨ (k = key ∧ v = setKey fresh key ∧ ∀ w, ¬ t.Contents key w)
  find : t'.find key = some p
  size_known : ∀ w, t.Contents key w → t'.size = t.size
  size_new : (∀ w, ¬ t.Contents key w) → t'.size = t.size + 1

/-- Case 3 of `insert` in a table that is not resizing; the table may start growing. -/
theorem Settled.insertInMain_spec {t : MyHashTable V} (h : Settled t) (hroomy : Roomy t) (key : K)
    (fresh : V) :
    ∃ t' p, t.insertInMain key fresh = (t', p) ∧ Sound t' ∧ InsertSpec t t' key fresh p := by
  by_cases hkey : t.HasKey key
  · obtain ⟨b, hb, v, hv, rfl⟩ := hkey
    have hheld : t.Contents (getKey v) v := (h.contents _ _).mpr ⟨b, hb, hv, rfl⟩
    refine ⟨t, t.pointerTo b, ?_, .settled h hroomy, ?_, h.find_held hb hv, fun _ _ => rfl,
      fun hno => absurd hheld (hno v)⟩
    · rw [insertInMain_held h.toCore hb hv, growIfNecessary_below h.resizing h.below]
    · intro k w
      constructor
      · exact fun hw => .inl hw
      · rintro (hw | ⟨-, -, hno⟩)
        · exact hw
        · exact absurd hheld (hno v)
  · have habsent : ∀ w, ¬ t.Contents key w :=
      fun w hw => hkey (hasKey_iff.mpr ⟨w, (h.contents key w).mp hw⟩)
    obtain ⟨t₁, b, hplace, hinsert⟩ := insertInMain_absent h.toCore hkey h.exists_free fresh
    have hb : b < t₁.totalNumberOfBuckets := hplace.total.symm ▸ hplace.lt
    have hbv : t₁.bucket b = some (setKey fresh key) := by
      rw [hplace.bucket, Function.update_self]
    have hres : t₁.resizing = false := hplace.resizing.trans h.resizing
    have hsize : t₁.size = t₁.utilisedBuckets := by
      rw [hplace.size, hplace.utilised, h.size]
    have hentry : ∀ k v, t₁.Entry k v ↔
        t.Contents k v ∨ (k = key ∧ v = setKey fresh key ∧ ∀ w, ¬ t.Contents key w) := by
      intro k v
      rw [entry_update hplace.total hplace.bucket hplace.lt hplace.free, h.contents,
        HashValue.getKey_setKey]
      constructor
      · rintro (hv | ⟨rfl, rfl⟩)
        · exact .inl hv
        · exact .inr ⟨rfl, rfl, habsent⟩
      · rintro (hv | ⟨rfl, rfl, -⟩)
        · exact .inl hv
        · exact .inr ⟨rfl, rfl⟩
    have hroomy₁ : Roomy t₁ := by
      unfold Roomy
      rw [hplace.load, hplace.total]
      exact hroomy
    by_cases hbelow : (t₁.utilisedBuckets : ℚ) / t₁.totalNumberOfBuckets < t₁.maximumLoadFactor
    · have hsettled : Settled t₁ :=
        ⟨hplace.core, hres, hplace.auxiliary.trans h.auxiliary, hsize, hbelow⟩
      rw [growIfNecessary_below hres hbelow] at hinsert
      refine ⟨t₁, t₁.pointerTo b, hinsert, .settled hsettled hroomy₁, ?_, ?_,
        fun w hw => absurd hw (habsent w), fun _ => hplace.size⟩
      · intro k v
        rw [hsettled.contents, hentry]
      · have hfind := hsettled.find_held hb hbv
        rwa [HashValue.getKey_setKey] at hfind
    · -- the insertion reached the threshold, while a bucket is still free
      have htight := hplace.tight h.toLayout.two_le h.below
      have hfree : t₁.utilisedBuckets < t₁.totalNumberOfBuckets := by
        have hlt := lt_of_lt_of_le htight hroomy₁
        have hlt' : (t₁.utilisedBuckets : ℚ) < t₁.totalNumberOfBuckets := by linarith
        exact_mod_cast hlt'
      have hgrow := growIfNecessary_above hres hbelow (Nat.le_of_lt hfree)
      have hstart := hplace.core.start hsize hfree htight
      rw [hgrow] at hinsert
      refine ⟨_, _, hinsert, .resizing _ hstart (Nat.lt_of_le_of_lt (Nat.zero_le _) hfree) rfl
        hroomy₁, ?_, ?_, fun w hw => absurd hw (habsent w), fun _ => hplace.size⟩
      · intro k v
        rw [hstart.contents, ← hentry]
        constructor
        · rintro (hv | ⟨hv, -⟩)
          · exact absurd (hasKey_iff.mpr ⟨v, hv⟩) (not_hasKey_constructor _ _ _ _)
          · exact hv
        · exact fun hv => .inr ⟨hv, not_hasKey_constructor _ _ _ _⟩
      · have hnew := findKey_absent hstart.settled.toCore (not_hasKey_constructor _ _ _ key)
          hstart.settled.exists_free
        have hold := findKey_held hstart.toCore hb hbv
        rw [HashValue.getKey_setKey] at hold
        rw [hstart.find_eq, hnew, hold]
        rfl

omit [DecidableEq K] in
/-- With two more buckets moved, one more key may be counted. -/
theorem Moving.loosen {r : Nat} {t a : MyHashTable V} (h : Moving r t a)
    (hcur : t.currentBucketToTransfer = r + 2)
    (hlt : t.currentBucketToTransfer < t.totalNumberOfBuckets) (heven : r % 2 = 0) :
    Moving t.currentBucketToTransfer t a := by
  have hM := h.toLayout.even
  have hpace := h.pace
  exact { h with budget := by omega, pace := by omega }

omit [DecidableEq K] in
theorem Transferring.loosen {r : Nat} {t a : MyHashTable V} (h : Transferring r t a)
    (hcur : t.currentBucketToTransfer = r + 2)
    (hlt : t.currentBucketToTransfer < t.totalNumberOfBuckets) (heven : r % 2 = 0) :
    Transferring t.currentBucketToTransfer t a :=
  (h.moving.loosen hcur hlt heven).transferring h.free

/-- Case 2 of `insert`: a key that neither table has goes to the auxiliary table. -/
theorem Moving.insertAuxiliary {r : Nat} {t a : MyHashTable V} (h : Moving r t a)
    (hbudget : r + 2 + 2 ≤ t.totalNumberOfBuckets) {key : K} (hno : ¬ a.HasKey key)
    (hno' : ¬ t.HasKey key) (fresh : V) :
    ∃ a' b, a.insertInMain key fresh = (a', a'.pointerTo b) ∧ b < a.totalNumberOfBuckets ∧
      a'.bucket b = some (setKey fresh key) ∧ PutSpec a a' (setKey fresh key) ∧
      Moving (r + 2)
        { t with
          auxiliaryTableForIncrementalResize := some a'
          size := t.size + 1 } a' := by
  have hpace := h.pace
  have hutilised := h.utilised
  have hocc := occupied_mono (T := t.bucket) h.current
  have hroom : 2 * (a.utilisedBuckets + 1) + 2 ≤
      2 * t.utilisedBuckets + t.totalNumberOfBuckets := by omega
  obtain ⟨a', b, hinsert, hb, hbv, hput⟩ := h.settled.insert_absent hno (h.below hroom) fresh
  refine ⟨a', b, hinsert, hb, hbv, hput, ⟨⟨h.pow, h.width_pos, h.width, h.length, h.groups⟩,
    h.placed, h.utilised, h.load_ge, h.load_le⟩, h.resizing, rfl, hput.settled,
    hput.total.trans h.auxiliaryTotal, hput.load.trans h.auxiliaryLoad,
    hput.width.trans h.auxiliaryWidth, h.current, h.tight, hbudget, ?_, ?_, ?_, ?_⟩
  · rw [hput.utilised]
    show 2 * (a.utilisedBuckets + 1) ≤ 2 * occupied t.bucket t.currentBucketToTransfer + (r + 2)
    omega
  · exact fun c hc v hv => (hput.hasKey _).mpr (.inl (h.moved c hc v hv))
  · intro c hc hct v hv hk
    rw [hput.hasKey, HashValue.getKey_setKey] at hk
    rcases hk with hk | hk
    · exact h.unmoved c hc hct v hv hk
    · exact hno' ⟨c, hct, v, hv, hk.symm⟩
  · rw [hput.utilised]
    show t.size + 1 + occupied t.bucket t.currentBucketToTransfer =
      a.utilisedBuckets + 1 + t.utilisedBuckets
    have := h.size
    omega

/-- The part of `insert` after `resize`, while the resizing goes on. -/
theorem Transferring.insertResized_spec {r : Nat} {t a : MyHashTable V} (h : Transferring r t a)
    (hcur : t.currentBucketToTransfer = r + 2)
    (hlt : t.currentBucketToTransfer < t.totalNumberOfBuckets) (heven : r % 2 = 0)
    (hroomy : Roomy t) (depth : Nat) (key : K) (fresh : V) :
    ∃ t' p, t.insertResized (insert (depth + 1)) key fresh = some (t', p) ∧ Sound t' ∧
      InsertSpec t t' key fresh p := by
  have hM := h.toLayout.even
  have hbudget : r + 2 + 2 ≤ t.totalNumberOfBuckets := by omega
  have hsound : Sound t := .resizing a (h.loosen hcur hlt heven) hlt (by omega) hroomy
  have hfindeq := h.find_eq key
  -- the table is left as it is when it holds the key
  have hunchanged : ∀ {p v}, t.Contents key v → t.find key = some p →
      InsertSpec t t key fresh p := by
    intro p v hv hfind
    refine ⟨fun k w => ⟨.inl, ?_⟩, hfind, fun _ _ => rfl, fun hno => absurd hv (hno v)⟩
    rintro (hw | ⟨-, -, hno⟩)
    · exact hw
    · exact absurd hv (hno v)
  rcases h.settled.toCore.findKey_cases h.settled.exists_free key with
    ⟨b, hb, v, hv, hk, hnew⟩ | ⟨hno, hnew⟩
  · -- Case 1
    refine ⟨t, .auxiliary (a.pointerTo b), ?_, hsound,
      hunchanged ((h.contents key v).mpr (.inl ⟨b, hb, hv, hk⟩)) ?_⟩
    · simp [insertResized, h.resizing, h.auxiliary, hnew]
    · rw [hfindeq, hnew]
      rfl
  · rcases h.toCore.findKey_cases h.exists_free key with ⟨b, hb, v, hv, hk, hold⟩ | ⟨hno', hold⟩
    · -- Case 3
      have hmain : t.insertInMain key fresh = (t, t.pointerTo b) := by
        rw [← hk, insertInMain_held h.toCore hb hv, growIfNecessary_resizing h.resizing]
      refine ⟨t, t.pointerTo b, ?_, hsound,
        hunchanged ((h.contents key v).mpr (.inr ⟨⟨b, hb, hv, hk⟩, hno⟩)) ?_⟩
      · simp [insertResized, h.resizing, h.auxiliary, hnew, hold, hmain]
      · rw [hfindeq, hnew, hold]
        rfl
    · -- Case 2
      have habsent : ∀ w, ¬ t.Contents key w := by
        intro w hw
        rcases (h.contents key w).mp hw with hw | ⟨hw, -⟩
        · exact hno (hasKey_iff.mpr ⟨w, hw⟩)
        · exact hno' (hasKey_iff.mpr ⟨w, hw⟩)
      obtain ⟨a', b, hinsert, hb, hbv, hput, hmoving⟩ :=
        h.moving.insertAuxiliary hbudget hno hno' fresh
      let t' : MyHashTable V :=
        { t with
          auxiliaryTableForIncrementalResize := some a'
          size := t.size + 1 }
      have htransferring : Transferring (r + 2) t' a' := hmoving.transferring h.free
      have hfind : t'.find key = some (.auxiliary (a'.pointerTo b)) := by
        have hheld := findKey_held hput.settled.toCore (hput.total.symm ▸ hb) hbv
        rw [HashValue.getKey_setKey] at hheld
        rw [htransferring.find_eq, hheld]
        rfl
      refine ⟨t', .auxiliary (a'.pointerTo b), ?_,
        .resizing a' (by rw [show t'.currentBucketToTransfer = r + 2 from hcur]; exact htransferring)
          hlt (by rw [show t'.currentBucketToTransfer = r + 2 from hcur]; omega) hroomy,
        ?_, hfind, fun w hw => absurd hw (habsent w), fun _ => rfl⟩
      · simp [insertResized, h.resizing, h.auxiliary, hnew, hold, insert_settled h.settled, hinsert,
          hput.utilised, t']
      · intro k v
        rw [htransferring.contents, h.contents, hput.hasKey, hput.entry, HashValue.getKey_setKey]
        constructor
        · rintro ((hv | ⟨rfl, rfl⟩) | ⟨hv, hk⟩)
          · exact .inl (.inl hv)
          · exact .inr ⟨rfl, rfl, habsent⟩
          · exact .inl (.inr ⟨hv, fun hk' => hk (.inl hk')⟩)
        · rintro ((hv | ⟨hv, hk⟩) | ⟨rfl, rfl, -⟩)
          · exact .inl (.inl hv)
          · refine .inr ⟨hv, ?_⟩
            rintro (hk' | rfl)
            · exact hk hk'
            · exact hno' (hasKey_iff.mpr ⟨v, hv⟩)
          · exact .inl (.inr ⟨rfl, rfl⟩)

/-- `insert`, from any state between two calls. -/
theorem insert_spec {t : MyHashTable V} (h : Sound t) (depth : Nat) (key : K) (fresh : V) :
    ∃ t' p, t.insert (depth + 2) key fresh = some (t', p) ∧ Sound t' ∧
      InsertSpec t t' key fresh p := by
  cases h with
  | settled h hroomy =>
      rw [insert_settled h]
      obtain ⟨t', p, hinsert, hspec⟩ := h.insertInMain_spec hroomy key fresh
      exact ⟨t', p, by rw [hinsert], hspec⟩
  | resizing a h hlt heven hroomy =>
      obtain ⟨t₁, hresize, hspec⟩ := resize_spec h hlt heven hroomy depth fresh
      have hsplit : t.insert (depth + 2) key fresh =
          t₁.insertResized (insert (depth + 1)) key fresh := by
        rw [insert, if_pos h.resizing, hresize]
        rfl
      have hafter : ∃ t' p, t₁.insertResized (insert (depth + 1)) key fresh = some (t', p) ∧
          Sound t' ∧ InsertSpec t₁ t' key fresh p := by
        rcases hspec.outcome with ⟨a', h', hcur, hlt', -⟩ | ⟨h', -⟩
        · exact h'.insertResized_spec hcur hlt' heven hspec.roomy depth key fresh
        · obtain ⟨t', p, hinsert, hspec'⟩ := h'.insertInMain_spec hspec.roomy key fresh
          exact ⟨t', p, by rw [insertResized, h'.resizing]; simp [hinsert], hspec'⟩
      obtain ⟨t', p, hinsert, hsound, hins⟩ := hafter
      refine ⟨t', p, by rw [hsplit, hinsert], hsound, ?_, hins.find, ?_, ?_⟩
      · intro k v
        simp only [hins.contents, hspec.contents]
      · intro w hw
        rw [hins.size_known w ((hspec.contents key w).mpr hw), hspec.size]
      · intro hno
        rw [hins.size_new fun w hw => hno w ((hspec.contents key w).mp hw), hspec.size]

/-! ## Assigning -/

/-- What an assignment through the pointer of a held key does for its client. -/
structure AssignSpec (t t' : MyHashTable V) (v : V) : Prop where
  sound : Sound t'
  contents : ∀ k u, t'.Contents k u ↔ if k = getKey v then u = v else t.Contents k u
  find : ∀ k, t'.find k = t.find k
  size : t'.size = t.size

section

variable {t t' : MyHashTable V} {b : Nat} {v w : V}

/-- A bucket keeps its key. -/
theorem StoreSpec.bucket_key (hs : StoreSpec t t' b v) (hw : t.bucket b = some w)
    (hkey : getKey v = getKey w) {c : Nat} {u : V} (hu : t'.bucket c = some u) :
    ∃ u', t.bucket c = some u' ∧ getKey u' = getKey u := by
  rw [hs.bucket] at hu
  by_cases hcb : c = b
  · subst hcb
    rw [Function.update_self] at hu
    injection hu with hu
    exact ⟨w, hw, by rw [← hu, hkey]⟩
  · rw [Function.update_of_ne hcb] at hu
    exact ⟨u, hu, rfl⟩

theorem StoreSpec.occupied (hs : StoreSpec t t' b v) (hw : t.bucket b = some w) (n : Nat) :
    Lib.OpenAddressing.occupied t'.bucket n = Lib.OpenAddressing.occupied t.bucket n := by
  apply occupied_congr
  intro c _
  rw [hs.bucket]
  by_cases hcb : c = b
  · subst hcb
    simp [hw]
  · rw [Function.update_of_ne hcb]

theorem Core.hasKey_store (h : Core t) (hs : StoreSpec t t' b v)
    (hb : b < t.totalNumberOfBuckets) (hw : t.bucket b = some w) (hkey : getKey v = getKey w)
    (k : K) : t'.HasKey k ↔ t.HasKey k := by
  simp only [hasKey_iff, h.entry_store hs hb hw hkey]
  by_cases hk : k = getKey v
  · have hheld : ∃ u, t.Entry k u := ⟨w, b, hb, hw, by rw [hk, hkey]⟩
    simp only [if_pos hk, exists_eq, hheld]
  · simp only [if_neg hk]

theorem Settled.assign (h : Settled t) (hroomy : Roomy t) (hb : b < t.totalNumberOfBuckets)
    (hw : t.bucket b = some w) (hkey : getKey v = getKey w) :
    AssignSpec t (t.store (t.pointerTo b) v) v := by
  have hs := h.toCore.store hb hw hkey
  have hsettled := h.store hb hw hkey
  refine ⟨.settled hsettled ?_, ?_, ?_, hs.size⟩
  · unfold Roomy
    rw [hs.load, hs.total]
    exact hroomy
  · intro k u
    rw [hsettled.contents, h.contents, h.toCore.entry_store hs hb hw hkey]
  · intro k
    rw [hsettled.findKey_true, h.findKey_true, hs.findKey]

/-- Assigning an entry of the auxiliary table. -/
theorem Transferring.assign_auxiliary {a : MyHashTable V}
    (h : Transferring t.currentBucketToTransfer t a)
    (hlt : t.currentBucketToTransfer < t.totalNumberOfBuckets)
    (heven : t.currentBucketToTransfer % 2 = 0) (hroomy : Roomy t)
    (hb : b < a.totalNumberOfBuckets) (hw : a.bucket b = some w) (hkey : getKey v = getKey w) :
    AssignSpec t (t.store (.auxiliary (a.pointerTo b)) v) v := by
  have hs := h.settled.toCore.store hb hw hkey
  have hhas := h.settled.toCore.hasKey_store hs hb hw hkey
  have hstore : t.store (.auxiliary (a.pointerTo b)) v =
      t.advance (a.store (a.pointerTo b) v) t.currentBucketToTransfer := by
    rw [store, h.auxiliary]
    rfl
  have htransferring : Transferring t.currentBucketToTransfer
      (t.advance (a.store (a.pointerTo b) v) t.currentBucketToTransfer)
      (a.store (a.pointerTo b) v) := by
    refine ⟨h.toCore.advance _ _, h.resizing, rfl, h.settled.store hb hw hkey,
      hs.total.trans h.auxiliaryTotal, hs.load.trans h.auxiliaryLoad,
      hs.width.trans h.auxiliaryWidth, h.current, h.free, h.tight, h.budget, ?_, ?_, ?_, ?_⟩
    · rw [hs.utilised]
      exact h.pace
    · exact fun c hc u hu => (hhas _).mpr (h.moved c hc u hu)
    · exact fun c hc hct u hu hk => h.unmoved c hc hct u hu ((hhas _).mp hk)
    · rw [hs.utilised]
      exact h.size
  rw [hstore]
  refine ⟨.resizing _ htransferring hlt heven hroomy, ?_, ?_, rfl⟩
  · intro k u
    rw [htransferring.contents, h.contents, hhas, h.settled.toCore.entry_store hs hb hw hkey]
    by_cases hk : k = getKey v
    · have hheld : a.HasKey k := ⟨b, hb, w, hw, by rw [hk, hkey]⟩
      rw [if_pos hk, if_pos hk]
      constructor
      · rintro (hu | ⟨-, hno⟩)
        · exact hu
        · exact absurd hheld hno
      · exact fun hu => .inl hu
    · rw [if_neg hk, if_neg hk]
      exact Iff.rfl
  · intro k
    -- the main table is searched as before
    obtain ⟨i, hi, -⟩ := findBucketWithKey_isStop h.toLayout k
    have hmain : (t.advance (a.store (a.pointerTo b) v) t.currentBucketToTransfer).findKey k false =
        t.findKey k false := by
      rw [findKey_false_of_stop h.toLayout hi, findKey_false_of_stop htransferring.toLayout hi]
      rfl
    rw [htransferring.find_eq, h.find_eq, hs.findKey, hmain]

/-- Assigning an entry of the main table that has not been moved. -/
theorem Transferring.assign_main {a : MyHashTable V}
    (h : Transferring t.currentBucketToTransfer t a)
    (hlt : t.currentBucketToTransfer < t.totalNumberOfBuckets)
    (heven : t.currentBucketToTransfer % 2 = 0) (hroomy : Roomy t)
    (hb : b < t.totalNumberOfBuckets) (hw : t.bucket b = some w) (hkey : getKey v = getKey w)
    (hno : ¬ a.HasKey (getKey v)) : AssignSpec t (t.store (t.pointerTo b) v) v := by
  have hs := h.toCore.store hb hw hkey
  have htransferring : Transferring (t.store (t.pointerTo b) v).currentBucketToTransfer
      (t.store (t.pointerTo b) v) a := by
    refine ⟨hs.core, hs.resizing.trans h.resizing, hs.auxiliary.trans h.auxiliary, h.settled,
      h.auxiliaryTotal, h.auxiliaryLoad, h.auxiliaryWidth, h.current, h.free, h.tight, h.budget,
      ?_, ?_, ?_, ?_⟩
    · rw [hs.occupied hw]
      exact h.pace
    · intro c hc u hu
      obtain ⟨u', hu', hk⟩ := hs.bucket_key hw hkey hu
      exact hk ▸ h.moved c hc u' hu'
    · intro c hc hct u hu
      obtain ⟨u', hu', hk⟩ := hs.bucket_key hw hkey hu
      exact hk ▸ h.unmoved c hc hct u' hu'
    · rw [hs.occupied hw]
      exact h.size
  refine ⟨.resizing a htransferring hlt heven hroomy, ?_, ?_, rfl⟩
  · intro k u
    rw [htransferring.contents, h.contents, h.toCore.entry_store hs hb hw hkey]
    by_cases hk : k = getKey v
    · rw [if_pos hk, if_pos hk]
      constructor
      · rintro (hu | ⟨hu, -⟩)
        · exact absurd (hasKey_iff.mpr ⟨u, hk ▸ hu⟩) hno
        · exact hu
      · exact fun hu => .inr ⟨hu, hk ▸ hno⟩
    · rw [if_neg hk, if_neg hk]
  · intro k
    rw [htransferring.find_eq, h.find_eq, hs.findKey]

/-- Assigning through the pointer that a search returned. -/
theorem store_spec (h : Sound t) {p : EntryPointer} (hfind : t.find (getKey v) = some p) :
    AssignSpec t (t.store p v) v := by
  cases h with
  | settled h hroomy =>
      rw [h.findKey_true] at hfind
      rcases h.toCore.findKey_cases h.exists_free (getKey v) with
        ⟨b, hb, w, hw, hk, hfind'⟩ | ⟨-, hfind'⟩
      · rw [hfind] at hfind'
        injection hfind' with hp
        subst hp
        exact h.assign hroomy hb hw hk.symm
      · exact absurd (hfind.symm.trans hfind') (by simp)
  | resizing a h hlt heven hroomy =>
      rw [h.find_eq] at hfind
      rcases h.settled.toCore.findKey_cases h.settled.exists_free (getKey v) with
        ⟨b, hb, w, hw, hk, hnew⟩ | ⟨hno, hnew⟩
      · rw [hnew] at hfind
        injection hfind with hp
        subst hp
        exact h.assign_auxiliary hlt heven hroomy hb hw hk.symm
      · rw [hnew, Option.map_none, Option.none_or] at hfind
        rcases h.toCore.findKey_cases h.exists_free (getKey v) with
          ⟨b, hb, w, hw, hk, hold⟩ | ⟨-, hold⟩
        · rw [hfind] at hold
          injection hold with hp
          subst hp
          exact h.assign_main hlt heven hroomy hb hw hk.symm hno
        · exact absurd (hfind.symm.trans hold) (by simp)

end

/-! ## Completing a resizing -/

theorem completeLoop_spec (depth : Nat) (fresh : V) :
    ∀ fuel (t : MyHashTable V), Sound t →
      t.totalNumberOfBuckets ≤ t.currentBucketToTransfer + 2 * fuel →
      ∃ t', t.completeLoop (depth + 1) fresh fuel = some t' ∧ Settled t' ∧ Roomy t' ∧
        (∀ k v, t'.Contents k v ↔ t.Contents k v) ∧ t'.size = t.size := by
  have hdone : ∀ fuel (t : MyHashTable V), Settled t →
      t.completeLoop (depth + 1) fresh fuel = some t := by
    intro fuel t h
    cases fuel <;> simp [completeLoop, h.resizing]
  intro fuel
  induction fuel with
  | zero =>
      intro t h hfuel
      cases h with
      | settled h hroomy => exact ⟨t, hdone _ t h, h, hroomy, fun _ _ => Iff.rfl, rfl⟩
      | resizing a h hlt _ _ => omega
  | succ fuel ih =>
      intro t h hfuel
      cases h with
      | settled h hroomy => exact ⟨t, hdone _ t h, h, hroomy, fun _ _ => Iff.rfl, rfl⟩
      | resizing a h hlt heven hroomy =>
          obtain ⟨t₁, hresize, hspec⟩ := resize_spec h hlt heven hroomy depth fresh
          have hsplit : t.completeLoop (depth + 1) fresh (fuel + 1) =
              t₁.completeLoop (depth + 1) fresh fuel := by
            rw [completeLoop, if_pos h.resizing, hresize]
            rfl
          rw [hsplit]
          rcases hspec.outcome with ⟨a', h', hcur, hlt', htotal⟩ | ⟨h', -⟩
          · have hsound : Sound t₁ :=
              .resizing a' (h'.loosen hcur hlt' heven) hlt' (by omega) hspec.roomy
            obtain ⟨t', hloop, hsettled, hroomy', hcontents, hsize⟩ := ih t₁ hsound (by omega)
            exact ⟨t', hloop, hsettled, hroomy',
              fun k v => (hcontents k v).trans (hspec.contents k v), hsize.trans hspec.size⟩
          · exact ⟨t₁, hdone _ t₁ h', h', hspec.roomy, hspec.contents, hspec.size⟩

/-- `completeResizing` leaves a table that is not resizing, with the same entries. -/
theorem completeResizing_spec {t : MyHashTable V} (h : Sound t) (depth : Nat) (fresh : V) :
    ∃ t', t.completeResizing (depth + 1) fresh = some t' ∧ Settled t' ∧ Roomy t' ∧
      (∀ k v, t'.Contents k v ↔ t.Contents k v) ∧ t'.size = t.size :=
  completeLoop_spec depth fresh t.capacity t h (by simp only [capacity]; omega)

/-! ## Iterating -/

/-- The entries of the main table, in bucket order. -/
def entries (t : MyHashTable V) : List V :=
  (List.range' 0 t.totalNumberOfBuckets).filterMap t.bucket

omit [HashKey K] [DecidableEq K] in
theorem mem_entries {t : MyHashTable V} (v : V) : v ∈ t.entries ↔ t.Entry (getKey v) v := by
  simp [entries, List.mem_filterMap, Entry]

omit [DecidableEq K] in
/-- Every key is listed once. -/
theorem Core.entries_nodup {t : MyHashTable V} (h : Core t) : (t.entries.map getKey).Nodup := by
  rw [List.Nodup, List.pairwise_map, entries, List.pairwise_filterMap]
  have hdistinct : (List.range' 0 t.totalNumberOfBuckets).Pairwise (· ≠ ·) := List.nodup_range'
  refine hdistinct.imp_of_mem ?_
  intro b c hb hc hne v hv w hw hkey
  have hb' : b < t.totalNumberOfBuckets := by simpa using hb
  have hc' : c < t.totalNumberOfBuckets := by simpa using hc
  exact hne (h.placed.injective hb' hc' hv hw hkey)

end MyHashTable

namespace MyHashTableIterator

open MyHashTable

variable {V : Type*} {t : MyHashTable V}

/-- The iterator stops on the next occupied bucket or at the end of the table. -/
theorem skipAvailable_spec (h : Layout t) :
    ∀ fuel i, t.totalNumberOfBuckets = i + fuel →
      skipAvailable t fuel i ≤ t.totalNumberOfBuckets ∧
      i ≤ skipAvailable t fuel i ∧
      (List.range' i (t.totalNumberOfBuckets - i)).filterMap t.bucket =
        (List.range' (skipAvailable t fuel i)
          (t.totalNumberOfBuckets - skipAvailable t fuel i)).filterMap t.bucket ∧
      (skipAvailable t fuel i < t.totalNumberOfBuckets →
        t.bucket (skipAvailable t fuel i) ≠ none) := by
  intro fuel
  induction fuel with
  | zero =>
      intro i hi
      refine ⟨by rw [skipAvailable]; omega, Nat.le_refl _, rfl, fun hlt => ?_⟩
      rw [skipAvailable] at hlt
      omega
  | succ fuel ih =>
      intro i hi
      cases hv : t.bucket i with
      | none =>
          have hskip : skipAvailable t (fuel + 1) i = skipAvailable t fuel (i + 1) := by
            have hlt : i < t.totalNumberOfBuckets := by omega
            rw [skipAvailable, if_pos]
            simp [capacity, hlt, isAvailable_eq h, hv]
          obtain ⟨hle, hge, hlist, hstop⟩ := ih (i + 1) (by omega)
          rw [hskip]
          refine ⟨hle, by omega, ?_, hstop⟩
          rw [← hlist, (by omega : t.totalNumberOfBuckets - i = t.totalNumberOfBuckets - (i + 1) + 1),
            List.range'_succ, List.filterMap_cons, hv]
      | some v =>
          have hskip : skipAvailable t (fuel + 1) i = i := by
            rw [skipAvailable, if_neg]
            simp [isAvailable_eq h, hv]
          rw [hskip]
          exact ⟨by omega, Nat.le_refl _, rfl, fun _ => by simp [hv]⟩

theorem collect_spec (h : Layout t) :
    ∀ fuel i b, i ≤ t.totalNumberOfBuckets → t.totalNumberOfBuckets - i < fuel →
      collect t fuel (getNext t { i := i, hasNext := b }) =
        ((List.range' i (t.totalNumberOfBuckets - i)).filterMap t.bucket).map some := by
  intro fuel
  induction fuel with
  | zero =>
      intro i b _ hfuel
      omega
  | succ fuel ih =>
      intro i b hi hfuel
      obtain ⟨hle, hge, hlist, hstop⟩ :=
        skipAvailable_spec h (t.totalNumberOfBuckets - i) i (by omega)
      rw [hlist]
      have hnext : getNext t { i := i, hasNext := b } =
          { i := skipAvailable t (t.totalNumberOfBuckets - i) i
            hasNext := decide (skipAvailable t (t.totalNumberOfBuckets - i) i < t.capacity) &&
              !t.isAvailable (skipAvailable t (t.totalNumberOfBuckets - i) i) } := rfl
      rw [hnext]
      generalize skipAvailable t (t.totalNumberOfBuckets - i) i = j at hle hge hstop
      by_cases hj : j < t.totalNumberOfBuckets
      · obtain ⟨v, hv⟩ := Option.ne_none_iff_exists'.mp (hstop hj)
        have hat : t.atBucket j = some v := by rw [atBucket_eq h (hstop hj), hv]
        rw [collect, if_pos (by simp [capacity, hj, isAvailable_eq h, hv])]
        simp only [next, hat]
        rw [ih (j + 1) _ (by omega) (by omega),
          (by omega : t.totalNumberOfBuckets - j = t.totalNumberOfBuckets - (j + 1) + 1),
          List.range'_succ, List.filterMap_cons, hv]
        rfl
      · have hend : t.totalNumberOfBuckets - j = 0 := by omega
        rw [collect, if_neg (by simp [capacity, hj]), hend]
        rfl

/-- An iteration lists the entries of the main table in bucket order. -/
theorem iterate_spec (h : Layout t) : iterate t = t.entries.map some := by
  have hcollect := collect_spec h (t.capacity + 1) 0 false (Nat.zero_le _) (by simp [capacity])
  rwa [Nat.sub_zero] at hcollect

end MyHashTableIterator

end RayPlatform
