import RayPlatform.Structures.MyHashTableClient

/-!
# The schedule of a resizing

Insertions and searches from an empty table on, whatever the threshold: also the main table
that is full when its resizing starts, where searches end on buckets of other keys. Such a
search inserts nothing, so the schedule does not change.

* `ScheduledTable` — a table, the calls to `insert` since its resizing started, and what the
  loop of `resize` did in them;
* `OnTrack` — the states between two calls, `OnTrack.insert` — what a call to `insert` does
  in each of them;
* `scheduleSystem_onSchedule` — the last bucket is transferred, and the auxiliary table
  promoted, by call number `m_totalNumberOfBuckets / 2`, before the auxiliary table has to
  grow.
-/

namespace RayPlatform

open Lib (TransitionSystem)
open Lib.OpenAddressing
open MyHashTable

variable {K V : Type*} [HashKey K] [DecidableEq K] [HashValue K V]

/-- The tables before and after each transfer of a call to `resize`. -/
def transferSteps (auxiliaryInsert : MyHashTable V → K → V → Option (MyHashTable V × EntryPointer))
    (fresh : V) : Nat → MyHashTable V → List (MyHashTable V × MyHashTable V)
  | 0, _ => []
  | toProcess + 1, t =>
      if t.currentBucketToTransfer < t.capacity then
        match transferBucket auxiliaryInsert t fresh with
        | none => []
        | some t' =>
            (t, t') :: transferSteps auxiliaryInsert fresh toProcess
              { t' with currentBucketToTransfer := t'.currentBucketToTransfer + 1 }
      else []

/-- A table, and what happened since its resizing started. -/
structure ScheduledTable (V : Type*) where
  table : MyHashTable V
  insertCalls : Nat
  steps : List (MyHashTable V × MyHashTable V)

namespace ScheduledTable

/-- The first part of `insert`. -/
def resized (depth : Nat) (s : ScheduledTable V) (fresh : V) : Option (MyHashTable V) :=
  if s.table.resizing then s.table.resize (insert depth) fresh else some s.table

def newSteps (depth : Nat) (s : ScheduledTable V) (fresh : V) :
    List (MyHashTable V × MyHashTable V) :=
  if s.table.resizing then transferSteps (insert depth) fresh 2 s.table else []

def exec (depth : Nat) (s : ScheduledTable V) : MapCall K V → Option (ScheduledTable V)
  | .insert key fresh => do
      let resized ← s.resized depth fresh
      let (t, _) ← s.table.insert (depth + 1) key fresh
      if !resized.resizing && t.resizing then
        -- this call starts a resizing
        some { table := t, insertCalls := 0, steps := [] }
      else
        some
          { table := t
            insertCalls := s.insertCalls + 1
            steps := s.steps ++ s.newSteps depth fresh }
  | .find _ => some s
  | _ => none

end ScheduledTable

/-- The runs of insertions and searches. -/
def scheduleSystem (K V : Type*) [HashKey K] [DecidableEq K] [HashValue K V]
    (depth buckets bucketsPerGroup : Nat) (loadFactorThreshold : ℚ) :
    TransitionSystem (ScheduledTable V) (MapCall K V) :=
  .ofExec ⟨constructor buckets bucketsPerGroup loadFactorThreshold, 0, []⟩
    (ScheduledTable.exec (depth + 1))

namespace MyHashTable

/-! ## What a call to `insert` does -/

/-- Case 3 of `insert` in a table that is not resizing: the table may start a resizing. -/
theorem Settled.insertInMain_onTrack {t : MyHashTable V} (h : Settled t) (key : K) (fresh : V) :
    ∃ t' p, t.insertInMain key fresh = (t', p) ∧
      t'.maximumLoadFactor = t.maximumLoadFactor ∧
      (Settled t' ∨ ∃ a, Moving 0 t' a ∧ t'.currentBucketToTransfer = 0) := by
  by_cases hkey : t.HasKey key
  · obtain ⟨b, hb, v, hv, rfl⟩ := hkey
    refine ⟨t, t.pointerTo b, ?_, rfl, .inl h⟩
    rw [insertInMain_held h.toCore hb hv, growIfNecessary_below h.resizing h.below]
  · obtain ⟨t', b, hplace, hinsert⟩ := insertInMain_absent h.toCore hkey h.exists_free fresh
    have hres : t'.resizing = false := hplace.resizing.trans h.resizing
    have hsize : t'.size = t'.utilisedBuckets := by
      rw [hplace.size, hplace.utilised, h.size]
    by_cases hbelow : (t'.utilisedBuckets : ℚ) / t'.totalNumberOfBuckets < t'.maximumLoadFactor
    · rw [growIfNecessary_below hres hbelow] at hinsert
      exact ⟨t', _, hinsert, hplace.load,
        .inl ⟨hplace.core, hres, hplace.auxiliary.trans h.auxiliary, hsize, hbelow⟩⟩
    · have htight := hplace.tight h.toLayout.two_le h.below
      have hle : t'.utilisedBuckets ≤ t'.totalNumberOfBuckets := by
        have hlt := h.utilised_lt
        rw [hplace.utilised, hplace.total]
        omega
      rw [growIfNecessary_above hres hbelow hle] at hinsert
      exact ⟨_, _, hinsert, hplace.load, .inr ⟨_, hplace.core.startMoving hsize htight, rfl⟩⟩

/-- The part of `insert` after `resize`, while the resizing goes on. -/
theorem Moving.insertResized_onTrack {r : Nat} {t a : MyHashTable V} (h : Moving r t a)
    (hcur : t.currentBucketToTransfer = r + 2)
    (hlt : t.currentBucketToTransfer < t.totalNumberOfBuckets) (heven : r % 2 = 0) (depth : Nat)
    (key : K) (fresh : V) :
    ∃ t' p a', t.insertResized (insert (depth + 1)) key fresh = some (t', p) ∧
      Moving t'.currentBucketToTransfer t' a' ∧
      t'.currentBucketToTransfer = t.currentBucketToTransfer ∧
      t'.totalNumberOfBuckets = t.totalNumberOfBuckets ∧ t'.bucket = t.bucket ∧
      t'.maximumLoadFactor = t.maximumLoadFactor := by
  have hM := h.toLayout.even
  cases hnew : a.findKey key false with
  | some p =>
      -- Case 1
      refine ⟨t, .auxiliary p, a, ?_, h.loosen hcur hlt heven, rfl, rfl, rfl, rfl⟩
      simp [insertResized, h.resizing, h.auxiliary, hnew]
  | none =>
      obtain ⟨i, hi, -⟩ := findBucketWithKey_isStop h.toLayout key
      have hfind := findKey_false_of_stop h.toLayout hi
      cases hv : t.bucket (probeBucket t.totalNumberOfBuckets key i) with
      | some v =>
          -- Case 3, of a key that the bucket has or not
          rw [hv, Option.map_some] at hfind
          have hmain := insertInMain_occupied h.toLayout hi (by simp [hv]) fresh
          rw [growIfNecessary_resizing h.resizing] at hmain
          refine ⟨t, t.pointerTo (probeBucket t.totalNumberOfBuckets key i), a, ?_,
            h.loosen hcur hlt heven, rfl, rfl, rfl, rfl⟩
          simp [insertResized, h.resizing, h.auxiliary, hnew, hfind, hmain]
      | none =>
          -- Case 2
          rw [hv, Option.map_none] at hfind
          have hno' : ¬ t.HasKey key := by
            rintro ⟨b, hb, v, hbv, rfl⟩
            rw [findKey_held h.toCore hb hbv] at hfind
            cases hfind
          have hno : ¬ a.HasKey key := by
            rintro ⟨b, hb, v, hbv, rfl⟩
            rw [findKey_held h.settled.toCore hb hbv] at hnew
            cases hnew
          obtain ⟨a', b, hinsert, -, -, hput, hmoving⟩ :=
            h.insertAuxiliary (by omega) hno hno' fresh
          let t' : MyHashTable V :=
            { t with
              auxiliaryTableForIncrementalResize := some a'
              size := t.size + 1 }
          refine ⟨t', .auxiliary (a'.pointerTo b), a', ?_, ?_, rfl, rfl, rfl, rfl⟩
          · simp [insertResized, h.resizing, h.auxiliary, hnew, hfind, insert_settled h.settled,
              hinsert, hput.utilised, t']
          · rw [show t'.currentBucketToTransfer = r + 2 from hcur]
            exact hmoving

/-! ## The transfers of a call -/

/-- What `resize` does with one bucket of the main table `t`. -/
structure TransferStep (t : MyHashTable V) (step : MyHashTable V × MyHashTable V) : Prop where
  bucket : step.1.bucket = t.bucket
  total : step.1.totalNumberOfBuckets = t.totalNumberOfBuckets
  transferred : ∃ a a', step.1.auxiliaryTableForIncrementalResize = some a ∧
    step.2.auxiliaryTableForIncrementalResize = some a' ∧ Settled a ∧ Settled a' ∧
    Transferred step.1 a a'

theorem transferSteps_spec {r : Nat} (depth : Nat) (fresh : V) :
    ∀ n (t a : MyHashTable V), Moving r t a →
      t.currentBucketToTransfer + n ≤ t.totalNumberOfBuckets →
      (transferSteps (insert (depth + 1)) fresh n t).map
          (fun step => step.1.currentBucketToTransfer) =
        List.range' t.currentBucketToTransfer n ∧
      ∀ step ∈ transferSteps (insert (depth + 1)) fresh n t, TransferStep t step := by
  intro n
  induction n with
  | zero =>
      intro t a _ _
      exact ⟨rfl, fun step hstep => (nomatch hstep)⟩
  | succ n ih =>
      intro t a h hn
      have hcur : t.currentBucketToTransfer < t.totalNumberOfBuckets := by omega
      obtain ⟨a', htransfer, hmoving, hdone, -⟩ := transferBucket_spec h hcur depth fresh
      have hsteps : transferSteps (insert (depth + 1)) fresh (n + 1) t =
          (t, t.advance a' t.currentBucketToTransfer) ::
            transferSteps (insert (depth + 1)) fresh n
              (t.advance a' (t.currentBucketToTransfer + 1)) := by
        rw [transferSteps, capacity, if_pos hcur, htransfer]
        rfl
      have hle : t.currentBucketToTransfer + 1 + n ≤ t.totalNumberOfBuckets := by omega
      obtain ⟨hmap, hall⟩ := ih _ a' hmoving hle
      rw [hsteps]
      refine ⟨?_, fun step hstep => ?_⟩
      · rw [List.map_cons, hmap, List.range'_succ]
        rfl
      · rcases List.mem_cons.mp hstep with rfl | hstep
        · exact ⟨rfl, rfl, a, a', h.auxiliary, rfl, h.settled, hmoving.settled, hdone⟩
        · have hrest := hall step hstep
          exact ⟨hrest.bucket, hrest.total, hrest.transferred⟩

/-- The auxiliary table `resized` takes the place of the main table `t`, and `t'` is what the
rest of the call leaves. -/
structure Promoted (t resized t' : MyHashTable V) : Prop where
  resizing : resized.resizing = false
  total : resized.totalNumberOfBuckets = 2 * t.totalNumberOfBuckets
  size : resized.size = t.size
  utilised : resized.size = resized.utilisedBuckets
  below : (resized.utilisedBuckets : ℚ) / resized.totalNumberOfBuckets < t.maximumLoadFactor
  after : (t'.resizing = false ∧ t'.size = t'.utilisedBuckets ∧
      (t'.utilisedBuckets : ℚ) / t'.totalNumberOfBuckets < t.maximumLoadFactor) ∨
    (t'.resizing = true ∧ t'.currentBucketToTransfer = 0)

end MyHashTable

namespace ScheduledTable

/-! ## Runs -/

/-- The states between two calls. -/
inductive OnTrack (s : ScheduledTable V) : Prop
  | settled (h : Settled s.table)
  | resizing (a : MyHashTable V) (h : Moving s.table.currentBucketToTransfer s.table a)
      (current : s.table.currentBucketToTransfer = 2 * s.insertCalls)
      (lt : s.table.currentBucketToTransfer < s.table.totalNumberOfBuckets)
      (steps : s.steps.map (fun step => step.1.currentBucketToTransfer) =
        List.range (2 * s.insertCalls))
      (transfers : ∀ step ∈ s.steps, TransferStep s.table step)

/-- What a call to `insert` does while the table is resizing. -/
structure OnTime (depth : Nat) (s : ScheduledTable V) (fresh : V) (resized t' : MyHashTable V) :
    Prop where
  steps : (s.steps ++ s.newSteps depth fresh).map (fun step => step.1.currentBucketToTransfer) =
    List.range (2 * (s.insertCalls + 1))
  transfers : ∀ step ∈ s.steps ++ s.newSteps depth fresh, TransferStep s.table step
  le : 2 * (s.insertCalls + 1) ≤ s.table.totalNumberOfBuckets
  goesOn : 2 * (s.insertCalls + 1) < s.table.totalNumberOfBuckets →
    resized.resizing = true ∧ t'.resizing = true ∧
      t'.totalNumberOfBuckets = s.table.totalNumberOfBuckets
  promoted : 2 * (s.insertCalls + 1) = s.table.totalNumberOfBuckets →
    Promoted s.table resized t'

variable {s s' : ScheduledTable V} {depth : Nat}

/-- The state after a call to `insert`. -/
theorem exec_insert {key : K} {fresh : V} {resized t' : MyHashTable V} {p : EntryPointer}
    (hresized : s.resized depth fresh = some resized)
    (hinsert : s.table.insert (depth + 1) key fresh = some (t', p)) :
    s.exec depth (.insert key fresh) =
      if !resized.resizing && t'.resizing then
        some { table := t', insertCalls := 0, steps := [] }
      else
        some
          { table := t'
            insertCalls := s.insertCalls + 1
            steps := s.steps ++ s.newSteps depth fresh } := by
  rw [exec, hresized, hinsert]
  rfl

omit [DecidableEq K] in
theorem onTrack_started {t a : MyHashTable V} (h : Moving 0 t a)
    (hcurrent : t.currentBucketToTransfer = 0) : OnTrack ⟨t, 0, []⟩ := by
  have hM := h.toLayout.two_le
  refine .resizing a ?_ hcurrent ?_ rfl fun step hstep => (nomatch hstep)
  · dsimp only
    rw [hcurrent]
    exact h
  · dsimp only
    omega

/-- A call to `insert` while the table is not resizing. -/
theorem onTrack_insert_settled (h : Settled s.table) (key : K) (fresh : V) :
    ∃ s', s.exec (depth + 1) (.insert key fresh) = some s' ∧ s'.OnTrack ∧
      s'.table.maximumLoadFactor = s.table.maximumLoadFactor := by
  obtain ⟨t', p, hmain, hload, hafter⟩ := h.insertInMain_onTrack key fresh
  have hresized : s.resized (depth + 1) fresh = some s.table := by
    rw [resized, h.resizing]
    rfl
  have hinsert : s.table.insert (depth + 1 + 1) key fresh = some (t', p) := by
    rw [insert_settled h, hmain]
  rw [exec_insert hresized hinsert, h.resizing]
  rcases hafter with hsettled | ⟨a, hmoving, hcurrent⟩
  · rw [hsettled.resizing]
    exact ⟨_, rfl, .settled hsettled, hload⟩
  · rw [hmoving.resizing]
    exact ⟨_, rfl, onTrack_started hmoving hcurrent, hload⟩

/-- A call to `insert` while the table is resizing. -/
theorem onTrack_insert_resizing (depth : Nat) {a : MyHashTable V}
    (h : Moving s.table.currentBucketToTransfer s.table a)
    (hcurrent : s.table.currentBucketToTransfer = 2 * s.insertCalls)
    (hlt : s.table.currentBucketToTransfer < s.table.totalNumberOfBuckets)
    (hsteps : s.steps.map (fun step => step.1.currentBucketToTransfer) =
      List.range (2 * s.insertCalls))
    (htransfers : ∀ step ∈ s.steps, TransferStep s.table step) (key : K) (fresh : V) :
    ∃ resized t' p s', s.resized (depth + 1) fresh = some resized ∧
      s.table.insert (depth + 2) key fresh = some (t', p) ∧
      OnTime (depth + 1) s fresh resized t' ∧
      s.exec (depth + 1) (.insert key fresh) = some s' ∧ s'.OnTrack ∧
      s'.table.maximumLoadFactor = s.table.maximumLoadFactor := by
  have hM := h.toLayout.even
  have hnew : s.newSteps (depth + 1) fresh = transferSteps (insert (depth + 1)) fresh 2 s.table := by
    rw [newSteps, if_pos h.resizing]
  obtain ⟨hmap, hall⟩ := transferSteps_spec depth fresh 2 s.table a h (by omega)
  have hsteps' : (s.steps ++ s.newSteps (depth + 1) fresh).map
      (fun step => step.1.currentBucketToTransfer) = List.range (2 * (s.insertCalls + 1)) := by
    rw [List.map_append, hsteps, hnew, hmap, hcurrent, Nat.mul_add, List.range_add]
    simp [List.range'_eq_map_range]
  have htransfers' : ∀ step ∈ s.steps ++ s.newSteps (depth + 1) fresh,
      TransferStep s.table step := by
    intro step hstep
    rcases List.mem_append.mp hstep with hstep | hstep
    · exact htransfers step hstep
    · rw [hnew] at hstep
      exact hall step hstep
  obtain ⟨resized, hresize, -, hsize, hcases⟩ := h.resize hlt (by omega) depth fresh
  have hresized : s.resized (depth + 1) fresh = some resized := by
    rw [ScheduledTable.resized, if_pos h.resizing, hresize]
  have hsplit : s.table.insert (depth + 2) key fresh =
      resized.insertResized (insert (depth + 1)) key fresh := by
    rw [MyHashTable.insert, if_pos h.resizing, hresize]
    rfl
  rcases hcases with ⟨a₁, rfl, hmoving, hmore⟩ | ⟨hsettled, hlast, htotal, hload⟩
  · obtain ⟨t', p, a', hinsert, hmoving', hcurrent', htotal', hbucket', hload'⟩ :=
      hmoving.insertResized_onTrack rfl hmore (by omega) depth key fresh
    have hinsert' := hsplit.trans hinsert
    refine ⟨_, t', p, ⟨t', s.insertCalls + 1, s.steps ++ s.newSteps (depth + 1) fresh⟩, hresized,
      hinsert', ⟨hsteps', htransfers', by omega,
        fun _ => ⟨hmoving.resizing, hmoving'.resizing, htotal'⟩, fun heq => by omega⟩, ?_, ?_, hload'⟩
    · rw [exec_insert hresized hinsert', hmoving.resizing]
      rfl
    · have hcurrent₁ : t'.currentBucketToTransfer = 2 * (s.insertCalls + 1) := by
        rw [hcurrent']
        show s.table.currentBucketToTransfer + 2 = _
        omega
      refine .resizing a' hmoving' hcurrent₁ ?_ hsteps' fun step hstep => ?_
      · dsimp only
        rw [hcurrent₁, htotal']
        show _ < s.table.totalNumberOfBuckets
        omega
      · have hold := htransfers' step hstep
        exact ⟨hold.bucket.trans hbucket'.symm, hold.total.trans htotal'.symm, hold.transferred⟩
  · obtain ⟨t', p, hmain, hload', hafter⟩ := hsettled.insertInMain_onTrack key fresh
    have hinsert' : s.table.insert (depth + 2) key fresh = some (t', p) := by
      rw [hsplit, insertResized, hsettled.resizing, ← hmain]
      rfl
    have hbelow := hsettled.below
    rw [hload] at hbelow
    have htime : ∀ hafter' : (t'.resizing = false ∧ t'.size = t'.utilisedBuckets ∧
        (t'.utilisedBuckets : ℚ) / t'.totalNumberOfBuckets < s.table.maximumLoadFactor) ∨
        (t'.resizing = true ∧ t'.currentBucketToTransfer = 0),
        OnTime (depth + 1) s fresh resized t' := fun hafter' =>
      ⟨hsteps', htransfers', by omega, fun hne => by omega, fun _ =>
        ⟨hsettled.resizing, htotal, hsize, hsettled.size, hbelow, hafter'⟩⟩
    rcases hafter with hsettled' | ⟨a', hmoving, hcurrent'⟩
    · have hbelow' := hsettled'.below
      rw [hload', hload] at hbelow'
      refine ⟨resized, t', p, ⟨t', s.insertCalls + 1, s.steps ++ s.newSteps (depth + 1) fresh⟩,
        hresized, hinsert', htime (.inl ⟨hsettled'.resizing, hsettled'.size, hbelow'⟩), ?_,
        .settled hsettled', hload'.trans hload⟩
      rw [exec_insert hresized hinsert', hsettled'.resizing, Bool.and_false]
      rfl
    · refine ⟨resized, t', p, ⟨t', 0, []⟩, hresized, hinsert',
        htime (.inr ⟨hmoving.resizing, hcurrent'⟩), ?_, onTrack_started hmoving hcurrent',
        hload'.trans hload⟩
      rw [exec_insert hresized hinsert', hmoving.resizing, hsettled.resizing]
      rfl

/-- The resizing completes in time. -/
structure OnSchedule (depth : Nat) (loadFactorThreshold : ℚ) (s : ScheduledTable V) : Prop where
  threshold : s.table.maximumLoadFactor = clampThreshold loadFactorThreshold
  returns : ∀ key fresh, s.table.insert (depth + 2) key fresh ≠ none
  auxiliary : ∀ a, s.table.auxiliaryTableForIncrementalResize = some a →
    a.resizing = false ∧ a.auxiliaryTableForIncrementalResize = none
  steps : s.table.resizing = true →
    s.steps.map (fun step => step.1.currentBucketToTransfer) = List.range (2 * s.insertCalls)
  transfers : s.table.resizing = true → ∀ step ∈ s.steps, TransferStep s.table step
  onTime : s.table.resizing = true → ∀ key fresh, ∃ resized t' p,
    s.resized (depth + 1) fresh = some resized ∧
      s.table.insert (depth + 2) key fresh = some (t', p) ∧ OnTime (depth + 1) s fresh resized t'

/-- The invariant of the runs. -/
structure Inv (loadFactorThreshold : ℚ) (s : ScheduledTable V) : Prop where
  threshold : s.table.maximumLoadFactor = clampThreshold loadFactorThreshold
  onTrack : s.OnTrack

theorem Inv.step {x : ℚ} {call : MapCall K V} (h : s.Inv x)
    (hexec : s.exec (depth + 1) call = some s') : s'.Inv x := by
  cases call with
  | insert key fresh =>
      cases h.onTrack with
      | settled hsettled =>
          obtain ⟨s₁, hexec', honTrack, hload⟩ := onTrack_insert_settled hsettled key fresh
          rw [hexec] at hexec'
          cases hexec'
          exact ⟨hload.trans h.threshold, honTrack⟩
      | resizing a hmoving hcurrent hlt hsteps htransfers =>
          obtain ⟨_, _, _, s₁, -, -, -, hexec', honTrack, hload⟩ :=
            onTrack_insert_resizing depth hmoving hcurrent hlt hsteps htransfers key fresh
          rw [hexec] at hexec'
          cases hexec'
          exact ⟨hload.trans h.threshold, honTrack⟩
  | find key =>
      cases hexec
      exact h
  | write value => cases hexec
  | completeResizing fresh => cases hexec

theorem Inv.onSchedule {x : ℚ} (h : s.Inv x) (depth : Nat) : s.OnSchedule depth x := by
  cases h.onTrack with
  | settled hsettled =>
      have hres := hsettled.resizing
      refine ⟨h.threshold, fun key fresh => ?_, fun a ha => ?_, fun hr => ?_, fun hr => ?_,
        fun hr => ?_⟩
      · rw [insert_settled hsettled]
        exact Option.some_ne_none _
      · rw [hsettled.auxiliary] at ha
        cases ha
      all_goals
        rw [hres] at hr
        cases hr
  | resizing a hmoving hcurrent hlt hsteps htransfers =>
      have hinsert := onTrack_insert_resizing depth hmoving hcurrent hlt hsteps htransfers
      refine ⟨h.threshold, fun key fresh => ?_, fun a' ha => ?_, fun _ => hsteps,
        fun _ => htransfers, fun _ key fresh => ?_⟩
      · obtain ⟨_, _, _, _, -, hsome, -⟩ := hinsert key fresh
        rw [hsome]
        exact Option.some_ne_none _
      · rw [hmoving.auxiliary] at ha
        cases ha
        exact ⟨hmoving.settled.resizing, hmoving.settled.auxiliary⟩
      · obtain ⟨resized, t', p, _, hresized, hsome, htime, -⟩ := hinsert key fresh
        exact ⟨resized, t', p, hresized, hsome, htime⟩

end ScheduledTable

theorem scheduleSystem_inductive (depth buckets : Nat) {bucketsPerGroup : Nat} {x : ℚ}
    (hpos : 1 ≤ bucketsPerGroup) (hle : bucketsPerGroup ≤ 64) :
    (scheduleSystem K V depth buckets bucketsPerGroup x).Inductive (ScheduledTable.Inv x) :=
  { init := by
      rintro s rfl
      exact ⟨rfl, .settled (constructor_settled buckets hpos hle x)⟩
    step := fun _ _ _ h hexec => h.step hexec }

end RayPlatform
