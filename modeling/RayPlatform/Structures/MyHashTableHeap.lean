import Mathlib.Data.List.GetD
import RayPlatform.Structures.MyHashTableGroupHeap
import RayPlatform.Structures.MyHashTableClient

/-!
# MyHashTable in the memory of its allocators

The table as the source has it: its groups are smart pointers and bitmaps, its entries are bytes
in the blocks of its own allocator, and the auxiliary table has an allocator of its own.

* `HeapTable.contents` is the table that the memory holds, as `MyHashTable` has it;
* `Housed` — every group owns its vector, and every live block is the vector of a group;
* `insert_meets` — `insert` of the table in memory is `insert` of its contents, and the
  pointer that it returns leads to the entry.

`supply` is what memory holds before it is written, for each insertion in a group.
-/

namespace RayPlatform

open Lib ChunkAllocatorWithDefragmentation

def Supply := Nat → Uninitialised

def Supply.left (supply : Supply) : Supply := fun i => supply (2 * i)

def Supply.right (supply : Supply) : Supply := fun i => supply (2 * i + 1)

/-- A `VALUE*` returned by a table: which table, and where in the memory of its allocator. -/
inductive HeapPointer where
  | main (pointer : ValuePointer)
  | auxiliary (pointer : HeapPointer)
  deriving DecidableEq

/-- The values are of `w` bytes. -/
structure HeapTable (w : Nat) where
  allocator : ChunkAllocatorWithDefragmentation
  resizing : Bool
  auxiliaryTableForIncrementalResize : Option (HeapTable w)
  currentBucketToTransfer : Nat
  maximumLoadFactor : ℚ
  totalNumberOfBuckets : Nat
  utilisedBuckets : Nat
  size : Nat
  groups : List PackedGroup
  numberOfBucketsInGroup : Nat
  numberOfGroups : Nat

namespace HeapTable

variable {K : Type*} {w : Nat}

def constructor (w buckets bucketsPerGroup : Nat) (loadFactorThreshold : ℚ) : HeapTable w :=
  let total := MyHashTable.roundBuckets buckets buckets 2
  let numberOfGroups := (total - 1) / bucketsPerGroup + 1
  { allocator := .constructor w
    resizing := false
    auxiliaryTableForIncrementalResize := none
    currentBucketToTransfer := 0
    maximumLoadFactor := MyHashTable.clampThreshold loadFactorThreshold
    totalNumberOfBuckets := total
    utilisedBuckets := 0
    size := 0
    groups := List.replicate numberOfGroups .constructor
    numberOfBucketsInGroup := bucketsPerGroup
    numberOfGroups := numberOfGroups }

def capacity (t : HeapTable w) : Nat :=
  t.totalNumberOfBuckets

/-- `m_groups[i]`. -/
def groupAt (t : HeapTable w) (i : Nat) : PackedGroup :=
  t.groups.getD i .constructor

def isAvailable (t : HeapTable w) (bucket : Nat) : Bool :=
  ((t.groupAt (bucket / t.numberOfBucketsInGroup)).bits : MyHashTableGroup Unit).getBit
    (bucket % t.numberOfBucketsInGroup) == 0

/-- The pointer that `at(bucket)` returns. -/
def atBucket (t : HeapTable w) (bucket : Nat) : Except TableFault ValuePointer :=
  HeapGroup.getBucket w t.allocator (t.groupAt (bucket / t.numberOfBucketsInGroup))
    (bucket % t.numberOfBucketsInGroup)

/-! ## Finding -/

section Finding

variable [HashKey K] [DecidableEq K] [HashValue K (Fin w → UInt8)]

/-- The probing loop of `findBucketWithKey`: the final probe and bucket. -/
def probeLoop (t : HeapTable w) (key : K) :
    Nat → Nat → Nat → Nat → Except TableFault (Nat × Nat)
  | 0, probe, _, bucket => .ok (probe, bucket)
  | fuel + 1, probe, h2, bucket => do
      let someoneElse ← HeapGroup.bucketIsUtilisedBySomeoneElse w t.allocator
        (t.groupAt (bucket / t.numberOfBucketsInGroup)) (bucket % t.numberOfBucketsInGroup) key
      if someoneElse && decide (probe + 1 < t.totalNumberOfBuckets) then
        let probe := probe + 1
        let h2 := if probe = 1 then MyHashTable.stride t.totalNumberOfBuckets key else h2
        t.probeLoop key fuel probe h2 (MyHashTable.nextBucket t.totalNumberOfBuckets h2 bucket)
      else .ok (probe, bucket)

def findBucketWithKey (t : HeapTable w) (key : K) : Except TableFault FoundBucket := do
  let h1 := (hashFunction2 key).toNat % t.totalNumberOfBuckets
  let bucket := (h1 + 0 * 0) % t.totalNumberOfBuckets
  let found ← t.probeLoop key t.totalNumberOfBuckets 0 0 bucket
  .ok
    { probe := found.1
      group := found.2 / t.numberOfBucketsInGroup
      bucketInGroup := found.2 % t.numberOfBucketsInGroup }

/-- The end of `findKey`: ask the group to find the key. -/
def findInGroup (t : HeapTable w) (key : K) : Except TableFault (Option HeapPointer) := do
  let found ← t.findBucketWithKey key
  let pointer ← HeapGroup.find w t.allocator (t.groupAt found.group) found.bucketInGroup
  .ok (pointer.map .main)

def findKey : HeapTable w → K → Bool → Except TableFault (Option HeapPointer)
  | ⟨allocator, resizing, some a, current, load, total, utilised, size, groups, inGroup, number⟩,
      key, checkAuxiliary =>
      let t : HeapTable w :=
        ⟨allocator, resizing, some a, current, load, total, utilised, size, groups, inGroup, number⟩
      if resizing && checkAuxiliary then do
        -- check the new one first
        let result ← a.findKey key true
        match result with
        | some pointer => .ok (some (.auxiliary pointer))
        | none => t.findInGroup key
      else t.findInGroup key
  | ⟨allocator, resizing, none, current, load, total, utilised, size, groups, inGroup, number⟩,
      key, _ =>
      let t : HeapTable w :=
        ⟨allocator, resizing, none, current, load, total, utilised, size, groups, inGroup, number⟩
      t.findInGroup key
termination_by structural t => t

def find (t : HeapTable w) (key : K) : Except TableFault (Option HeapPointer) :=
  t.findKey key true

end Finding

/-- `*pointer`. -/
def load (t : HeapTable w) : HeapPointer → Except TableFault (Fin w → UInt8)
  | .main pointer => HeapGroup.load w t.allocator pointer
  | .auxiliary pointer =>
      match t.auxiliaryTableForIncrementalResize with
      | some a => a.load pointer
      | none => .error .null

/-- `*pointer=value`. -/
def store (t : HeapTable w) : HeapPointer → (Fin w → UInt8) → Except TableFault (HeapTable w)
  | .main pointer, value =>
      (HeapGroup.store t.allocator pointer value).map fun c => { t with allocator := c }
  | .auxiliary pointer, value =>
      match t.auxiliaryTableForIncrementalResize with
      | some a =>
          (a.store pointer value).map fun a =>
            { t with auxiliaryTableForIncrementalResize := some a }
      | none => .error .null

/-! ## Growing -/

def growIfNecessary (t : HeapTable w) : HeapTable w :=
  if t.resizing then t
  else if (t.utilisedBuckets : ℚ) / t.totalNumberOfBuckets < t.maximumLoadFactor then t
  else
    let newSize := t.totalNumberOfBuckets * 2
    if newSize < t.totalNumberOfBuckets then t
    else if newSize < t.utilisedBuckets then t
    else
      { t with
        currentBucketToTransfer := 0
        resizing := true
        auxiliaryTableForIncrementalResize :=
          some (constructor w newSize t.numberOfBucketsInGroup t.maximumLoadFactor) }

section Inserting

variable [HashKey K] [DecidableEq K] [HashValue K (Fin w → UInt8)]

-- `insert` of the auxiliary table
variable (auxiliaryInsert : HeapTable w → K → Supply → Except TableFault (HeapTable w × HeapPointer))

/-- Copy the entry of the current bucket, if any, to the auxiliary table. -/
def transferBucket (t : HeapTable w) (supply : Supply) : Except TableFault (HeapTable w) :=
  if t.isAvailable t.currentBucketToTransfer then .ok t
  else do
    let pointer ← t.atBucket t.currentBucketToTransfer
    let entry ← HeapGroup.load w t.allocator pointer
    match t.auxiliaryTableForIncrementalResize with
    | some a =>
        let (a, insertedEntry) ← auxiliaryInsert a (getKey entry) supply
        let a ← a.store insertedEntry entry
        .ok { t with auxiliaryTableForIncrementalResize := some a }
    | none => .error .null

/-- `while(i<toProcess && m_currentBucketToTransfer<capacity())` -/
def transferBuckets : Nat → HeapTable w → Supply → Except TableFault (HeapTable w)
  | 0, t, _ => .ok t
  | toProcess + 1, t, supply =>
      if t.currentBucketToTransfer < t.capacity then do
        let t ← transferBucket auxiliaryInsert t supply.left
        transferBuckets toProcess
          { t with currentBucketToTransfer := t.currentBucketToTransfer + 1 } supply.right
      else .ok t

/-- The auxiliary table takes the place of the main table, with its allocator. -/
def promote (t a : HeapTable w) : HeapTable w :=
  { t with
    groups := a.groups
    totalNumberOfBuckets := a.totalNumberOfBuckets
    allocator := a.allocator
    numberOfGroups := a.numberOfGroups
    utilisedBuckets := a.utilisedBuckets
    size := a.size
    auxiliaryTableForIncrementalResize := none
    resizing := false }

def resize (t : HeapTable w) (supply : Supply) : Except TableFault (HeapTable w) := do
  let toProcess := 2
  let t ← transferBuckets auxiliaryInsert toProcess t supply
  if t.currentBucketToTransfer = t.capacity then
    match t.auxiliaryTableForIncrementalResize with
    | some a => .ok (t.promote a)
    | none => .error .null
  else .ok t

/-- Case 3 of `insert`: the main table is responsible. -/
def insertInMain (t : HeapTable w) (key : K) (supply : Supply) :
    Except TableFault (HeapTable w × HeapPointer) := do
  let found ← t.findBucketWithKey key
  let (c, g, entry, inserted) ← HeapGroup.insert w t.allocator (t.groupAt found.group)
    t.numberOfBucketsInGroup found.bucketInGroup key (supply 0)
  let t := { t with allocator := c, groups := t.groups.set found.group g }
  -- increment the elements if an insertion occured
  let t := if inserted then
      { t with utilisedBuckets := t.utilisedBuckets + 1, size := t.size + 1 }
    else t
  .ok (t.growIfNecessary, .main entry)

/-- The part of `insert` after the call to `resize`. -/
def insertResized (t : HeapTable w) (key : K) (supply : Supply) :
    Except TableFault (HeapTable w × HeapPointer) :=
  if t.resizing then
    match t.auxiliaryTableForIncrementalResize with
    | some a => do
        let fromAuxiliary ← a.findKey key false
        match fromAuxiliary with
        | some pointer => .ok (t, .auxiliary pointer)
        | none => do
            let fromMain ← t.findKey key false
            match fromMain with
            | none => do
                let sizeBefore := a.utilisedBuckets
                let (a, e) ← auxiliaryInsert a key supply
                let t := { t with auxiliaryTableForIncrementalResize := some a }
                let t := if a.utilisedBuckets > sizeBefore then { t with size := t.size + 1 } else t
                .ok (t, .auxiliary e)
            | some _ => t.insertInMain key supply
    | none => .error .null
  else t.insertInMain key supply

end Inserting

variable [HashKey K] [DecidableEq K] [HashValue K (Fin w → UInt8)]

/-- `insert`; `depth` bounds the chain of auxiliary tables. -/
def insert : Nat → HeapTable w → K → Supply → Except TableFault (HeapTable w × HeapPointer)
  | 0, _, _, _ => .error .depth
  | depth + 1, t, key, supply =>
      if t.resizing then do
        let t ← t.resize (insert depth) supply.left
        t.insertResized (insert depth) key supply.right
      else t.insertResized (insert depth) key supply.right

/-- `while(m_resizing) resize();` -/
def completeLoop (depth : Nat) : Nat → HeapTable w → Supply → Except TableFault (HeapTable w)
  | 0, t, _ => if t.resizing then .error .depth else .ok t
  | fuel + 1, t, supply =>
      if t.resizing then do
        let t ← t.resize (insert depth) supply.left
        completeLoop depth fuel t supply.right
      else .ok t

/-- Each call to `resize` transfers a bucket at least. -/
def completeResizing (depth : Nat) (t : HeapTable w) (supply : Supply) :
    Except TableFault (HeapTable w) :=
  completeLoop depth t.capacity t supply

/-! ## The table that the memory holds -/

section Contents

omit [HashKey K] [DecidableEq K] [HashValue K (Fin w → UInt8)]

def contents : HeapTable w → MyHashTable (Fin w → UInt8)
  | ⟨allocator, resizing, some a, current, load, total, utilised, size, groups, inGroup, number⟩ =>
      ⟨resizing, some a.contents, current, load, total, utilised, size,
        groups.map (PackedGroup.contents (allocator.view w)), inGroup, number⟩
  | ⟨allocator, resizing, none, current, load, total, utilised, size, groups, inGroup, number⟩ =>
      ⟨resizing, none, current, load, total, utilised, size,
        groups.map (PackedGroup.contents (allocator.view w)), inGroup, number⟩
termination_by structural t => t

theorem contents_eq (t : HeapTable w) : t.contents =
    { resizing := t.resizing
      auxiliaryTableForIncrementalResize := t.auxiliaryTableForIncrementalResize.map contents
      currentBucketToTransfer := t.currentBucketToTransfer
      maximumLoadFactor := t.maximumLoadFactor
      totalNumberOfBuckets := t.totalNumberOfBuckets
      utilisedBuckets := t.utilisedBuckets
      size := t.size
      groups := t.groups.map (PackedGroup.contents (t.allocator.view w))
      numberOfBucketsInGroup := t.numberOfBucketsInGroup
      numberOfGroups := t.numberOfGroups } := by
  cases t with
  | mk allocator resizing auxiliary => cases auxiliary <;> rfl

variable (t : HeapTable w)

@[simp] theorem contents_resizing : t.contents.resizing = t.resizing := by rw [contents_eq]

@[simp] theorem contents_auxiliary : t.contents.auxiliaryTableForIncrementalResize =
    t.auxiliaryTableForIncrementalResize.map contents := by rw [contents_eq]

@[simp] theorem contents_current :
    t.contents.currentBucketToTransfer = t.currentBucketToTransfer := by rw [contents_eq]

@[simp] theorem contents_load : t.contents.maximumLoadFactor = t.maximumLoadFactor := by
  rw [contents_eq]

@[simp] theorem contents_total :
    t.contents.totalNumberOfBuckets = t.totalNumberOfBuckets := by rw [contents_eq]

@[simp] theorem contents_utilised : t.contents.utilisedBuckets = t.utilisedBuckets := by
  rw [contents_eq]

@[simp] theorem contents_size : t.contents.size = t.size := by rw [contents_eq]

@[simp] theorem contents_groups : t.contents.groups =
    t.groups.map (PackedGroup.contents (t.allocator.view w)) := by rw [contents_eq]

@[simp] theorem contents_width :
    t.contents.numberOfBucketsInGroup = t.numberOfBucketsInGroup := by rw [contents_eq]

theorem contents_withAuxiliary (a : HeapTable w) :
    ({ t with auxiliaryTableForIncrementalResize := some a } : HeapTable w).contents =
      { t.contents with auxiliaryTableForIncrementalResize := some a.contents } := by
  rw [contents_eq, contents_eq t]
  rfl

variable {t} {t' : HeapTable w}

/-- The main table and its memory: every group owns its vector, and every live block is the
vector of a group. -/
structure Alone (t : HeapTable w) : Prop where
  ready : HeapGroup.Ready w t.allocator
  width_pos : 0 < t.numberOfBucketsInGroup
  owns : ∀ i, PackedGroup.Owns t.numberOfBucketsInGroup (t.allocator.view w) (t.groupAt i)
  apart : ∀ i j, i ≠ j → (t.groupAt i).vector ≠ SmartPointer_NULL →
    (t.groupAt i).vector ≠ (t.groupAt j).vector
  only : ∀ a, (t.allocator.view w).size a ≠ 0 → ∃ i, (t.groupAt i).vector = a

/-- All tables of a chain are. -/
inductive Housed : HeapTable w → Prop
  | intro {t : HeapTable w} (main : Alone t)
      (auxiliary : ∀ a, t.auxiliaryTableForIncrementalResize = some a → Housed a) : Housed t

theorem Housed.main (h : Housed t) : Alone t := by
  cases h with
  | intro main => exact main

theorem Housed.auxiliary (h : Housed t) {a : HeapTable w}
    (ha : t.auxiliaryTableForIncrementalResize = some a) : Housed a := by
  cases h with
  | intro _ auxiliary => exact auxiliary a ha

theorem Alone.congr (h : Alone t) (hallocator : t'.allocator = t.allocator)
    (hgroups : t'.groups = t.groups)
    (hwidth : t'.numberOfBucketsInGroup = t.numberOfBucketsInGroup) : Alone t' := by
  have hgroup : ∀ i, t'.groupAt i = t.groupAt i := by
    intro i
    rw [groupAt, hgroups]
    rfl
  refine ⟨hallocator ▸ h.ready, hwidth ▸ h.width_pos, ?_, ?_, ?_⟩
  · intro i
    rw [hwidth, hallocator, hgroup]
    exact h.owns i
  · intro i j
    rw [hgroup, hgroup]
    exact h.apart i j
  · intro a hlive
    rw [hallocator] at hlive
    obtain ⟨i, hi⟩ := h.only a hlive
    exact ⟨i, (hgroup i).symm ▸ hi⟩

theorem Alone.groupAt (h : Alone t) (i : Nat) :
    t.contents.groupAt i = (t.groupAt i).contents (t.allocator.view w) := by
  rw [MyHashTable.groupAt, contents_groups, HeapTable.groupAt,
    ← PackedGroup.contents_constructor h.ready.sound, List.getD_map]

theorem groupAt_set {i : Nat} (hi : i < t.groups.length) (g : PackedGroup)
    (c : ChunkAllocatorWithDefragmentation) (j : Nat) :
    ({ t with allocator := c, groups := t.groups.set i g } : HeapTable w).groupAt j =
      if j = i then g else t.groupAt j := by
  simp only [HeapTable.groupAt, List.getD_eq_getElem?_getD]
  by_cases hij : j = i
  · subst hij
    simp [hi]
  · rw [List.getElem?_set_ne (Ne.symm hij), if_neg hij]

/-- One group of the table has changed. -/
theorem contents_groups_set (h : Alone t) (h' : Alone t') {i : Nat}
    {g : MyHashTableGroup (Fin w → UInt8)} (hi : i < t.groups.length)
    (hlength : t'.groups.length = t.groups.length)
    (hself : (t'.groupAt i).contents (t'.allocator.view w) = g)
    (hother : ∀ j, j ≠ i → (t'.groupAt j).contents (t'.allocator.view w) =
      (t.groupAt j).contents (t.allocator.view w)) :
    t'.contents.groups = t.contents.groups.set i g := by
  have hgetD : ∀ j, t'.contents.groups.getD j .empty = (t.contents.groups.set i g).getD j .empty := by
    intro j
    show t'.contents.groupAt j = _
    rw [h'.groupAt]
    by_cases hj : j = i
    · subst hj
      rw [hself, List.getD_eq_getElem?_getD, List.getElem?_set_self (by simpa using hi)]
      rfl
    · rw [hother j hj, ← h.groupAt, MyHashTable.groupAt, List.getD_eq_getElem?_getD,
        List.getD_eq_getElem?_getD, List.getElem?_set_ne (Ne.symm hj)]
  apply List.ext_getElem
  · simp [hlength]
  · intro j hj hj'
    have hsame := hgetD j
    rwa [List.getD_eq_getElem _ _ hj, List.getD_eq_getElem _ _ hj'] at hsame

/-! ## Pointers to entries -/

/-- The pointer in memory of an entry. -/
inductive Addresses : HeapTable w → HeapPointer → EntryPointer → Prop
  | main {t : HeapTable w} {pointer : ValuePointer} {group index : Nat}
      (h : HeapGroup.EntryAt w t.allocator (t.groupAt group) pointer index) :
      Addresses t (.main pointer) (.main group index)
  | auxiliary {t a : HeapTable w} {pointer : HeapPointer} {e : EntryPointer}
      (ha : t.auxiliaryTableForIncrementalResize = some a) (h : Addresses a pointer e) :
      Addresses t (.auxiliary pointer) (.auxiliary e)

theorem Addresses.load {pointer : HeapPointer} {e : EntryPointer} (h : Addresses t pointer e)
    (hhoused : Housed t) : ∃ v, t.load pointer = .ok v ∧ t.contents.load e = some v := by
  induction h with
  | main hentry =>
      obtain ⟨v, hload, hcell⟩ := hentry.load hhoused.main.ready
      refine ⟨v, hload, ?_⟩
      rw [MyHashTable.load, hhoused.main.groupAt]
      exact hcell
  | auxiliary ha _ ih =>
      obtain ⟨v, hload, hcell⟩ := ih (hhoused.auxiliary ha)
      refine ⟨v, ?_, ?_⟩
      · rw [HeapTable.load, ha]
        exact hload
      · rw [MyHashTable.load, contents_auxiliary, ha]
        exact hcell

/-- An assignment to an entry leaves the other entries, and all vectors where they are. -/
theorem Alone.store (h : Alone t) {group index : Nat} {pointer : ValuePointer}
    (hentry : HeapGroup.EntryAt w t.allocator (t.groupAt group) pointer index)
    (value : Fin w → UInt8) :
    ∃ c, HeapGroup.store t.allocator pointer value = .ok c ∧ Written t.allocator c ∧
      Alone { t with allocator := c } ∧ (c.view w).size = (t.allocator.view w).size ∧
      ({ t with allocator := c } : HeapTable w).contents =
        t.contents.store (.main group index) value := by
  obtain ⟨c, hstore, hview, hwritten⟩ :=
    HeapGroup.store_points (hentry.points h.ready) h.ready value
  have hready := h.ready.written hwritten
  have hsize : (c.view w).size = (t.allocator.view w).size := by
    rw [hview]
    rfl
  have hkept : (t.allocator.view w).Kept (c.view w) (t.groupAt group).vector := by
    rw [hview]
    exact MovingMemory.kept_write h.ready.sound hentry.lt value
  have hself : (t.groupAt group).contents (c.view w) =
      ((t.groupAt group).contents (t.allocator.view w)).store index value := by
    rw [PackedGroup.contents, hview, MovingMemory.read_write hentry.lt]
    rfl
  have hlive : (t.groupAt group).vector ≠ SmartPointer_NULL := by
    intro hnull
    have hlt := hentry.lt
    rw [hnull, h.ready.sound.null] at hlt
    exact absurd hlt (Nat.not_lt_zero index)
  have hne : ∀ j, j ≠ group → (t.groupAt j).vector ≠ (t.groupAt group).vector := by
    intro j hj heq
    exact h.apart group j (Ne.symm hj) hlive heq.symm
  have hother : ∀ j, j ≠ group → (t.groupAt j).contents (c.view w) =
      (t.groupAt j).contents (t.allocator.view w) := by
    intro j hj
    rw [PackedGroup.contents, hkept.read (hne j hj)]
    rfl
  have hi : group < t.groups.length := by
    by_contra hge
    apply hlive
    rw [HeapTable.groupAt, List.getD_eq_getElem?_getD, List.getElem?_eq_none (Nat.le_of_not_lt hge)]
    rfl
  have halone : Alone { t with allocator := c } := by
    refine ⟨hready, h.width_pos, fun j => ?_, h.apart, fun a ha => h.only a (hsize ▸ ha)⟩
    by_cases hj : j = group
    · subst hj
      refine ⟨hready.sound, fun hnull => ?_, ?_⟩
      · show (c.view w).size _ ≠ 0
        rw [hsize]
        exact (h.owns j).live hnull
      · show ((t.groupAt j).contents (c.view w)).Wf _
        rw [hself]
        exact MyHashTableGroup.store_wf (h.owns j).wf index value
    · exact (h.owns j).of_kept (hne j hj) hkept hready.sound
  refine ⟨c, hstore, hwritten, halone, hsize, ?_⟩
  have hgroups := contents_groups_set h halone hi rfl hself hother
  rw [MyHashTable.store, h.groupAt, ← hgroups, contents_eq, contents_eq]

theorem Addresses.of_written {c : ChunkAllocatorWithDefragmentation} {pointer : HeapPointer}
    {e : EntryPointer} (h : Addresses t pointer e) (hwritten : Written t.allocator c)
    (hsize : (c.view w).size = (t.allocator.view w).size) :
    Addresses { t with allocator := c } pointer e := by
  cases h with
  | main hentry =>
      refine .main ⟨?_, ?_⟩
      · rw [HeapGroup.elementPointer_written hwritten]
        exact hentry.pointer
      · show _ < (c.view w).size _
        rw [hsize]
        exact hentry.lt
  | auxiliary ha hentry => exact .auxiliary ha hentry

/-- `*pointer=value`: all pointers to entries stay valid. -/
theorem Addresses.store {pointer : HeapPointer} {e : EntryPointer} (h : Addresses t pointer e)
    (hhoused : Housed t) (value : Fin w → UInt8) :
    ∃ t', t.store pointer value = .ok t' ∧ Housed t' ∧
      t'.contents = t.contents.store e value ∧
      ∀ q f, Addresses t q f → Addresses t' q f := by
  induction h with
  | @main t pointer group index hentry =>
      obtain ⟨c, hstore, hwritten, halone, hsize, hcontents⟩ := hhoused.main.store hentry value
      refine ⟨{ t with allocator := c }, ?_, ⟨halone, fun a ha => hhoused.auxiliary ha⟩, hcontents,
        fun q f hf => hf.of_written hwritten hsize⟩
      rw [HeapTable.store, hstore]
      rfl
  | @auxiliary t a pointer e ha _ ih =>
      obtain ⟨a', hstore, hhoused', hcontents, hkept⟩ := ih (hhoused.auxiliary ha)
      refine ⟨{ t with auxiliaryTableForIncrementalResize := some a' }, ?_, ⟨?_, ?_⟩, ?_, ?_⟩
      · rw [HeapTable.store, ha]
        show (a.store pointer value).map _ = _
        rw [hstore]
        rfl
      · exact hhoused.main.congr rfl rfl rfl
      · intro b hb
        cases hb
        exact hhoused'
      · rw [contents_withAuxiliary, hcontents, MyHashTable.store, contents_auxiliary, ha,
          Option.map_some]
      · intro q f hf
        cases hf with
        | main hentry => exact .main hentry
        | auxiliary ha' hf =>
            obtain rfl := Option.some.inj (ha.symm.trans ha')
            exact .auxiliary rfl (hkept _ _ hf)

end Contents

/-! ## Searches -/

section Searches

variable {t t' : HeapTable w}

omit [HashKey K] [DecidableEq K] [HashValue K (Fin w → UInt8)] in
theorem Alone.isAvailable (h : Alone t) (bucket : Nat) :
    t.isAvailable bucket = t.contents.isAvailable bucket := by
  rw [MyHashTable.isAvailable, contents_width, h.groupAt]
  rfl

theorem Alone.probeLoop (h : Alone t) (key : K) : ∀ fuel probe h2 bucket,
    t.probeLoop key fuel probe h2 bucket = .ok (t.contents.probeLoop key fuel probe h2 bucket) := by
  intro fuel
  induction fuel with
  | zero =>
      intro probe h2 bucket
      rfl
  | succ fuel ih =>
      intro probe h2 bucket
      have hgroup := HeapGroup.bucketIsUtilisedBySomeoneElse_eq h.ready
        (h.owns (bucket / t.numberOfBucketsInGroup)) (Nat.mod_lt bucket h.width_pos) key
      rw [HeapTable.probeLoop, hgroup, MyHashTable.probeLoop, contents_width, contents_total,
        h.groupAt]
      show (if _ then t.probeLoop key fuel _ _ _ else _) = _
      split
      · rw [ih]
      · rfl

theorem Alone.findBucketWithKey (h : Alone t) (key : K) :
    t.findBucketWithKey key = .ok (t.contents.findBucketWithKey key) := by
  rw [HeapTable.findBucketWithKey, h.probeLoop, MyHashTable.findBucketWithKey, contents_width,
    contents_total]
  rfl

/-- In the main table, a search answers the pointer to the entry that it answers on the contents. -/
theorem Alone.findInGroup (h : Alone t) (key : K) : ∃ r, t.findInGroup key = .ok r ∧
    Option.Rel (Addresses t) r (t.contents.findInGroup key) := by
  have hb : (t.contents.findBucketWithKey key).bucketInGroup < t.numberOfBucketsInGroup := by
    rw [MyHashTable.findBucketWithKey, contents_width]
    exact Nat.mod_lt _ h.width_pos
  rw [HeapTable.findInGroup, h.findBucketWithKey, MyHashTable.findInGroup, h.groupAt]
  show ∃ r, ((HeapGroup.find w t.allocator _ _).bind fun pointer =>
    .ok (pointer.map HeapPointer.main)) = .ok r ∧ _
  have hfind := HeapGroup.find_entryAt h.ready
    (h.owns (t.contents.findBucketWithKey key).group) hb
  split at hfind
  · next index hindex =>
      obtain ⟨pointer, hpointer, hentry⟩ := hfind
      rw [hpointer, hindex]
      exact ⟨_, rfl, .some (.main hentry)⟩
  · next hnone =>
      rw [hfind, hnone]
      exact ⟨_, rfl, .none⟩

theorem Housed.findKey (h : Housed t) (key : K) : ∀ checkAuxiliary,
    ∃ r, t.findKey key checkAuxiliary = .ok r ∧
      Option.Rel (Addresses t) r (t.contents.findKey key checkAuxiliary) := by
  induction h with
  | @intro t main _ ih =>
      intro checkAuxiliary
      obtain ⟨r, hmain, hrel⟩ := main.findInGroup key
      cases t with
      | mk allocator resizing auxiliary current load total utilised size groups inGroup number =>
          cases auxiliary with
          | none => exact ⟨r, hmain, hrel⟩
          | some a =>
              rw [contents, HeapTable.findKey, MyHashTable.findKey]
              by_cases hcheck : (resizing && checkAuxiliary) = true
              · obtain ⟨r', hnew, hrel'⟩ := ih a rfl true
                rw [if_pos hcheck, if_pos hcheck, hnew]
                generalize a.contents.findKey key true = found at hrel' ⊢
                cases hrel' with
                | some haddress => exact ⟨_, rfl, .some (.auxiliary rfl haddress)⟩
                | none => exact ⟨r, hmain, hrel⟩
              · rw [if_neg hcheck, if_neg hcheck]
                exact ⟨r, hmain, hrel⟩

end Searches

/-! ## Growing -/

section Growing

omit [HashKey K] [DecidableEq K] [HashValue K (Fin w → UInt8)]

variable {t t' : HeapTable w}

theorem ready_constructor (w : Nat) : HeapGroup.Ready w (.constructor w) :=
  ⟨(HeapClient.Inv.start (w := w)).allocator, rfl⟩

/-- An allocator has no live blocks at first. -/
theorem size_constructor (w a : Nat) :
    ((ChunkAllocatorWithDefragmentation.constructor w).view w).size a = 0 := by
  by_contra hlive
  obtain ⟨p, ha⟩ := resolve_of_size hlive
  obtain ⟨lane, g, hlane, -⟩ := online_of_size ha hlive
  cases hlane

theorem groupAt_constructor (w buckets bucketsPerGroup : Nat) (x : ℚ) (i : Nat) :
    (constructor w buckets bucketsPerGroup x).groupAt i = .constructor := by
  rw [groupAt, constructor, List.getD_eq_getElem?_getD, List.getElem?_replicate]
  split <;> rfl

theorem Housed.constructor (w buckets : Nat) {bucketsPerGroup : Nat} (x : ℚ)
    (hpos : 1 ≤ bucketsPerGroup) (hle : bucketsPerGroup ≤ 64) :
    Housed (constructor w buckets bucketsPerGroup x) := by
  refine ⟨⟨ready_constructor w, hpos, ?_, ?_, ?_⟩, fun a ha => nomatch ha⟩
  · intro i
    rw [groupAt_constructor]
    exact PackedGroup.constructor_owns hle (ready_constructor w).sound
  · intro i j _ hlive
    rw [groupAt_constructor] at hlive
    exact absurd rfl hlive
  · intro a hlive
    exact absurd (size_constructor w a) hlive

theorem contents_constructor (w buckets bucketsPerGroup : Nat) (x : ℚ) :
    (constructor w buckets bucketsPerGroup x).contents =
      MyHashTable.constructor buckets bucketsPerGroup x := by
  have hempty := PackedGroup.contents_constructor (ready_constructor w).sound
  rw [contents_eq, constructor, MyHashTable.constructor]
  simp only [List.map_replicate, hempty, Option.map_none]

/-- Growing starts with an empty auxiliary table, and moves nothing. -/
theorem Housed.growIfNecessary (h : Housed t) : Housed t.growIfNecessary ∧
    t.growIfNecessary.contents = t.contents.growIfNecessary ∧
    ∀ pointer e, Addresses t (.main pointer) e → Addresses t.growIfNecessary (.main pointer) e := by
  have hsame : Housed t ∧ t.contents = t.contents ∧
      ∀ pointer e, Addresses t (.main pointer) e → Addresses t (.main pointer) e :=
    ⟨h, rfl, fun _ _ haddress => haddress⟩
  rw [HeapTable.growIfNecessary, MyHashTable.growIfNecessary, contents_resizing,
    contents_utilised, contents_total, contents_load]
  split
  · exact hsame
  · split
    · exact hsame
    · dsimp only
      split
      · exact hsame
      · split
        · exact hsame
        · have hwidth := (h.main.owns 0).wf.width
          refine ⟨⟨h.main.congr rfl rfl rfl, fun a ha => ?_⟩, ?_, fun pointer e haddress => ?_⟩
          · cases ha
            exact .constructor w _ _ h.main.width_pos hwidth
          · rw [contents_eq, contents_eq t, Option.map_some, contents_constructor]
          · cases haddress with
            | main hentry => exact .main hentry

end Growing

/-! ## Inserting in the main table -/

section InsertInMain

variable {t t' : HeapTable w}

omit [HashKey K] [DecidableEq K] in
/-- An insertion in a group leaves the other groups, and no block that is not a vector. -/
theorem Alone.insert (h : Alone t) {i bucket address : Nat} {c : ChunkAllocatorWithDefragmentation}
    {g : PackedGroup} {key : K} {inserted : Bool} (hi : i < t.groups.length)
    (hb : bucket < t.numberOfBucketsInGroup) (hready : HeapGroup.Ready w c)
    (hinsert : PackedGroup.Insert (t.allocator.view w) (t.groupAt i) t.numberOfBucketsInGroup bucket
      key (c.view w) g address inserted) :
    Alone { t with allocator := c, groups := t.groups.set i g } ∧
      ({ t with allocator := c, groups := t.groups.set i g } : HeapTable w).contents.groups =
        t.contents.groups.set i (g.contents (c.view w)) := by
  have hgroup := groupAt_set hi g c
  have hself := hgroup i
  rw [if_pos rfl] at hself
  have hother : ∀ j, j ≠ i → ({ t with allocator := c, groups := t.groups.set i g } :
      HeapTable w).groupAt j = t.groupAt j := fun j hj => (hgroup j).trans (if_neg hj)
  have hkept : ∀ j, j ≠ i →
      PackedGroup.Owns t.numberOfBucketsInGroup (c.view w) (t.groupAt j) ∧
        (t.groupAt j).contents (c.view w) = (t.groupAt j).contents (t.allocator.view w) :=
    fun j hj => hinsert.other (h.owns i) hb (h.owns j) (h.apart j i hj)
  -- the vector of the group is not that of another
  have hnew : ∀ j, j ≠ i → (t.groupAt j).vector ≠ SmartPointer_NULL →
      (t.groupAt j).vector ≠ g.vector := by
    intro j hj hlive heq
    rcases HeapGroup.vector_insert hinsert with hsame | hfresh
    · exact h.apart j i hj hlive (heq.trans hsame)
    · exact (h.owns j).live hlive (heq ▸ hfresh)
  have halone : Alone { t with allocator := c, groups := t.groups.set i g } := by
    refine ⟨hready, h.width_pos, fun j => ?_, fun j k hjk hlive => ?_, fun a hlive => ?_⟩
    · by_cases hj : j = i
      · subst hj
        rw [hself]
        exact (hinsert.contents (h.owns j) hb).1
      · rw [hother j hj]
        exact (hkept j hj).1
    · by_cases hj : j = i
      · subst hj
        rw [hself] at hlive ⊢
        rw [hother k (Ne.symm hjk)]
        intro heq
        exact hnew k (Ne.symm hjk) (heq ▸ hlive) heq.symm
      · rw [hother j hj] at hlive ⊢
        by_cases hk : k = i
        · subst hk
          rw [hself]
          exact hnew j hj hlive
        · rw [hother k hk]
          exact h.apart j k hjk hlive
    · rcases HeapGroup.live_insert hinsert hlive with rfl | ⟨hold, hne⟩
      · exact ⟨i, congrArg PackedGroup.vector hself⟩
      · obtain ⟨j, hj⟩ := h.only a hold
        refine ⟨j, ?_⟩
        rw [hother j]
        · exact hj
        · rintro rfl
          exact hne hj.symm
  refine ⟨halone, contents_groups_set h halone hi List.length_set ?_ fun j hj => ?_⟩
  · rw [hself]
  · rw [hother j hj]
    exact (hkept j hj).2

/-- What an insertion in memory computes. -/
structure Inserts (r : MyHashTable (Fin w → UInt8) × EntryPointer) (t' : HeapTable w)
    (pointer : HeapPointer) : Prop where
  housed : Housed t'
  contents : r.1 = t'.contents
  pointer : Addresses t' pointer r.2

theorem Housed.insertInMain_meets (h : Housed t) (hw : 1 ≤ w)
    (hlayout : MyHashTable.Layout t.contents) (key : K) (supply : Supply) :
    Meets (· = .exhausted) (t.insertInMain key supply) fun (t', pointer) =>
      ∃ fresh, Inserts (t.contents.insertInMain key fresh) t' pointer := by
  obtain ⟨i, -, hgroup, hin⟩ := MyHashTable.findBucketWithKey_isStop hlayout key
  have hb : (t.contents.findBucketWithKey key).bucketInGroup < t.numberOfBucketsInGroup := by
    rw [hin, contents_width]
    exact Nat.mod_lt _ h.main.width_pos
  have hi : (t.contents.findBucketWithKey key).group < t.groups.length := by
    have hlt := hlayout.group_lt ((MyHashTable.probeBucket_exhaustive hlayout).lt key i)
    rwa [contents_groups, List.length_map, ← hgroup] at hlt
  refine .bind_ok (h.main.findBucketWithKey key) ?_
  refine .bind (HeapGroup.insert_meets h.main.ready hw (h.main.owns _) hb key (supply 0)) ?_
  rintro ⟨c, g, pointer, inserted⟩ ⟨hready, index, hentry, hinsert⟩
  obtain ⟨-, fresh, index', hlist, haddress⟩ := hinsert.contents (h.main.owns _) hb
  obtain rfl : index = index' := Nat.add_left_cancel haddress
  have hlist' : (t.contents.groupAt (t.contents.findBucketWithKey key).group).insert
      t.contents.numberOfBucketsInGroup (t.contents.findBucketWithKey key).bucketInGroup key fresh =
        (g.contents (c.view w), index, inserted) := by
    rw [h.main.groupAt, contents_width]
    exact hlist
  obtain ⟨halone, hgroups⟩ := h.main.insert hi hb hready hinsert
  let t₁ : HeapTable w :=
    { t with
      allocator := c
      groups := t.groups.set (t.contents.findBucketWithKey key).group g }
  let t₂ : HeapTable w :=
    if inserted then { t₁ with utilisedBuckets := t.utilisedBuckets + 1, size := t.size + 1 } else t₁
  have hallocator : t₂.allocator = c := by
    show (if inserted then _ else _ : HeapTable w).allocator = c
    split <;> rfl
  have hgroups₂ : t₂.groups = t₁.groups := by
    show (if inserted then _ else _ : HeapTable w).groups = _
    split <;> rfl
  have hhoused₂ : Housed t₂ := by
    refine ⟨halone.congr hallocator hgroups₂ ?_, fun a ha => h.auxiliary (a := a) ?_⟩
    · show (if inserted then _ else _ : HeapTable w).numberOfBucketsInGroup = _
      split <;> rfl
    · rw [← ha]
      show _ = (if inserted then _ else _ : HeapTable w).auxiliaryTableForIncrementalResize
      split <;> rfl
  have haddress₂ : Addresses t₂ (.main pointer)
      (.main (t.contents.findBucketWithKey key).group index) := by
    refine .main ?_
    have hself : t₂.groupAt (t.contents.findBucketWithKey key).group = g := by
      rw [groupAt, hgroups₂]
      exact (groupAt_set hi g c _).trans (if_pos rfl)
    rw [hallocator, hself]
    exact hentry
  obtain ⟨hhoused', hcontents', haddresses⟩ := hhoused₂.growIfNecessary
  refine .ok ⟨fresh, hhoused', ?_, ?_⟩
  · have hcontents₂ : t₂.contents = if inserted then
        { t.contents with
          groups := t.contents.groups.set (t.contents.findBucketWithKey key).group
            (g.contents (c.view w))
          utilisedBuckets := t.contents.utilisedBuckets + 1
          size := t.contents.size + 1 }
        else { t.contents with
          groups := t.contents.groups.set (t.contents.findBucketWithKey key).group
            (g.contents (c.view w)) } := by
      rw [← hgroups]
      cases inserted <;> simp only [t₂, t₁, contents_eq, if_true, if_false, Bool.false_eq_true]
    rw [hcontents', hcontents₂, MyHashTable.insertInMain, hlist']
  · rw [MyHashTable.insertInMain, hlist']
    exact haddresses _ _ haddress₂

end InsertInMain

/-! ## Moving buckets -/

section Moving

open MyHashTable (Layout Settled Moving)

variable {t : HeapTable w}

omit [HashKey K] [DecidableEq K] in
theorem insert_store {V : Type*} [HashValue K V] {g : MyHashTableGroup V} {width bucket : Nat}
    (h : g.Wf width) (hb : bucket < width) (key : K) (fresh fresh' v : V) :
    (g.insert width bucket key fresh).2 = (g.insert width bucket key fresh').2 ∧
      (g.insert width bucket key fresh).1.store (g.insert width bucket key fresh).2.1 v =
        (g.insert width bucket key fresh').1.store (g.insert width bucket key fresh').2.1 v := by
  by_cases hbit : g.getBit bucket = 1
  · simp only [MyHashTableGroup.insert, if_pos hbit, and_self]
  · have hw := h.width
    have hle : g.getBucketsBefore bucket ≤ g.vector.length := by
      rw [MyHashTableGroup.getBucketsBefore_eq g (by omega), h.length]
      exact SparseArray.rank_mono g.occ (Nat.le_of_lt hb)
    have hset : ∀ x (rest : List V), (g.vector.take (g.getBucketsBefore bucket) ++ x :: rest).set
        (g.getBucketsBefore bucket) v =
          g.vector.take (g.getBucketsBefore bucket) ++ v :: rest := by
      intro x rest
      rw [List.set_append_right _ _ (by rw [List.length_take]; omega), List.length_take,
        Nat.min_eq_left hle, Nat.sub_self, List.set_cons_zero]
    simp only [MyHashTableGroup.insert, if_neg hbit, MyHashTableGroup.store, hset, and_self]

omit [HashKey K] [DecidableEq K] [HashValue K (Fin w → UInt8)] in
/-- Growing does not look at the groups. -/
theorem growIfNecessary_groups {V : Type*} (t : MyHashTable V)
    (groups : List (MyHashTableGroup V)) :
    ({ t with groups := groups } : MyHashTable V).growIfNecessary =
      { t.growIfNecessary with groups := groups } := by
  unfold MyHashTable.growIfNecessary
  dsimp only
  split
  · rfl
  · split
    · rfl
    · split
      · rfl
      · split <;> rfl

/-- Once it is assigned, a new entry does not depend on what the memory held before. -/
theorem insertInMain_store {V : Type*} [HashValue K V] {t : MyHashTable V} (h : Layout t) (key : K)
    (fresh fresh' v : V) :
    (t.insertInMain key fresh).1.store (t.insertInMain key fresh).2 v =
      (t.insertInMain key fresh').1.store (t.insertInMain key fresh').2 v := by
  have hgrow : ∀ (t : MyHashTable V) i index, t.growIfNecessary.store (.main i index) v =
      (t.store (.main i index) v).growIfNecessary := by
    intro t i index
    have hgroups : t.growIfNecessary.groups = t.groups := by
      have hsame := congrArg MyHashTable.groups (growIfNecessary_groups t t.groups)
      cases t
      exact hsame
    have hgroupAt : t.growIfNecessary.groupAt i = t.groupAt i := by
      rw [MyHashTable.groupAt, hgroups]
      rfl
    rw [MyHashTable.store, MyHashTable.store, growIfNecessary_groups, hgroups, hgroupAt]
  obtain ⟨i, -, hgroup, hin⟩ := MyHashTable.findBucketWithKey_isStop h key
  have hb : (t.findBucketWithKey key).bucketInGroup < t.numberOfBucketsInGroup := by
    rw [hin]
    exact Nat.mod_lt _ h.width_pos
  have hi : (t.findBucketWithKey key).group < t.groups.length := by
    rw [hgroup]
    exact h.group_lt ((MyHashTable.probeBucket_exhaustive h).lt key i)
  obtain ⟨hrest, hstore⟩ := insert_store (h.groupAt_wf (t.findBucketWithKey key).group) hb key
    fresh fresh' v
  rw [MyHashTable.insertInMain, MyHashTable.insertInMain]
  generalize (t.groupAt (t.findBucketWithKey key).group).insert t.numberOfBucketsInGroup
    (t.findBucketWithKey key).bucketInGroup key fresh = r at hrest hstore
  generalize (t.groupAt (t.findBucketWithKey key).group).insert t.numberOfBucketsInGroup
    (t.findBucketWithKey key).bucketInGroup key fresh' = r' at hrest hstore
  obtain ⟨g, index, inserted⟩ := r
  obtain ⟨g', index', inserted'⟩ := r'
  obtain ⟨rfl, rfl⟩ := Prod.mk.inj hrest
  dsimp only at hstore ⊢
  rw [hgrow, hgrow]
  congr 1
  have hset : ∀ g, (({ t with groups := t.groups.set (t.findBucketWithKey key).group g } :
      MyHashTable V).groupAt (t.findBucketWithKey key).group) = g := fun g =>
    (MyHashTable.groupAt_set t hi g _).trans (if_pos rfl)
  have hset' : ∀ g, ({ t with
      groups := t.groups.set (t.findBucketWithKey key).group g
      utilisedBuckets := t.utilisedBuckets + 1
      size := t.size + 1 } : MyHashTable V).groupAt (t.findBucketWithKey key).group = g := hset
  cases inserted with
  | true =>
      simp only [if_true, MyHashTable.store, hset', List.set_set, hstore]
  | false =>
      simp only [Bool.false_eq_true, if_false, MyHashTable.store, hset, List.set_set, hstore]

/-- A table that is not resizing inserts in its main table. -/
theorem insert_settled (h : t.resizing = false) (depth : Nat) (key : K) (supply : Supply) :
    t.insert (depth + 1) key supply = t.insertInMain key supply.right := by
  rw [HeapTable.insert, h, HeapTable.insertResized, h]
  rfl

theorem Housed.put_meets (h : Housed t) (hw : 1 ≤ w) (hsettled : Settled t.contents) (depth : Nat)
    (key : K) (supply : Supply) :
    Meets (· = .exhausted) (t.insert (depth + 1) key supply) fun (t', pointer) =>
      ∃ fresh r, t.contents.insert (depth + 1) key fresh = some r ∧ Inserts r t' pointer := by
  have hresizing : t.resizing = false := by
    rw [← contents_resizing]
    exact hsettled.resizing
  rw [insert_settled hresizing]
  refine (h.insertInMain_meets hw hsettled.toLayout key supply.right).mono ?_
  rintro ⟨t', pointer⟩ ⟨fresh, hinserts⟩
  exact ⟨fresh, _, MyHashTable.insert_settled hsettled depth key fresh, hinserts⟩

/-- The entry of a bucket, through the pointer that `at` returns. -/
theorem Alone.atBucket (h : Alone t) {bucket : Nat} (hocc : t.contents.bucket bucket ≠ none) : ∃ pointer value, t.atBucket bucket = .ok pointer ∧
      HeapGroup.load w t.allocator pointer = .ok value ∧
        t.contents.atBucket bucket = some value := by
  have hentry := hocc
  rw [MyHashTable.bucket, h.groupAt, contents_width] at hentry
  obtain ⟨pointer, hpointer, hat⟩ := HeapGroup.getBucket_entryAt h.ready (h.owns _)
    (Nat.mod_lt bucket h.width_pos) hentry
  obtain ⟨value, hload, hvalue⟩ := hat.load h.ready
  refine ⟨pointer, value, hpointer, hload, ?_⟩
  rw [MyHashTable.atBucket, contents_width, h.groupAt]
  exact hvalue

omit [DecidableEq K] in
theorem exists_auxiliary {r : Nat} {a : MyHashTable (Fin w → UInt8)}
    (hmoving : Moving r t.contents a) :
    ∃ a₀, t.auxiliaryTableForIncrementalResize = some a₀ ∧ a₀.contents = a := by
  have hauxiliary := hmoving.auxiliary
  rwa [contents_auxiliary, Option.map_eq_some_iff] at hauxiliary

/-- A transfer in memory is a transfer of the contents, whatever the memory held before. -/
theorem Housed.transferBucket_meets (h : Housed t) (hw : 1 ≤ w) {r : Nat}
    {a : MyHashTable (Fin w → UInt8)} (hmoving : Moving r t.contents a) (depth : Nat)
    (supply : Supply) :
    Meets (· = .exhausted) (transferBucket (insert (depth + 1)) t supply) fun t' =>
      Housed t' ∧ ∀ fresh, MyHashTable.transferBucket (MyHashTable.insert (depth + 1)) t.contents
        fresh = some t'.contents := by
  have hlayout := hmoving.toLayout
  by_cases havailable : t.isAvailable t.currentBucketToTransfer = true
  · rw [transferBucket, if_pos havailable]
    refine .ok ⟨h, fun fresh => ?_⟩
    rw [MyHashTable.transferBucket, contents_current, ← h.main.isAvailable, if_pos havailable]
  · rw [transferBucket, if_neg havailable]
    have hocc : t.contents.bucket t.currentBucketToTransfer ≠ none := by
      intro hnone
      apply havailable
      rw [h.main.isAvailable, MyHashTable.isAvailable_eq hlayout, hnone]
      rfl
    obtain ⟨pointer, entry, hpointer, hload, hat⟩ := h.main.atBucket hocc
    refine .bind_ok hpointer (.bind_ok hload ?_)
    obtain ⟨a₀, ha, rfl⟩ := exists_auxiliary hmoving
    rw [ha]
    refine .bind ((h.auxiliary ha).put_meets hw hmoving.settled depth (getKey entry) supply) ?_
    rintro ⟨a₁, insertedEntry⟩ ⟨fresh₁, ⟨list₁, e⟩, hlist, hinserts⟩
    obtain ⟨a₂, hstore, hhoused, hcontents, -⟩ := hinserts.pointer.store hinserts.housed entry
    refine .bind_ok hstore (.ok ⟨⟨h.main.congr rfl rfl rfl, ?_⟩, fun fresh => ?_⟩)
    · intro b hb
      cases hb
      exact hhoused
    · have hsettled := fun fresh =>
        MyHashTable.insert_settled hmoving.settled depth (getKey entry) fresh
      have hpair := Option.some.inj ((hsettled fresh₁).symm.trans hlist)
      have hsame := insertInMain_store hmoving.settled.toLayout (getKey entry) fresh₁ fresh entry
      rw [hpair] at hsame
      have hstored := (hcontents.trans (by rw [← hinserts.contents])).trans hsame
      rw [h.main.isAvailable, ← contents_current] at havailable
      rw [← contents_current] at hat
      rw [MyHashTable.transferBucket, if_neg havailable, hat, contents_auxiliary, ha,
        contents_withAuxiliary, hstored]
      show (MyHashTable.insert (depth + 1) a₀.contents (getKey entry) fresh).bind _ = _
      rw [hsettled]
      rfl

theorem Housed.transferBuckets_meets (hw : 1 ≤ w) {r : Nat} (depth : Nat) :
    ∀ n (t : HeapTable w) (a : MyHashTable (Fin w → UInt8)) (supply : Supply), Housed t →
      Moving r t.contents a →
      Meets (· = .exhausted) (transferBuckets (insert (depth + 1)) n t supply) fun t' =>
        Housed t' ∧ ∀ fresh, MyHashTable.transferBuckets (MyHashTable.insert (depth + 1)) fresh n
          t.contents = some t'.contents := by
  intro n
  induction n with
  | zero =>
      intro t a supply h _
      exact .ok ⟨h, fun fresh => rfl⟩
  | succ n ih =>
      intro t a supply h hmoving
      by_cases hcur : t.currentBucketToTransfer < t.capacity
      · rw [transferBuckets, if_pos hcur]
        have hcur' : t.contents.currentBucketToTransfer < t.contents.totalNumberOfBuckets := by
          rw [contents_current, contents_total]
          exact hcur
        refine .bind (h.transferBucket_meets hw hmoving depth supply.left) ?_
        intro t₁ ⟨h₁, hone⟩
        obtain ⟨a', hspec, hmoving', -⟩ :=
          MyHashTable.transferBucket_spec hmoving hcur' depth (fun _ => 0)
        have ht₁ := Option.some.inj ((hone _).symm.trans hspec)
        let next : HeapTable w :=
          { t₁ with currentBucketToTransfer := t₁.currentBucketToTransfer + 1 }
        have hnext : next.contents = { t₁.contents with
            currentBucketToTransfer := t₁.contents.currentBucketToTransfer + 1 } := by
          rw [contents_eq, contents_eq t₁]
        have hadvance : next.contents =
            t.contents.advance a' (t.contents.currentBucketToTransfer + 1) := by
          rw [hnext, ht₁]
          rfl
        have hhoused : Housed next := ⟨h₁.main.congr rfl rfl rfl, fun b hb => h₁.auxiliary hb⟩
        refine (ih next a' supply.right hhoused (hadvance ▸ hmoving')).mono ?_
        intro t' ⟨h', hrest⟩
        refine ⟨h', fun fresh => ?_⟩
        rw [MyHashTable.transferBuckets, MyHashTable.capacity, if_pos hcur', hone, ← hrest fresh,
          hnext]
        rfl
      · rw [transferBuckets, if_neg hcur]
        refine .ok ⟨h, fun fresh => ?_⟩
        rw [MyHashTable.transferBuckets, MyHashTable.capacity, contents_current, contents_total]
        exact if_neg hcur

omit [HashKey K] [DecidableEq K] [HashValue K (Fin w → UInt8)] in
theorem contents_promote (t a : HeapTable w) :
    (t.promote a).contents = t.contents.promote a.contents := by
  rw [contents_eq, contents_eq t, contents_eq a]
  rfl

/-- The table that takes the place of the main table brings its memory. -/
theorem Housed.resize_meets (h : Housed t) (hw : 1 ≤ w) {r : Nat}
    {a : MyHashTable (Fin w → UInt8)} (hmoving : Moving r t.contents a) (depth : Nat)
    (supply : Supply) :
    Meets (· = .exhausted) (t.resize (insert (depth + 1)) supply) fun t' =>
      Housed t' ∧ ∀ fresh, t.contents.resize (MyHashTable.insert (depth + 1)) fresh =
        some t'.contents := by
  refine .bind (transferBuckets_meets hw depth 2 t a supply h hmoving) ?_
  intro t₁ ⟨h₁, hlist⟩
  obtain ⟨a', hspec, hmoving', -⟩ :=
    MyHashTable.transferBuckets_spec depth (fun _ => 0) 2 t.contents a hmoving
  have ht₁ := Option.some.inj ((hlist _).symm.trans hspec)
  rw [← ht₁] at hmoving'
  by_cases hlast : t₁.currentBucketToTransfer = t₁.capacity
  · obtain ⟨a₁, ha, rfl⟩ := exists_auxiliary hmoving'
    rw [if_pos hlast, ha]
    have hwidth := hmoving'.auxiliaryWidth
    rw [contents_width, contents_width] at hwidth
    refine .ok ⟨⟨(h₁.auxiliary ha).main.congr rfl rfl hwidth.symm, fun b hb => nomatch hb⟩,
      fun fresh => ?_⟩
    rw [MyHashTable.resize, hlist fresh, contents_promote]
    have hlast' : t₁.contents.currentBucketToTransfer = t₁.contents.capacity := by
      rw [MyHashTable.capacity, contents_current, contents_total]
      exact hlast
    refine (if_pos hlast').trans ?_
    rw [contents_auxiliary, ha]
    rfl
  · rw [if_neg hlast]
    refine .ok ⟨h₁, fun fresh => ?_⟩
    rw [MyHashTable.resize, hlist fresh]
    refine if_neg ?_
    rw [MyHashTable.capacity, contents_current, contents_total]
    exact hlast

end Moving

end HeapTable

end RayPlatform
