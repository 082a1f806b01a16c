import Mathlib.Data.Rat.Defs
import RayPlatform.Structures.MyHashTableGroup

/-!
# MyHashTable

Open addressing with double hashing over groups of buckets, with incremental
resizing: while `resizing`, the table owns a second table of twice its size, each
`insert` transfers two buckets to it, and the second table replaces the first
when every bucket has been transferred.

* Bucket counts, bucket numbers and sizes are `uint64_t` and `int` in the source
  and `Nat` here: the tables that fit in memory are far below both word sizes.
* The load factor is a quotient by a power of two, which a `double` computes
  exactly; thresholds and load factors are rational numbers here.
* A `VALUE*` is an `EntryPointer`: which table, which group, which index in the
  group's vector. `fresh` is the content of newly allocated memory.
* The auxiliary table is itself a `MyHashTable` that could in turn start resizing,
  so `insert` recurses on a `depth`; `none` means the depth did not suffice or a
  NULL pointer was followed.

The probe statistics are counters that only `printProbeStatistics` reads and are
left out.
-/

namespace RayPlatform

/-- A `VALUE*` returned by a table. -/
inductive EntryPointer where
  | main (group index : Nat)
  | auxiliary (pointer : EntryPointer)
  deriving DecidableEq, Repr

structure MyHashTable (V : Type*) where
  /-- currently doing incremental resizing? -/
  resizing : Bool
  auxiliaryTableForIncrementalResize : Option (MyHashTable V)
  currentBucketToTransfer : Nat
  maximumLoadFactor : ℚ
  totalNumberOfBuckets : Nat
  utilisedBuckets : Nat
  /-- the elements of the main table plus the elements of the new table that are
  not in the old one -/
  size : Nat
  groups : List (MyHashTableGroup V)
  numberOfBucketsInGroup : Nat
  numberOfGroups : Nat

/-- The bucket `findBucketWithKey` designates. -/
structure FoundBucket where
  probe : Nat
  group : Nat
  bucketInGroup : Nat

namespace MyHashTable

variable {K V : Type*}

/-! ## Construction -/

/-- `while(check<buckets) check*=2;` -/
def roundBuckets (buckets : Nat) : Nat → Nat → Nat
  | 0, check => check
  | fuel + 1, check => if check < buckets then roundBuckets buckets fuel (check * 2) else check

def clampThreshold (loadFactorThreshold : ℚ) : ℚ :=
  let atLeast := if loadFactorThreshold < 1 / 2 then 1 / 2 else loadFactorThreshold
  if 1 < atLeast then 1 else atLeast

def constructor (buckets bucketsPerGroup : Nat) (loadFactorThreshold : ℚ) : MyHashTable V :=
  let total := roundBuckets buckets buckets 2
  let numberOfGroups := (total - 1) / bucketsPerGroup + 1
  { resizing := false
    auxiliaryTableForIncrementalResize := none
    currentBucketToTransfer := 0
    maximumLoadFactor := clampThreshold loadFactorThreshold
    totalNumberOfBuckets := total
    utilisedBuckets := 0
    size := 0
    groups := List.replicate numberOfGroups MyHashTableGroup.empty
    numberOfBucketsInGroup := bucketsPerGroup
    numberOfGroups := numberOfGroups }

def capacity (t : MyHashTable V) : Nat :=
  t.totalNumberOfBuckets

def needsToCompleteResizing (t : MyHashTable V) : Bool :=
  t.resizing

/-- `m_groups[i]`. -/
def groupAt (t : MyHashTable V) (i : Nat) : MyHashTableGroup V :=
  t.groups.getD i MyHashTableGroup.empty

def isAvailable (t : MyHashTable V) (bucket : Nat) : Bool :=
  (t.groupAt (bucket / t.numberOfBucketsInGroup)).getBit
    (bucket % t.numberOfBucketsInGroup) == 0

/-- The entry `at(bucket)` points to. -/
def atBucket (t : MyHashTable V) (bucket : Nat) : Option V :=
  let g := t.groupAt (bucket / t.numberOfBucketsInGroup)
  g.vector[g.getBucket (bucket % t.numberOfBucketsInGroup)]?

/-! ## Probing -/

variable [HashKey K]

/-- The odd stride of double hashing: `h2` of the first probe. -/
def stride (totalNumberOfBuckets : Nat) (key : K) : Nat :=
  let h2 := (hashFunction1 key).toNat % totalNumberOfBuckets
  let h2 := if h2 = 0 then 1 else h2
  if h2 % 2 = 0 then h2 - 1 else h2

/-- `if(h2>bucket) bucket+=m_totalNumberOfBuckets; bucket-=h2;` -/
def nextBucket (totalNumberOfBuckets h2 bucket : Nat) : Nat :=
  (if h2 > bucket then bucket + totalNumberOfBuckets else bucket) - h2

variable [DecidableEq K] [HashValue K V]

/-- The probing loop of `findBucketWithKey`: the final probe and bucket. -/
def probeLoop (t : MyHashTable V) (key : K) : Nat → Nat → Nat → Nat → Nat × Nat
  | 0, probe, _, bucket => (probe, bucket)
  | fuel + 1, probe, h2, bucket =>
      if (t.groupAt (bucket / t.numberOfBucketsInGroup)).bucketIsUtilisedBySomeoneElse
            (bucket % t.numberOfBucketsInGroup) key
          && decide (probe + 1 < t.totalNumberOfBuckets) then
        let probe := probe + 1
        -- only compute the double hashing once
        let h2 := if probe = 1 then stride t.totalNumberOfBuckets key else h2
        t.probeLoop key fuel probe h2 (nextBucket t.totalNumberOfBuckets h2 bucket)
      else (probe, bucket)

def findBucketWithKey (t : MyHashTable V) (key : K) : FoundBucket :=
  let h1 := (hashFunction2 key).toNat % t.totalNumberOfBuckets
  -- double hashing is computed on probe 1, not on 0
  let bucket := (h1 + 0 * 0) % t.totalNumberOfBuckets
  let found := t.probeLoop key t.totalNumberOfBuckets 0 0 bucket
  { probe := found.1
    group := found.2 / t.numberOfBucketsInGroup
    bucketInGroup := found.2 % t.numberOfBucketsInGroup }

/-! ## Finding -/

/-- The end of `findKey`: ask the group to find the key. -/
def findInGroup (t : MyHashTable V) (key : K) : Option EntryPointer :=
  let found := t.findBucketWithKey key
  ((t.groupAt found.group).find found.bucketInGroup).map (.main found.group)

def findKey : MyHashTable V → K → Bool → Option EntryPointer
  | ⟨resizing, some a, current, load, total, utilised, size, groups, inGroup, number⟩, key,
      checkAuxiliary =>
      let main := findInGroup
        ⟨resizing, some a, current, load, total, utilised, size, groups, inGroup, number⟩ key
      if resizing && checkAuxiliary then
        -- check the new one first
        ((a.findKey key true).map .auxiliary).or main
      else main
  | ⟨resizing, none, current, load, total, utilised, size, groups, inGroup, number⟩, key, _ =>
      findInGroup
        ⟨resizing, none, current, load, total, utilised, size, groups, inGroup, number⟩ key
termination_by structural t => t

def find (t : MyHashTable V) (key : K) : Option EntryPointer :=
  t.findKey key true

/-- The value a pointer designates. -/
def load (t : MyHashTable V) : EntryPointer → Option V
  | .main group index => (t.groupAt group).vector[index]?
  | .auxiliary p =>
      match t.auxiliaryTableForIncrementalResize with
      | some a => a.load p
      | none => none

/-- Assignment through a pointer. -/
def store (t : MyHashTable V) : EntryPointer → V → MyHashTable V
  | .main group index, value =>
      { t with groups := t.groups.set group ((t.groupAt group).store index value) }
  | .auxiliary p, value =>
      match t.auxiliaryTableForIncrementalResize with
      | some a => { t with auxiliaryTableForIncrementalResize := some (a.store p value) }
      | none => t

/-! ## Growing -/

def growIfNecessary (t : MyHashTable V) : MyHashTable V :=
  if t.resizing then t
  else if (t.utilisedBuckets : ℚ) / t.totalNumberOfBuckets < t.maximumLoadFactor then t
  else
    let newSize := t.totalNumberOfBuckets * 2
    -- nothing to do because shrinking is not implemented
    if newSize < t.totalNumberOfBuckets then t
    else if newSize < t.utilisedBuckets then t
    else
      { t with
        currentBucketToTransfer := 0
        resizing := true
        auxiliaryTableForIncrementalResize :=
          some (constructor newSize t.numberOfBucketsInGroup t.maximumLoadFactor) }

section

-- `insert` of the auxiliary table
variable (auxiliaryInsert : MyHashTable V → K → V → Option (MyHashTable V × EntryPointer))

/-- Copy the entry of the current bucket, if any, to the auxiliary table. Nothing
is removed, otherwise double hashing would fail. -/
def transferBucket (t : MyHashTable V) (fresh : V) : Option (MyHashTable V) :=
  if t.isAvailable t.currentBucketToTransfer then some t
  else do
    let entry ← t.atBucket t.currentBucketToTransfer
    let a ← t.auxiliaryTableForIncrementalResize
    let (a, insertedEntry) ← auxiliaryInsert a (getKey entry) fresh
    some { t with auxiliaryTableForIncrementalResize := some (a.store insertedEntry entry) }

/-- `while(i<toProcess && m_currentBucketToTransfer<capacity())` -/
def transferBuckets (fresh : V) : Nat → MyHashTable V → Option (MyHashTable V)
  | 0, t => some t
  | toProcess + 1, t =>
      if t.currentBucketToTransfer < t.capacity then do
        let t ← transferBucket auxiliaryInsert t fresh
        transferBuckets fresh toProcess
          { t with currentBucketToTransfer := t.currentBucketToTransfer + 1 }
      else some t

/-- The auxiliary table takes the place of the main table. -/
def promote (t a : MyHashTable V) : MyHashTable V :=
  { t with
    groups := a.groups
    totalNumberOfBuckets := a.totalNumberOfBuckets
    numberOfGroups := a.numberOfGroups
    utilisedBuckets := a.utilisedBuckets
    size := a.size
    auxiliaryTableForIncrementalResize := none
    resizing := false }

def resize (t : MyHashTable V) (fresh : V) : Option (MyHashTable V) := do
  let toProcess := 2
  let t ← transferBuckets auxiliaryInsert fresh toProcess t
  if t.currentBucketToTransfer = t.capacity then
    let a ← t.auxiliaryTableForIncrementalResize
    some (t.promote a)
  else some t

/-- Case 3 of `insert`: the main table is responsible. -/
def insertInMain (t : MyHashTable V) (key : K) (fresh : V) : MyHashTable V × EntryPointer :=
  let found := t.findBucketWithKey key
  let (g, index, inserted) := (t.groupAt found.group).insert t.numberOfBucketsInGroup
    found.bucketInGroup key fresh
  let t := { t with groups := t.groups.set found.group g }
  -- increment the elements if an insertion occured
  let t := if inserted then
      { t with utilisedBuckets := t.utilisedBuckets + 1, size := t.size + 1 }
    else t
  (t.growIfNecessary, .main found.group index)

/-- The part of `insert` after the call to `resize`. -/
def insertResized (t : MyHashTable V) (key : K) (fresh : V) :
    Option (MyHashTable V × EntryPointer) :=
  if t.resizing then do
    let a ← t.auxiliaryTableForIncrementalResize
    match a.findKey key false with
    | some fromAuxiliary =>
        -- Case 1: the new table is responsible, whether or not the old one has the key
        some (t, .auxiliary fromAuxiliary)
    | none =>
        match t.findKey key false with
        | none =>
            -- Case 2: the key was never in the old table
            let sizeBefore := a.utilisedBuckets
            let (a, e) ← auxiliaryInsert a key fresh
            let t := { t with auxiliaryTableForIncrementalResize := some a }
            let t := if a.utilisedBuckets > sizeBefore then { t with size := t.size + 1 } else t
            some (t, .auxiliary e)
        | some _ => some (t.insertInMain key fresh)
  else some (t.insertInMain key fresh)

end

/-- `insert`; `depth` bounds the chain of auxiliary tables. -/
def insert : Nat → MyHashTable V → K → V → Option (MyHashTable V × EntryPointer)
  | 0, _, _, _ => none
  | depth + 1, t, key, fresh => do
      let t ← if t.resizing then t.resize (insert depth) fresh else some t
      t.insertResized (insert depth) key fresh

/-- `while(m_resizing) resize();` -/
def completeLoop (depth : Nat) (fresh : V) : Nat → MyHashTable V → Option (MyHashTable V)
  | 0, t => if t.resizing then none else some t
  | fuel + 1, t =>
      if t.resizing then do
        let t ← t.resize (insert depth) fresh
        completeLoop depth fresh fuel t
      else some t

/-- Each call to `resize` transfers a bucket at least. -/
def completeResizing (depth : Nat) (t : MyHashTable V) (fresh : V) : Option (MyHashTable V) :=
  t.completeLoop depth fresh t.capacity

end MyHashTable

/-! ## MyHashTableIterator -/

structure MyHashTableIterator where
  i : Nat
  hasNext : Bool

namespace MyHashTableIterator

variable {V : Type*} (t : MyHashTable V)

/-- `while(m_i<m_table->capacity()&&m_table->isAvailable(m_i)) m_i++;` -/
def skipAvailable : Nat → Nat → Nat
  | 0, i => i
  | fuel + 1, i =>
      if decide (i < t.capacity) && t.isAvailable i then skipAvailable fuel (i + 1) else i

def getNext (it : MyHashTableIterator) : MyHashTableIterator :=
  let i := skipAvailable t (t.capacity - it.i) it.i
  { i := i, hasNext := decide (i < t.capacity) && !t.isAvailable i }

def constructor : MyHashTableIterator :=
  getNext t { i := 0, hasNext := false }

def next (it : MyHashTableIterator) : Option V × MyHashTableIterator :=
  (t.atBucket it.i, getNext t { it with i := it.i + 1 })

/-- `while(it.hasNext()) it.next();` collecting what `next` points to. -/
def collect : Nat → MyHashTableIterator → List (Option V)
  | 0, _ => []
  | fuel + 1, it =>
      if it.hasNext then (it.next t).1 :: collect fuel (it.next t).2 else []

/-- A whole iteration; every call to `next` advances by a bucket at least. -/
def iterate : List (Option V) :=
  collect t (t.capacity + 1) (constructor t)

end MyHashTableIterator

end RayPlatform
