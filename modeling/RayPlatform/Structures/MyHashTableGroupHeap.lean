import RayPlatform.Lib.Outcome
import RayPlatform.Memory.ChunkAllocatorMemory
import RayPlatform.Structures.MyHashTableGroupMemory

/-!
# MyHashTableGroup in the memory of its allocator

The calls of a group of buckets, on the lanes, the groups and the bytes of
`ChunkAllocatorWithDefragmentation`. A `VALUE` is `w` bytes, and a `VALUE*` is where its first
byte is.

* `insert` is executable: it allocates, copies byte by byte and gives back;
* `insert_meets` — it is `PackedGroup.Insert` on the contents of the memory, and fails only
  when the allocator has no pointer left to name the new vector.
-/

namespace RayPlatform

open Lib ChunkAllocatorWithDefragmentation

/-- Why a call of a table fails. -/
inductive TableFault
  /-- the allocator has no lane left, or none that its pointers can tell apart -/
  | exhausted
  /-- `NULL` was followed -/
  | null
  /-- there are more auxiliary tables than expected -/
  | depth
  deriving DecidableEq

/-- What newly allocated memory and the work arrays hold when a group calls its allocator. -/
structure Uninitialised where
  fresh : FreshMemory
  allocating : Scratch
  deallocating : Scratch

namespace HeapGroup

variable {w : Nat}

/-- `(VALUE*)allocator->getPointer(a)`; `none` is `NULL`. -/
def getPointer (c : ChunkAllocatorWithDefragmentation) (a : Nat) :
    Except TableFault (Option ValuePointer) :=
  (c.getPointer a).mapError fun _ => .null

/-- `pointer+i`, in a block. -/
def elementPointer (w : Nat) (c : ChunkAllocatorWithDefragmentation) (a i : Nat) :
    Except TableFault ValuePointer := do
  match ← getPointer c a with
  | some pointer => .ok (plus w pointer i)
  | none => .error .null

/-- `*pointer`. -/
def load (w : Nat) (c : ChunkAllocatorWithDefragmentation) (pointer : ValuePointer) :
    Except TableFault (Fin w → UInt8) :=
  match c.readValue w pointer with
  | some value => .ok value
  | none => .error .null

/-- `*pointer=value`. -/
def store (c : ChunkAllocatorWithDefragmentation) (pointer : ValuePointer) (value : Fin w → UInt8) :
    Except TableFault ChunkAllocatorWithDefragmentation :=
  match c.writeValue w pointer value with
  | some c => .ok c
  | none => .error .null

/-- `pointer[i]`. -/
def loadElement (w : Nat) (c : ChunkAllocatorWithDefragmentation) (pointer : Option ValuePointer)
    (i : Nat) : Except TableFault (Fin w → UInt8) :=
  match pointer with
  | some pointer => load w c (plus w pointer i)
  | none => .error .null

/-- `pointer[i]=value`. -/
def storeElement (c : ChunkAllocatorWithDefragmentation) (pointer : Option ValuePointer) (i : Nat)
    (value : Fin w → UInt8) : Except TableFault ChunkAllocatorWithDefragmentation :=
  match pointer with
  | some pointer => store c (plus w pointer i) value
  | none => .error .null

/-- `for(int i=0;i<n;i++) newVectorPointer[destination+i]=vectorPointer[source+i];` -/
def copyElements (w : Nat) (newVectorPointer vectorPointer : Option ValuePointer)
    (destination source : Nat) : Nat → ChunkAllocatorWithDefragmentation →
      Except TableFault ChunkAllocatorWithDefragmentation
  | 0, c => .ok c
  | n + 1, c => do
      let c ← copyElements w newVectorPointer vectorPointer destination source n c
      let value ← loadElement w c vectorPointer (source + n)
      storeElement c newVectorPointer (destination + n) value

/-- `allocate`, when the pointer is the name of its block only: in the first 64 lanes, and not
`SmartPointer_NULL`. -/
def allocate (c : ChunkAllocatorWithDefragmentation) (n : Nat) (u : Uninitialised) :
    Except TableFault (ChunkAllocatorWithDefragmentation × Nat) :=
  match c.allocate n u.fresh u.allocating with
  | .ok (c, a) =>
      if c.numberOfLanes ≤ 64 ∧ a ≠ SmartPointer_NULL then .ok (c, a) else .error .exhausted
  | .error .noMoreLanes => .error .exhausted
  | .error _ => .error .null

def deallocate (c : ChunkAllocatorWithDefragmentation) (a : Nat) (u : Uninitialised) :
    Except TableFault ChunkAllocatorWithDefragmentation :=
  (c.deallocate a u.deallocating).mapError fun _ => .null

/-- Garbage the old vector, if there is one. -/
def garbage (c : ChunkAllocatorWithDefragmentation) (vector : Nat) (u : Uninitialised) :
    Except TableFault ChunkAllocatorWithDefragmentation :=
  if vector ≠ SmartPointer_NULL then deallocate c vector u else .ok c

variable {K : Type*}

/-- `insert`: the new group, the pointer to the entry, and `*inserted`. -/
def insert (w : Nat) [HashValue K (Fin w → UInt8)] (c : ChunkAllocatorWithDefragmentation)
    (g : PackedGroup) (numberOfBucketsInGroup bucket : Nat) (key : K) (u : Uninitialised) :
    Except TableFault (ChunkAllocatorWithDefragmentation × PackedGroup × ValuePointer × Bool) :=
  let bits : MyHashTableGroup (Fin w → UInt8) := g.bits
  let bucketsBefore := bits.getBucketsBefore bucket
  if bits.getBit bucket = 1 then do
    let pointer ← elementPointer w c g.vector bucketsBefore
    .ok (c, g, pointer, false)
  else do
    let marked := bits.setBit bucket 1
    let bucketsAfter := marked.bucketsAfter numberOfBucketsInGroup bucket
    -- will allocate a new vector with one more element
    let requiredElements := bucketsBefore + 1 + bucketsAfter
    let (c, newVector) ← allocate c requiredElements u
    let newVectorPointer ← getPointer c newVector
    let vectorPointer ← getPointer c g.vector
    let c ← copyElements w newVectorPointer vectorPointer 0 0 bucketsBefore c
    let c ← copyElements w newVectorPointer vectorPointer (bucketsBefore + 1) bucketsBefore
      bucketsAfter c
    let value ← loadElement w c newVectorPointer bucketsBefore
    let c ← storeElement c newVectorPointer bucketsBefore (setKey value key)
    let c ← garbage c g.vector u
    let pointer ← elementPointer w c newVector bucketsBefore
    .ok (c, { vector := newVector, bitmap := marked.bitmap }, pointer, true)

def bucketIsUtilisedBySomeoneElse (w : Nat) [DecidableEq K] [HashValue K (Fin w → UInt8)]
    (c : ChunkAllocatorWithDefragmentation) (g : PackedGroup) (bucket : Nat) (key : K) :
    Except TableFault Bool :=
  let bits : MyHashTableGroup (Fin w → UInt8) := g.bits
  if bits.getBit bucket = 0 then .ok false
  else do
    let vectorPointer ← getPointer c g.vector
    let value ← loadElement w c vectorPointer (bits.getBucketsBefore bucket)
    .ok (decide (getKey value ≠ key))

def getBucket (w : Nat) (c : ChunkAllocatorWithDefragmentation) (g : PackedGroup) (bucket : Nat) :
    Except TableFault ValuePointer :=
  elementPointer w c g.vector ((g.bits : MyHashTableGroup Unit).getBucketsBefore bucket)

def find (w : Nat) (c : ChunkAllocatorWithDefragmentation) (g : PackedGroup) (bucket : Nat) :
    Except TableFault (Option ValuePointer) :=
  if (g.bits : MyHashTableGroup Unit).getBit bucket = 0 then .ok none
  else (getBucket w c g bucket).map some

/-! ## Pointers to elements -/

section

variable {c c' : ChunkAllocatorWithDefragmentation} {a i n : Nat}

/-- An allocator of elements of `w` bytes, between two calls. -/
structure Ready (w : Nat) (c : ChunkAllocatorWithDefragmentation) : Prop where
  inv : c.Inv DefragmentationGroup.WellPlaced
  bytesPerElement : c.bytesPerElement = w

theorem Ready.sound (h : Ready w c) : (c.view w).Sound SmartPointer_NULL :=
  h.inv.allWellPlaced.sound_view

theorem Ready.written (h : Ready w c) (hwritten : Written c c') : Ready w c' :=
  ⟨hwritten.inv, hwritten.bytesPerElement.trans h.bytesPerElement⟩

theorem Ready.getPointer (h : Ready w c) (hlive : (c.view w).size a ≠ 0) :
    ∃ pointer, getPointer c a = .ok (some pointer) ∧
      ∀ i < (c.view w).size a, Points w c (plus w pointer i) ((c.view w).pointer a + i) := by
  obtain ⟨pointer, hpointer, hpoints⟩ := h.inv.points h.bytesPerElement hlive
  refine ⟨pointer, ?_, hpoints⟩
  rw [HeapGroup.getPointer, hpointer]
  rfl

theorem Ready.elementPointer (h : Ready w c) (hi : i < (c.view w).size a) :
    ∃ pointer, elementPointer w c a i = .ok pointer ∧
      Points w c pointer ((c.view w).pointer a + i) := by
  obtain ⟨pointer, hpointer, hpoints⟩ := h.getPointer (Nat.ne_of_gt (Nat.zero_lt_of_lt hi))
  refine ⟨plus w pointer i, ?_, hpoints i hi⟩
  rw [HeapGroup.elementPointer, hpointer]
  rfl

/-- The pointer to the entry of a group with a given index. -/
structure EntryAt (w : Nat) (c : ChunkAllocatorWithDefragmentation) (g : PackedGroup)
    (pointer : ValuePointer) (index : Nat) : Prop where
  pointer : elementPointer w c g.vector index = .ok pointer
  lt : index < (c.view w).size g.vector

theorem Ready.entryAt {g : PackedGroup} (h : Ready w c) (hi : i < (c.view w).size g.vector) :
    ∃ pointer, EntryAt w c g pointer i := by
  obtain ⟨pointer, hpointer, -⟩ := h.elementPointer hi
  exact ⟨pointer, hpointer, hi⟩

theorem EntryAt.points {g : PackedGroup} {pointer : ValuePointer} (h : EntryAt w c g pointer i)
    (hready : Ready w c) : Points w c pointer ((c.view w).pointer g.vector + i) := by
  obtain ⟨pointer', hpointer, hpoints⟩ := hready.elementPointer h.lt
  obtain rfl := Except.ok.inj (h.pointer.symm.trans hpointer)
  exact hpoints

theorem elementPointer_written (h : Written c c') (a i : Nat) :
    elementPointer w c' a i = elementPointer w c a i := by
  rw [elementPointer, elementPointer, HeapGroup.getPointer, HeapGroup.getPointer, h.getPointer]

theorem load_points {pointer : ValuePointer} {cell : Nat} (h : Points w c pointer cell) :
    load w c pointer = .ok ((c.view w).cells cell) := by
  rw [load, h.readValue]

theorem store_points {pointer : ValuePointer} {cell : Nat} (h : Points w c pointer cell)
    (hready : Ready w c) (value : Fin w → UInt8) :
    ∃ c', store c pointer value = .ok c' ∧ c'.view w = (c.view w).write cell value ∧
      Written c c' := by
  obtain ⟨c', hwrite, hview, hwritten⟩ := h.writeValue hready.inv value
  refine ⟨c', ?_, hview, hwritten⟩
  rw [store, hwrite]

/-- The copy of `n` elements, one by one. -/
theorem copyElements_points (hready : Ready w c) {newVectorPointer : ValuePointer}
    {vectorPointer : Option ValuePointer} {newVector vector : Nat} (destination source : Nat)
    (hnew : ∀ i < n, Points w c (plus w newVectorPointer (destination + i))
      (newVector + (destination + i)))
    (hold : ∀ i < n, ∃ pointer, vectorPointer = some pointer ∧
      Points w c (plus w pointer (source + i)) (vector + (source + i))) :
    ∃ c', copyElements w (some newVectorPointer) vectorPointer destination source n c = .ok c' ∧
      c'.view w = (c.view w).copy (newVector + destination) (vector + source) n ∧
      Written c c' := by
  induction n with
  | zero => exact ⟨c, rfl, rfl, .refl hready.inv⟩
  | succ n ih =>
      obtain ⟨c₁, hcopy, hview, hwritten⟩ := ih
        (fun i hi => hnew i (Nat.lt_succ_of_lt hi)) (fun i hi => hold i (Nat.lt_succ_of_lt hi))
      obtain ⟨pointer, rfl, hpoints⟩ := hold n (Nat.lt_succ_self n)
      have hload := load_points (hwritten.points hpoints)
      obtain ⟨c₂, hstore, hview', hwritten'⟩ :=
        store_points (hwritten.points (hnew n (Nat.lt_succ_self n))) (hready.written hwritten)
          ((c₁.view w).cells (vector + (source + n)))
      refine ⟨c₂, ?_, ?_, hwritten.trans hwritten'⟩
      · rw [copyElements, hcopy]
        show (load w c₁ (plus w pointer (source + n))).bind _ = _
        rw [hload]
        exact hstore
      · rw [hview', hview, MovingMemory.copy, Nat.add_assoc, Nat.add_assoc]

/-! ## The calls of the allocator -/

theorem allocate_meets (h : Ready w c) (hw : 1 ≤ w) (hpos : 1 ≤ n) (hn : n ≤ 64)
    (u : Uninitialised) : Meets (· = .exhausted) (allocate c n u) fun (c', a) =>
      Ready w c' ∧ (c.view w).Allocates SmartPointer_NULL n a (c'.view w) := by
  obtain ⟨hinv, rfl⟩ := h
  have hP := wellPlaced_keptByCalls hw
  have hanswer : c.allocate n u.fresh u.allocating = .error .noMoreLanes ∨
      ∃ r, c.allocate n u.fresh u.allocating = .ok r := by
    rcases hinv.selectLane hP.constructor hn u.fresh with
      ⟨hfull, -⟩ | ⟨c₁, hselect, hinv₁, hgrows, hselects⟩
    · left
      rw [ChunkAllocatorWithDefragmentation.allocate, hfull]
      rfl
    · right
      rw [← hgrows.bytesPerElement] at hP
      obtain ⟨c', a, hforward, -⟩ := hinv₁.forward hP hpos hn hselects u.allocating
      refine ⟨(c', a), ?_⟩
      rw [ChunkAllocatorWithDefragmentation.allocate, hselect]
      exact hforward
  unfold allocate
  rcases hanswer with hfull | ⟨⟨c', a⟩, hok⟩
  · rw [hfull]
    exact .fault rfl
  · rw [hok]
    dsimp only
    split
    · next hnamed =>
        obtain ⟨hview, hinv', hbytes⟩ :=
          hinv.allocates_view hw hpos hn hok hnamed.1 hnamed.2
        exact .ok ⟨⟨hinv', hbytes⟩, hview⟩
    · exact .fault rfl

theorem deallocate_eq (h : Ready w c) (hw : 1 ≤ w) (hlive : (c.view w).size a ≠ 0)
    (u : Uninitialised) : ∃ c', deallocate c a u = .ok c' ∧ Ready w c' ∧
      (c.view w).Deallocates SmartPointer_NULL a (c'.view w) := by
  obtain ⟨hinv, rfl⟩ := h
  obtain ⟨c', hok, hview, hinv', hbytes⟩ := hinv.deallocates_view hw hlive u.deallocating
  refine ⟨c', ?_, ⟨hinv', hbytes⟩, hview⟩
  rw [deallocate, hok]
  rfl

end

/-! ## Insertion -/

section Insertion

open PackedGroup

variable {c : ChunkAllocatorWithDefragmentation} {g : PackedGroup} {width bucket : Nat}

/-- The entry of an occupied bucket is in the vector. -/
theorem before_lt {V : Type*} {m : MovingMemory V} (h : Owns width m g) (hb : bucket < width)
    (hbit : ¬(g.bits : MyHashTableGroup V).getBit bucket = 0) :
    (g.bits : MyHashTableGroup V).getBucketsBefore bucket < m.size g.vector := by
  have hw := h.wf.width
  have hocc : (g.contents m).entry bucket ≠ none :=
    mt ((g.contents m).getBit_eq_zero_iff h.wf hb).mpr hbit
  obtain ⟨v, hv⟩ := Option.ne_none_iff_exists'.mp hocc
  have hcell := (g.contents m).entry_eq_getElem hocc
  rw [hv] at hcell
  have hbefore : (g.bits : MyHashTableGroup V).getBucketsBefore bucket =
      SparseArray.rank (g.contents m).occ bucket := MyHashTableGroup.getBucketsBefore_eq _ (by omega)
  rw [hbefore, ← MovingMemory.length_read]
  exact (List.getElem?_eq_some_iff.mp hcell).1

/-- A group with a free bucket has fewer entries than buckets. -/
theorem size_lt {V : Type*} {m : MovingMemory V} (h : Owns width m g) (hb : bucket < width)
    (hbit : ¬(g.bits : MyHashTableGroup V).getBit bucket = 1) : m.size g.vector < width := by
  have hw := h.wf.width
  have hocc : (g.contents m).occ bucket = false :=
    (g.contents m).occ_eq_false (by omega) hbit
  have hle : SparseArray.rank (Function.update (g.contents m).occ bucket true) width ≤ width :=
    Nat.count_le _
  rw [SparseArray.rank_update hocc, if_pos hb, ← h.wf.length] at hle
  rw [← MovingMemory.length_read]
  exact hle

/-- The vector of a group, also when it has none. -/
theorem getPointer_vector {m : MovingMemory (Fin w → UInt8)} (hready : Ready w c)
    (howns : Owns width m g) (hsize : (c.view w).size g.vector = m.size g.vector) :
    ∃ vectorPointer, getPointer c g.vector = .ok vectorPointer ∧
      ∀ i < m.size g.vector, ∃ pointer, vectorPointer = some pointer ∧
        Points w c (plus w pointer i) ((c.view w).pointer g.vector + i) := by
  by_cases hnull : g.vector = SmartPointer_NULL
  · refine ⟨none, ?_, ?_⟩
    · rw [getPointer, hnull, getPointer_of_none (if_pos rfl)]
      rfl
    · intro i hi
      rw [hnull, howns.sound.null] at hi
      exact absurd hi (Nat.not_lt_zero i)
  · obtain ⟨pointer, hpointer, hpoints⟩ := hready.getPointer (hsize ▸ howns.live hnull)
    exact ⟨some pointer, hpointer, fun i hi => ⟨pointer, rfl, hpoints i (hsize ▸ hi)⟩⟩

variable {K : Type*} [HashValue K (Fin w → UInt8)]

/-- The new vector, once it is filled. -/
structure Filled (w : Nat) [HashValue K (Fin w → UInt8)]
    (c c' : ChunkAllocatorWithDefragmentation) (newVectorPointer : ValuePointer)
    (vectorPointer : Option ValuePointer) (newVector vector before after : Nat) (key : K) :
    Prop where
  computed : ∀ (rest : ChunkAllocatorWithDefragmentation → Except TableFault
      (ChunkAllocatorWithDefragmentation × PackedGroup × ValuePointer × Bool)),
    (do
      let c ← copyElements w (some newVectorPointer) vectorPointer 0 0 before c
      let c ← copyElements w (some newVectorPointer) vectorPointer (before + 1) before after c
      let value ← loadElement w c (some newVectorPointer) before
      let c ← storeElement c (some newVectorPointer) before (setKey value key)
      rest c) = rest c'
  view : c'.view w = fillVector (c.view w) ((c.view w).pointer newVector)
    ((c.view w).pointer vector) before after key
  written : Written c c'

theorem Ready.fill (hready : Ready w c) {newVectorPointer : ValuePointer}
    {vectorPointer : Option ValuePointer} {newVector vector : Nat} (before after : Nat) (key : K)
    (hnew : ∀ i < before + 1 + after,
      Points w c (plus w newVectorPointer i) ((c.view w).pointer newVector + i))
    (hold : ∀ i < before + after, ∃ pointer, vectorPointer = some pointer ∧
      Points w c (plus w pointer i) ((c.view w).pointer vector + i)) :
    ∃ c', Filled w c c' newVectorPointer vectorPointer newVector vector before after key := by
  obtain ⟨c₁, hcopy₁, hview₁, hwritten₁⟩ :=
    copyElements_points (n := before) hready 0 0
      (fun i hi => by
        rw [Nat.zero_add]
        exact hnew i (by omega))
      (fun i hi => by
        rw [Nat.zero_add]
        exact hold i (by omega))
  have hready₁ := hready.written hwritten₁
  obtain ⟨c₂, hcopy₂, hview₂, hwritten₂⟩ :=
    copyElements_points (n := after) hready₁ (before + 1) before
      (fun i hi => hwritten₁.points (hnew (before + 1 + i) (by omega)))
      (fun i hi => by
        obtain ⟨pointer, hpointer, hpoints⟩ := hold (before + i) (by omega)
        exact ⟨pointer, hpointer, hwritten₁.points hpoints⟩)
  have hwritten₁₂ := hwritten₁.trans hwritten₂
  have hcell := hwritten₁₂.points (hnew before (by omega))
  obtain ⟨c', hstore, hview', hwritten'⟩ := store_points hcell (hready.written hwritten₁₂)
    (setKey ((c₂.view w).cells ((c.view w).pointer newVector + before)) key)
  refine ⟨c', ⟨fun rest => ?_, ?_, hwritten₁₂.trans hwritten'⟩⟩
  · rw [hcopy₁]
    show (do
      let c ← copyElements w (some newVectorPointer) vectorPointer (before + 1) before after c₁
      let value ← load w c (plus w newVectorPointer before)
      let c ← store c (plus w newVectorPointer before) (setKey value key)
      rest c) = rest c'
    rw [hcopy₂]
    show (do
      let value ← load w c₂ (plus w newVectorPointer before)
      let c ← store c₂ (plus w newVectorPointer before) (setKey value key)
      rest c) = rest c'
    rw [load_points hcell]
    show (do
      let c ← store c₂ (plus w newVectorPointer before)
        (setKey ((c₂.view w).cells ((c.view w).pointer newVector + before)) key)
      rest c) = rest c'
    rw [hstore]
    rfl
  · rw [hview', hview₂, hview₁]
    rfl

/-- `insert` is what it is on the contents of the memory. -/
theorem insert_meets (hready : Ready w c) (hw : 1 ≤ w) (howns : Owns width (c.view w) g)
    (hb : bucket < width) (key : K) (u : Uninitialised) :
    Meets (· = .exhausted) (insert w c g width bucket key u) fun (c', g', pointer, inserted) =>
      Ready w c' ∧ ∃ index, EntryAt w c' g' pointer index ∧
        Insert (c.view w) g width bucket key (c'.view w) g'
          ((c'.view w).pointer g'.vector + index) inserted := by
  have hwidth := howns.wf.width
  unfold insert
  dsimp only
  by_cases hbit : (g.bits : MyHashTableGroup (Fin w → UInt8)).getBit bucket = 1
  · rw [if_pos hbit]
    obtain ⟨pointer, hentry⟩ := hready.entryAt (before_lt howns hb (by omega))
    exact .bind_ok hentry.pointer
      (.ok ⟨hready, _, hentry, (if_pos hbit).mpr ⟨rfl, rfl, rfl, rfl⟩⟩)
  · rw [if_neg hbit]
    have hall := howns.before_add_after hb hbit
    have hlt := size_lt howns hb hbit
    generalize hbefore : (g.bits : MyHashTableGroup (Fin w → UInt8)).getBucketsBefore bucket =
      before at hall ⊢
    generalize hafter : ((g.bits : MyHashTableGroup (Fin w → UInt8)).setBit bucket 1).bucketsAfter
      width bucket = after at hall ⊢
    refine .bind (allocate_meets hready hw (by omega) (by omega) u) ?_
    rintro ⟨c₁, newVector⟩ ⟨hready₁, halloc⟩
    dsimp only
    have hne : g.vector ≠ newVector := by
      rintro rfl
      by_cases hnull : g.vector = SmartPointer_NULL
      · have hzero := halloc.sound.null
        rw [← hnull, halloc.size] at hzero
        omega
      · exact howns.live hnull halloc.fresh
    have hnewSize := halloc.size
    obtain ⟨newVectorPointer, hgetNew, hnew⟩ := hready₁.getPointer (a := newVector) (by omega)
    obtain ⟨vectorPointer, hget, hold⟩ :=
      getPointer_vector hready₁ howns (halloc.kept g.vector hne).1
    obtain ⟨c₂, hfilled⟩ := hready₁.fill before after key (fun i hi => hnew i (by omega))
      (fun i hi => hold i (by omega))
    have hready₂ := hready₁.written hfilled.written
    have hsize₂ : (c₂.view w).size = (c₁.view w).size := by
      rw [hfilled.view, size_fillVector]
    refine .bind_ok hgetNew (.bind_ok hget ?_)
    rw [hfilled.computed]
    -- the old vector is given back
    have hgarbage : ∃ c₃, garbage c₂ g.vector u = .ok c₃ ∧ Ready w c₃ ∧
        (if g.vector ≠ SmartPointer_NULL then
          (c₂.view w).Deallocates SmartPointer_NULL g.vector (c₃.view w)
          else c₃.view w = c₂.view w) ∧ (c₃.view w).size newVector = before + 1 + after := by
      by_cases hnull : g.vector = SmartPointer_NULL
      · refine ⟨c₂, if_neg (not_not.mpr hnull), hready₂, ?_, ?_⟩
        · rw [if_neg (not_not.mpr hnull)]
        · rw [hsize₂, hnewSize]
      · have hlive : (c₂.view w).size g.vector ≠ 0 := by
          rw [hsize₂, (halloc.kept g.vector hne).1]
          exact howns.live hnull
        obtain ⟨c₃, hdeallocate, hready₃, hview⟩ := deallocate_eq hready₂ hw hlive u
        refine ⟨c₃, (if_pos hnull).trans hdeallocate, hready₃, ?_, ?_⟩
        · rw [if_pos hnull]
          exact hview
        · rw [(hview.kept newVector hne.symm).1, hsize₂, hnewSize]
    obtain ⟨c₃, hgarbaged, hready₃, hview₃, hsize₃⟩ := hgarbage
    obtain ⟨pointer, hentry⟩ := hready₃.entryAt (i := before)
      (g := ⟨newVector, ((g.bits : MyHashTableGroup (Fin w → UInt8)).setBit bucket 1).bitmap⟩)
      (by
        show before < (c₃.view w).size newVector
        omega)
    refine .bind_ok hgarbaged ?_
    refine .bind_ok hentry.pointer (.ok ⟨hready₃, _, hentry, ?_⟩)
    refine (if_neg hbit).mpr ⟨newVector, c₁.view w, ?_, ?_, rfl, ?_, rfl⟩
    · rw [hbefore, hafter]
      exact halloc
    · rw [hbefore, hafter, ← hfilled.view]
      exact hview₃
    · rw [hbefore]

/-! ## Searches -/

omit [HashValue K (Fin w → UInt8)] in
theorem getBucket_entryAt (hready : Ready w c) (howns : Owns width (c.view w) g)
    (hb : bucket < width) (hocc : (g.contents (c.view w)).entry bucket ≠ none) :
    ∃ pointer, getBucket w c g bucket = .ok pointer ∧
      EntryAt w c g pointer ((g.contents (c.view w)).getBucket bucket) := by
  have hbit : ¬(g.bits : MyHashTableGroup (Fin w → UInt8)).getBit bucket = 0 :=
    mt ((g.contents (c.view w)).getBit_eq_zero_iff howns.wf hb).mp hocc
  obtain ⟨pointer, hentry⟩ := hready.entryAt (before_lt howns hb hbit)
  exact ⟨pointer, hentry.pointer, hentry⟩

omit [HashValue K (Fin w → UInt8)] in
/-- `find` answers the pointer to the entry that the packed list has, or `NULL`. -/
theorem find_entryAt (hready : Ready w c) (howns : Owns width (c.view w) g) (hb : bucket < width) :
    match (g.contents (c.view w)).find bucket with
    | some index => ∃ pointer, find w c g bucket = .ok (some pointer) ∧ EntryAt w c g pointer index
    | none => find w c g bucket = .ok none := by
  rw [MyHashTableGroup.find]
  by_cases hbit : (g.contents (c.view w)).getBit bucket = 0
  · rw [if_pos hbit]
    exact if_pos hbit
  · rw [if_neg hbit]
    obtain ⟨pointer, hpointer, hentry⟩ := getBucket_entryAt hready howns hb
      (mt ((g.contents (c.view w)).getBit_eq_zero_iff howns.wf hb).mpr hbit)
    refine ⟨pointer, ?_, hentry⟩
    rw [find, hpointer]
    exact if_neg hbit

omit [HashValue K (Fin w → UInt8)] in
theorem EntryAt.load {pointer : ValuePointer} {index : Nat} (h : EntryAt w c g pointer index)
    (hready : Ready w c) : ∃ value, load w c pointer = .ok value ∧
      (g.contents (c.view w)).vector[index]? = some value :=
  ⟨_, load_points (h.points hready), MovingMemory.getElem?_read h.lt⟩

theorem bucketIsUtilisedBySomeoneElse_eq [DecidableEq K] (hready : Ready w c)
    (howns : Owns width (c.view w) g) (hb : bucket < width) (key : K) :
    bucketIsUtilisedBySomeoneElse w c g bucket key =
      .ok ((g.contents (c.view w)).bucketIsUtilisedBySomeoneElse bucket key) := by
  rw [bucketIsUtilisedBySomeoneElse, MyHashTableGroup.bucketIsUtilisedBySomeoneElse]
  by_cases hbit : (g.contents (c.view w)).getBit bucket = 0
  · rw [if_pos hbit]
    exact if_pos hbit
  · rw [if_neg hbit]
    have hlt := before_lt howns hb hbit
    obtain ⟨vectorPointer, hpointer, hpoints⟩ := getPointer_vector hready howns rfl
    obtain ⟨pointer, rfl, hcell⟩ := hpoints _ hlt
    have hvalue : (g.contents (c.view w)).vector[(g.contents (c.view w)).getBucketsBefore bucket]? =
        some ((c.view w).cells ((c.view w).pointer g.vector +
          (g.contents (c.view w)).getBucketsBefore bucket)) := MovingMemory.getElem?_read hlt
    rw [hvalue]
    refine (if_neg hbit).trans ?_
    show ((getPointer c g.vector).bind fun vectorPointer =>
      (loadElement w c vectorPointer _).bind fun value => _) = _
    rw [hpointer]
    show ((HeapGroup.load w c (plus w pointer _)).bind fun value => _) = _
    rw [load_points hcell]
    rfl

/-- After an insertion, the live blocks are the new vector and the other blocks. -/
theorem live_insert {V : Type*} [HashValue K V] {m m' : MovingMemory V} {g' : PackedGroup}
    {pointer a : Nat} {key : K} {inserted : Bool}
    (hinsert : PackedGroup.Insert m g width bucket key m' g' pointer inserted)
    (hlive : m'.size a ≠ 0) : a = g'.vector ∨ (m.size a ≠ 0 ∧ a ≠ g.vector) := by
  by_cases hnew : a = g'.vector
  · exact .inl hnew
  · right
    unfold PackedGroup.Insert at hinsert
    dsimp only at hinsert
    split at hinsert
    · obtain ⟨rfl, rfl, -⟩ := hinsert
      exact ⟨hlive, hnew⟩
    · obtain ⟨newVector, m₁, halloc, hgarbage, rfl, -⟩ := hinsert
      rw [← (halloc.kept a hnew).1]
      split at hgarbage
      · have hne : a ≠ g.vector := by
          rintro rfl
          exact hlive hgarbage.size
        rw [(hgarbage.kept a hne).1, size_fillVector] at hlive
        exact ⟨hlive, hne⟩
      · next hnull =>
          rw [hgarbage, size_fillVector] at hlive
          refine ⟨hlive, ?_⟩
          rintro rfl
          rw [not_not.mp hnull, halloc.sound.null] at hlive
          exact hlive rfl

/-- The vector after an insertion is the old one, or one that was not live. -/
theorem vector_insert {V : Type*} [HashValue K V] {m m' : MovingMemory V} {g' : PackedGroup}
    {pointer : Nat} {key : K} {inserted : Bool}
    (hinsert : PackedGroup.Insert m g width bucket key m' g' pointer inserted) :
    g'.vector = g.vector ∨ m.size g'.vector = 0 := by
  unfold PackedGroup.Insert at hinsert
  dsimp only at hinsert
  split at hinsert
  · obtain ⟨-, rfl, -⟩ := hinsert
    exact .inl rfl
  · obtain ⟨newVector, m₁, halloc, -, rfl, -⟩ := hinsert
    exact .inr halloc.fresh

end Insertion

end HeapGroup

end RayPlatform
