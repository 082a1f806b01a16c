import RayPlatform.Lib.MovingMemory
import RayPlatform.Lib.TransitionSystem
import RayPlatform.Memory.DefragmentationGroupMemory
import RayPlatform.Structures.MyHashTableGroup

/-!
# MyHashTableGroup in memory

The group as the source has it: a `SmartPointer` and a bitmap. Each insertion asks the allocator
for a vector with one more element, copies the entries around the new one, and gives the old
vector back; each of these calls may move any block.

* `Insert` is `insert`, with what the allocator answered;
* `Insert.contents` — it computes the `insert` of the packed list, and leaves the other
  groups of the table as they are (`Insert.other`);
* `groupOwner_sparse` — in every run, with other clients of the allocator in between, the
  vector is a sparse array.
-/

namespace RayPlatform

open Lib Lib.SparseArray

/-- `SmartPointer m_vector; uint64_t m_bitmap;` -/
structure PackedGroup where
  vector : Nat
  bitmap : BitVec 64

namespace PackedGroup

variable {K V : Type*}

def constructor : PackedGroup :=
  { vector := SmartPointer_NULL, bitmap := 0#64 }

/-- The group without its vector: what the functions on bits read. -/
def bits (g : PackedGroup) : MyHashTableGroup V :=
  { vector := [], bitmap := g.bitmap }

/-- The group with the contents of its vector. -/
def contents (m : MovingMemory V) (g : PackedGroup) : MyHashTableGroup V :=
  { vector := m.read g.vector, bitmap := g.bitmap }

/-- The address that `getBucket` returns. -/
def getBucket (m : MovingMemory V) (g : PackedGroup) (bucket : Nat) : Nat :=
  m.pointer g.vector + (g.bits : MyHashTableGroup V).getBucketsBefore bucket

/-- The address that `find` returns, or `NULL`. -/
def find (m : MovingMemory V) (g : PackedGroup) (bucket : Nat) : Option Nat :=
  if (g.bits : MyHashTableGroup V).getBit bucket = 0 then none
  else some (m.pointer g.vector + (g.bits : MyHashTableGroup V).getBucketsBefore bucket)

/-- The two copies and the new key. -/
def fillVector [HashValue K V] (m : MovingMemory V) (newVectorPointer vectorPointer bucketsBefore
    bucketsAfter : Nat) (key : K) : MovingMemory V :=
  -- copy the buckets before
  let m := m.copy newVectorPointer vectorPointer bucketsBefore
  -- copy the buckets after
  let m := m.copy (newVectorPointer + (bucketsBefore + 1)) (vectorPointer + bucketsBefore)
    bucketsAfter
  -- assign the new bucket
  m.write (newVectorPointer + bucketsBefore)
    (setKey (m.cells (newVectorPointer + bucketsBefore)) key)

/-- `insert`: the memory and the group that it leaves, the address that it returns, and
`*inserted`. -/
def Insert [HashValue K V] (m : MovingMemory V) (g : PackedGroup)
    (numberOfBucketsInGroup bucket : Nat) (key : K) (m' : MovingMemory V) (g' : PackedGroup)
    (pointer : Nat) (inserted : Bool) : Prop :=
  let bits : MyHashTableGroup V := g.bits
  let bucketsBefore := bits.getBucketsBefore bucket
  if bits.getBit bucket = 1 then
    m' = m ∧ g' = g ∧ pointer = m.pointer g.vector + bucketsBefore ∧ inserted = false
  else
    let marked := bits.setBit bucket 1
    let bucketsAfter := marked.bucketsAfter numberOfBucketsInGroup bucket
    let requiredElements := bucketsBefore + 1 + bucketsAfter
    ∃ newVector m₁, m.Allocates SmartPointer_NULL requiredElements newVector m₁ ∧
      let m₂ := fillVector m₁ (m₁.pointer newVector) (m₁.pointer g.vector) bucketsBefore
        bucketsAfter key
      -- garbage the old vector
      (if g.vector ≠ SmartPointer_NULL then m₂.Deallocates SmartPointer_NULL g.vector m'
        else m' = m₂) ∧
      g' = { vector := newVector, bitmap := marked.bitmap } ∧
      pointer = m'.pointer newVector + bucketsBefore ∧ inserted = true

/-! ## The copies -/

section Fill

variable [HashValue K V] {m : MovingMemory V} {newVector vector before after : Nat} (key : K)

/-- The old vector and the new one do not overlap. -/
structure Separate (m : MovingMemory V) (newVector vector before after : Nat) : Prop where
  sound : m.Sound SmartPointer_NULL
  ne : vector ≠ newVector
  newSize : m.size newVector = before + 1 + after
  size : m.size vector = before + after

omit [HashValue K V] in
theorem Separate.ranges (h : Separate m newVector vector before after) :
    before + after = 0 ∨
      m.pointer newVector + (before + 1 + after) ≤ m.pointer vector ∨
      m.pointer vector + (before + after) ≤ m.pointer newVector := by
  by_cases hzero : before + after = 0
  · exact .inl hzero
  · have hnew := h.newSize
    have hold := h.size
    have hdisjoint := h.sound.disjoint newVector vector h.ne.symm (by omega) (by omega)
    unfold MovingMemory.Disjoint at hdisjoint
    rw [hnew, hold] at hdisjoint
    exact .inr hdisjoint

/-- What the copies leave in each cell. -/
theorem cells_fillVector (h : Separate m newVector vector before after) (p : Nat) :
    (fillVector m (m.pointer newVector) (m.pointer vector) before after key).cells p =
      if p = m.pointer newVector + before then
        setKey (m.cells (m.pointer newVector + before)) key
      else if m.pointer newVector ≤ p ∧ p < m.pointer newVector + before then
        m.cells (m.pointer vector + (p - m.pointer newVector))
      else if m.pointer newVector + (before + 1) ≤ p ∧
          p < m.pointer newVector + (before + 1) + after then
        m.cells (m.pointer vector + before + (p - (m.pointer newVector + (before + 1))))
      else m.cells p := by
  have hranges := h.ranges
  let first := m.copy (m.pointer newVector) (m.pointer vector) before
  have hfirst : ∀ q, first.cells q = _ := MovingMemory.cells_copy m (by omega)
  have hsecond : ∀ q, (first.copy (m.pointer newVector + (before + 1))
      (m.pointer vector + before) after).cells q = _ :=
    MovingMemory.cells_copy first (by omega)
  have hgap : (first.copy (m.pointer newVector + (before + 1)) (m.pointer vector + before)
      after).cells (m.pointer newVector + before) = m.cells (m.pointer newVector + before) := by
    rw [hsecond, if_neg (by omega), hfirst, if_neg (by omega)]
  show Function.update _ (m.pointer newVector + before) (setKey _ key) p = _
  by_cases hp : p = m.pointer newVector + before
  · subst hp
    rw [Function.update_self, if_pos rfl, hgap]
  · rw [Function.update_of_ne hp, if_neg hp, hsecond]
    by_cases hlow : m.pointer newVector ≤ p ∧ p < m.pointer newVector + before
    · rw [if_neg (by omega), hfirst, if_pos hlow, if_pos hlow]
    · rw [if_neg hlow]
      by_cases hhigh : m.pointer newVector + (before + 1) ≤ p ∧
          p < m.pointer newVector + (before + 1) + after
      · rw [if_pos hhigh, if_pos hhigh, hfirst, if_neg (by omega)]
      · rw [if_neg hhigh, if_neg hhigh, hfirst, if_neg hlow]

theorem size_fillVector (m : MovingMemory V) (p q before after : Nat) :
    (fillVector m p q before after key).size = m.size := by
  rw [fillVector, MovingMemory.size_write, MovingMemory.size_copy, MovingMemory.size_copy]

theorem pointer_fillVector (m : MovingMemory V) (p q before after : Nat) :
    (fillVector m p q before after key).pointer = m.pointer := by
  rw [fillVector, MovingMemory.pointer_write, MovingMemory.pointer_copy, MovingMemory.pointer_copy]

theorem sound_fillVector (h : m.Sound SmartPointer_NULL) (p q before after : Nat) :
    (fillVector m p q before after key).Sound SmartPointer_NULL := by
  refine ⟨?_, fun a b => ?_⟩
  · rw [size_fillVector]
    exact h.null
  · rw [MovingMemory.Disjoint, size_fillVector, pointer_fillVector]
    exact h.disjoint a b

/-- Nothing is written outside the new vector. -/
theorem kept_fillVector (h : Separate m newVector vector before after) :
    m.Kept (fillVector m (m.pointer newVector) (m.pointer vector) before after key) newVector := by
  intro a ha
  rw [size_fillVector, pointer_fillVector]
  refine ⟨rfl, fun i hi => ?_⟩
  have hnew := h.newSize
  have hdisjoint := h.sound.disjoint a newVector ha (by omega) (by omega)
  unfold MovingMemory.Disjoint at hdisjoint
  rw [cells_fillVector key h, if_neg (by omega), if_neg (by omega), if_neg (by omega)]

/-- The new vector is the old one around the new entry. -/
theorem read_fillVector (h : Separate m newVector vector before after) :
    (fillVector m (m.pointer newVector) (m.pointer vector) before after key).read newVector =
      (m.read vector).take before ++
        setKey (m.cells (m.pointer newVector + before)) key :: (m.read vector).drop before := by
  have hnew := h.newSize
  have hold := h.size
  have hlength : (m.read vector).length = before + after := by
    rw [MovingMemory.length_read, hold]
  apply List.ext_getElem?
  intro i
  by_cases hi : i < before + 1 + after
  · rw [MovingMemory.getElem?_read (by rw [size_fillVector]; omega), pointer_fillVector,
      cells_fillVector key h]
    rcases Nat.lt_trichotomy i before with hlt | rfl | hgt
    · rw [if_neg (by omega), if_pos (by omega), Nat.add_sub_cancel_left,
        List.getElem?_append_left (by rw [List.length_take]; omega), List.getElem?_take_of_lt hlt,
        MovingMemory.getElem?_read (by omega)]
    · rw [if_pos rfl, List.getElem?_append_right (by rw [List.length_take]; omega),
        List.length_take, hlength, Nat.min_eq_left (by omega), Nat.sub_self]
      rfl
    · obtain ⟨k, rfl⟩ := Nat.exists_eq_add_of_lt hgt
      rw [if_neg (by omega), if_neg (by omega), if_pos (by omega),
        List.getElem?_append_right (by rw [List.length_take]; omega), List.length_take, hlength,
        Nat.min_eq_left (by omega), (by omega : before + k + 1 - before = k + 1),
        List.getElem?_cons_succ, List.getElem?_drop, MovingMemory.getElem?_read (by omega)]
      congr 2
      omega
  · rw [List.getElem?_eq_none, List.getElem?_eq_none]
    · rw [List.length_append, List.length_cons, List.length_take, List.length_drop, hlength]
      omega
    · rw [MovingMemory.length_read, size_fillVector]
      omega

end Fill

/-! ## Insertion -/

section Insertion

variable {m m' : MovingMemory V} {g g' : PackedGroup} {w bucket pointer : Nat} {inserted : Bool}

/-- The group `g` of `w` buckets, with its vector in memory. -/
structure Owns (w : Nat) (m : MovingMemory V) (g : PackedGroup) : Prop where
  sound : m.Sound SmartPointer_NULL
  live : g.vector ≠ SmartPointer_NULL → m.size g.vector ≠ 0
  wf : (g.contents m).Wf w

theorem contents_constructor (h : m.Sound SmartPointer_NULL) :
    constructor.contents m = MyHashTableGroup.empty := by
  show MyHashTableGroup.mk (m.read SmartPointer_NULL) 0#64 = _
  rw [MovingMemory.read_eq_nil h.null]
  rfl

theorem constructor_owns (hw : w ≤ 64) (h : m.Sound SmartPointer_NULL) :
    Owns w m constructor := by
  refine ⟨h, fun hne => absurd rfl hne, ?_⟩
  rw [contents_constructor h]
  exact MyHashTableGroup.empty_wf hw

theorem Owns.of_kept {touched : Nat} (h : Owns w m g) (hne : g.vector ≠ touched)
    (hkept : m.Kept m' touched) (hsound : m'.Sound SmartPointer_NULL) : Owns w m' g := by
  refine ⟨hsound, fun hnull => ?_, ?_⟩
  · rw [(hkept _ hne).1]
    exact h.live hnull
  · rw [contents, hkept.read hne]
    exact h.wf

/-- The entries before and after a free bucket are all there are. -/
theorem Owns.before_add_after (h : Owns w m g) (hb : bucket < w)
    (hfree : ¬(g.bits : MyHashTableGroup V).getBit bucket = 1) :
    (g.bits : MyHashTableGroup V).getBucketsBefore bucket +
      ((g.bits : MyHashTableGroup V).setBit bucket 1).bucketsAfter w bucket = m.size g.vector := by
  have hall := h.wf.before_add_after hb hfree
  rw [← MovingMemory.length_read]
  exact hall

theorem Owns.free (h : Owns w m g) (hb : bucket < w)
    (hfree : ¬(g.bits : MyHashTableGroup V).getBit bucket = 1) :
    (g.contents m).entry bucket = none := by
  have hw := h.wf.width
  apply ((g.contents m).getBit_eq_zero_iff h.wf hb).mp
  rw [MyHashTableGroup.getBit_eq _ bucket (by omega),
    (g.contents m).occ_eq_false (by omega) hfree]
  rfl

variable [HashValue K V] {key : K}

/-- An insertion into a free bucket, call by call. -/
theorem Insert.stages (h : Owns w m g) (hb : bucket < w)
    (hfree : ¬(g.bits : MyHashTableGroup V).getBit bucket = 1)
    (hinsert : Insert m g w bucket key m' g' pointer inserted) :
    ∃ m₁ before after, Separate m₁ g'.vector g.vector before after ∧
      before = (g.bits : MyHashTableGroup V).getBucketsBefore bucket ∧
      m.size g'.vector = 0 ∧ m.Kept m₁ g'.vector ∧ m'.Sound SmartPointer_NULL ∧
      (fillVector m₁ (m₁.pointer g'.vector) (m₁.pointer g.vector) before after key).Kept m'
        g.vector ∧
      g'.bitmap = ((g.bits : MyHashTableGroup V).setBit bucket 1).bitmap ∧
      pointer = m'.pointer g'.vector + before ∧ inserted = true := by
  unfold Insert at hinsert
  rw [if_neg hfree] at hinsert
  obtain ⟨newVector, m₁, halloc, hgarbage, rfl, rfl, rfl⟩ := hinsert
  have hne : g.vector ≠ newVector := by
    rintro rfl
    by_cases hnull : g.vector = SmartPointer_NULL
    · have hzero := halloc.sound.null
      rw [← hnull, halloc.size] at hzero
      omega
    · exact h.live hnull halloc.fresh
  have hseparate : Separate m₁ newVector g.vector _ _ :=
    ⟨halloc.sound, hne, halloc.size,
      (halloc.kept _ hne).1.trans (h.before_add_after hb hfree).symm⟩
  refine ⟨m₁, _, _, hseparate, rfl, halloc.fresh, halloc.kept, ?_, ?_, rfl, rfl, rfl⟩
  · split at hgarbage
    · exact hgarbage.sound
    · rw [hgarbage]
      exact sound_fillVector key halloc.sound _ _ _ _
  · split at hgarbage
    · exact hgarbage.kept
    · rw [hgarbage]
      exact fun a _ => ⟨rfl, fun _ _ => rfl⟩

/-- In memory, `insert` computes what it computes on the packed list. -/
theorem Insert.contents (h : Owns w m g) (hb : bucket < w)
    (hinsert : Insert m g w bucket key m' g' pointer inserted) :
    Owns w m' g' ∧ ∃ fresh index,
      (g.contents m).insert w bucket key fresh = (g'.contents m', index, inserted) ∧
        pointer = m'.pointer g'.vector + index := by
  by_cases hbit : (g.bits : MyHashTableGroup V).getBit bucket = 1
  · unfold Insert at hinsert
    rw [if_pos hbit] at hinsert
    obtain ⟨rfl, rfl, rfl, rfl⟩ := hinsert
    refine ⟨h, m'.cells 0, _, ?_, rfl⟩
    rw [MyHashTableGroup.insert]
    exact if_pos hbit
  · obtain ⟨m₁, before, after, hseparate, hbefore, -, hkept₁, hsound, hkept₂, hbitmap, rfl, rfl⟩ :=
      hinsert.stages h hb hbit
    have hold : m₁.read g.vector = m.read g.vector := hkept₁.read hseparate.ne
    have hread := (hkept₂.read hseparate.ne.symm).trans (read_fillVector key hseparate)
    rw [hold] at hread
    let fresh := m₁.cells (m₁.pointer g'.vector + before)
    have hdrop : ((m.read g.vector).drop before).take
        (((g.contents m).setBit bucket 1).bucketsAfter w bucket) =
          (m.read g.vector).drop before := by
      apply List.take_of_length_le
      have hall : before + ((g.contents m).setBit bucket 1).bucketsAfter w bucket =
          m.size g.vector := hbefore ▸ h.before_add_after hb hbit
      rw [List.length_drop, MovingMemory.length_read]
      omega
    have hlist : (g.contents m).insert w bucket key fresh = (g'.contents m', before, true) := by
      have hvector : g'.contents m' = { (g.contents m).setBit bucket 1 with
          vector := (m.read g.vector).take before ++
            setKey fresh key :: (m.read g.vector).drop before } := by
        rw [PackedGroup.contents, hread, hbitmap]
        rfl
      rw [MyHashTableGroup.insert, hvector, ← hdrop, hbefore]
      exact if_neg hbit
    obtain ⟨grown, hgrown, hwf, -⟩ :=
      (g.contents m).insert_free h.wf hb (h.free hb hbit) key fresh
    have hsame : g'.contents m' = grown := congrArg Prod.fst (hlist.symm.trans hgrown)
    refine ⟨⟨hsound, fun _ => ?_, hsame ▸ hwf⟩, fresh, before, hlist, rfl⟩
    have hlength := congrArg List.length hread
    rw [MovingMemory.length_read, List.length_append, List.length_cons] at hlength
    omega

/-- When the allocator serves the request for one more element, `insert` ends. -/
theorem Owns.exists_insert (h : Owns w m g) (hb : bucket < w) (key : K) {a : Nat}
    {m₁ : MovingMemory V} (halloc : m.Allocates SmartPointer_NULL (m.size g.vector + 1) a m₁) :
    ∃ m' g' pointer inserted, Insert m g w bucket key m' g' pointer inserted := by
  by_cases hbit : (g.bits : MyHashTableGroup V).getBit bucket = 1
  · exact ⟨m, g, _, false, (if_pos hbit).mpr ⟨rfl, rfl, rfl, rfl⟩⟩
  · let before := (g.bits : MyHashTableGroup V).getBucketsBefore bucket
    let after := ((g.bits : MyHashTableGroup V).setBit bucket 1).bucketsAfter w bucket
    have hrequired : m.size g.vector + 1 = before + 1 + after := by
      rw [← h.before_add_after hb hbit, Nat.add_right_comm]
    let m₂ := fillVector m₁ (m₁.pointer a) (m₁.pointer g.vector) before after key
    have hgarbage : ∃ m', if g.vector ≠ SmartPointer_NULL then
        m₂.Deallocates SmartPointer_NULL g.vector m' else m' = m₂ := by
      split
      · exact (sound_fillVector key halloc.sound _ _ _ _).exists_deallocates g.vector
      · exact ⟨m₂, rfl⟩
    obtain ⟨m', hm'⟩ := hgarbage
    rw [hrequired] at halloc
    exact ⟨m', _, _, true, (if_neg hbit).mpr ⟨a, m₁, halloc, hm', rfl, rfl, rfl⟩⟩

omit [HashValue K V] in
/-- The entry of an occupied bucket is where `getBucket` and `find` say. -/
theorem Owns.cells_getBucket (h : Owns w m g) (hb : bucket < w) {v : V}
    (hentry : (g.contents m).entry bucket = some v) :
    g.getBucket m bucket = m.pointer g.vector + rank g.bitmap.getLsbD bucket ∧
      g.find m bucket = some (g.getBucket m bucket) ∧ m.cells (g.getBucket m bucket) = v := by
  have hw := h.wf.width
  have hbefore : g.getBucket m bucket = m.pointer g.vector + rank g.bitmap.getLsbD bucket :=
    congrArg (m.pointer g.vector + ·)
      (MyHashTableGroup.getBucketsBefore_eq (g.bits : MyHashTableGroup V) (by omega))
  have hcell := (g.contents m).entry_eq_getElem (by rw [hentry]; exact Option.some_ne_none v)
  rw [hentry] at hcell
  have hlt : rank g.bitmap.getLsbD bucket < m.size g.vector := by
    rw [← MovingMemory.length_read]
    exact (List.getElem?_eq_some_iff.mp hcell).1
  have hread := MovingMemory.getElem?_read hlt
  have hbit : ¬(g.contents m).getBit bucket = 0 := by
    rw [(g.contents m).getBit_eq_zero_iff h.wf hb, hentry]
    exact Option.some_ne_none v
  refine ⟨hbefore, if_neg hbit, ?_⟩
  rw [hbefore]
  exact Option.some.inj (hread.symm.trans hcell)

/-- What `insert` does to a free bucket. -/
structure InsertsNew (m : MovingMemory V) (g : PackedGroup) (bucket : Nat) (key : K)
    (m' : MovingMemory V) (g' : PackedGroup) (pointer : Nat) (inserted : Bool) : Prop where
  reported : inserted = true
  bits : g'.bitmap.getLsbD = Function.update g.bitmap.getLsbD bucket true
  address : pointer = g'.getBucket m' bucket
  keyed : getKey (m'.cells pointer) = key
  entries : (g'.contents m').entry =
    Function.update (g.contents m).entry bucket (some (m'.cells pointer))

theorem Insert.new (h : Owns w m g) (hb : bucket < w)
    (hfree : (g.contents m).entry bucket = none)
    (hinsert : Insert m g w bucket key m' g' pointer inserted) :
    InsertsNew m g bucket key m' g' pointer inserted := by
  have hw := h.wf.width
  obtain ⟨howns, fresh, index, hlist, hpointer⟩ := hinsert.contents h hb
  obtain ⟨grown, hgrown, -, hentry⟩ := (g.contents m).insert_free h.wf hb hfree key fresh
  obtain ⟨hgroup, hrest⟩ := Prod.mk.inj (hlist.symm.trans hgrown)
  obtain ⟨-, hinserted⟩ := Prod.mk.inj hrest
  have hbit : ¬(g.bits : MyHashTableGroup V).getBit bucket = 1 := by
    have hzero : (g.bits : MyHashTableGroup V).getBit bucket = 0 :=
      ((g.contents m).getBit_eq_zero_iff h.wf hb).mpr hfree
    omega
  obtain ⟨m₁, before, after, -, hbefore, -, -, -, -, hbitmap, hpointer', -⟩ :=
    hinsert.stages h hb hbit
  rw [← hgroup] at hentry
  have hnew : (g'.contents m').entry bucket = some (setKey fresh key) := by
    rw [hentry, Function.update_self]
  obtain ⟨hrank, -, hcells⟩ := howns.cells_getBucket hb hnew
  have hocc : g'.bitmap.getLsbD = Function.update g.bitmap.getLsbD bucket true := by
    rw [hbitmap]
    exact MyHashTableGroup.occ_setBit (g.bits : MyHashTableGroup V) bucket (by omega)
  have haddress : pointer = g'.getBucket m' bucket := by
    rw [hrank, hpointer', hbefore, MyHashTableGroup.getBucketsBefore_eq _ (by omega), hocc]
    congr 1
    apply rank_congr
    intro i hi
    rw [Function.update_of_ne (by omega)]
    rfl
  rw [← haddress] at hcells
  refine ⟨hinserted, hocc, haddress, ?_, ?_⟩
  · rw [hcells, HashValue.getKey_setKey]
  · rw [hentry, hcells]

theorem Insert.present (h : Owns w m g) (hb : bucket < w)
    (hocc : (g.contents m).entry bucket ≠ none)
    (hinsert : Insert m g w bucket key m' g' pointer inserted) :
    m' = m ∧ g' = g ∧ pointer = g.getBucket m bucket ∧ inserted = false := by
  have hbit : (g.bits : MyHashTableGroup V).getBit bucket = 1 := by
    by_contra hbit
    exact hocc (h.free hb hbit)
  unfold Insert at hinsert
  rw [if_pos hbit] at hinsert
  exact hinsert

/-- The other groups of the table stay as they are. -/
theorem Insert.other (h : Owns w m g) (hb : bucket < w)
    (hinsert : Insert m g w bucket key m' g' pointer inserted) {w' : Nat} {other : PackedGroup}
    (hother : Owns w' m other)
    (hne : other.vector ≠ SmartPointer_NULL → other.vector ≠ g.vector) :
    Owns w' m' other ∧ other.contents m' = other.contents m := by
  by_cases hbit : (g.bits : MyHashTableGroup V).getBit bucket = 1
  · unfold Insert at hinsert
    rw [if_pos hbit] at hinsert
    rw [hinsert.1]
    exact ⟨hother, rfl⟩
  · obtain ⟨m₁, before, after, hseparate, -, hfresh, hkept₁, hsound, hkept₂, -⟩ :=
      hinsert.stages h hb hbit
    have hread : m'.read other.vector = m.read other.vector := by
      by_cases hnull : other.vector = SmartPointer_NULL
      · rw [hnull, MovingMemory.read_eq_nil hsound.null, MovingMemory.read_eq_nil h.sound.null]
      · have hnew : other.vector ≠ g'.vector := by
          intro heq
          exact hother.live hnull (heq ▸ hfresh)
        rw [hkept₂.read (hne hnull), (kept_fillVector key hseparate).read hnew, hkept₁.read hnew]
    have hsame : other.contents m' = other.contents m := by
      rw [PackedGroup.contents, hread]
      rfl
    refine ⟨⟨hsound, fun hnull => ?_, hsame ▸ hother.wf⟩, hsame⟩
    rw [← MovingMemory.length_read, hread, MovingMemory.length_read]
    exact hother.live hnull

end Insertion

end PackedGroup

/-! ## Runs -/

/-- A group, the memory that it shares with other clients of the allocator, and the entries that
its buckets were given. -/
structure GroupOwner (V : Type*) where
  memory : MovingMemory V
  group : PackedGroup
  stored : Nat → Option V

inductive GroupOwnerCall (K V : Type*)
  | insert (bucket : Nat) (key : K)
  /-- an assignment through the address of an entry -/
  | assign (bucket : Nat) (value : V)
  /-- the calls and the writes of the other clients -/
  | allocate (n a : Nat)
  | deallocate (a : Nat)
  | write (a i : Nat) (value : V)

namespace GroupOwner

open PackedGroup

variable {K V : Type*} [HashValue K V]

/-- The runs of a group of `w` buckets. -/
def system (K V : Type*) [HashValue K V] (w : Nat) :
    TransitionSystem (GroupOwner V) (GroupOwnerCall K V) :=
  { init := fun s => s.memory.Sound SmartPointer_NULL ∧ s.group = .constructor ∧
      s.stored = fun _ => none
    step := fun s call s' =>
      match call with
      | .insert bucket key => bucket < w ∧ ∃ pointer inserted,
          Insert s.memory s.group w bucket key s'.memory s'.group pointer inserted ∧
            s'.stored = if inserted then
              Function.update s.stored bucket (some (s'.memory.cells pointer)) else s.stored
      | .assign bucket value => bucket < w ∧ ∃ pointer, s.group.find s.memory bucket = some pointer ∧
          s' = { s with
            memory := s.memory.write pointer value
            stored := Function.update s.stored bucket (some value) }
      | .allocate n a => 1 ≤ n ∧ s.memory.Allocates SmartPointer_NULL n a s'.memory ∧
          s'.group = s.group ∧ s'.stored = s.stored
      | .deallocate a => a ≠ s.group.vector ∧ s.memory.Deallocates SmartPointer_NULL a s'.memory ∧
          s'.group = s.group ∧ s'.stored = s.stored
      | .write a i value => a ≠ s.group.vector ∧ i < s.memory.size a ∧
          s' = { s with memory := s.memory.write (s.memory.pointer a + i) value } }

/-- The vector holds what was stored. -/
structure Inv (w : Nat) (s : GroupOwner V) : Prop where
  owns : Owns w s.memory s.group
  stored : ∀ b < w, (s.group.contents s.memory).entry b = s.stored b

theorem Inv.insert {w bucket pointer : Nat} {s s' : GroupOwner V} {key : K} {inserted : Bool}
    (h : s.Inv w) (hb : bucket < w)
    (hinsert : Insert s.memory s.group w bucket key s'.memory s'.group pointer inserted)
    (hstored : s'.stored = if inserted then
      Function.update s.stored bucket (some (s'.memory.cells pointer)) else s.stored) :
    s'.Inv w := by
  refine ⟨(hinsert.contents h.owns hb).1, fun b hlt => ?_⟩
  by_cases hfree : (s.group.contents s.memory).entry bucket = none
  · have hnew := hinsert.new h.owns hb hfree
    rw [hstored, hnew.reported, if_pos rfl, hnew.entries]
    by_cases hbb : b = bucket
    · rw [hbb, Function.update_self, Function.update_self]
    · rw [Function.update_of_ne hbb, Function.update_of_ne hbb]
      exact h.stored b hlt
  · obtain ⟨hmemory, hgroup, -, hinserted⟩ := hinsert.present h.owns hb hfree
    rw [hstored, hinserted, hmemory, hgroup]
    exact h.stored b hlt

/-- A call of another client moves the vector and leaves its contents. -/
theorem Inv.of_kept {w touched : Nat} {s s' : GroupOwner V} (h : s.Inv w)
    (hne : s.group.vector ≠ touched) (hkept : s.memory.Kept s'.memory touched)
    (hsound : s'.memory.Sound SmartPointer_NULL) (hgroup : s'.group = s.group)
    (hstored : s'.stored = s.stored) : s'.Inv w := by
  refine ⟨?_, fun b hb => ?_⟩
  · rw [hgroup]
    exact h.owns.of_kept hne hkept hsound
  · rw [hgroup, hstored, PackedGroup.contents, hkept.read hne]
    exact h.stored b hb

omit [HashValue K V] in
theorem Inv.assign {w bucket pointer : Nat} {s : GroupOwner V} (h : s.Inv w) (hb : bucket < w)
    (hfind : s.group.find s.memory bucket = some pointer) (value : V) :
    Inv w { s with
      memory := s.memory.write pointer value
      stored := Function.update s.stored bucket (some value) } := by
  have hne : (s.group.contents s.memory).entry bucket ≠ none := by
    intro hfree
    have hzero : (s.group.bits : MyHashTableGroup V).getBit bucket = 0 :=
      ((s.group.contents s.memory).getBit_eq_zero_iff h.owns.wf hb).mpr hfree
    rw [PackedGroup.find, if_pos hzero] at hfind
    cases hfind
  obtain ⟨v, hv⟩ := Option.ne_none_iff_exists'.mp hne
  obtain ⟨haddress, hfind', -⟩ := h.owns.cells_getBucket hb hv
  obtain rfl : pointer = _ := (Option.some.inj (hfind.symm.trans hfind')).trans haddress
  have hlt : rank s.group.bitmap.getLsbD bucket < s.memory.size s.group.vector := by
    have hcell := (s.group.contents s.memory).entry_eq_getElem hne
    rw [hv] at hcell
    rw [← MovingMemory.length_read]
    exact (List.getElem?_eq_some_iff.mp hcell).1
  have hcontents : s.group.contents (s.memory.write
      (s.memory.pointer s.group.vector + rank s.group.bitmap.getLsbD bucket) value) =
      (s.group.contents s.memory).store (rank s.group.bitmap.getLsbD bucket) value := by
    rw [PackedGroup.contents, MovingMemory.read_write hlt]
    rfl
  refine ⟨⟨h.owns.sound.write _ _, h.owns.live, ?_⟩, fun b hlt' => ?_⟩
  · exact hcontents ▸ MyHashTableGroup.store_wf h.owns.wf _ _
  · show (s.group.contents (s.memory.write _ value)).entry b =
      Function.update s.stored bucket (some value) b
    have hstore := MyHashTableGroup.entry_store h.owns.wf hb hne value
    rw [hcontents]
    refine (congrFun hstore b).trans ?_
    by_cases hbb : b = bucket
    · rw [hbb, Function.update_self, Function.update_self]
    · rw [Function.update_of_ne hbb, Function.update_of_ne hbb]
      exact h.stored b hlt'

omit [HashValue K V] in
theorem Inv.allocated_ne {w n a : Nat} {s : GroupOwner V} {m' : MovingMemory V} (h : s.Inv w)
    (hn : 1 ≤ n) (halloc : s.memory.Allocates SmartPointer_NULL n a m') :
    s.group.vector ≠ a := by
  rintro rfl
  by_cases hnull : s.group.vector = SmartPointer_NULL
  · have hzero := halloc.sound.null
    rw [← hnull, halloc.size] at hzero
    omega
  · exact h.owns.live hnull halloc.fresh

theorem inv_inductive {w : Nat} (hw : w ≤ 64) : (system K V w).Inductive (Inv w) where
  init := by
    rintro s ⟨hsound, hgroup, hstored⟩
    refine ⟨hgroup ▸ constructor_owns hw hsound, fun b _ => ?_⟩
    rw [hstored, hgroup, contents_constructor hsound]
    exact MyHashTableGroup.entry_empty b
  step := by
    intro s call s' h hstep
    cases call with
    | insert bucket key =>
        obtain ⟨hb, pointer, inserted, hinsert, hstored⟩ := hstep
        exact h.insert hb hinsert hstored
    | assign bucket value =>
        obtain ⟨hb, pointer, hfind, rfl⟩ := hstep
        exact h.assign hb hfind value
    | allocate n a =>
        obtain ⟨hn, halloc, hgroup, hstored⟩ := hstep
        exact h.of_kept (h.allocated_ne hn halloc) halloc.kept halloc.sound hgroup hstored
    | deallocate a =>
        obtain ⟨hne, hdealloc, hgroup, hstored⟩ := hstep
        exact h.of_kept hne.symm hdealloc.kept hdealloc.sound hgroup hstored
    | write a i value =>
        obtain ⟨hne, hi, rfl⟩ := hstep
        exact h.of_kept hne.symm (MovingMemory.kept_write h.owns.sound hi value)
          (h.owns.sound.write _ _) rfl rfl

/-- Bits beyond the group are clear, so that all set bits count. -/
theorem countBits_eq_size {w : Nat} {m : MovingMemory V} {g : PackedGroup} (h : Owns w m g) :
    m.size g.vector = MyHashTableGroup.countBits g.bitmap := by
  have hclear : ∀ n, w ≤ n → rank g.bitmap.getLsbD n = rank g.bitmap.getLsbD w := by
    intro n hn
    induction n, hn using Nat.le_induction with
    | base => rfl
    | succ n hn ih =>
        have hbit : g.bitmap.getLsbD n = false := h.wf.clear n hn
        rw [rank_succ, ih, hbit]
        rfl
  rw [MyHashTableGroup.countBits_eq, hclear 64 h.wf.width, ← MovingMemory.length_read]
  exact h.wf.length

/-- The vector of a group of `w` buckets is a sparse array of what was stored, and `insert`
keeps it so. -/
structure IsSparseArray (K : Type*) [HashValue K V] (w : Nat) (s : GroupOwner V) : Prop where
  count : s.memory.size s.group.vector = MyHashTableGroup.countBits s.group.bitmap
  bits : ∀ b, s.group.bitmap.getLsbD b = true ↔ b < w ∧ s.stored b ≠ none
  entry : ∀ b < w, ∀ v, s.stored b = some v →
    s.group.getBucket s.memory b =
        s.memory.pointer s.group.vector + rank s.group.bitmap.getLsbD b ∧
      s.group.find s.memory b = some (s.group.getBucket s.memory b) ∧
      s.memory.cells (s.group.getBucket s.memory b) = v
  free : ∀ b < w, s.stored b = none → s.group.find s.memory b = none
  insert : ∀ b < w, ∀ (key : K) m' g' pointer inserted,
    Insert s.memory s.group w b key m' g' pointer inserted → s.stored b = none →
    inserted = true ∧ g'.bitmap.getLsbD = Function.update s.group.bitmap.getLsbD b true ∧
      pointer = g'.getBucket m' b ∧ getKey (m'.cells pointer) = key ∧
      ∀ c < w, c ≠ b → ∀ v, s.stored c = some v →
        g'.find m' c = some (g'.getBucket m' c) ∧ m'.cells (g'.getBucket m' c) = v
  insertAgain : ∀ b < w, ∀ (key : K) m' g' pointer inserted,
    Insert s.memory s.group w b key m' g' pointer inserted → s.stored b ≠ none →
    m' = s.memory ∧ g' = s.group ∧ pointer = s.group.getBucket s.memory b ∧ inserted = false

theorem Inv.isSparseArray {w : Nat} {s : GroupOwner V} (h : s.Inv w) : IsSparseArray K w s := by
  refine ⟨countBits_eq_size h.owns, fun b => ?_, fun b hb v hv => ?_, fun b hb hfree => ?_, ?_, ?_⟩
  · by_cases hb : b < w
    · have hsome := get_isSome h.owns.wf.length hb
      rw [← h.stored b hb, ← Option.isSome_iff_ne_none]
      show s.group.bitmap.getLsbD b = true ↔ b < w ∧ (get _ _ b).isSome = true
      rw [hsome]
      exact (and_iff_right hb).symm
    · have hbit : s.group.bitmap.getLsbD b = false := h.owns.wf.clear b (Nat.le_of_not_lt hb)
      rw [hbit]
      exact ⟨fun hfalse => (Bool.false_ne_true hfalse).elim, fun hlt => absurd hlt.1 hb⟩
  · exact h.owns.cells_getBucket hb ((h.stored b hb).trans hv)
  · rw [← h.stored b hb] at hfree
    exact if_pos (((s.group.contents s.memory).getBit_eq_zero_iff h.owns.wf hb).mpr hfree)
  · intro b hb key m' g' pointer inserted hinsert hfree
    have hnew := hinsert.new h.owns hb ((h.stored b hb).trans hfree)
    refine ⟨hnew.reported, hnew.bits, hnew.address, hnew.keyed, fun c hc hne v hv => ?_⟩
    have hentry : (g'.contents m').entry c = some v := by
      rw [hnew.entries, Function.update_of_ne hne, h.stored c hc, hv]
    exact ((hinsert.contents h.owns hb).1.cells_getBucket hc hentry).2
  · intro b hb key m' g' pointer inserted hinsert hocc
    exact hinsert.present h.owns hb (h.stored b hb ▸ hocc)

/-- In every run of a group of at most 64 buckets, whatever blocks the allocator moves. -/
theorem groupOwner_sparse {w : Nat} (hw : w ≤ 64) {s : GroupOwner V}
    (hs : (system K V w).Reachable s) : IsSparseArray K w s :=
  ((inv_inductive hw).holds hs).isSparseArray

/-- Values of one byte, which is also their key. -/
instance byteValue : HashValue UInt8 (Fin 1 → UInt8) :=
  ⟨fun v => v 0, fun _ k => fun _ => k, fun _ _ => rfl⟩

/-- The first entry of a group, in the highest bucket, in the memory of a `DefragmentationGroup`. -/
theorem groupOwner_sparse_highest : ∃ s : GroupOwner (Fin 1 → UInt8),
    (system UInt8 (Fin 1 → UInt8) 64).Reachable s ∧ s.group.bitmap.getLsbD 63 = true ∧
      IsSparseArray UInt8 64 s := by
  let g : DefragmentationGroup := .constructor fun _ => 0
  let scratch : Scratch := ⟨fun _ => 0, fun _ => 0⟩
  have hwell : g.WellPlaced := DefragmentationGroup.constructor_wellPlaced _
  have hcan : g.canAllocate (1 : Nat) := by
    show (1 : Int) ≤ 65536 - 0
    decide
  have halloc := DefragmentationGroup.allocates_view hwell (by decide : 1 ≤ 1) (by decide)
    (by decide) hcan scratch
  let start : GroupOwner (Fin 1 → UInt8) :=
    { memory := g.view 1, group := .constructor, stored := fun _ => none }
  have hstart : (system UInt8 (Fin 1 → UInt8) 64).Reachable start :=
    .init ⟨DefragmentationGroup.sound_view hwell, rfl, rfl⟩
  have howns : Owns 64 start.memory start.group :=
    constructor_owns (by decide) (DefragmentationGroup.sound_view hwell)
  obtain ⟨m', g', pointer, inserted, hinsert⟩ :=
    howns.exists_insert (by decide : 63 < 64) (7 : UInt8) halloc
  let s : GroupOwner (Fin 1 → UInt8) := ⟨m', g', if inserted then
    Function.update start.stored 63 (some (m'.cells pointer)) else start.stored⟩
  have hs : (system UInt8 (Fin 1 → UInt8) 64).Reachable s :=
    hstart.step (l := .insert 63 7) ⟨by decide, pointer, inserted, hinsert, rfl⟩
  refine ⟨s, hs, ?_, groupOwner_sparse (by decide) hs⟩
  have hbit := ((groupOwner_sparse (by decide) hstart).insert 63 (by decide) 7 m' g' pointer
    inserted hinsert rfl).2.1
  show g'.bitmap.getLsbD 63 = true
  rw [hbit, Function.update_self]

end GroupOwner

end RayPlatform
