import Mathlib.Algebra.GroupWithZero.Nat
import Mathlib.Data.Nat.Count
import RayPlatform.Lib.SparseArray

/-!
# MyHashTableGroup

A group is responsible for at most 64 consecutive buckets. Its bitmap says which
buckets are occupied and its vector holds the occupied entries only, packed in
bucket order. The vector is a block of `ChunkAllocatorWithDefragmentation`; here
it is the list of the block's elements, and `fresh` stands for whatever the
newly allocated block holds at the place of the new entry before `setKey`.
-/

namespace RayPlatform

/-- What `MyHashTable` asks of `class KEY`. -/
class HashKey (K : Type*) where
  hashFunction1 : K → UInt64
  hashFunction2 : K → UInt64

/-- What `MyHashTable` asks of `class VALUE`. -/
class HashValue (K : outParam Type*) (V : Type*) where
  getKey : V → K
  setKey : V → K → V
  getKey_setKey : ∀ v k, getKey (setKey v k) = k

attribute [simp] HashValue.getKey_setKey

export HashKey (hashFunction1 hashFunction2)
export HashValue (getKey setKey)

structure MyHashTableGroup (V : Type*) where
  vector : List V
  bitmap : BitVec 64

namespace MyHashTableGroup

variable {K V : Type*}

/-- `constructor`: `SmartPointer_NULL` and no bit set. -/
def empty : MyHashTableGroup V :=
  { vector := [], bitmap := 0#64 }

instance : Inhabited (MyHashTableGroup V) := ⟨empty⟩

def getBit (g : MyHashTableGroup V) (bit : Nat) : Nat :=
  ((g.bitmap <<< (63 - bit)) >>> 63).toNat

def setBit (g : MyHashTableGroup V) (bit : Nat) (value : Nat) : MyHashTableGroup V :=
  if value = 1 then
    { g with bitmap := g.bitmap ||| (1#64 <<< bit) }
  else if value = 0 then
    { g with bitmap := g.bitmap &&& ~~~(1#64 <<< bit) }
  else g

/-- `__countBits`: the population count of a word. -/
def countBits (map : BitVec 64) : Nat :=
  map.cpop.toNat

/-- The number of occupied buckets before `bucket`. -/
def getBucketsBefore (g : MyHashTableGroup V) (bucket : Nat) : Nat :=
  countBits (g.bitmap &&& ((1#64 <<< bucket) - 1#64))

/-- Is the bucket utilised by someone else than `key`? -/
def bucketIsUtilisedBySomeoneElse [DecidableEq K] [HashValue K V] (g : MyHashTableGroup V)
    (bucket : Nat) (key : K) : Bool :=
  if g.getBit bucket = 0 then false
  else
    match g.vector[g.getBucketsBefore bucket]? with
    | some value => decide (getKey value ≠ key)
    | none => false

/-- The pointer returned by `getBucket`, as an index in the vector. -/
def getBucket (g : MyHashTableGroup V) (bucket : Nat) : Nat :=
  g.getBucketsBefore bucket

/-- `find` trusts its caller: the key is not compared again. -/
def find (g : MyHashTableGroup V) (bucket : Nat) : Option Nat :=
  if g.getBit bucket = 0 then none else some (g.getBucketsBefore bucket)

/-- The number of occupied buckets after `bucket`, as `insert` sums them. -/
def bucketsAfter (g : MyHashTableGroup V) (numberOfBucketsInGroup bucket : Nat) : Nat :=
  ((List.range' (bucket + 1) (numberOfBucketsInGroup - (bucket + 1))).map g.getBit).sum

/-- `insert`: the new group, the index of the entry in the vector, and whether
something was inserted. -/
def insert [HashValue K V] (g : MyHashTableGroup V) (numberOfBucketsInGroup bucket : Nat)
    (key : K) (fresh : V) : MyHashTableGroup V × Nat × Bool :=
  let bucketsBefore := g.getBucketsBefore bucket
  if g.getBit bucket = 1 then (g, bucketsBefore, false)
  else
    let marked := g.setBit bucket 1
    let after := marked.bucketsAfter numberOfBucketsInGroup bucket
    let newVector := g.vector.take bucketsBefore ++ setKey fresh key ::
      (g.vector.drop bucketsBefore).take after
    ({ marked with vector := newVector }, bucketsBefore, true)

/-! ## The group is a sparse array -/

open Lib.SparseArray

/-- The occupancy predicate the bitmap stands for. -/
def occ (g : MyHashTableGroup V) (bucket : Nat) : Bool :=
  g.bitmap.getLsbD bucket

/-- The entry of a bucket. -/
def entry (g : MyHashTableGroup V) (bucket : Nat) : Option V :=
  Lib.SparseArray.get g.occ g.vector bucket

/-- A group of `w` buckets: bits outside the group are clear and the vector has
one cell per set bit. -/
structure Wf (w : Nat) (g : MyHashTableGroup V) : Prop where
  width : w ≤ 64
  clear : ∀ b, w ≤ b → g.occ b = false
  length : g.vector.length = rank g.occ w

/-! ## Words -/

theorem getBit_eq (g : MyHashTableGroup V) (bit : Nat) (h : bit < 64) :
    g.getBit bit = (g.occ bit).toNat := by
  have hword : (g.bitmap <<< (63 - bit)) >>> 63 = (BitVec.ofBool (g.occ bit)).setWidth 64 := by
    apply BitVec.eq_of_getLsbD_eq
    intro i hi
    simp only [BitVec.getLsbD_ushiftRight, BitVec.getLsbD_shiftLeft, BitVec.getLsbD_setWidth,
      BitVec.getLsbD_ofBool]
    by_cases hi0 : i = 0
    · subst hi0
      simp [occ, (by omega : 63 - (63 - bit) = bit)]
    · simp only [hi0, decide_false, Bool.false_and]
      rw [decide_eq_false (by omega : ¬ 63 + i < 64), Bool.false_and, Bool.false_and, Bool.and_false]
  unfold getBit
  rw [hword]
  cases g.occ bit <;> rfl

theorem cpopNatRec_eq_count (map : BitVec 64) (n acc : Nat) :
    map.cpopNatRec n acc = acc + rank map.getLsbD n := by
  induction n generalizing acc with
  | zero => simp
  | succ n ih =>
      rw [BitVec.cpopNatRec_succ, ih, rank_succ]
      cases map.getLsbD n with
      | false => simp
      | true =>
          simp only [Bool.toNat_true, if_true]
          omega

theorem countBits_eq (map : BitVec 64) : countBits map = rank map.getLsbD 64 := by
  rw [countBits, BitVec.toNat_cpop, cpopNatRec_eq_count, Nat.zero_add]

theorem getLsbD_mask {bucket i : Nat} (hb : bucket < 64) :
    ((1#64 <<< bucket) - 1#64).getLsbD i = decide (i < bucket) := by
  have hpow : 2 ^ bucket < 2 ^ 64 := Nat.pow_lt_pow_right (by omega) hb
  have hone : 1 ≤ 2 ^ bucket := Nat.one_le_two_pow
  have hmask : ((1#64 <<< bucket) - 1#64).toNat = 2 ^ bucket - 1 := by
    rw [BitVec.toNat_sub, BitVec.toNat_shiftLeft]
    simp only [BitVec.toNat_ofNat, Nat.shiftLeft_eq]
    omega
  rw [BitVec.getLsbD, hmask, Nat.testBit_two_pow_sub_one]

/-- `getBucketsBefore` is the rank of the bucket. -/
theorem getBucketsBefore_eq (g : MyHashTableGroup V) {bucket : Nat} (hb : bucket < 64) :
    g.getBucketsBefore bucket = rank g.occ bucket := by
  rw [getBucketsBefore, countBits_eq]
  have hcut : ∀ n, bucket ≤ n →
      rank (g.bitmap &&& ((1#64 <<< bucket) - 1#64)).getLsbD n = rank g.occ bucket := by
    intro n hn
    induction n, hn using Nat.le_induction with
    | base =>
        apply rank_congr
        intro i hi
        simp [BitVec.getLsbD_and, getLsbD_mask hb, hi, occ]
    | succ n hn ih =>
        rw [rank_succ, ih]
        simp [BitVec.getLsbD_and, getLsbD_mask hb, hn]
  exact hcut 64 (Nat.le_of_lt hb)

theorem occ_setBit (g : MyHashTableGroup V) (bit : Nat) (h : bit < 64) :
    (g.setBit bit 1).occ = Function.update g.occ bit true := by
  funext i
  simp only [setBit, occ, if_true, BitVec.getLsbD_or, BitVec.getLsbD_shiftLeft,
    BitVec.getLsbD_one]
  by_cases hi : i = bit
  · subst hi
    simp [h]
  · rw [Function.update_of_ne hi]
    by_cases hlt : i < bit
    · simp [hlt, occ]
    · simp [hlt, occ, decide_eq_false (by omega : ¬ i - bit = 0)]

theorem bucketsAfter_eq (g : MyHashTableGroup V) {w bucket : Nat} (hw : w ≤ 64)
    (hb : bucket < w) :
    rank g.occ (bucket + 1) + g.bucketsAfter w bucket = rank g.occ w := by
  have hsum : ∀ n, bucket + 1 + n ≤ 64 →
      rank g.occ (bucket + 1) + ((List.range' (bucket + 1) n).map g.getBit).sum =
        rank g.occ (bucket + 1 + n) := by
    intro n
    induction n with
    | zero => simp
    | succ n ih =>
        intro hn
        have hbit := g.getBit_eq (bucket + 1 + n) (by omega)
        rw [List.range'_concat, List.map_append, List.sum_append, ← Nat.add_assoc,
          ih (by omega), ← Nat.add_assoc, rank_succ]
        cases hocc : g.occ (bucket + 1 + n) <;> simp [hbit, hocc]
  have := hsum (w - (bucket + 1)) (by omega)
  rwa [(by omega : bucket + 1 + (w - (bucket + 1)) = w)] at this

/-! ## One lemma per operation -/

theorem empty_wf {w : Nat} (hw : w ≤ 64) : Wf w (empty : MyHashTableGroup V) := by
  refine ⟨hw, fun b _ => by simp [empty, occ], ?_⟩
  have hrank : rank (empty : MyHashTableGroup V).occ w = rank (fun _ => false) w :=
    rank_congr (fun i _ => by simp [empty, occ])
  rw [hrank]
  simp [empty, rank]

theorem entry_empty (b : Nat) : (empty : MyHashTableGroup V).entry b = none := by
  simp [entry, Lib.SparseArray.get, empty, occ]

theorem getBit_eq_zero_iff (g : MyHashTableGroup V) {w b : Nat} (h : Wf w g) (hb : b < w) :
    g.getBit b = 0 ↔ g.entry b = none := by
  have hw := h.width
  have hsome := get_isSome (b := b) h.length hb
  rw [g.getBit_eq b (by omega)]
  cases hocc : g.occ b with
  | false => simpa [hocc, entry] using hsome
  | true =>
      rw [hocc, Option.isSome_iff_ne_none] at hsome
      simpa [entry] using hsome

/-- `find` answers the index of the entry of an occupied bucket. -/
theorem find_eq (g : MyHashTableGroup V) {w b : Nat} (h : Wf w g) (hb : b < w) :
    g.find b = (g.entry b).map fun _ => rank g.occ b := by
  have hw := h.width
  rw [find, g.getBucketsBefore_eq (by omega)]
  cases hentry : g.entry b with
  | none => rw [if_pos ((g.getBit_eq_zero_iff h hb).mpr hentry), Option.map_none]
  | some v =>
      have hne : ¬ g.getBit b = 0 := by simp [g.getBit_eq_zero_iff h hb, hentry]
      rw [if_neg hne, Option.map_some]

theorem entry_eq_getElem (g : MyHashTableGroup V) {b : Nat} (hocc : g.entry b ≠ none) :
    g.vector[rank g.occ b]? = g.entry b := by
  cases h : g.occ b with
  | false => exact absurd (get_of_free h) hocc
  | true => simp [entry, Lib.SparseArray.get, h]

theorem bucketIsUtilisedBySomeoneElse_eq [DecidableEq K] [HashValue K V]
    (g : MyHashTableGroup V) {w b : Nat} (h : Wf w g) (hb : b < w) (key : K) :
    g.bucketIsUtilisedBySomeoneElse b key = true ↔
      ∃ v, g.entry b = some v ∧ getKey v ≠ key := by
  have hw := h.width
  unfold bucketIsUtilisedBySomeoneElse
  simp only [g.getBit_eq_zero_iff h hb, g.getBucketsBefore_eq (by omega : b < 64)]
  cases hentry : g.entry b with
  | none => simp
  | some v =>
      have hcell := g.entry_eq_getElem (by simp [hentry] : g.entry b ≠ none)
      simp [hcell, hentry]

/-- Inserting in an occupied bucket returns its entry and changes nothing. -/
theorem insert_occupied [HashValue K V] (g : MyHashTableGroup V) {w b : Nat} (h : Wf w g)
    (hb : b < w) (hocc : g.entry b ≠ none) (key : K) (fresh : V) :
    g.insert w b key fresh = (g, rank g.occ b, false) := by
  have hw := h.width
  have hbit : g.getBit b = 1 := by
    have hne := mt (g.getBit_eq_zero_iff h hb).mp hocc
    rw [g.getBit_eq b (by omega)] at hne ⊢
    cases hc : g.occ b <;> simp_all
  simp [insert, hbit, g.getBucketsBefore_eq (by omega : b < 64)]

theorem occ_eq_false (g : MyHashTableGroup V) {b : Nat} (hb : b < 64) (hbit : ¬g.getBit b = 1) :
    g.occ b = false := by
  rw [g.getBit_eq b hb] at hbit
  cases hc : g.occ b with
  | false => rfl
  | true => exact absurd (by rw [hc]; rfl) hbit

/-- The entries before and after a free bucket are all there are. -/
theorem Wf.before_add_after {g : MyHashTableGroup V} {w b : Nat} (h : Wf w g) (hb : b < w)
    (hbit : ¬g.getBit b = 1) :
    g.getBucketsBefore b + (g.setBit b 1).bucketsAfter w b = g.vector.length := by
  have hw := h.width
  have hocc := g.occ_eq_false (by omega) hbit
  have hafter := (g.setBit b 1).bucketsAfter_eq hw hb
  rw [rank_succ, g.occ_setBit b (by omega), rank_update hocc, rank_update hocc,
    Function.update_self, if_pos rfl, if_neg (Nat.lt_irrefl b), if_pos hb] at hafter
  rw [h.length, g.getBucketsBefore_eq (by omega)]
  omega

/-- Inserting in a free bucket sets that bit and keeps every other entry. -/
theorem insert_free [HashValue K V] (g : MyHashTableGroup V) {w b : Nat} (h : Wf w g)
    (hb : b < w) (hfree : g.entry b = none) (key : K) (fresh : V) :
    ∃ g', g.insert w b key fresh = (g', rank g'.occ b, true) ∧ Wf w g' ∧
      g'.entry = Function.update g.entry b (some (setKey fresh key)) := by
  have hw := h.width
  have hbit := (g.getBit_eq_zero_iff h hb).mpr hfree
  have hocc := g.occ_eq_false (b := b) (by omega) (by omega)
  have hset := g.occ_setBit b (by omega)
  have hrank : rank (g.setBit b 1).occ b = rank g.occ b := by
    rw [hset, rank_update hocc]
    simp
  have hle : rank g.occ b ≤ g.vector.length := h.length ▸ rank_mono g.occ (Nat.le_of_lt hb)
  -- the two copy loops rebuild the old vector around the new cell
  have htake : (g.vector.drop (rank g.occ b)).take ((g.setBit b 1).bucketsAfter w b) =
      g.vector.drop (rank g.occ b) := by
    apply List.take_of_length_le
    have hall := h.before_add_after hb (by omega)
    rw [g.getBucketsBefore_eq (by omega)] at hall
    rw [List.length_drop]
    omega
  have hvec : g.vector.take (rank g.occ b) ++ setKey fresh key :: g.vector.drop (rank g.occ b) =
      g.vector.insertIdx (rank g.occ b) (setKey fresh key) :=
    take_append_cons_drop _ _ _ hle
  refine ⟨{ g.setBit b 1 with vector := g.vector.insertIdx (rank g.occ b) (setKey fresh key) },
    ?_, ⟨hw, ?_, ?_⟩, ?_⟩
  · have hne : ¬ g.getBit b = 1 := by omega
    simp only [insert, if_neg hne, g.getBucketsBefore_eq (by omega : b < 64), htake, hvec]
    rw [← hrank]
    rfl
  · intro c hc
    change (g.setBit b 1).occ c = false
    rw [hset, Function.update_of_ne (by omega), h.clear c hc]
  · change (g.vector.insertIdx _ _).length = rank (g.setBit b 1).occ w
    rw [hset, rank_update hocc, if_pos hb, List.length_insertIdx_of_le_length hle, h.length]
  · funext c
    change Lib.SparseArray.get (g.setBit b 1).occ (g.vector.insertIdx _ _) c = _
    rw [hset, get_insertIdx h.length hocc hb]
    by_cases hc : c = b
    · subst hc
      simp
    · rw [if_neg hc, Function.update_of_ne hc]
      rfl

/-- Assigning through the pointer of an occupied bucket. -/
def store (g : MyHashTableGroup V) (index : Nat) (value : V) : MyHashTableGroup V :=
  { g with vector := g.vector.set index value }

theorem store_wf {g : MyHashTableGroup V} {w : Nat} (h : Wf w g) (index : Nat) (value : V) :
    Wf w (g.store index value) :=
  ⟨h.width, h.clear, (List.length_set ..).trans h.length⟩

theorem entry_store {g : MyHashTableGroup V} {w b : Nat} (h : Wf w g) (hb : b < w)
    (hocc : g.entry b ≠ none) (value : V) :
    (g.store (rank g.occ b) value).entry = Function.update g.entry b (some value) := by
  have hset : g.occ b = true := by
    cases hc : g.occ b with
    | false => exact absurd (get_of_free hc) hocc
    | true => rfl
  have hlt : rank g.occ b < g.vector.length := h.length ▸ rank_lt_rank hset hb
  funext c
  change Lib.SparseArray.get g.occ (g.vector.set _ _) c = _
  rw [get_set hset hlt]
  by_cases hc : c = b
  · subst hc
    simp
  · rw [if_neg hc, Function.update_of_ne hc]
    rfl

end MyHashTableGroup

end RayPlatform
