import Mathlib.Data.List.Basic
import Mathlib.Tactic.Ring

/-!
# Blocks of memory

A block of a known size, with bounded reads and writes: an access that does not
fit in the block fails. `Holds b offset data` says that the bytes of `data` are in
the block from an offset on; a write makes it true of what is written
(`write_spec`) and keeps it elsewhere (`Written.holds`).

Machine words are written in little-endian order (`wordBytes`, `bytesWord`).
-/

namespace RayPlatform.Lib

/-- What `byte` says past the end of the block is never used. -/
structure MemoryBlock (size : Nat) where
  byte : Nat → UInt8

namespace MemoryBlock

variable {size : Nat} {b b' : MemoryBlock size}

/-- The block with zeros. -/
def zero (size : Nat) : MemoryBlock size :=
  { byte := fun _ => 0 }

def read (b : MemoryBlock size) (offset length : Nat) : Option (List UInt8) :=
  if offset + length ≤ size then some ((List.range' offset length).map b.byte) else none

def write (b : MemoryBlock size) (offset : Nat) (data : List UInt8) :
    Option (MemoryBlock size) :=
  if offset + data.length ≤ size then
    some { byte := fun i =>
      if offset ≤ i ∧ i < offset + data.length then data.getD (i - offset) 0 else b.byte i }
  else none

/-- The bytes of the block from an offset on start with some data. -/
def Holds (b : MemoryBlock size) (offset : Nat) (data : List UInt8) : Prop :=
  (List.range' offset data.length).map b.byte = data

theorem holds_iff {offset : Nat} {data : List UInt8} :
    b.Holds offset data ↔ ∀ i, i < data.length → data[i]? = some (b.byte (offset + i)) := by
  unfold Holds
  constructor
  · intro h i hi
    rw [← h]
    simp [hi]
  · intro h
    apply List.ext_getElem?
    intro i
    by_cases hi : i < data.length
    · rw [h i hi]
      simp [hi]
    · rw [List.getElem?_eq_none (by simpa using hi), List.getElem?_eq_none (by simpa using hi)]

theorem read_of_holds {offset : Nat} {data : List UInt8} (h : b.Holds offset data)
    (hfit : offset + data.length ≤ size) : b.read offset data.length = some data := by
  rw [read, if_pos hfit, h]

theorem holds_of_read {offset length : Nat} {data : List UInt8}
    (h : b.read offset length = some data) :
    b.Holds offset data ∧ data.length = length ∧ offset + length ≤ size := by
  unfold read at h
  split at h
  · rename_i hfit
    cases h
    refine ⟨?_, by simp, hfit⟩
    rw [Holds]
    simp
  · cases h

/-- What a write does. -/
structure Written (b b' : MemoryBlock size) (offset : Nat) (data : List UInt8) : Prop where
  here : b'.Holds offset data
  elsewhere : ∀ i, i < offset ∨ offset + data.length ≤ i → b'.byte i = b.byte i

/-- A write that fits in the block succeeds. -/
theorem write_spec (b : MemoryBlock size) {offset : Nat} {data : List UInt8}
    (hfit : offset + data.length ≤ size) :
    ∃ b', b.write offset data = some b' ∧ Written b b' offset data := by
  refine ⟨_, if_pos hfit, ?_, ?_⟩
  · rw [holds_iff]
    intro i hi
    show data[i]? = some (if offset ≤ offset + i ∧ offset + i < offset + data.length then
      data.getD (offset + i - offset) 0 else b.byte (offset + i))
    rw [if_pos (by omega), Nat.add_sub_cancel_left, List.getElem?_eq_getElem hi]
    simp [List.getD, hi]
  · intro i hi
    show (if offset ≤ i ∧ i < offset + data.length then _ else b.byte i) = _
    rw [if_neg (by omega)]

/-- A write keeps what is next to it. -/
theorem Written.holds {offset : Nat} {data : List UInt8} (h : Written b b' offset data)
    {other : Nat} {kept : List UInt8} (hkept : b.Holds other kept)
    (hapart : other + kept.length ≤ offset ∨ offset + data.length ≤ other) :
    b'.Holds other kept := by
  rw [holds_iff] at *
  intro i hi
  rw [h.elsewhere (other + i) (by omega)]
  exact hkept i hi

/-- Writes in sequence. -/
def writeAll (b : MemoryBlock size) : List (Nat × List UInt8) → Option (MemoryBlock size)
  | [] => some b
  | (offset, data) :: writes => (b.write offset data).bind fun b => b.writeAll writes

/-- Two writes that do not touch the same byte. -/
def Apart (first second : Nat × List UInt8) : Prop :=
  first.1 + first.2.length ≤ second.1 ∨ second.1 + second.2.length ≤ first.1

/-- Writes that fit and are apart from one another all stay. -/
theorem writeAll_spec {writes : List (Nat × List UInt8)} (b : MemoryBlock size)
    (hfit : ∀ w ∈ writes, w.1 + w.2.length ≤ size) (hapart : writes.Pairwise Apart) :
    ∃ b', b.writeAll writes = some b' ∧ (∀ w ∈ writes, b'.Holds w.1 w.2) ∧
      (∀ offset data, b.Holds offset data → (∀ w ∈ writes, Apart (offset, data) w) →
        b'.Holds offset data) ∧
      ∀ i, (∀ w ∈ writes, i < w.1 ∨ w.1 + w.2.length ≤ i) → b'.byte i = b.byte i := by
  induction writes generalizing b with
  | nil => exact ⟨b, rfl, fun w hw => by simp at hw, fun _ _ h _ => h, fun _ _ => rfl⟩
  | cons first writes ih =>
      obtain ⟨offset, data⟩ := first
      rw [List.pairwise_cons] at hapart
      obtain ⟨b₁, hwrite, hwritten⟩ := write_spec b (hfit _ List.mem_cons_self)
      obtain ⟨b', hall, hholds, hkeep, hsame⟩ :=
        ih b₁ (fun w hw => hfit w (List.mem_cons_of_mem _ hw)) hapart.2
      refine ⟨b', ?_, fun w hw => ?_, fun offset' data' hdata houtside => ?_, fun i hi => ?_⟩
      · rw [writeAll, hwrite]
        exact hall
      · rcases List.mem_cons.mp hw with rfl | hw
        · exact hkeep offset data hwritten.here hapart.1
        · exact hholds w hw
      · exact hkeep offset' data' (hwritten.holds hdata (houtside _ List.mem_cons_self))
          fun w hw => houtside w (List.mem_cons_of_mem _ hw)
      · rw [hsame i fun w hw => hi w (List.mem_cons_of_mem _ hw)]
        exact hwritten.elsewhere i (hi _ List.mem_cons_self)

/-! ## Copies -/

variable {other third : Nat}

/-- `memcpy` of the first bytes of a block to the start of another one. -/
def copy (b : MemoryBlock size) (target : MemoryBlock other) (length : Nat) :
    Option (MemoryBlock other) :=
  (b.read 0 length).bind (target.write 0)

/-- Two blocks have the same first bytes. -/
def Agree (b : MemoryBlock size) (c : MemoryBlock other) (length : Nat) : Prop :=
  ∀ i < length, c.byte i = b.byte i

theorem Agree.trans {c : MemoryBlock other} {d : MemoryBlock third} {length : Nat}
    (h : Agree b c length) (h' : Agree c d length) : Agree b d length := by
  intro i hi
  rw [h' i hi, h i hi]

theorem Agree.holds {c : MemoryBlock other} {length : Nat} (h : Agree b c length) {offset : Nat}
    {data : List UInt8} (hholds : b.Holds offset data) (hle : offset + data.length ≤ length) :
    c.Holds offset data := by
  rw [holds_iff] at *
  intro i hi
  rw [h (offset + i) (by omega)]
  exact hholds i hi

theorem read_zero (b : MemoryBlock size) {length : Nat} (hfit : length ≤ size) :
    ∃ data, b.read 0 length = some data ∧ data.length = length ∧ b.Holds 0 data := by
  have hread : b.read 0 length = some ((List.range' 0 length).map b.byte) := by
    rw [read, if_pos (by omega)]
  obtain ⟨hholds, hlength, _⟩ := holds_of_read hread
  exact ⟨_, hread, hlength, hholds⟩

/-- Two blocks that hold the same data agree on it. -/
theorem Holds.agree {c : MemoryBlock other} {data : List UInt8} (h : b.Holds 0 data)
    (h' : c.Holds 0 data) : Agree b c data.length := by
  rw [holds_iff] at *
  intro i hi
  have hsame := (h i hi).symm.trans (h' i hi)
  rw [Nat.zero_add] at hsame
  exact (Option.some.inj hsame).symm

/-- A copy that fits on both sides succeeds. -/
theorem copy_spec (b : MemoryBlock size) (target : MemoryBlock other) {length : Nat}
    (hsize : length ≤ size) (hother : length ≤ other) :
    ∃ c, b.copy target length = some c ∧ Agree b c length ∧
      ∀ i, length ≤ i → c.byte i = target.byte i := by
  obtain ⟨data, hread, hlength, hholds⟩ := read_zero b hsize
  obtain ⟨c, hwrite, hwritten⟩ := write_spec target (by rw [Nat.zero_add, hlength]; exact hother)
  refine ⟨c, by rw [copy, hread, Option.bind_some, hwrite], ?_, fun i hi => ?_⟩
  · rw [← hlength]
    exact hholds.agree hwritten.here
  · exact hwritten.elsewhere i (by omega)

end MemoryBlock

/-! ## Words -/

/-- The `width` little-endian bytes of a number. -/
def wordBytes : Nat → Nat → List UInt8
  | 0, _ => []
  | width + 1, n => UInt8.ofNat n :: wordBytes width (n / 256)

/-- The number with these little-endian bytes. -/
def bytesWord : List UInt8 → Nat
  | [] => 0
  | byte :: bytes => byte.toNat + 256 * bytesWord bytes

@[simp] theorem length_wordBytes (width n : Nat) : (wordBytes width n).length = width := by
  induction width generalizing n with
  | zero => rfl
  | succ width ih => rw [wordBytes, List.length_cons, ih]

theorem bytesWord_wordBytes (width n : Nat) : bytesWord (wordBytes width n) = n % 256 ^ width := by
  induction width generalizing n with
  | zero =>
      rw [wordBytes, bytesWord, Nat.pow_zero, Nat.mod_one]
  | succ width ih =>
      rw [wordBytes, bytesWord, ih, Nat.pow_succ', Nat.mod_mul, UInt8.toNat_ofNat']

theorem wordBytes_bytesWord (bytes : List UInt8) :
    wordBytes bytes.length (bytesWord bytes) = bytes := by
  induction bytes with
  | nil => rfl
  | cons byte bytes ih =>
      have hbyte : byte.toNat < 256 := byte.toNat_lt
      have hrest : (byte.toNat + 256 * bytesWord bytes) / 256 = bytesWord bytes := by omega
      rw [bytesWord, List.length_cons, wordBytes, hrest, ih]
      congr 1
      apply UInt8.toNat.inj
      rw [UInt8.toNat_ofNat']
      omega

theorem bytesWord_lt (bytes : List UInt8) : bytesWord bytes < 256 ^ bytes.length := by
  induction bytes with
  | nil => rw [bytesWord, List.length_nil, Nat.pow_zero]; omega
  | cons byte bytes ih =>
      have hbyte : byte.toNat < 256 := byte.toNat_lt
      rw [bytesWord, List.length_cons, Nat.pow_succ']
      omega

/-- The four bytes of a C `int`. -/
def intBytes (n : Int32) : List UInt8 :=
  wordBytes 4 n.toUInt32.toNat

def bytesInt (bytes : List UInt8) : Int32 :=
  (UInt32.ofNat (bytesWord bytes)).toInt32

@[simp] theorem length_intBytes (n : Int32) : (intBytes n).length = 4 :=
  length_wordBytes _ _

@[simp] theorem bytesInt_intBytes (n : Int32) : bytesInt (intBytes n) = n := by
  have hlt : n.toUInt32.toNat < 256 ^ 4 := n.toUInt32.toNat_lt
  rw [bytesInt, intBytes, bytesWord_wordBytes, Nat.mod_eq_of_lt hlt, UInt32.ofNat_toNat]
  rfl

theorem intBytes_bytesInt {bytes : List UInt8} (h : bytes.length = 4) :
    intBytes (bytesInt bytes) = bytes := by
  have hlt := bytesWord_lt bytes
  rw [h] at hlt
  have hword : (bytesInt bytes).toUInt32.toNat = bytesWord bytes := by
    show (UInt32.ofNat (bytesWord bytes)).toNat = _
    rw [UInt32.toNat_ofNat']
    exact Nat.mod_eq_of_lt hlt
  rw [intBytes, hword]
  have hback := wordBytes_bytesWord bytes
  rw [h] at hback
  exact hback

end RayPlatform.Lib
