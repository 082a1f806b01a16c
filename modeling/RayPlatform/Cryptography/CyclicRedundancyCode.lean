import RayPlatform.Cryptography.Crypto
import RayPlatform.Lib.CyclicRedundancy

/-!
# The table and the polynomial

`computeCyclicRedundancyCode32` looks up a byte at a time what a division by the
reflected polynomial `0xEDB88320` does in eight steps (`toBitVec_crcStep`). So it is
the CRC-32 computed one bit at a time, and it tells short bursts apart.
-/

namespace RayPlatform

open Lib.CyclicRedundancy

/-- `0xEDB88320`, the polynomial of the table. -/
abbrev crcPolynomial : BitVec 32 := 0xEDB88320#32

/-- The bits of a message, the lowest bit of each byte first. -/
def messageBits (bytes : List UInt8) : List Bool :=
  bytes.flatMap fun byte => wordBits 8 byte.toUInt32.toBitVec

/-- The reflected CRC-32, one bit at a time. -/
def bitwiseCyclicRedundancyCode32 (bytes : List UInt8) : UInt32 :=
  ⟨~~~ remainder crcPolynomial 0xFFFFFFFF#32 (messageBits bytes)⟩

/-! ## One byte -/

theorem toBitVec_crcBit (checksum : UInt32) :
    (crcBit checksum).toBitVec = bitStep crcPolynomial checksum.toBitVec := by
  have hbit : checksum &&& 1 = 1 ↔ checksum.toBitVec.getLsbD 0 = true := by
    rw [← UInt32.toBitVec_inj, UInt32.toBitVec_and]
    show checksum.toBitVec &&& 1#32 = 1#32 ↔ _
    rw [BitVec.and_one_eq_setWidth_ofBool_getLsbD]
    cases checksum.toBitVec.getLsbD 0 with
    | false => decide
    | true => decide
  unfold crcBit bitStep
  by_cases h : checksum &&& 1 = 1
  · rw [if_pos h, if_pos (hbit.mp h), UInt32.toBitVec_xor, UInt32.toBitVec_shiftRight]
    rfl
  · rw [if_neg h, if_neg fun hb => h (hbit.mpr hb), UInt32.toBitVec_shiftRight]
    rfl

theorem toBitVec_iterate_crcBit (n : Nat) (checksum : UInt32) :
    (crcBit^[n] checksum).toBitVec = (bitStep crcPolynomial)^[n] checksum.toBitVec := by
  induction n with
  | zero => rfl
  | succ n ih => rw [Function.iterate_succ_apply', Function.iterate_succ_apply', toBitVec_crcBit, ih]

theorem byte_shiftRight (byte : UInt8) : byte.toUInt32.toBitVec >>> 8 = 0#32 := by
  apply BitVec.eq_of_toNat_eq
  have := byte.toNat_lt
  simp [Nat.shiftRight_eq_div_pow]
  omega

/-- A byte takes eight steps of the division. -/
theorem toBitVec_crcStep (checksum : UInt32) (byte : UInt8) :
    (crcStep checksum byte).toBitVec =
      remainder crcPolynomial checksum.toBitVec (wordBits 8 byte.toUInt32.toBitVec) := by
  let position := byte ^^^ checksum.toUInt8
  have hentry : (crc_table.getD position.toNat 0).toBitVec =
      (bitStep crcPolynomial)^[8] position.toUInt32.toBitVec := by
    rw [crc_table_entry _ position.toNat_lt, toBitVec_iterate_crcBit]
    simp
  have hagree : ∀ i < 8, position.toUInt32.toBitVec.getLsbD i =
      (checksum.toBitVec ^^^ byte.toUInt32.toBitVec).getLsbD i := by
    intro i hi
    have hi' : i < 32 := by omega
    simp only [position, UInt8.toBitVec_toUInt32, UInt8.toBitVec_xor, UInt32.toBitVec_toUInt8,
      BitVec.getLsbD_setWidth, BitVec.getLsbD_xor, hi, hi', decide_true, Bool.true_and]
    exact Bool.xor_comm ..
  have hmoved : (checksum.toBitVec ^^^ byte.toUInt32.toBitVec) >>> 8 = checksum.toBitVec >>> 8 := by
    rw [BitVec.ushiftRight_xor_distrib, byte_shiftRight, BitVec.xor_zero]
  rw [remainder_wordBits _ (byte_shiftRight byte),
    iterate_bitStep_split _ hagree (byte_shiftRight position), hmoved, ← hentry]
  show ((checksum >>> 8) ^^^ crc_table.getD position.toNat 0).toBitVec = _
  rw [UInt32.toBitVec_xor, UInt32.toBitVec_shiftRight]
  rfl

/-! ## Messages -/

theorem messageBits_append (bytes bytes' : List UInt8) :
    messageBits (bytes ++ bytes') = messageBits bytes ++ messageBits bytes' :=
  List.flatMap_append

theorem toBitVec_foldl_crcStep (checksum : UInt32) (bytes : List UInt8) :
    (bytes.foldl crcStep checksum).toBitVec =
      remainder crcPolynomial checksum.toBitVec (messageBits bytes) := by
  induction bytes generalizing checksum with
  | nil => rfl
  | cons byte bytes ih =>
      rw [List.foldl_cons, ih, toBitVec_crcStep, ← remainder_append]
      rfl

theorem toBitVec_computeCyclicRedundancyCode32 (bytes : List UInt8) :
    (computeCyclicRedundancyCode32 bytes).toBitVec =
      remainder crcPolynomial 0xFFFFFFFF#32 (messageBits bytes) ^^^ 0xFFFFFFFF#32 := by
  rw [computeCyclicRedundancyCode32, UInt32.toBitVec_xor, toBitVec_foldl_crcStep]
  rfl

/-- The table computes the reflected CRC-32, for every message. -/
theorem computeCyclicRedundancyCode32_eq_bitwise (bytes : List UInt8) :
    computeCyclicRedundancyCode32 bytes = bitwiseCyclicRedundancyCode32 bytes := by
  apply UInt32.toBitVec_inj.mp
  rw [toBitVec_computeCyclicRedundancyCode32]
  exact BitVec.xor_allOnes

/-- The check value of the CRC-32. -/
example : bitwiseCyclicRedundancyCode32 [49, 50, 51, 52, 53, 54, 55, 56, 57] = 0xCBF43926 := by
  decide +kernel

/-! ## Bursts of errors -/

@[simp] theorem length_messageBits (bytes : List UInt8) :
    (messageBits bytes).length = 8 * bytes.length := by
  induction bytes with
  | nil => rfl
  | cons byte bytes ih =>
      show (wordBits 8 byte.toUInt32.toBitVec ++ messageBits bytes).length = _
      rw [List.length_append, ih, length_wordBits, List.length_cons]
      omega

theorem messageBits_injective : Function.Injective messageBits := by
  intro bytes bytes' h
  have hlength : bytes.length = bytes'.length := by
    have hbits := congrArg List.length h
    rw [length_messageBits, length_messageBits] at hbits
    omega
  induction bytes generalizing bytes' with
  | nil => exact (List.length_eq_zero_iff.mp hlength.symm).symm
  | cons byte bytes ih =>
      obtain ⟨byte', bytes', rfl⟩ := List.exists_cons_of_length_eq_add_one hlength.symm
      obtain ⟨hbyte, hbytes⟩ := List.append_inj
        (show wordBits 8 byte.toUInt32.toBitVec ++ messageBits bytes =
          wordBits 8 byte'.toUInt32.toBitVec ++ messageBits bytes' from h) (by simp)
      have heq := wordBits_injective (byte_shiftRight byte) (byte_shiftRight byte') hbyte
      rw [ih hbytes (Nat.succ.inj hlength), UInt8.toUInt32_inj.mp (UInt32.toBitVec_inj.mp heq)]

/-- The bytes that differ are in a window of four consecutive bytes. -/
def DifferInWindow (bytes bytes' : List UInt8) (start : Nat) : Prop :=
  ∀ i, bytes[i]? ≠ bytes'[i]? → start ≤ i ∧ i < start + 4

/-- What is before, in and behind the window. -/
theorem DifferInWindow.split {bytes bytes' : List UInt8} {start : Nat}
    (h : DifferInWindow bytes bytes' start) :
    ∃ before burst burst' after, bytes = before ++ burst ++ after ∧
      bytes' = before ++ burst' ++ after ∧ burst.length ≤ 4 := by
  have hbefore : bytes.take start = bytes'.take start := by
    apply List.ext_getElem?
    intro i
    rw [List.getElem?_take, List.getElem?_take]
    split
    · by_contra hne
      have := h i hne
      omega
    · rfl
  have hafter : bytes.drop (start + 4) = bytes'.drop (start + 4) := by
    apply List.ext_getElem?
    intro i
    rw [List.getElem?_drop, List.getElem?_drop]
    by_contra hne
    have := h _ hne
    omega
  have hcut : ∀ l : List UInt8,
      l = l.take start ++ (l.drop start).take 4 ++ l.drop (start + 4) := fun l => by
    rw [List.append_assoc, ← List.drop_drop, List.take_append_drop, List.take_append_drop]
  refine ⟨bytes.take start, (bytes.drop start).take 4, (bytes'.drop start).take 4,
    bytes.drop (start + 4), hcut bytes, ?_, List.length_take_le ..⟩
  rw [hbefore, hafter]
  exact hcut bytes'

/-- Four bytes are the register: a burst changes the checksum. -/
theorem checksum_burst {bytes bytes' : List UInt8} (hlength : bytes.length = bytes'.length)
    (hne : bytes ≠ bytes') {start : Nat} (hwindow : DifferInWindow bytes bytes' start) :
    computeCyclicRedundancyCode32 bytes ≠ computeCyclicRedundancyCode32 bytes' := by
  obtain ⟨before, burst, burst', after, rfl, rfl, hburst⟩ := hwindow.split
  have hlengths : burst.length = burst'.length := by
    simpa using hlength
  have hbits : messageBits burst ≠ messageBits burst' := fun heq =>
    hne (by rw [messageBits_injective heq])
  intro heq
  have hremainder := congrArg UInt32.toBitVec heq
  rw [toBitVec_computeCyclicRedundancyCode32, toBitVec_computeCyclicRedundancyCode32,
    BitVec.xor_left_inj] at hremainder
  simp only [messageBits_append] at hremainder
  exact remainder_burst (by decide) (by simp [hlengths]) (by simp; omega) hbits _ _ _ hremainder

end RayPlatform
