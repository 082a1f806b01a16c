import RayPlatform.Cryptography.CyclicRedundancyCode

/-!
# The build with SSE 4.2

With `CONFIG_SSE_4_2`, `computeCyclicRedundancyCode32` uses the CRC32 instruction of
the processor: another polynomial, a register that starts at zero, and no final
complement. The two builds agree on a string exactly when it passes a parity check
(`hardware_eq_table_iff`): no string of one, two or three bytes does, and of the
strings with the same bytes before the last four exactly one does
(`exists_unique_last`).
-/

namespace RayPlatform

open Lib.CyclicRedundancy

/-- `0x82F63B78`, the polynomial of the CRC32 instruction (the CRC-32C), reflected. -/
abbrev instructionPolynomial : BitVec 32 := 0x82F63B78#32

/-- The CRC32 instruction with an operand of 32 bits: the operand is divided, its
lowest bit first. -/
def crc32Word (crc source : UInt32) : UInt32 :=
  ⟨remainder instructionPolynomial crc.toBitVec (wordBits 32 source.toBitVec)⟩

/-- The CRC32 instruction with an operand of 8 bits. -/
def crc32Byte (crc : UInt32) (source : UInt8) : UInt32 :=
  ⟨remainder instructionPolynomial crc.toBitVec (wordBits 8 source.toUInt32.toBitVec)⟩

/-- `*p`, on a little-endian processor. -/
def readWord (p : List UInt8) : UInt32 :=
  (p.take 4).foldr (fun byte word => byte.toUInt32 ||| word <<< 8) 0

/-- `while (q--)`. -/
def wordLoop : Nat → UInt32 → List UInt8 → UInt32 × List UInt8
  | 0, crc, p => (crc, p)
  | q + 1, crc, p => wordLoop q (crc32Word crc (readWord p)) (p.drop 4)

/-- `while (r--)`. -/
def byteLoop : Nat → UInt32 → List UInt8 → UInt32
  | 0, crc, _ => crc
  | r + 1, crc, str => byteLoop r (crc32Byte crc (str.headD 0)) (str.drop 1)

/-- `computeCyclicRedundancyCode32`, when compiled with `CONFIG_SSE_4_2`. -/
def hardwareCyclicRedundancyCode32 (str : List UInt8) : UInt32 :=
  let q := str.length / 4
  let r := str.length % 4
  let result := wordLoop q 0 str
  byteLoop r result.1 result.2

/-! ## The instruction divides -/

theorem messageBits_cons (byte : UInt8) (bytes : List UInt8) :
    messageBits (byte :: bytes) = wordBits 8 byte.toUInt32.toBitVec ++ messageBits bytes :=
  rfl

theorem wordBits_foldr {bytes : List UInt8} (hfit : bytes.length ≤ 4) :
    wordBits (8 * bytes.length)
      (bytes.foldr (fun byte (word : UInt32) => byte.toUInt32 ||| word <<< 8) 0).toBitVec =
      messageBits bytes := by
  induction bytes with
  | nil => rfl
  | cons byte bytes ih =>
      rw [List.length_cons] at hfit
      rw [List.foldr_cons, messageBits_cons, ← ih (Nat.le_of_succ_le hfit),
        ← wordBits_append (byte_shiftRight byte) _ (by omega), List.length_cons, Nat.mul_succ,
        Nat.add_comm (8 * bytes.length), UInt32.toBitVec_or, UInt32.toBitVec_shiftLeft]
      rfl

theorem wordBits_readWord {p : List UInt8} (hlength : 4 ≤ p.length) :
    wordBits 32 (readWord p).toBitVec = messageBits (p.take 4) := by
  have htake : (p.take 4).length = 4 := List.length_take_of_le hlength
  rw [← wordBits_foldr (Nat.le_of_eq htake), htake]
  rfl

theorem wordLoop_spec {q : Nat} {p : List UInt8} (hfit : 4 * q ≤ p.length) (crc : UInt32) :
    (wordLoop q crc p).1.toBitVec =
        remainder instructionPolynomial crc.toBitVec (messageBits (p.take (4 * q))) ∧
      (wordLoop q crc p).2 = p.drop (4 * q) := by
  induction q generalizing crc p with
  | zero => exact ⟨rfl, rfl⟩
  | succ q ih =>
      obtain ⟨hcrc, hrest⟩ := ih (p := p.drop 4) (by rw [List.length_drop]; omega)
        (crc32Word crc (readWord p))
      refine ⟨?_, ?_⟩
      · rw [wordLoop, hcrc, Nat.mul_succ, Nat.add_comm, List.take_add, messageBits_append,
          remainder_append, ← wordBits_readWord (by omega)]
        rfl
      · rw [wordLoop, hrest, List.drop_drop, Nat.mul_succ, Nat.add_comm]

theorem byteLoop_spec (str : List UInt8) (crc : UInt32) :
    (byteLoop str.length crc str).toBitVec =
      remainder instructionPolynomial crc.toBitVec (messageBits str) := by
  induction str generalizing crc with
  | nil => rfl
  | cons byte str ih =>
      rw [messageBits_cons, remainder_append]
      exact ih (crc32Byte crc byte)

theorem toBitVec_hardwareCyclicRedundancyCode32 (str : List UInt8) :
    (hardwareCyclicRedundancyCode32 str).toBitVec =
      remainder instructionPolynomial 0#32 (messageBits str) := by
  have hfit : 4 * (str.length / 4) ≤ str.length := Nat.mul_div_le ..
  obtain ⟨hcrc, hrest⟩ := wordLoop_spec hfit 0
  have hlength : str.length % 4 = (str.drop (4 * (str.length / 4))).length := by
    rw [List.length_drop]
    omega
  show (byteLoop (str.length % 4) (wordLoop _ 0 str).1 (wordLoop _ 0 str).2).toBitVec = _
  rw [hrest, hlength, byteLoop_spec, hcrc, ← remainder_append, ← messageBits_append,
    List.take_append_drop]
  rfl

/-! ## The parity check -/

/-- The word of a bit of the string, by its distance from the end. -/
def distanceWord (distance : Nat) : BitVec 32 :=
  (bitStep crcPolynomial)^[distance] crcPolynomial ^^^
    (bitStep instructionPolynomial)^[distance] instructionPolynomial

/-- The exclusive or of the words of the bits that are one. -/
def parityCheck : List Bool → BitVec 32
  | [] => 0#32
  | bit :: bits => (if bit then distanceWord bits.length else 0#32) ^^^ parityCheck bits

/-- The word of a length in bits. -/
def lengthWord (length : Nat) : BitVec 32 :=
  (bitStep crcPolynomial)^[length] 0xFFFFFFFF#32 ^^^ 0xFFFFFFFF#32

/-- A string on which the two builds agree. -/
def PassesParityCheck (bytes : List UInt8) : Prop :=
  parityCheck (messageBits bytes) = lengthWord (messageBits bytes).length

instance decidablePassesParityCheck (bytes : List UInt8) :
    Decidable (PassesParityCheck bytes) :=
  inferInstanceAs (Decidable (_ = _))

theorem parityCheck_eq (bits : List Bool) :
    parityCheck bits = syndrome crcPolynomial bits ^^^ syndrome instructionPolynomial bits := by
  induction bits with
  | nil => rfl
  | cons bit bits ih =>
      rw [parityCheck, ih, syndrome, syndrome]
      cases bit with
      | false => simp
      | true =>
          simp only [if_true, distanceWord]
          ac_rfl

theorem agree_iff (bytes : List UInt8) :
    hardwareCyclicRedundancyCode32 bytes = computeCyclicRedundancyCode32 bytes ↔
      PassesParityCheck bytes := by
  rw [← UInt32.toBitVec_inj, toBitVec_hardwareCyclicRedundancyCode32,
    toBitVec_computeCyclicRedundancyCode32, remainder_eq_syndrome, remainder_eq_syndrome,
    iterate_bitStep_zero, BitVec.zero_xor, PassesParityCheck, parityCheck_eq, lengthWord]
  generalize messageBits bytes = bits
  generalize syndrome crcPolynomial bits = s
  generalize syndrome instructionPolynomial bits = t
  generalize (bitStep crcPolynomial)^[bits.length] 0xFFFFFFFF#32 = register
  have hsum : t ^^^ (register ^^^ s ^^^ 0xFFFFFFFF#32) =
      s ^^^ t ^^^ (register ^^^ 0xFFFFFFFF#32) := by ac_rfl
  rw [← BitVec.xor_eq_zero_iff, hsum, BitVec.xor_eq_zero_iff]

/-! ## Short strings -/

/-- A parity that is even for the words of the 24 bits at the end of a string. -/
def shortMask : BitVec 32 := 0x7C1F55A0#32

theorem parity_distanceWord :
    ∀ distance < 24, parity 32 (shortMask &&& distanceWord distance) = false := by
  decide +kernel

theorem parity_lengthWord :
    ∀ length < 4, length ≠ 0 → parity 32 (shortMask &&& lengthWord (8 * length)) = true := by
  decide +kernel

theorem shortMask_xor (a b : BitVec 32) :
    parity 32 (shortMask &&& (a ^^^ b)) =
      (parity 32 (shortMask &&& a) ^^ parity 32 (shortMask &&& b)) := by
  rw [← parity_xor]
  congr 1
  apply BitVec.eq_of_getLsbD_eq
  intro i _
  simp only [BitVec.getLsbD_and, BitVec.getLsbD_xor]
  exact Bool.and_xor_distrib_left ..

theorem parity_parityCheck {bits : List Bool} (hshort : bits.length ≤ 24) :
    parity 32 (shortMask &&& parityCheck bits) = false := by
  induction bits with
  | nil => rfl
  | cons bit bits ih =>
      rw [parityCheck, shortMask_xor, ih (Nat.le_of_succ_le hshort), Bool.xor_false]
      cases bit with
      | false => simp [parity_zero]
      | true => exact parity_distanceWord _ hshort

/-- No string of one, two or three bytes passes. -/
theorem not_passesParityCheck {bytes : List UInt8} (hne : bytes ≠ []) (hshort : bytes.length < 4) :
    ¬ PassesParityCheck bytes := by
  intro hpasses
  have heven := parity_parityCheck
    (show (messageBits bytes).length ≤ 24 by rw [length_messageBits]; omega)
  rw [PassesParityCheck, length_messageBits] at hpasses
  rw [hpasses, parity_lengthWord _ hshort (mt List.length_eq_zero_iff.mp hne)] at heven
  cases heven

/-! ## The last four bytes -/

/-- What the last word adds to the difference between the two builds. -/
def lastWord (word : BitVec 32) : BitVec 32 :=
  (bitStep crcPolynomial)^[32] word ^^^ (bitStep instructionPolynomial)^[32] word

/-- The words whose `lastWord` has one bit. -/
def lastWordInverse : List (BitVec 32) :=
  [
    0xDA7163D4, 0x93A42B19, 0x000EBA83, 0x275B99B7, 0x69F1DFDF, 0xF4A5530F,
    0xE94AA61E, 0xF5D3A08D, 0xCCE1ADAB, 0xBE85B7E7, 0x5A4D837F, 0xB49B06FE,
    0x69360DFC, 0xD26C1BF8, 0x839EDB41, 0x073DB682, 0x0E7B6D04, 0x3BB036B9,
    0x77606D72, 0xEEC0DAE4, 0xDD81B5C8, 0x9C458721, 0x1FCDE2F3, 0x18DD2957,
    0x31BA52AE, 0x443249ED, 0xAF227F6B, 0x5E44FED6, 0x9BCF111D, 0x10D8CE8B,
    0x06F771A7, 0x0DEEE34E
  ]

theorem lastWord_xor (a b : BitVec 32) : lastWord (a ^^^ b) = lastWord a ^^^ lastWord b := by
  unfold lastWord
  rw [iterate_bitStep_xor, iterate_bitStep_xor]
  ac_rfl

theorem combine_lastWord_twoPow :
    ∀ i < 32, combine lastWordInverse (lastWord (BitVec.twoPow 32 i)) = BitVec.twoPow 32 i := by
  decide +kernel

theorem lastWord_combine_twoPow :
    ∀ i < 32, lastWord (combine lastWordInverse (BitVec.twoPow 32 i)) = BitVec.twoPow 32 i := by
  decide +kernel

theorem combine_lastWord (word : BitVec 32) : combine lastWordInverse (lastWord word) = word := by
  have hinverse : combine lastWordInverse ∘ lastWord = id := by
    refine linear_ext (fun a b => ?_) (fun _ _ => rfl) combine_lastWord_twoPow
    rw [Function.comp_apply, lastWord_xor, combine_xor]
    rfl
  exact congrFun hinverse word

theorem lastWord_combine (word : BitVec 32) : lastWord (combine lastWordInverse word) = word := by
  have hinverse : lastWord ∘ combine lastWordInverse = id := by
    refine linear_ext (fun a b => ?_) (fun _ _ => rfl) lastWord_combine_twoPow
    rw [Function.comp_apply, combine_xor, lastWord_xor]
    rfl
  exact congrFun hinverse word

/-- The difference between the two builds after some bytes and a word of zeros. -/
def difference (before : List UInt8) : BitVec 32 :=
  let bits := messageBits before
  (bitStep crcPolynomial)^[32] (remainder crcPolynomial 0xFFFFFFFF#32 bits) ^^^ 0xFFFFFFFF#32 ^^^
    (bitStep instructionPolynomial)^[32] (remainder instructionPolynomial 0#32 bits)

theorem agree_append_iff (before : List UInt8) {last : List UInt8} {word : BitVec 32}
    (hlast : messageBits last = wordBits 32 word) :
    hardwareCyclicRedundancyCode32 (before ++ last) =
        computeCyclicRedundancyCode32 (before ++ last) ↔ lastWord word = difference before := by
  have hword : word >>> 32 = 0#32 := by
    apply BitVec.eq_of_getLsbD_eq
    intro i _
    rw [BitVec.getLsbD_ushiftRight, BitVec.getLsbD_of_ge _ _ (Nat.le_add_right ..),
      BitVec.getLsbD_zero]
  rw [← UInt32.toBitVec_inj, toBitVec_hardwareCyclicRedundancyCode32,
    toBitVec_computeCyclicRedundancyCode32, messageBits_append, remainder_append, remainder_append,
    hlast, remainder_wordBits _ hword, remainder_wordBits _ hword, iterate_bitStep_xor,
    iterate_bitStep_xor, lastWord, difference]
  generalize (bitStep crcPolynomial)^[32] word = w
  generalize (bitStep instructionPolynomial)^[32] word = w'
  generalize (bitStep crcPolynomial)^[32] (remainder _ _ _) = x
  generalize (bitStep instructionPolynomial)^[32] (remainder _ _ _) = y
  have hsum : y ^^^ w' ^^^ (x ^^^ w ^^^ 0xFFFFFFFF#32) =
      w ^^^ w' ^^^ (x ^^^ 0xFFFFFFFF#32 ^^^ y) := by ac_rfl
  rw [← BitVec.xor_eq_zero_iff, hsum, BitVec.xor_eq_zero_iff]

/-- The four bytes of a word. -/
theorem exists_bytes (word : BitVec 32) :
    ∃ last, last.length = 4 ∧ messageBits last = wordBits 32 word := by
  have hbyte : ∀ x : BitVec 32,
      wordBits 8 (UInt8.ofBitVec (x.setWidth 8)).toUInt32.toBitVec = wordBits 8 x := by
    intro x
    rw [wordBits_eq_map, wordBits_eq_map]
    apply List.map_congr_left
    intro i hi
    have hlt := List.mem_range.mp hi
    rw [UInt8.toBitVec_toUInt32]
    simp [BitVec.getLsbD_setWidth, hlt]
    omega
  refine ⟨[word, word >>> 8, word >>> 8 >>> 8, word >>> 8 >>> 8 >>> 8].map
    fun x => UInt8.ofBitVec (x.setWidth 8), rfl, ?_⟩
  have hbits : wordBits (8 + (8 + (8 + (8 + 0)))) word = wordBits 8 word ++
      (wordBits 8 (word >>> 8) ++ (wordBits 8 (word >>> 8 >>> 8) ++
        (wordBits 8 (word >>> 8 >>> 8 >>> 8) ++ []))) := by
    rw [wordBits_add, wordBits_add, wordBits_add, wordBits_add]
    rfl
  simp only [List.map_cons, List.map_nil, messageBits_cons, hbyte]
  exact hbits.symm

/-- Behind any bytes there is exactly one word with which the two builds agree. -/
theorem exists_unique_last (before : List UInt8) :
    ∃! last : List UInt8, last.length = 4 ∧
      hardwareCyclicRedundancyCode32 (before ++ last) =
        computeCyclicRedundancyCode32 (before ++ last) := by
  obtain ⟨last, hlength, hlast⟩ := exists_bytes (combine lastWordInverse (difference before))
  refine ⟨last, ⟨hlength, (agree_append_iff before hlast).mpr (lastWord_combine _)⟩, ?_⟩
  rintro other ⟨hother, hagree⟩
  have hbits : (messageBits other).length = 32 := by rw [length_messageBits, hother]
  obtain ⟨word, -, hword⟩ := exists_wordBits (Nat.le_of_eq hbits)
  rw [hbits] at hword
  have hsolved := (agree_append_iff before hword.symm).mp hagree
  apply messageBits_injective
  rw [hlast, ← hsolved, combine_lastWord, ← hword]

/-- The two builds agree on the empty string, on no string of one, two or three bytes,
and on the longer strings that pass the parity check. -/
theorem hardware_eq_table_iff (bytes : List UInt8) :
    hardwareCyclicRedundancyCode32 bytes = computeCyclicRedundancyCode32 bytes ↔
      bytes = [] ∨ 4 ≤ bytes.length ∧ PassesParityCheck bytes := by
  rw [agree_iff]
  constructor
  · intro hpasses
    by_cases hne : bytes = []
    · exact .inl hne
    · exact .inr ⟨Nat.le_of_not_lt fun hshort => not_passesParityCheck hne hshort hpasses, hpasses⟩
  · rintro (rfl | ⟨-, hpasses⟩)
    · rfl
    · exact hpasses

/-- One byte is enough to tell the two builds apart. -/
theorem hardware_differs :
    ¬ ∀ bytes, hardwareCyclicRedundancyCode32 bytes = computeCyclicRedundancyCode32 bytes := by
  intro h
  have hzero := h [0]
  revert hzero
  decide +kernel

end RayPlatform
