import RayPlatform.Communication.BufferedData
import RayPlatform.Communication.InboundBuffers
import RayPlatform.Core.ComputeCore

/-!
# Addresses of the rings of a ComputeCore

`configureEngine` gives each ring two chunks per rank, but at least 128. The size of the
block and the offset of a chunk are products of two `int`s: they are computed here on 32-bit
words, beside the mathematical `RingAllocator.address`. Both agree up to 266305 ranks (`addressesAgree_iff`);
beyond, `constructor` asks for a block that is shorter than the ring, or for none
(`allocatedBytes_short`).
-/

namespace RayPlatform

namespace RingAllocator

/-! ## Products of `int`s -/

/-- `m_numberOfBytes=m_chunks*m_max` -/
def numberOfBytes (chunks size : Nat) : Int32 :=
  Int32.ofNat chunks * Int32.ofNat size

/-- `__Malloc(sizeof(uint8_t)*m_numberOfBytes)`: the bytes of the block. -/
def allocatedBytes (chunks size : Nat) : Option Nat :=
  Malloc (numberOfBytes chunks size).toInt64.toUInt64.toNat

/-- `m_current*m_max` -/
def offset (r : RingAllocator) (slot : Nat) : Int32 :=
  Int32.ofNat slot * Int32.ofNat r.max

/-- `m_memory+m_current*m_max` -/
def addressWord (r : RingAllocator) (slot : Nat) : UInt64 :=
  UInt64.ofNat r.memory + (r.offset slot).toInt64.toUInt64

/-- The address `allocate` returns. -/
def allocateWord (r : RingAllocator) : UInt64 :=
  r.addressWord r.scan

def getBufferHandleWord (r : RingAllocator) (buffer : UInt64) : Int32 :=
  let difference := buffer - UInt64.ofNat r.memory
  (difference / (Int32.ofNat r.max).toInt64.toUInt64).toUInt32.toInt32

/-- The product of two counts fits an `int`, or it is not what the `int` holds. -/
theorem toInt_ofNat_mul {a b : Nat} :
    (Int32.ofNat a * Int32.ofNat b).toInt = a * b ↔ a * b < 2 ^ 31 := by
  constructor
  · intro h
    have hlt := Int32.toInt_lt (Int32.ofNat a * Int32.ofNat b)
    rw [h] at hlt
    exact_mod_cast hlt
  · intro h
    rw [← Int32.ofNat_mul, Int32.toInt_ofNat_of_lt h, Int.natCast_mul]

theorem toUInt64_ofNat {n : Nat} (h : n < 2 ^ 31) :
    (Int32.ofNat n).toInt64.toUInt64 = UInt64.ofNat n := by
  have hmaxValue : Int32.maxValue.toInt = 2 ^ 31 - 1 := rfl
  rw [Int32.toInt64_ofNat' (by omega), Int64.toUInt64_ofNat']

/-- Widening and narrowing keep the low 32 bits. -/
theorem toNat_ofNat_mod (n : Nat) :
    (Int32.ofNat n).toInt64.toUInt64.toNat % 2 ^ 32 = n % 2 ^ 32 := by
  have hbits : (Int32.ofNat n).toInt64.toUInt64.toNat =
      ((BitVec.ofNat 32 n).signExtend 64).toNat := rfl
  have hlow : (BitVec.ofNat 32 n).toNat % 2 ^ 64 = n % 2 ^ 32 := by
    rw [BitVec.toNat_ofNat]
    exact Nat.mod_eq_of_lt (by omega)
  rw [hbits, BitVec.toNat_signExtend, BitVec.toNat_setWidth, hlow]
  split <;> omega

/-- `__Malloc` sees the product modulo `2 ^ 32`. -/
theorem allocatedBytes_eq (chunks size : Nat) :
    allocatedBytes chunks size = Malloc (chunks * size) := by
  have hmod : (numberOfBytes chunks size).toInt64.toUInt64.toNat % 2 ^ 32 =
      chunks * size % 2 ^ 32 := by
    rw [numberOfBytes, ← Int32.ofNat_mul]
    exact toNat_ofNat_mod _
  rw [allocatedBytes, Malloc, Malloc, hmod]

/-- The size wraps around: the block cannot hold the ring. -/
theorem allocatedBytes_short {chunks size : Nat} (h : 2 ^ 31 ≤ chunks * size) :
    ∀ bytes, allocatedBytes chunks size = some bytes → bytes < chunks * size := by
  intro bytes hbytes
  rw [allocatedBytes_eq, Malloc] at hbytes
  obtain ⟨hlt, hbytes⟩ := Option.ite_none_right_eq_some.mp hbytes
  cases hbytes
  omega

/-! ## The ring of a job -/

/-- A ring of the engine of a job with `ranks` ranks, on its block of memory, with any head and
any dirty pattern. -/
structure OfEngine (ranks bytes : Nat) (r : RingAllocator) : Prop where
  chunks : r.chunks = maximumAllocatedOutboxBuffers ranks
  max : r.max = maximumMessageSizeInBytes
  current_lt : r.current < r.chunks
  block : allocatedBytes r.chunks r.max = some bytes
  fits : r.memory + bytes ≤ 2 ^ 64

theorem OfEngine.constructor {ranks bytes memory : Nat}
    (hblock : allocatedBytes (maximumAllocatedOutboxBuffers ranks) maximumMessageSizeInBytes =
      some bytes) (hfits : memory + bytes ≤ 2 ^ 64) :
    OfEngine ranks bytes (.constructor memory (maximumAllocatedOutboxBuffers ranks)
      maximumMessageSizeInBytes) :=
  ⟨rfl, rfl, maximumAllocatedOutboxBuffers_pos ranks, hblock, hfits⟩

theorem OfEngine.allocate {ranks bytes : Nat} {r : RingAllocator} (h : OfEngine ranks bytes r) :
    OfEngine ranks bytes r.allocate.1 :=
  ⟨h.chunks, h.max, Lib.CyclicScan.next_lt (scan_lt h.current_lt), h.block, h.fits⟩

/-- Addresses and handles agree. -/
structure AddressesAgree (ranks : Nat) : Prop where
  numberOfBytes :
    (numberOfBytes (maximumAllocatedOutboxBuffers ranks) maximumMessageSizeInBytes).toInt =
      maximumAllocatedOutboxBuffers ranks * maximumMessageSizeInBytes
  offset : ∀ bytes r, OfEngine ranks bytes r → ∀ slot < r.chunks,
    (r.offset slot).toInt = slot * r.max
  inside : ∀ bytes r, OfEngine ranks bytes r → ∃ slot < r.chunks,
    r.allocateWord.toNat = r.memory + slot * r.max ∧
      r.allocateWord.toNat + r.max ≤ r.memory + bytes
  apart : ∀ bytes r, OfEngine ranks bytes r → ∀ i < r.chunks, ∀ j < r.chunks, i ≠ j →
    (r.addressWord i).toNat + r.max ≤ (r.addressWord j).toNat ∨
      (r.addressWord j).toNat + r.max ≤ (r.addressWord i).toNat
  handle : ∀ bytes r, OfEngine ranks bytes r → ∀ slot < r.chunks,
    (r.getBufferHandleWord (r.addressWord slot)).toInt = slot

/-! ## The ring fits an `int` -/

section Fits

variable {ranks bytes : Nat} {r : RingAllocator}

theorem allocatedBytes_of_lt {chunks size : Nat} (h : chunks * size < 2 ^ 31) :
    allocatedBytes chunks size = some (chunks * size) := by
  have hmod : chunks * size % 2 ^ 32 = chunks * size := Nat.mod_eq_of_lt (by omega)
  rw [allocatedBytes_eq, Malloc, hmod, if_pos h]

/-- Every chunk ends inside the block. -/
theorem slot_mul_le {slot : Nat} (hslot : slot < r.chunks) :
    slot * r.max + r.max ≤ r.chunks * r.max := by
  have hmul := Nat.mul_le_mul_right r.max hslot
  rwa [Nat.succ_mul] at hmul

/-- The machine computes the address of the mathematical ring. -/
theorem OfEngine.addressWord_toNat (h : OfEngine ranks bytes r)
    (hfits : r.chunks * r.max < 2 ^ 31) (hmax : 0 < r.max) {slot : Nat} (hslot : slot < r.chunks) :
    (r.addressWord slot).toNat = r.address slot := by
  have hend := slot_mul_le hslot
  have hbytes : bytes = r.chunks * r.max := by
    have hblock := h.block
    rw [allocatedBytes_of_lt hfits] at hblock
    exact (Option.some.inj hblock).symm
  have hspace := h.fits
  rw [addressWord, offset, ← Int32.ofNat_mul, toUInt64_ofNat (by omega), ← UInt64.ofNat_add,
    UInt64.toNat_ofNat', Nat.mod_eq_of_lt (by omega)]
  rfl

/-- The division undoes the product, wherever the block is. -/
theorem toInt_getBufferHandleWord (hfits : r.chunks * r.max < 2 ^ 31) (hmax : 0 < r.max)
    {slot : Nat} (hslot : slot < r.chunks) :
    (r.getBufferHandleWord (r.addressWord slot)).toInt = slot := by
  have hend := slot_mul_le hslot
  have hle : slot * 1 ≤ slot * r.max := Nat.mul_le_mul_left slot hmax
  have hdifference : r.addressWord slot - UInt64.ofNat r.memory = UInt64.ofNat (slot * r.max) := by
    rw [addressWord, offset, ← Int32.ofNat_mul, toUInt64_ofNat (by omega), UInt64.add_comm]
    exact UInt64.add_sub_cancel _ _
  have hquotient : UInt64.ofNat (slot * r.max) / UInt64.ofNat r.max = UInt64.ofNat slot := by
    apply UInt64.toNat_inj.mp
    rw [UInt64.toNat_div, UInt64.toNat_ofNat', UInt64.toNat_ofNat', UInt64.toNat_ofNat',
      Nat.mod_eq_of_lt (by omega), Nat.mod_eq_of_lt (by omega), Nat.mod_eq_of_lt (by omega)]
    exact Nat.mul_div_cancel slot hmax
  have hindex : r.getBufferHandleWord (r.addressWord slot) = Int32.ofNat slot := by
    rw [getBufferHandleWord, hdifference, toUInt64_ofNat (by omega), hquotient,
      UInt64.toUInt32_ofNat', UInt32.toInt32_ofNat']
  rw [hindex, Int32.toInt_ofNat_of_lt (by omega)]

end Fits

/-- The product fits an `int` up to 266305 ranks. -/
theorem ring_fits_iff (ranks : Nat) :
    maximumAllocatedOutboxBuffers ranks * maximumMessageSizeInBytes < 2 ^ 31 ↔ ranks ≤ 266305 := by
  rw [ComputeCore.chunk_size, maximumAllocatedOutboxBuffers]
  split <;> omega

theorem not_addressesAgree {ranks : Nat} (h : 266305 < ranks) : ¬AddressesAgree ranks := by
  intro hagree
  have hfits := toInt_ofNat_mul.mp hagree.numberOfBytes
  have hle := (ring_fits_iff ranks).mp hfits
  omega

theorem addressesAgree_of_le {ranks : Nat} (h : ranks ≤ 266305) : AddressesAgree ranks := by
  have hfits := (ring_fits_iff ranks).mpr h
  have hring : ∀ {bytes r}, OfEngine ranks bytes r → r.chunks * r.max < 2 ^ 31 ∧ 0 < r.max := by
    intro bytes r hr
    rw [hr.chunks, hr.max]
    exact ⟨hfits, by decide⟩
  refine ⟨toInt_ofNat_mul.mpr hfits, ?_, ?_, ?_, ?_⟩
  · intro bytes r hr slot hslot
    have hend := slot_mul_le hslot
    exact toInt_ofNat_mul.mpr (by have := (hring hr).1; omega)
  · intro bytes r hr
    obtain ⟨hsmall, hmax⟩ := hring hr
    have hscan := scan_lt hr.current_lt
    have hbytes : bytes = r.chunks * r.max := by
      have hblock := hr.block
      rw [allocatedBytes_of_lt hsmall] at hblock
      exact (Option.some.inj hblock).symm
    have haddress : r.allocateWord.toNat = r.memory + r.scan * r.max :=
      hr.addressWord_toNat hsmall hmax hscan
    have hend := slot_mul_le hscan
    exact ⟨r.scan, hscan, haddress, by omega⟩
  · intro bytes r hr i hi j hj hij
    obtain ⟨hsmall, hmax⟩ := hring hr
    rw [hr.addressWord_toNat hsmall hmax hi, hr.addressWord_toNat hsmall hmax hj]
    exact address_disjoint r hij
  · intro bytes r hr slot hslot
    obtain ⟨hsmall, hmax⟩ := hring hr
    exact toInt_getBufferHandleWord hsmall hmax hslot

/-- The rings work for the jobs whose block fits an `int`, and for no other. -/
theorem addressesAgree_iff (ranks : Nat) : AddressesAgree ranks ↔ ranks ≤ 266305 := by
  constructor
  · intro hagree
    by_contra hmany
    exact not_addressesAgree (Nat.lt_of_not_le hmany) hagree
  · exact addressesAgree_of_le

/-- With the largest number of ranks, `constructor` asks for a negative number of bytes; with
600000, for 543432704 bytes of the 4838400000. -/
theorem addressesAgree_not_all :
    ¬(∀ ranks, 1 ≤ ranks → ranks ≤ 1000000 → AddressesAgree ranks) ∧
      allocatedBytes (maximumAllocatedOutboxBuffers 1000000) maximumMessageSizeInBytes = none ∧
      allocatedBytes (maximumAllocatedOutboxBuffers 600000) maximumMessageSizeInBytes =
        some 543432704 := by
  refine ⟨?_, by decide, by decide⟩
  intro hall
  exact not_addressesAgree (by decide) (hall 1000000 (by decide) (by decide))

end RingAllocator

end RayPlatform
