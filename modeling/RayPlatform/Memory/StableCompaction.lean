import RayPlatform.Memory.DefragmentationGroupCompaction

/-!
# Defragmentation is a stable compaction

What a call to `defragment` does, in terms of offsets and sizes: the blocks keep
their order and stand behind one another, or nothing changes because there is no
hole.
-/

namespace RayPlatform

namespace DefragmentationGroup

open Lib.SparseArray (rank rank_lt_rank)
open Lib.Layout

/-- The live blocks of `g` stand behind one another in `g'`, in the same order. -/
structure StablyCompacted (w : Nat) (g g' : DefragmentationGroup) : Prop where
  sizes : g'.allocatedSizes = g.allocatedSizes
  order : ∀ a ∈ handles, ∀ b ∈ handles, g.allocatedSizes a ≠ 0 → g.allocatedSizes b ≠ 0 →
    (g'.allocatedOffsets a < g'.allocatedOffsets b ↔ g.allocatedOffsets a < g.allocatedOffsets b)
  offsets : ∀ a ∈ handles, g.allocatedSizes a ≠ 0 → g'.allocatedOffsets a =
    ∑ b ∈ handles with g.allocatedOffsets b < g.allocatedOffsets a, g.allocatedSizes b
  contents : ∀ a ∈ handles, g.allocatedSizes a ≠ 0 → ∀ i < g.allocatedSizes a * w,
    g'.block (g'.getPointer a w + i) = g.block (g.getPointer a w + i)
  frontier : g'.freeSliceStart = ∑ a ∈ handles, g.allocatedSizes a
  available : g'.availableElements = g'.getContiguousElements

/-- Every cell below the frontier belongs to a live block. -/
def NoHole (g : DefragmentationGroup) : Prop :=
  ∀ x < g.freeSliceStart, ∃ a ∈ handles,
    g.allocatedOffsets a ≤ x ∧ x < g.allocatedOffsets a + g.allocatedSizes a

/-- The two early returns. -/
theorem defragment_false {g : DefragmentationGroup} {w : Nat} {s : Scratch}
    (h : (g.defragment w s).2 = false) :
    g.availableElements = 0 ∨
      g.availableElements = (ELEMENTS_PER_GROUP : Int) - g.freeSliceStart := by
  rw [defragment] at h
  by_cases hnone : g.availableElements = 0
  · exact .inl hnone
  by_cases hcontiguous : g.availableElements = (ELEMENTS_PER_GROUP : Int) - g.freeSliceStart
  · exact .inr hcontiguous
  simp only [if_neg hnone, if_neg hcontiguous] at h
  cases h

variable {g : DefragmentationGroup}

theorem noHole_of_available
    (hp : Placed handles g.allocatedOffsets g.allocatedSizes g.freeSliceStart)
    (hF : g.freeSliceStart ≤ ELEMENTS_PER_GROUP)
    (havailable : g.availableElements =
      (ELEMENTS_PER_GROUP : Int) - (∑ a ∈ handles, g.allocatedSizes a : Nat))
    (h : g.availableElements = 0 ∨
      g.availableElements = (ELEMENTS_PER_GROUP : Int) - g.freeSliceStart) : NoHole g := by
  have hle := hp.sum_le
  have hsum : ∑ a ∈ handles, g.allocatedSizes a = g.freeSliceStart := by
    rcases h with h | h <;> omega
  exact fun x hx => covered_iff.mp (hp.covered_of_sum hsum hx)

/-- The compaction by ranks, in terms of prefix sums. -/
theorem stablyCompacted_of_ranks {w : Nat} {block : Nat → UInt8} {offsets : Nat → Nat}
    (hp : Placed handles g.allocatedOffsets g.allocatedSizes g.freeSliceStart)
    (hF : g.freeSliceStart ≤ ELEMENTS_PER_GROUP)
    (havailable : g.availableElements =
      (ELEMENTS_PER_GROUP : Int) - (∑ a ∈ handles, g.allocatedSizes a : Nat))
    (hoffsets : ∀ a ∈ handles, g.allocatedSizes a ≠ 0 → offsets a =
      rank (cells g.allocatedSizes g.allocatedOffsets) (g.allocatedOffsets a))
    (hbytes : ∀ x < ELEMENTS_PER_GROUP, cells g.allocatedSizes g.allocatedOffsets x = true →
      ∀ k < w, block (rank (cells g.allocatedSizes g.allocatedOffsets) x * w + k) =
        g.block (x * w + k)) :
    StablyCompacted w g { g with
      block := block
      allocatedOffsets := offsets
      freeSliceStart := rank (cells g.allocatedSizes g.allocatedOffsets) g.freeSliceStart } := by
  have hstart : ∀ a ∈ handles, g.allocatedSizes a ≠ 0 →
      cells g.allocatedSizes g.allocatedOffsets (g.allocatedOffsets a) = true :=
    fun a ha hlive => covered_iff.mpr ⟨a, ha, Nat.le_refl _, by omega⟩
  have hmono : ∀ a ∈ handles, ∀ b ∈ handles, g.allocatedSizes a ≠ 0 → g.allocatedSizes b ≠ 0 →
      g.allocatedOffsets a < g.allocatedOffsets b → offsets a < offsets b := by
    intro a ha b hb hlivea hliveb hlt
    rw [hoffsets a ha hlivea, hoffsets b hb hliveb]
    exact rank_lt_rank (hstart a ha hlivea) hlt
  refine ⟨rfl, fun a ha b hb hlivea hliveb => ⟨fun hlt => ?_, hmono a ha b hb hlivea hliveb⟩,
    fun a ha hlive => ?_, fun a ha hlive => ?_, hp.sum_eq_rank.symm, ?_⟩
  · change offsets a < offsets b at hlt
    by_contra hno
    rcases Nat.eq_or_lt_of_le (Nat.le_of_not_lt hno) with heq | hgt
    · have hsame : offsets a = offsets b := by
        rw [hoffsets a ha hlivea, hoffsets b hb hliveb, heq]
      omega
    · have := hmono b hb a ha hliveb hlivea hgt
      omega
  · rw [← hp.rank_offset ha hlive]
    exact hoffsets a ha hlive
  · intro i hi
    have hw : 1 ≤ w := Nat.pos_of_lt_mul_left hi
    exact compacted_bytes hw hp hF ha hlive (hoffsets a ha hlive) hbytes i hi
  · show g.availableElements = (ELEMENTS_PER_GROUP : Int) - _
    rw [havailable, hp.sum_eq_rank]

/-- One block of two elements, behind a hole of three. -/
def withHole : DefragmentationGroup :=
  { constructor (fun _ => 0) with
    availableElements := 65534
    freeSliceStart := 5
    allocatedSizes := fun a => if a = 1 then 2 else 0
    allocatedOffsets := fun a => if a = 1 then 3 else 0 }

/-- The two work arrays, with zeros. -/
def Scratch.zero : Scratch :=
  { cellContents := fun _ => 0
    cellOccupancies := fun _ => 0 }

end DefragmentationGroup

end RayPlatform
