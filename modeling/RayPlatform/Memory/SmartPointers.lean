import Mathlib.Data.Set.Function
import RayPlatform.Memory.ChunkAllocatorWithDefragmentation

/-!
# SmartPointers

A `SmartPointer` is a number of 32 bits for a lane, a group of this lane and a handle
of this group: `smartPointer` builds it and `resolve` takes it apart. With 512 lanes
of 1024 groups of 65536 handles there are 2^35 places, so only those of the first 64
lanes are named, and the last of them has the name of `SmartPointer_NULL`
(`resolve_smartPointer_iff`).

* The product in `int` wraps around, as it does on the machines of the source.
-/

namespace RayPlatform

/-- What a `SmartPointer` names. -/
structure Place where
  lane : Nat
  group : Nat
  handle : Nat
deriving DecidableEq

/-- The lanes, groups and handles that there are. -/
def Place.Valid (p : Place) : Prop :=
  p.lane < NUMBER_OF_LANES ∧ p.group < GROUPS_PER_LANE ∧ p.handle < ELEMENTS_PER_GROUP

instance Place.decidableValid (p : Place) : Decidable p.Valid :=
  inferInstanceAs (Decidable (_ ∧ _ ∧ _))

namespace ChunkAllocatorWithDefragmentation

/-- The last lines of `allocate`. -/
def smartPointer (p : Place) : Nat :=
  let globalGroup := p.lane * GROUPS_PER_LANE + p.group
  (globalGroup * ELEMENTS_PER_GROUP + p.handle) % 2 ^ 32

/-- The first lines of `getPointer` and of `deallocate`; none is the early return. -/
def resolve (a : Nat) : Option Place :=
  if a = SmartPointer_NULL then none
  else
    let group := a / ELEMENTS_PER_GROUP
    some
      { lane := group / GROUPS_PER_LANE
        group := group % GROUPS_PER_LANE
        handle := a % ELEMENTS_PER_GROUP }

/-- `getPointer`: NULL, or a byte of the memory of a group. -/
def getPointer (c : ChunkAllocatorWithDefragmentation) (a : Nat) :
    Except MemoryFault (Option (Nat × Nat × Nat)) :=
  if a = SmartPointer_NULL then .ok none
  else
    let group := a / ELEMENTS_PER_GROUP
    let correctLaneId := group / GROUPS_PER_LANE
    let groupInLane := group % GROUPS_PER_LANE
    let smallSmartPointer := a % ELEMENTS_PER_GROUP
    (c.getLane correctLaneId).bind fun lane =>
      (lane.getGroup groupInLane).map fun g =>
        some (correctLaneId, groupInLane, g.getPointer smallSmartPointer c.bytesPerElement)

/-! ## The three functions use the same places -/

variable {c : ChunkAllocatorWithDefragmentation}

theorem getPointer_resolve {a : Nat} {p : Place} (h : resolve a = some p) :
    c.getPointer a = (c.getLane p.lane).bind fun lane =>
      (lane.getGroup p.group).map fun g =>
        some (p.lane, p.group, g.getPointer p.handle c.bytesPerElement) := by
  unfold resolve at h
  unfold getPointer
  split at h
  · cases h
  · rename_i hne
    rw [if_neg hne]
    cases h
    rfl

theorem deallocate_resolve {a : Nat} {p : Place} (h : resolve a = some p) (s : Scratch) :
    c.deallocate a s = (c.getLane p.lane).bind fun lane =>
      (lane.getGroup p.group).map fun g =>
        c.setLane p.lane (lane.setGroup p.group (g.deallocate p.handle c.bytesPerElement s)) := by
  unfold resolve at h
  unfold deallocate
  split at h
  · cases h
  · rename_i hne
    rw [if_neg hne]
    cases h
    rfl

/-- The pointer that a client gets is that of the place in the fast lane. -/
theorem forward_smartPointer {i n : Nat} {lane lane' : DefragmentationLane} {handle : Nat}
    {s : Scratch} (hfast : c.fastLane = some i) (hlane : c.getLane i = .ok lane)
    (hallocate : lane.allocate n c.bytesPerElement s = .ok (lane', handle)) :
    c.forward n s = .ok (c.setLane i lane',
      smartPointer ⟨lane'.number, lane'.fastGroup, handle⟩) := by
  simp only [forward, hfast, hlane, Except.bind, hallocate]
  rfl

/-! ## Names -/

/-- The places below the 64th lane, but for the last one. -/
def HasName (p : Place) : Prop :=
  p.lane < 64 ∧ p ≠ ⟨63, 1023, 65535⟩

instance decidableHasName (p : Place) : Decidable (HasName p) :=
  inferInstanceAs (Decidable (_ ∧ _))

/-- In the first 64 lanes the three parts fit in 32 bits. -/
theorem smartPointer_eq {p : Place} (hp : p.Valid) (hlane : p.lane < 64) :
    smartPointer p = p.lane * 67108864 + p.group * 65536 + p.handle := by
  obtain ⟨-, hgroup, hhandle⟩ := hp
  unfold GROUPS_PER_LANE at hgroup
  unfold ELEMENTS_PER_GROUP at hhandle
  unfold smartPointer GROUPS_PER_LANE ELEMENTS_PER_GROUP
  rw [Nat.mod_eq_of_lt (by omega)]
  omega

theorem resolve_smartPointer {p : Place} (hp : p.Valid) (hname : HasName p) :
    smartPointer p ≠ SmartPointer_NULL ∧ resolve (smartPointer p) = some p := by
  obtain ⟨hlane, hlast⟩ := hname
  have heq := smartPointer_eq hp hlane
  obtain ⟨-, hgroup, hhandle⟩ := hp
  unfold GROUPS_PER_LANE at hgroup
  unfold ELEMENTS_PER_GROUP at hhandle
  have hne : smartPointer p ≠ SmartPointer_NULL := by
    intro hnull
    rw [heq] at hnull
    unfold SmartPointer_NULL at hnull
    apply hlast
    cases p with
    | mk lane group handle =>
        simp only at *
        rw [show lane = 63 by omega, show group = 1023 by omega, show handle = 65535 by omega]
  refine ⟨hne, ?_⟩
  rw [resolve, if_neg hne, heq]
  unfold GROUPS_PER_LANE ELEMENTS_PER_GROUP
  cases p with
  | mk lane group handle =>
      simp only [Option.some.injEq, Place.mk.injEq] at *
      omega

/-- A `SmartPointer` never resolves to a lane from the 65th on. -/
theorem resolve_lane_lt {p q : Place} (h : resolve (smartPointer p) = some q) : q.lane < 64 := by
  unfold resolve at h
  split at h
  · cases h
  · cases h
    have hlt : smartPointer p < 2 ^ 32 := Nat.mod_lt _ (by decide)
    show smartPointer p / ELEMENTS_PER_GROUP / GROUPS_PER_LANE < 64
    unfold ELEMENTS_PER_GROUP GROUPS_PER_LANE
    omega

/-- A place is found again from its `SmartPointer` exactly when it has a name. -/
theorem resolve_smartPointer_iff {p : Place} (hp : p.Valid) :
    resolve (smartPointer p) = some p ↔ HasName p := by
  constructor
  · intro h
    refine ⟨resolve_lane_lt h, ?_⟩
    rintro rfl
    revert h
    decide
  · exact fun hname => (resolve_smartPointer hp hname).2

/-- The pointers of these places are not NULL, resolve to their places, and are distinct. -/
structure Unambiguous (places : Set Place) : Prop where
  notNull : ∀ p ∈ places, smartPointer p ≠ SmartPointer_NULL
  resolves : ∀ p ∈ places, resolve (smartPointer p) = some p
  distinct : Set.InjOn smartPointer places

/-- SmartPointers are unambiguous in the first 64 lanes, but for the last handle, and
nowhere else. -/
theorem unambiguous_iff (places : Set Place) (hvalid : ∀ p ∈ places, p.Valid) :
    Unambiguous places ↔ ∀ p ∈ places, HasName p := by
  constructor
  · exact fun h p hp => (resolve_smartPointer_iff (hvalid p hp)).mp (h.resolves p hp)
  · intro h
    refine ⟨fun p hp => (resolve_smartPointer (hvalid p hp) (h p hp)).1,
      fun p hp => (resolve_smartPointer (hvalid p hp) (h p hp)).2, fun p hp q hq heq => ?_⟩
    have hresolve := (resolve_smartPointer (hvalid p hp) (h p hp)).2
    rw [heq, (resolve_smartPointer (hvalid q hq) (h q hq)).2] at hresolve
    exact (Option.some.inj hresolve).symm

theorem unambiguous_iff_two : Unambiguous {⟨1, 2, 3⟩, ⟨2, 0, 7⟩} := by
  refine (unambiguous_iff _ fun p hp => ?_).mpr fun p hp => ?_
  · rcases hp with rfl | rfl <;> decide
  · rcases hp with rfl | rfl <;> decide

/-- The first handle of the 65th lane has the pointer of that of the first lane, and the
last handle of the 64th lane has that of NULL. -/
theorem smartPointer_ambiguous :
    (∀ p ∈ ({⟨64, 0, 0⟩, ⟨0, 0, 0⟩, ⟨63, 1023, 65535⟩} : Set Place), p.Valid) ∧
      smartPointer ⟨64, 0, 0⟩ = smartPointer ⟨0, 0, 0⟩ ∧
      resolve (smartPointer ⟨64, 0, 0⟩) = some ⟨0, 0, 0⟩ ∧
      smartPointer ⟨63, 1023, 65535⟩ = SmartPointer_NULL ∧ ¬ Unambiguous {p | p.Valid} := by
  refine ⟨fun p hp => ?_, by decide, by decide, by decide, fun h => ?_⟩
  · rcases hp with rfl | rfl | rfl <;> decide
  · exact h.notNull ⟨63, 1023, 65535⟩ (by decide) (by decide)

end ChunkAllocatorWithDefragmentation

end RayPlatform
