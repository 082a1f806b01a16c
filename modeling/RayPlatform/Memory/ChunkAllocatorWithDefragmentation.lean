import RayPlatform.Memory.DefragmentationGroupClient
import RayPlatform.Memory.DefragmentationLane

/-!
# ChunkAllocatorWithDefragmentation

An array of lanes, added one by one, and the fast lane, which serves a request when its
fast group can. A `SmartPointer` is a 32-bit number that names the lane, the group and the
handle.

* A pointer to a lane is its place in the array; `none` is `NULL`.
* `globalGroup*ELEMENTS_PER_GROUP` is reduced to 32 bits where it is stored: from the
  65th lane on, the pointers are those of the first lanes again.
* `chunkSystem` is the runs of a client that asks for 1 to 64 elements and gives back
  pointers that it holds;
* `chunkSystem_forwards` — a request goes to a group that can serve it, until the lanes
  are exhausted;
* `chunkSystem_wellPlaced` — every group keeps the invariant of `DefragmentationGroup`.
-/

namespace RayPlatform

open Lib (TransitionSystem)

def NUMBER_OF_LANES : Nat := 512

def SmartPointer_NULL : Nat := 4294967295

structure ChunkAllocatorWithDefragmentation where
  fastLane : Option Nat
  numberOfLanes : Nat
  bytesPerElement : Nat
  defragmentationLanes : Nat → Option DefragmentationLane

namespace ChunkAllocatorWithDefragmentation

def constructor (bytesPerElement : Nat) : ChunkAllocatorWithDefragmentation :=
  { fastLane := none
    numberOfLanes := 0
    bytesPerElement := bytesPerElement
    defragmentationLanes := fun _ => none }

def getLane (c : ChunkAllocatorWithDefragmentation) (i : Nat) :
    Except MemoryFault DefragmentationLane :=
  match c.defragmentationLanes i with
  | some lane => .ok lane
  | none => .error .nullLane

def setLane (c : ChunkAllocatorWithDefragmentation) (i : Nat) (lane : DefragmentationLane) :
    ChunkAllocatorWithDefragmentation :=
  { c with defragmentationLanes := Function.update c.defragmentationLanes i (some lane) }

/-- Ask a lane, which changes it. -/
def askLane (c : ChunkAllocatorWithDefragmentation) (i n : Nat) (fresh : FreshMemory) :
    Except MemoryFault (ChunkAllocatorWithDefragmentation × Bool) :=
  (c.getLane i).bind fun lane =>
    (lane.canAllocate n fresh).map fun (lane, can) => (c.setLane i lane, can)

/-- `for(int i=0;i<m_numberOfLanes;i++)`: the first lane that can serve the request. -/
def scanLanes (n : Nat) (fresh : FreshMemory) : Nat → Nat → ChunkAllocatorWithDefragmentation →
    Except MemoryFault (ChunkAllocatorWithDefragmentation × Option Nat)
  | 0, _, c => .ok (c, none)
  | fuel + 1, i, c =>
      (c.askLane i n fresh).bind fun (c, can) =>
        if can then .ok (c, some i) else scanLanes n fresh fuel (i + 1) c

/-- The lane that `updateFastLane` adds when no other can serve the request. -/
def addLane (c : ChunkAllocatorWithDefragmentation) (n : Nat) (fresh : FreshMemory) :
    Except MemoryFault ChunkAllocatorWithDefragmentation :=
  if c.numberOfLanes < NUMBER_OF_LANES then
    let number := c.numberOfLanes
    let c := { c.setLane number (.constructor number fresh) with numberOfLanes := number + 1 }
    (c.askLane number n fresh).map fun (c, can) =>
      if can then { c with fastLane := some number } else c
  else .error .noMoreLanes

def updateFastLane (c : ChunkAllocatorWithDefragmentation) (n : Nat) (fresh : FreshMemory) :
    Except MemoryFault ChunkAllocatorWithDefragmentation :=
  (scanLanes n fresh c.numberOfLanes 0 c).bind fun (c, found) =>
    match found with
    | some i => .ok { c with fastLane := some i }
    | none => c.addLane n fresh

/-- The first part of `allocate`: the fast lane is asked, and replaced if need be. -/
def selectLane (c : ChunkAllocatorWithDefragmentation) (n : Nat) (fresh : FreshMemory) :
    Except MemoryFault ChunkAllocatorWithDefragmentation :=
  match c.fastLane with
  | none => c.updateFastLane n fresh
  | some i => (c.askLane i n fresh).bind fun (c, can) =>
      if can then .ok c else c.updateFastLane n fresh

/-- The second part of `allocate`: the fast lane gives a handle, and the result is its
`SmartPointer`. -/
def forward (c : ChunkAllocatorWithDefragmentation) (n : Nat) (s : Scratch) :
    Except MemoryFault (ChunkAllocatorWithDefragmentation × Nat) :=
  match c.fastLane with
  | none => .error .nullLane
  | some i => (c.getLane i).bind fun lane =>
      (lane.allocate n c.bytesPerElement s).map fun (lane, smallSmartPointer) =>
        let globalGroup := lane.number * GROUPS_PER_LANE + lane.fastGroup
        (c.setLane i lane, (globalGroup * ELEMENTS_PER_GROUP + smallSmartPointer) % 2 ^ 32)

def allocate (c : ChunkAllocatorWithDefragmentation) (n : Nat) (fresh : FreshMemory)
    (s : Scratch) : Except MemoryFault (ChunkAllocatorWithDefragmentation × Nat) :=
  (c.selectLane n fresh).bind fun c => c.forward n s

def deallocate (c : ChunkAllocatorWithDefragmentation) (a : Nat) (s : Scratch) :
    Except MemoryFault ChunkAllocatorWithDefragmentation :=
  if a = SmartPointer_NULL then .ok c
  else
    let group := a / ELEMENTS_PER_GROUP
    let correctLaneId := group / GROUPS_PER_LANE
    let groupInLane := group % GROUPS_PER_LANE
    let smallSmartPointer := a % ELEMENTS_PER_GROUP
    (c.getLane correctLaneId).bind fun lane =>
      (lane.getGroup groupInLane).map fun g =>
        let g := g.deallocate smallSmartPointer c.bytesPerElement s
        c.setLane correctLaneId (lane.setGroup groupInLane g)

end ChunkAllocatorWithDefragmentation

/-- An allocator and the pointers that its client holds. -/
structure ChunkClient where
  allocator : ChunkAllocatorWithDefragmentation
  live : List Nat

inductive ChunkCall
  | allocate (n : Nat) (fresh : FreshMemory) (s : Scratch)
  | deallocate (a : Nat) (s : Scratch)

/-- A call as the class allows it: 1 to 64 elements, and a pointer that is held. -/
def ChunkClient.exec (c : ChunkClient) : ChunkCall → Option ChunkClient
  | .allocate n fresh s =>
      if 1 ≤ n ∧ n ≤ 64 then
        (c.allocator.allocate n fresh s).toOption.map fun (allocator, a) =>
          ⟨allocator, a :: c.live⟩
      else none
  | .deallocate a s =>
      if a ∈ c.live then
        (c.allocator.deallocate a s).toOption.map fun allocator => ⟨allocator, c.live.erase a⟩
      else none

/-- The runs of a client. -/
def chunkSystem (bytesPerElement : Nat) : TransitionSystem ChunkClient ChunkCall :=
  .ofExec ⟨.constructor bytesPerElement, []⟩ ChunkClient.exec

namespace ChunkAllocatorWithDefragmentation

/-! ## The invariant -/

/-- The lanes below `numberOfLanes` exist, and all but the last are full. -/
structure Inv (P : DefragmentationGroup → Prop) (c : ChunkAllocatorWithDefragmentation) : Prop where
  lanes_le : c.numberOfLanes ≤ NUMBER_OF_LANES
  lane : ∀ i < c.numberOfLanes, ∃ lane, c.defragmentationLanes i = some lane ∧ lane.Inv P ∧
    lane.number = i ∧ (i + 1 < c.numberOfLanes → lane.numberOfActiveGroups = GROUPS_PER_LANE)
  null : ∀ i, c.numberOfLanes ≤ i → c.defragmentationLanes i = none
  fastLane : ∀ i, c.fastLane = some i → i < c.numberOfLanes

/-- The fast lane, and its fast group that can allocate `n` elements. -/
structure Selects (c : ChunkAllocatorWithDefragmentation) (n : Nat) : Prop where
  selected : ∃ i lane g, c.fastLane = some i ∧ i < c.numberOfLanes ∧
    c.defragmentationLanes i = some lane ∧ lane.Serves n g

/-- The group that a pointer names is online. -/
def Names (c : ChunkAllocatorWithDefragmentation) (a : Nat) : Prop :=
  ∃ i lane group, i < c.numberOfLanes ∧ c.defragmentationLanes i = some lane ∧
    group < lane.numberOfActiveGroups ∧
    a / ELEMENTS_PER_GROUP = (i * GROUPS_PER_LANE + group) % 65536

/-- The lanes of `c` are lanes of `c'`, with their groups. -/
structure Grows (c c' : ChunkAllocatorWithDefragmentation) : Prop where
  bytesPerElement : c'.bytesPerElement = c.bytesPerElement
  lanes_le : c.numberOfLanes ≤ c'.numberOfLanes
  lane : ∀ i lane, c.defragmentationLanes i = some lane →
    ∃ lane', c'.defragmentationLanes i = some lane' ∧
      lane.numberOfActiveGroups ≤ lane'.numberOfActiveGroups

/-- All groups of a lane are online. -/
def Full (c : ChunkAllocatorWithDefragmentation) (i : Nat) : Prop :=
  ∃ lane, c.defragmentationLanes i = some lane ∧ lane.numberOfActiveGroups = GROUPS_PER_LANE

/-- The fast group of a lane can allocate `n` elements. -/
def LaneServes (c : ChunkAllocatorWithDefragmentation) (n i : Nat) : Prop :=
  ∃ lane g, c.defragmentationLanes i = some lane ∧ lane.Serves n g

variable {P : DefragmentationGroup → Prop} {c c' : ChunkAllocatorWithDefragmentation}

theorem Grows.refl (c : ChunkAllocatorWithDefragmentation) : Grows c c :=
  ⟨rfl, Nat.le_refl _, fun _ lane hlane => ⟨lane, hlane, Nat.le_refl _⟩⟩

theorem Grows.trans {c₁ c₂ c₃ : ChunkAllocatorWithDefragmentation} (h : Grows c₁ c₂)
    (h' : Grows c₂ c₃) : Grows c₁ c₃ := by
  refine ⟨h'.bytesPerElement.trans h.bytesPerElement, Nat.le_trans h.lanes_le h'.lanes_le, ?_⟩
  intro i lane hlane
  obtain ⟨lane₂, hlane₂, hle⟩ := h.lane i lane hlane
  obtain ⟨lane₃, hlane₃, hle'⟩ := h'.lane i lane₂ hlane₂
  exact ⟨lane₃, hlane₃, Nat.le_trans hle hle'⟩

theorem Grows.names (h : Grows c c') {a : Nat} (hnames : c.Names a) : c'.Names a := by
  obtain ⟨i, lane, group, hi, hlane, hgroup, ha⟩ := hnames
  obtain ⟨lane', hlane', hle⟩ := h.lane i lane hlane
  exact ⟨i, lane', group, Nat.lt_of_lt_of_le hi h.lanes_le, hlane', Nat.lt_of_lt_of_le hgroup hle,
    ha⟩

theorem Inv.lt_of_some (h : c.Inv P) {i : Nat} {lane : DefragmentationLane}
    (hlane : c.defragmentationLanes i = some lane) : i < c.numberOfLanes := by
  by_contra hlt
  rw [h.null i (Nat.le_of_not_lt hlt)] at hlane
  cases hlane

/-- A full lane stays full. -/
theorem Inv.full (h : c'.Inv P) (hgrows : Grows c c') {i : Nat} (hfull : c.Full i) :
    c'.Full i := by
  obtain ⟨lane, hlane, hactive⟩ := hfull
  obtain ⟨lane', hlane', hle⟩ := hgrows.lane i lane hlane
  obtain ⟨_, hsome, hinv, -⟩ := h.lane i (h.lt_of_some hlane')
  obtain rfl := Option.some.inj (hlane'.symm.trans hsome)
  exact ⟨lane', hlane', Nat.le_antisymm hinv.active_le (hactive ▸ hle)⟩

/-! ## One lemma per function -/

/-- A lane is replaced by what a call makes of it. -/
theorem Inv.setLane (h : c.Inv P) {i : Nat} {lane lane' : DefragmentationLane}
    (hlane : c.defragmentationLanes i = some lane) (hinv : lane'.Inv P)
    (hnumber : lane'.number = lane.number)
    (hle : lane.numberOfActiveGroups ≤ lane'.numberOfActiveGroups) :
    (c.setLane i lane').Inv P ∧ Grows c (c.setLane i lane') ∧
      (c.setLane i lane').defragmentationLanes i = some lane' := by
  have hself : (c.setLane i lane').defragmentationLanes i = some lane' := Function.update_self _ _ _
  have hother : ∀ j, j ≠ i →
      (c.setLane i lane').defragmentationLanes j = c.defragmentationLanes j :=
    fun j hj => Function.update_of_ne hj _ _
  have hlt := h.lt_of_some hlane
  refine ⟨⟨h.lanes_le, fun j hj => ?_, fun j hj => ?_, h.fastLane⟩, ⟨rfl, Nat.le_refl _, ?_⟩, hself⟩
  · by_cases hji : j = i
    · subst hji
      obtain ⟨_, hsome, -, hnum, hfull⟩ := h.lane j hj
      obtain rfl := Option.some.inj (hlane.symm.trans hsome)
      refine ⟨lane', hself, hinv, hnumber.trans hnum, fun hnext => ?_⟩
      exact Nat.le_antisymm hinv.active_le (hfull hnext ▸ hle)
    · rw [hother j hji]
      exact h.lane j hj
  · rw [hother j (by rintro rfl; exact absurd hlt (Nat.not_lt.mpr hj))]
    exact h.null j hj
  · intro j old hold
    by_cases hji : j = i
    · subst hji
      obtain rfl := Option.some.inj (hlane.symm.trans hold)
      exact ⟨lane', hself, hle⟩
    · exact ⟨old, (hother j hji).trans hold, Nat.le_refl _⟩

theorem Inv.setFastLane (h : c.Inv P) {i : Nat} (hi : i < c.numberOfLanes) :
    ({ c with fastLane := some i } : ChunkAllocatorWithDefragmentation).Inv P ∧
      Grows c { c with fastLane := some i } := by
  refine ⟨⟨h.lanes_le, h.lane, h.null, fun j hj => ?_⟩,
    ⟨rfl, Nat.le_refl _, fun _ lane hlane => ⟨lane, hlane, Nat.le_refl _⟩⟩⟩
  obtain rfl := Option.some.inj hj
  exact hi

/-- What a question to lanes does to the allocator. -/
structure Asked (P : DefragmentationGroup → Prop) (c c' : ChunkAllocatorWithDefragmentation) :
    Prop where
  inv : c'.Inv P
  grows : Grows c c'
  numberOfLanes : c'.numberOfLanes = c.numberOfLanes
  fastLane : c'.fastLane = c.fastLane

theorem Asked.trans {c₁ c₂ c₃ : ChunkAllocatorWithDefragmentation} (h : Asked P c₁ c₂)
    (h' : Asked P c₂ c₃) : Asked P c₁ c₃ :=
  ⟨h'.inv, h.grows.trans h'.grows, h'.numberOfLanes.trans h.numberOfLanes,
    h'.fastLane.trans h.fastLane⟩

section

variable (hP : ∀ block, P (.constructor block)) {n : Nat} (hn : n ≤ 64) (fresh : FreshMemory)

include hP hn

theorem Inv.askLane (h : c.Inv P) {i : Nat} (hi : i < c.numberOfLanes) :
    ∃ c' can, c.askLane i n fresh = .ok (c', can) ∧ Asked P c c' ∧
      (can = true → c'.LaneServes n i) ∧ (can = false → c.Full i) := by
  obtain ⟨lane, hlane, hinv, -⟩ := h.lane i hi
  obtain ⟨r, hcan, hanswer⟩ := hinv.canAllocate hP hn fresh
  obtain ⟨hinv', hgrows, hself⟩ := h.setLane hlane hanswer.inv hanswer.number hanswer.active_le
  have hask : c.askLane i n fresh = .ok (c.setLane i r.1, r.2) := by
    rw [ChunkAllocatorWithDefragmentation.askLane, getLane, hlane]
    show (lane.canAllocate n fresh).map _ = _
    rw [hcan]
    rfl
  refine ⟨_, _, hask, ⟨hinv', hgrows, rfl, rfl⟩, fun htrue => ?_, fun hfalse => ?_⟩
  · obtain ⟨g, hserves, -⟩ := hanswer.serves htrue
    exact ⟨r.1, g, hself, hserves⟩
  · exact ⟨lane, hlane, hanswer.busy hfalse⟩

theorem Inv.scanLanes : ∀ fuel i (c : ChunkAllocatorWithDefragmentation), c.Inv P →
    i + fuel = c.numberOfLanes → (∀ j < i, c.Full j) →
    ∃ c' found, scanLanes n fresh fuel i c = .ok (c', found) ∧ Asked P c c' ∧
      (∀ k, found = some k → k < c'.numberOfLanes ∧ c'.LaneServes n k) ∧
      (found = none → ∀ j < c'.numberOfLanes, c'.Full j) := by
  intro fuel
  induction fuel with
  | zero =>
      intro i c h hsum hbusy
      refine ⟨c, none, rfl, ⟨h, .refl c, rfl, rfl⟩, fun k hk => (nomatch hk), fun _ j hj => ?_⟩
      exact hbusy j (by omega)
  | succ fuel ih =>
      intro i c h hsum hbusy
      obtain ⟨c₁, can, hask, hasked, hserves, hfull⟩ := h.askLane hP hn fresh (i := i) (by omega)
      rw [ChunkAllocatorWithDefragmentation.scanLanes, hask]
      have hlanes := hasked.numberOfLanes
      cases can with
      | true =>
          refine ⟨c₁, some i, rfl, hasked, fun k hk => ?_, fun hk => (nomatch hk)⟩
          obtain rfl := Option.some.inj hk
          exact ⟨by omega, hserves rfl⟩
      | false =>
          have hbusy' : ∀ j < i + 1, c₁.Full j := by
            intro j hj
            refine hasked.inv.full hasked.grows ?_
            rcases Nat.lt_succ_iff_lt_or_eq.mp hj with hlt | rfl
            · exact hbusy j hlt
            · exact hfull rfl
          obtain ⟨c₂, found, hscan, hasked', hfound, hnone⟩ :=
            ih (i + 1) c₁ hasked.inv (by omega) hbusy'
          exact ⟨c₂, found, hscan, hasked.trans hasked', hfound, hnone⟩

theorem Inv.addLane (h : c.Inv P) (hfull : ∀ j < c.numberOfLanes, c.Full j)
    (hroom : c.numberOfLanes < NUMBER_OF_LANES) :
    ∃ c', c.addLane n fresh = .ok c' ∧ c'.Inv P ∧ Grows c c' ∧ c'.Selects n := by
  obtain ⟨added, hadded⟩ : ∃ added, added = { c.setLane c.numberOfLanes
      (.constructor c.numberOfLanes fresh) with numberOfLanes := c.numberOfLanes + 1 } := ⟨_, rfl⟩
  have hlanes : added.numberOfLanes = c.numberOfLanes + 1 := by rw [hadded]
  have hnew : added.defragmentationLanes c.numberOfLanes =
      some (.constructor c.numberOfLanes fresh) := by
    rw [hadded]
    exact Function.update_self _ _ _
  have hold : ∀ j, j ≠ c.numberOfLanes →
      added.defragmentationLanes j = c.defragmentationLanes j := by
    intro j hj
    rw [hadded]
    exact Function.update_of_ne hj _ _
  have hinv : added.Inv P := by
    refine ⟨by omega, fun j hj => ?_, fun j hj => ?_, fun i hi => ?_⟩
    · by_cases hlast : j = c.numberOfLanes
      · subst hlast
        exact ⟨_, hnew, DefragmentationLane.inv_constructor _ fresh, rfl, by omega⟩
      · rw [hold j hlast]
        obtain ⟨lane, hlane, hlaneInv, hnumber, -⟩ := h.lane j (by omega)
        obtain ⟨_, hsome, hactive⟩ := hfull j (by omega)
        obtain rfl := Option.some.inj (hlane.symm.trans hsome)
        exact ⟨lane, hlane, hlaneInv, hnumber, fun _ => hactive⟩
    · rw [hold j (by omega)]
      exact h.null j (by omega)
    · have hfast : c.fastLane = some i := by
        rw [hadded] at hi
        exact hi
      have hlt := h.fastLane i hfast
      omega
  have hgrows : Grows c added := by
    refine ⟨by rw [hadded]; rfl, by omega, fun i lane hlane => ⟨lane, ?_, Nat.le_refl _⟩⟩
    have hlt := h.lt_of_some hlane
    exact (hold i (by omega)).trans hlane
  obtain ⟨c', can, hask, hasked, hserves, hbusy⟩ :=
    hinv.askLane hP hn fresh (i := c.numberOfLanes) (by omega)
  have hadd : c.addLane n fresh =
      .ok (if can then { c' with fastLane := some c.numberOfLanes } else c') := by
    rw [ChunkAllocatorWithDefragmentation.addLane, if_pos hroom]
    dsimp only
    rw [← hadded, hask]
    rfl
  cases can with
  | true =>
      obtain ⟨lane, g, hlane, hlaneServes⟩ := hserves rfl
      have hlt : c.numberOfLanes < c'.numberOfLanes := by
        have hsame := hasked.numberOfLanes
        omega
      obtain ⟨hinv', hgrows'⟩ := hasked.inv.setFastLane hlt
      exact ⟨_, hadd, hinv', (hgrows.trans hasked.grows).trans hgrows',
        ⟨_, lane, g, rfl, hlt, hlane, hlaneServes⟩⟩
  | false =>
      -- the new lane is not full
      obtain ⟨lane, hlane, hactive⟩ := hbusy rfl
      obtain rfl := Option.some.inj (hnew.symm.trans hlane)
      exact absurd hactive (show ¬ 0 = GROUPS_PER_LANE by decide)

theorem Inv.updateFastLane (h : c.Inv P) :
    (c.updateFastLane n fresh = .error .noMoreLanes ∧ c.numberOfLanes = NUMBER_OF_LANES) ∨
      ∃ c', c.updateFastLane n fresh = .ok c' ∧ c'.Inv P ∧ Grows c c' ∧ c'.Selects n := by
  obtain ⟨c₁, found, hscan, hasked, hfound, hnone⟩ :=
    Inv.scanLanes hP hn fresh c.numberOfLanes 0 c h (Nat.zero_add _)
      fun j hj => absurd hj (Nat.not_lt_zero j)
  rw [ChunkAllocatorWithDefragmentation.updateFastLane, hscan]
  cases found with
  | some i =>
      obtain ⟨hlt, lane, g, hlane, hserves⟩ := hfound i rfl
      obtain ⟨hinv, hgrows⟩ := hasked.inv.setFastLane hlt
      exact .inr ⟨_, rfl, hinv, hasked.grows.trans hgrows, ⟨i, lane, g, rfl, hlt, hlane, hserves⟩⟩
  | none =>
      by_cases hroom : c₁.numberOfLanes < NUMBER_OF_LANES
      · obtain ⟨c₂, hadd, hinv, hgrows, hselects⟩ :=
          hasked.inv.addLane hP hn fresh (hnone rfl) hroom
        exact .inr ⟨c₂, hadd, hinv, hasked.grows.trans hgrows, hselects⟩
      · have hlanes := hasked.numberOfLanes
        have hle := h.lanes_le
        refine .inl ⟨?_, by omega⟩
        show c₁.addLane n fresh = _
        rw [ChunkAllocatorWithDefragmentation.addLane, if_neg hroom]

/-- The lane is selected unless the lanes are exhausted. -/
theorem Inv.selectLane (h : c.Inv P) :
    (c.selectLane n fresh = .error .noMoreLanes ∧ c.numberOfLanes = NUMBER_OF_LANES) ∨
      ∃ c', c.selectLane n fresh = .ok c' ∧ c'.Inv P ∧ Grows c c' ∧ c'.Selects n := by
  rw [ChunkAllocatorWithDefragmentation.selectLane]
  cases hfast : c.fastLane with
  | none => exact h.updateFastLane hP hn fresh
  | some i =>
      obtain ⟨c₁, can, hask, hasked, hserves, -⟩ := h.askLane hP hn fresh (h.fastLane i hfast)
      show ((c.askLane i n fresh).bind _ = _ ∧ _) ∨ ∃ c', (c.askLane i n fresh).bind _ = _ ∧ _
      rw [hask]
      have hlanes := hasked.numberOfLanes
      cases can with
      | true =>
          obtain ⟨lane, g, hlane, hlaneServes⟩ := hserves rfl
          exact .inr ⟨c₁, rfl, hasked.inv, hasked.grows, ⟨i, lane, g, hasked.fastLane.trans hfast,
            hasked.inv.lt_of_some hlane, hlane, hlaneServes⟩⟩
      | false =>
          rcases hasked.inv.updateFastLane hP hn fresh with
            ⟨hfull, heq⟩ | ⟨c₂, hupdate, hinv, hgrows, hsel⟩
          · exact .inl ⟨hfull, hlanes.symm.trans heq⟩
          · exact .inr ⟨c₂, hupdate, hinv, hasked.grows.trans hgrows, hsel⟩

end

/-- The selected group gets the request; the pointer names it. -/
theorem Inv.forward (h : c.Inv P) (hP : DefragmentationLane.KeptByCalls c.bytesPerElement P)
    {n : Nat} (hpos : 1 ≤ n) (hn : n ≤ 64) (hselects : c.Selects n) (s : Scratch) :
    ∃ c' a, c.forward n s = .ok (c', a) ∧ c'.Inv P ∧ Grows c c' ∧ c'.Names a := by
  obtain ⟨i, lane, g, hfast, hi, hlane, hserves⟩ := hselects
  obtain ⟨_, hsome, hinv, hnumber, -⟩ := h.lane i hi
  obtain rfl := Option.some.inj (hlane.symm.trans hsome)
  obtain ⟨lane', a, hallocate, hinv', hnumber', hfastGroup, hactive, ha⟩ :=
    hinv.allocate hP hpos hn hserves s
  obtain ⟨hset, hgrows, hself⟩ := h.setLane hlane hinv' hnumber' (Nat.le_of_eq hactive.symm)
  have hforward : c.forward n s = .ok (c.setLane i lane',
      ((lane'.number * GROUPS_PER_LANE + lane'.fastGroup) * ELEMENTS_PER_GROUP + a) % 2 ^ 32) := by
    rw [ChunkAllocatorWithDefragmentation.forward, hfast]
    show (c.getLane i).bind _ = _
    rw [getLane, hlane]
    show (lane.allocate n c.bytesPerElement s).map _ = _
    rw [hallocate]
    rfl
  refine ⟨_, _, hforward, hset, hgrows, i, lane', lane'.fastGroup, hi, hself, ?_, ?_⟩
  · rw [hfastGroup, hactive]
    exact hinv.lt_of_some hserves.online
  · rw [hnumber', hnumber]
    unfold ELEMENTS_PER_GROUP
    omega

/-- From the 65th lane on, the lane that a pointer names is one of the first 64, which are
full. -/
theorem Inv.named (h : c.Inv P) {a : Nat} (hnames : c.Names a) :
    ∃ lane, c.defragmentationLanes (a / ELEMENTS_PER_GROUP / GROUPS_PER_LANE) = some lane ∧
      lane.Inv P ∧ a / ELEMENTS_PER_GROUP % GROUPS_PER_LANE < lane.numberOfActiveGroups := by
  obtain ⟨i, lane, group, hi, hlane, hgroup, ha⟩ := hnames
  obtain ⟨_, hsome, hinv, -⟩ := h.lane i hi
  obtain rfl := Option.some.inj (hlane.symm.trans hsome)
  have hle : group < 1024 := Nat.lt_of_lt_of_le hgroup hinv.active_le
  have hlaneId : a / ELEMENTS_PER_GROUP / GROUPS_PER_LANE = i % 64 := by
    rw [ha]
    unfold GROUPS_PER_LANE
    omega
  have hinLane : a / ELEMENTS_PER_GROUP % GROUPS_PER_LANE = group := by
    rw [ha]
    unfold GROUPS_PER_LANE
    omega
  rw [hlaneId, hinLane]
  by_cases hfirst : i < 64
  · rw [Nat.mod_eq_of_lt hfirst]
    exact ⟨lane, hlane, hinv, hgroup⟩
  · obtain ⟨lane', hlane', hinv', -, hfull⟩ := h.lane (i % 64) (by omega)
    refine ⟨lane', hlane', hinv', ?_⟩
    rw [hfull (by omega)]
    exact hle

theorem Inv.deallocate (h : c.Inv P) (hP : DefragmentationLane.KeptByCalls c.bytesPerElement P)
    {a : Nat} (hnames : c.Names a) (s : Scratch) :
    ∃ c', c.deallocate a s = .ok c' ∧ c'.Inv P ∧ Grows c c' := by
  rw [ChunkAllocatorWithDefragmentation.deallocate]
  split
  · exact ⟨c, rfl, h, .refl c⟩
  · obtain ⟨lane, hlane, hinv, hlt⟩ := h.named hnames
    obtain ⟨g, hget, -, hPg⟩ := hinv.getGroup hlt
    have hkept := hP.deallocate g (a % ELEMENTS_PER_GROUP) s hPg (Nat.mod_lt _ (by decide))
    obtain ⟨hset, hgrows, -⟩ := h.setLane hlane (hinv.setGroup hlt hkept) rfl (Nat.le_refl _)
    refine ⟨_, ?_, hset, hgrows⟩
    dsimp only
    rw [getLane, hlane]
    show (lane.getGroup _).map _ = _
    rw [hget]
    rfl

end ChunkAllocatorWithDefragmentation

/-! ## Runs -/

open ChunkAllocatorWithDefragmentation

/-- The allocator of a client keeps its invariant, and names the groups of all pointers. -/
structure ChunkClient.Inv (P : DefragmentationGroup → Prop) (bytesPerElement : Nat)
    (c : ChunkClient) : Prop where
  allocator : c.allocator.Inv P
  bytesPerElement : c.allocator.bytesPerElement = bytesPerElement
  live : ∀ a ∈ c.live, c.allocator.Names a

/-- Every request is forwarded to a group that can serve it, unless the lanes are
exhausted; no call faults, and the cache names groups that are online. -/
structure Forwards (c : ChunkClient) : Prop where
  selects : ∀ n fresh, 1 ≤ n → n ≤ 64 →
    (c.allocator.selectLane n fresh = .error .noMoreLanes ∧
        c.allocator.numberOfLanes = NUMBER_OF_LANES) ∨
      ∃ c', c.allocator.selectLane n fresh = .ok c' ∧ c'.Selects n ∧
        ∀ s, ∃ r, c.allocator.allocate n fresh s = .ok r ∧ c'.forward n s = .ok r
  deallocates : ∀ a ∈ c.live, ∀ s, ∃ c', c.allocator.deallocate a s = .ok c'
  cached : ∀ i lane, c.allocator.defragmentationLanes i = some lane →
    (lane.fastGroup = INVALID_GROUP ∨ (lane.groups lane.fastGroup).isSome) ∧
      ∀ j < lane.numberOfFastGroups, (lane.groups (lane.fastGroups j)).isSome

variable {P : DefragmentationGroup → Prop} {bytesPerElement : Nat} {c c' : ChunkClient}

theorem ChunkClient.Inv.allocate (h : c.Inv P bytesPerElement)
    (hP : DefragmentationLane.KeptByCalls bytesPerElement P) {n : Nat} (hpos : 1 ≤ n)
    (hn : n ≤ 64) (fresh : FreshMemory) :
    (c.allocator.selectLane n fresh = .error .noMoreLanes ∧
        c.allocator.numberOfLanes = NUMBER_OF_LANES) ∨
      ∃ selected, c.allocator.selectLane n fresh = .ok selected ∧ selected.Selects n ∧
        ∀ s, ∃ allocator a, selected.forward n s = .ok (allocator, a) ∧
          c.allocator.allocate n fresh s = .ok (allocator, a) ∧
          ChunkClient.Inv P bytesPerElement ⟨allocator, a :: c.live⟩ := by
  rcases h.allocator.selectLane hP.constructor hn fresh with
    hfull | ⟨selected, hselect, hinv, hgrows, hselects⟩
  · exact .inl hfull
  · have hbytes := hgrows.bytesPerElement.trans h.bytesPerElement
    refine .inr ⟨selected, hselect, hselects, fun s => ?_⟩
    obtain ⟨allocator, a, hforward, hinv', hgrows', ha⟩ :=
      hinv.forward (hbytes ▸ hP) hpos hn hselects s
    refine ⟨allocator, a, hforward, ?_, hinv', hgrows'.bytesPerElement.trans hbytes, ?_⟩
    · rw [ChunkAllocatorWithDefragmentation.allocate, hselect]
      exact hforward
    · intro b hb
      rcases List.mem_cons.mp hb with rfl | hb
      · exact ha
      · exact (hgrows.trans hgrows').names (h.live b hb)

theorem ChunkClient.Inv.step (h : c.Inv P bytesPerElement)
    (hP : DefragmentationLane.KeptByCalls bytesPerElement P) {call : ChunkCall}
    (hexec : c.exec call = some c') : c'.Inv P bytesPerElement := by
  cases call with
  | allocate n fresh s =>
      rw [ChunkClient.exec] at hexec
      split at hexec
      · rename_i hsize
        rcases h.allocate hP hsize.1 hsize.2 fresh with ⟨hfull, -⟩ | ⟨selected, -, -, hforward⟩
        · rw [ChunkAllocatorWithDefragmentation.allocate, hfull] at hexec
          cases hexec
        · obtain ⟨allocator, a, -, hallocate, hinv⟩ := hforward s
          rw [hallocate] at hexec
          cases hexec
          exact hinv
      · cases hexec
  | deallocate a s =>
      rw [ChunkClient.exec] at hexec
      split at hexec
      · rename_i hlive
        obtain ⟨allocator, hdeallocate, hinv, hgrows⟩ :=
          h.allocator.deallocate (h.bytesPerElement ▸ hP) (h.live a hlive) s
        rw [hdeallocate] at hexec
        cases hexec
        exact ⟨hinv, hgrows.bytesPerElement.trans h.bytesPerElement,
          fun b hb => hgrows.names (h.live b (List.mem_of_mem_erase hb))⟩
      · cases hexec

theorem chunkSystem_inductive (hP : DefragmentationLane.KeptByCalls bytesPerElement P) :
    (chunkSystem bytesPerElement).Inductive (ChunkClient.Inv P bytesPerElement) := by
  refine ⟨fun c hinit => ?_, fun c call c' h hexec => h.step hP hexec⟩
  obtain rfl : c = _ := hinit
  exact
    { allocator :=
        { lanes_le := Nat.zero_le _
          lane := fun _ hi => absurd hi (Nat.not_lt_zero _)
          null := fun _ _ => rfl
          fastLane := fun _ hi => (nomatch hi) }
      bytesPerElement := rfl
      live := fun _ ha => (nomatch ha) }

theorem ChunkClient.Inv.forwards (h : c.Inv P bytesPerElement)
    (hP : DefragmentationLane.KeptByCalls bytesPerElement P) : Forwards c := by
  refine ⟨fun n fresh hpos hn => ?_, fun a ha s => ?_, fun i lane hlane => ?_⟩
  · rcases h.allocate hP hpos hn fresh with hfull | ⟨selected, hselect, hselects, hforward⟩
    · exact .inl hfull
    · refine .inr ⟨selected, hselect, hselects, fun s => ?_⟩
      obtain ⟨allocator, a, hok, hallocate, -⟩ := hforward s
      exact ⟨_, hallocate, hok⟩
  · obtain ⟨allocator, hdeallocate, -⟩ :=
      h.allocator.deallocate (h.bytesPerElement ▸ hP) (h.live a ha) s
    exact ⟨allocator, hdeallocate⟩
  · obtain ⟨_, hsome, hinv, -⟩ := h.allocator.lane i (h.allocator.lt_of_some hlane)
    obtain rfl := Option.some.inj (hlane.symm.trans hsome)
    have honline : ∀ j < lane.numberOfActiveGroups, (lane.groups j).isSome := by
      intro j hj
      obtain ⟨g, hg, -⟩ := hinv.online j hj
      rw [hg]
      rfl
    exact ⟨hinv.fastGroup.imp id (honline _), fun j hj => honline _ (hinv.fastGroups j hj)⟩

/-- In every state that a client can reach. -/
theorem chunkSystem_forwards (bytesPerElement : Nat) {c : ChunkClient}
    (hc : (chunkSystem bytesPerElement).Reachable c) : Forwards c :=
  have hP : DefragmentationLane.KeptByCalls bytesPerElement fun _ => True :=
    ⟨fun _ => trivial, fun _ _ _ _ _ _ _ => trivial, fun _ _ _ _ _ => trivial⟩
  ((chunkSystem_inductive hP).holds hc).forwards hP

/-- A client with one pointer. -/
theorem chunkSystem_forwards_one : ∃ c : ChunkClient, c.live = [0] ∧ Forwards c := by
  let fresh : FreshMemory := ⟨fun _ => 0, fun _ => 0⟩
  have hrun : (TransitionSystem.runAll ChunkClient.exec ⟨.constructor 1, []⟩
      [.allocate 64 fresh ⟨fun _ => 0, fun _ => 0⟩]).map ChunkClient.live = some [0] := by
    decide +kernel
  obtain ⟨c, hc, hlive⟩ := Option.map_eq_some_iff.mp hrun
  exact ⟨c, hlive, chunkSystem_forwards 1 (.runAll (.init rfl) hc)⟩

/-- A handle that is available may be given back: nothing changes. -/
theorem DefragmentationGroup.WellPlaced.deallocate {g : DefragmentationGroup} (h : g.WellPlaced)
    (hw : 1 ≤ bytesPerElement) {a : Nat} (ha : a < ELEMENTS_PER_GROUP) (s : Scratch) :
    (g.deallocate a bytesPerElement s).WellPlaced := by
  by_cases hlive : g.allocatedSizes a = 0
  · have hsizes : Function.update g.allocatedSizes a 0 = g.allocatedSizes := by
      rw [← hlive, Function.update_eq_self]
    have hsame : g.deallocate a bytesPerElement s =
        g.triggerDefragmentationRoutine bytesPerElement s := by
      rw [DefragmentationGroup.deallocate]
      simp only [hlive, hsizes, Nat.add_zero, Int.ofNat_zero, Int.add_zero]
      congr 1
      cases g
      simp only [DefragmentationGroup.mk.injEq, true_and, and_true]
      split
      · assumption
      · rfl
    rw [hsame]
    exact (h.trigger hw s a).1
  · exact (DefragmentationGroup.deallocate_spec h hw ha hlive s).wellPlaced

/-- The groups of an allocator are in the state that their own calls need. -/
theorem chunkSystem_wellPlaced (hw : 1 ≤ bytesPerElement)
    (hc : (chunkSystem bytesPerElement).Reachable c) {i j : Nat} {lane : DefragmentationLane}
    {g : DefragmentationGroup} (hlane : c.allocator.defragmentationLanes i = some lane)
    (hg : lane.groups j = some g) : g.WellPlaced := by
  have hP : DefragmentationLane.KeptByCalls bytesPerElement
      DefragmentationGroup.WellPlaced :=
    { constructor := DefragmentationGroup.constructor_wellPlaced
      allocate := fun g n s h hpos hn hcan =>
        (DefragmentationGroup.allocate_spec h hw hpos hn hcan s).wellPlaced
      deallocate := fun g a s h ha => h.deallocate hw ha s }
  have h := (chunkSystem_inductive hP).holds hc
  obtain ⟨_, hsome, hinv, -⟩ := h.allocator.lane i (h.allocator.lt_of_some hlane)
  obtain rfl := Option.some.inj (hlane.symm.trans hsome)
  obtain ⟨_, hsome', hwell⟩ := hinv.online j (hinv.lt_of_some hg)
  obtain rfl := Option.some.inj (hg.symm.trans hsome')
  exact hwell

end RayPlatform
