import RayPlatform.Memory.DefragmentationGroup

/-!
# DefragmentationLane

1024 groups that come online one after another, and a cache: the fast group, and a list
of fast groups.

* `groups i` is the group of an index when it is online; what is read of a group that is
  not, or outside the lane, is a fault.
* `canAllocate` answers whether the fast group can serve `n` elements, and looks for
  another one first (`getFastGroup`).
* `Inv` — the groups online are those below `numberOfActiveGroups`, and the cache names
  no others;
* `canAllocate_spec` — one lemma for the query: it keeps the invariant, never faults, and
  is true of a lane whose fast group serves the request.
-/

namespace RayPlatform

def INVALID_GROUP : Nat := 123467

def GROUPS_PER_LANE : Nat := 1024

def NUMBER_OF_FAST_GROUPS : Nat := 128

/-- Why a call reads or writes where it must not. -/
inductive MemoryFault
  /-- the group has no block -/
  | offlineGroup
  /-- the index of a group is not in the lane -/
  | outsideLane
  | nullLane
  /-- the array of lanes is full -/
  | noMoreLanes
  deriving DecidableEq

/-- What newly allocated memory holds. -/
structure FreshMemory where
  block : Nat → UInt8
  fastGroups : Nat → Nat

structure DefragmentationLane where
  number : Nat
  groups : Nat → Option DefragmentationGroup
  fastGroups : Nat → Nat
  fastGroup : Nat
  numberOfActiveGroups : Nat
  numberOfFastGroups : Nat

instance (g : DefragmentationGroup) (n : Int) : Decidable (g.canAllocate n) :=
  inferInstanceAs (Decidable (_ ≤ _))

namespace DefragmentationLane

def constructor (number : Nat) (fresh : FreshMemory) : DefragmentationLane :=
  { number := number
    groups := fun _ => none
    fastGroups := fresh.fastGroups
    fastGroup := INVALID_GROUP
    numberOfActiveGroups := 0
    numberOfFastGroups := 0 }

def getGroup (lane : DefragmentationLane) (i : Nat) : Except MemoryFault DefragmentationGroup :=
  if i < GROUPS_PER_LANE then
    match lane.groups i with
    | some g => .ok g
    | none => .error .offlineGroup
  else .error .outsideLane

def setGroup (lane : DefragmentationLane) (i : Nat) (g : DefragmentationGroup) :
    DefragmentationLane :=
  { lane with groups := Function.update lane.groups i (some g) }

/-- `m_groups[i].canAllocate(n)` -/
def groupCanAllocate (lane : DefragmentationLane) (i n : Nat) : Except MemoryFault Bool :=
  (lane.getGroup i).map fun g => decide (g.canAllocate n)

/-- `m_fastGroup!=INVALID_GROUP && m_groups[m_fastGroup].canAllocate(n)` -/
def indexCanAllocate (lane : DefragmentationLane) (i n : Nat) : Except MemoryFault Bool :=
  if i = INVALID_GROUP then .ok false else lane.groupCanAllocate i n

/-- The first entry of the list of fast groups that can serve `n` elements. -/
def findFastGroup (lane : DefragmentationLane) (n : Nat) :
    Nat → Nat → Except MemoryFault (Option Nat)
  | 0, _ => .ok none
  | fuel + 1, i =>
      (lane.indexCanAllocate (lane.fastGroups i) n).bind fun can =>
        if can then .ok (some (lane.fastGroups i)) else lane.findFastGroup n fuel (i + 1)

/-- `while(m_numberOfFastGroups<NUMBER_OF_FAST_GROUPS && group<m_numberOfActiveGroups)` -/
def collectFastGroups (lane : DefragmentationLane) (target : Nat) :
    Nat → Nat → (Nat → Nat) → Nat → Except MemoryFault ((Nat → Nat) × Nat)
  | 0, _, fastGroups, count => .ok (fastGroups, count)
  | fuel + 1, group, fastGroups, count =>
      if count < NUMBER_OF_FAST_GROUPS ∧ group < lane.numberOfActiveGroups then
        (lane.groupCanAllocate group target).bind fun can =>
          if can then
            lane.collectFastGroups target fuel (group + 1)
              (Function.update fastGroups count group) (count + 1)
          else lane.collectFastGroups target fuel (group + 1) fastGroups count
      else .ok (fastGroups, count)

/-- The last part of `getFastGroup`: the list of fast groups is made again, and when it is
empty a group comes online. -/
def refreshFastGroups (lane : DefragmentationLane) (fresh : FreshMemory) :
    Except MemoryFault DefragmentationLane :=
  (lane.collectFastGroups 64 lane.numberOfActiveGroups 0 lane.fastGroups 0).map
    fun (fastGroups, count) =>
      if 0 < count then
        { lane with
          fastGroups := fastGroups
          numberOfFastGroups := count
          fastGroup := fastGroups 0 }
      -- no more group can be created
      else if lane.numberOfActiveGroups = GROUPS_PER_LANE then
        { lane with
          fastGroups := fastGroups
          numberOfFastGroups := count
          fastGroup := INVALID_GROUP }
      else
        let group := DefragmentationGroup.constructor fresh.block
        let fastGroups := Function.update fastGroups count lane.numberOfActiveGroups
        { lane with
          groups := Function.update lane.groups lane.numberOfActiveGroups (some group)
          fastGroups := fastGroups
          fastGroup := fastGroups 0
          numberOfActiveGroups := lane.numberOfActiveGroups + 1
          numberOfFastGroups := count + 1 }

/-- Update `fastGroup`; it is `INVALID_GROUP` when the lane is too busy. -/
def getFastGroup (lane : DefragmentationLane) (n : Nat) (fresh : FreshMemory) :
    Except MemoryFault DefragmentationLane :=
  (lane.indexCanAllocate lane.fastGroup n).bind fun can =>
    if can then .ok lane
    else (lane.findFastGroup n lane.numberOfFastGroups 0).bind fun
      | some group => .ok { lane with fastGroup := group }
      | none => lane.refreshFastGroups fresh

/-- The lane after the query, and the answer. -/
def canAllocate (lane : DefragmentationLane) (n : Nat) (fresh : FreshMemory) :
    Except MemoryFault (DefragmentationLane × Bool) :=
  (lane.indexCanAllocate lane.fastGroup n).bind fun can =>
    if can then .ok (lane, true)
    else (lane.getFastGroup n fresh).map fun lane => (lane, decide (lane.fastGroup ≠ INVALID_GROUP))

/-- The fast group serves the request; a `SmallSmartPointer` is a `uint16_t`. -/
def allocate (lane : DefragmentationLane) (n bytesPerElement : Nat) (s : Scratch) :
    Except MemoryFault (DefragmentationLane × Nat) :=
  (lane.getGroup lane.fastGroup).map fun g =>
    let r := g.allocate n bytesPerElement s
    (lane.setGroup lane.fastGroup r.1, r.2 % 65536)

/-! ## The invariant -/

/-- A property that groups have when they come online, and that the calls they get keep. -/
structure KeptByCalls (bytesPerElement : Nat) (P : DefragmentationGroup → Prop) : Prop where
  constructor : ∀ block, P (.constructor block)
  allocate : ∀ (g : DefragmentationGroup) (n : Nat) s, P g → 1 ≤ n → n ≤ 64 → g.canAllocate n →
    P (g.allocate n bytesPerElement s).1
  deallocate : ∀ (g : DefragmentationGroup) a s, P g → a < 65536 →
    P (g.deallocate a bytesPerElement s)

/-- The groups online are those below `numberOfActiveGroups`, with the property `P`; the
cache names no others. -/
structure Inv (P : DefragmentationGroup → Prop) (lane : DefragmentationLane) : Prop where
  active_le : lane.numberOfActiveGroups ≤ GROUPS_PER_LANE
  online : ∀ i < lane.numberOfActiveGroups, ∃ g, lane.groups i = some g ∧ P g
  offline : ∀ i, lane.numberOfActiveGroups ≤ i → lane.groups i = none
  fastGroup : lane.fastGroup = INVALID_GROUP ∨ lane.fastGroup < lane.numberOfActiveGroups
  fastGroups : ∀ j < lane.numberOfFastGroups, lane.fastGroups j < lane.numberOfActiveGroups

/-- The fast group is online and can allocate `n` elements. -/
structure Serves (lane : DefragmentationLane) (n : Nat) (g : DefragmentationGroup) : Prop where
  valid : lane.fastGroup ≠ INVALID_GROUP
  inside : lane.fastGroup < GROUPS_PER_LANE
  online : lane.groups lane.fastGroup = some g
  canAllocate : g.canAllocate n

/-- An active group that can allocate `n` elements. -/
structure Usable (P : DefragmentationGroup → Prop) (lane : DefragmentationLane) (n i : Nat) :
    Prop where
  active : i < lane.numberOfActiveGroups
  canAllocate : ∃ g, lane.groups i = some g ∧ P g ∧ g.canAllocate n

/-- What the query does to a lane. -/
structure Answered (P : DefragmentationGroup → Prop) (n : Nat) (lane : DefragmentationLane)
    (r : DefragmentationLane × Bool) : Prop where
  inv : r.1.Inv P
  number : r.1.number = lane.number
  active_le : lane.numberOfActiveGroups ≤ r.1.numberOfActiveGroups
  serves : r.2 = true → ∃ g, r.1.Serves n g ∧ P g
  busy : r.2 = false → lane.numberOfActiveGroups = GROUPS_PER_LANE

variable {P : DefragmentationGroup → Prop} {lane : DefragmentationLane}

theorem inv_constructor (number : Nat) (fresh : FreshMemory) : (constructor number fresh).Inv P :=
  { active_le := Nat.zero_le _
    online := fun _ hi => absurd hi (Nat.not_lt_zero _)
    offline := fun _ _ => rfl
    fastGroup := .inl rfl
    fastGroups := fun _ hj => absurd hj (Nat.not_lt_zero _) }

theorem Inv.getGroup (h : lane.Inv P) {i : Nat} (hi : i < lane.numberOfActiveGroups) :
    ∃ g, lane.getGroup i = .ok g ∧ lane.groups i = some g ∧ P g := by
  obtain ⟨g, hg, hP⟩ := h.online i hi
  have hlt := Nat.lt_of_lt_of_le hi h.active_le
  refine ⟨g, ?_, hg, hP⟩
  rw [DefragmentationLane.getGroup, if_pos hlt, hg]

/-- A group that comes online is active. -/
theorem Inv.lt_of_some (h : lane.Inv P) {i : Nat} {g : DefragmentationGroup}
    (hg : lane.groups i = some g) : i < lane.numberOfActiveGroups := by
  by_contra hlt
  rw [h.offline i (Nat.le_of_not_lt hlt)] at hg
  cases hg

theorem Inv.setGroup (h : lane.Inv P) {i : Nat} (hi : i < lane.numberOfActiveGroups)
    {g : DefragmentationGroup} (hP : P g) : (lane.setGroup i g).Inv P := by
  refine ⟨h.active_le, fun j hj => ?_, fun j hj => ?_, h.fastGroup, h.fastGroups⟩
  · by_cases hji : j = i
    · subst hji
      exact ⟨g, Function.update_self _ _ _, hP⟩
    · obtain ⟨g', hg', hP'⟩ := h.online j hj
      exact ⟨g', (Function.update_of_ne hji _ _).trans hg', hP'⟩
  · have hji : j ≠ i := by
      rintro rfl
      exact absurd hi (Nat.not_lt.mpr hj)
    exact (Function.update_of_ne hji _ _).trans (h.offline j hj)

/-! ## The query -/

theorem Usable.serves (h : lane.Inv P) {n : Nat} (husable : lane.Usable P n lane.fastGroup) :
    ∃ g, lane.Serves n g ∧ P g := by
  obtain ⟨hlt, g, hg, hP, hcan⟩ := husable
  have hinside := Nat.lt_of_lt_of_le hlt h.active_le
  refine ⟨g, ⟨fun hinvalid => ?_, hinside, hg, hcan⟩, hP⟩
  rw [hinvalid] at hinside
  exact absurd hinside (by decide)

/-- A group that can serve a request can serve a smaller one. -/
theorem Usable.mono {n m i : Nat} (h : lane.Usable P m i) (hle : n ≤ m) : lane.Usable P n i := by
  obtain ⟨hlt, g, hg, hP, hcan⟩ := h
  refine ⟨hlt, g, hg, hP, ?_⟩
  unfold DefragmentationGroup.canAllocate at hcan ⊢
  omega

/-- An active group is asked without a fault. -/
theorem Inv.groupCanAllocate (h : lane.Inv P) {i : Nat} (hi : i < lane.numberOfActiveGroups)
    (n : Nat) : ∃ can, lane.groupCanAllocate i n = .ok can ∧
      (can = true → lane.Usable P n i) := by
  obtain ⟨g, hget, hg, hP⟩ := h.getGroup hi
  refine ⟨decide (g.canAllocate n), ?_, fun hcan => ⟨hi, g, hg, hP, of_decide_eq_true hcan⟩⟩
  rw [DefragmentationLane.groupCanAllocate, hget]
  rfl

theorem Inv.indexCanAllocate (h : lane.Inv P) {i : Nat}
    (hi : i = INVALID_GROUP ∨ i < lane.numberOfActiveGroups) (n : Nat) :
    ∃ can, lane.indexCanAllocate i n = .ok can ∧ (can = true → lane.Usable P n i) := by
  by_cases hinvalid : i = INVALID_GROUP
  · refine ⟨false, ?_, fun hcan => by cases hcan⟩
    rw [DefragmentationLane.indexCanAllocate, if_pos hinvalid]
  · rw [DefragmentationLane.indexCanAllocate, if_neg hinvalid]
    exact h.groupCanAllocate (hi.resolve_left hinvalid) n

theorem Inv.findFastGroup (h : lane.Inv P) (n : Nat) :
    ∀ fuel i, i + fuel ≤ lane.numberOfFastGroups →
      ∃ found, lane.findFastGroup n fuel i = .ok found ∧
        ∀ group, found = some group → lane.Usable P n group := by
  intro fuel
  induction fuel with
  | zero => exact fun _ _ => ⟨none, rfl, fun _ hgroup => by cases hgroup⟩
  | succ fuel ih =>
      intro i hle
      have hlt := h.fastGroups i (by omega)
      obtain ⟨can, hcan, husable⟩ := h.indexCanAllocate (.inr hlt) n
      rw [DefragmentationLane.findFastGroup, hcan]
      cases can with
      | true =>
          refine ⟨_, rfl, fun group hgroup => ?_⟩
          cases hgroup
          exact husable rfl
      | false => exact ih (i + 1) (by omega)

/-- The new list names active groups that can allocate `target` elements. -/
theorem Inv.collectFastGroups (h : lane.Inv P) (target : Nat) :
    ∀ fuel group fastGroups count, (∀ j < count, lane.Usable P target (fastGroups j)) →
      ∃ fastGroups' count', lane.collectFastGroups target fuel group fastGroups count =
          .ok (fastGroups', count') ∧ ∀ j < count', lane.Usable P target (fastGroups' j) := by
  intro fuel
  induction fuel with
  | zero => exact fun _ fastGroups count hlist => ⟨fastGroups, count, rfl, hlist⟩
  | succ fuel ih =>
      intro group fastGroups count hlist
      rw [DefragmentationLane.collectFastGroups]
      split
      · rename_i hwhile
        obtain ⟨can, hcan, husable⟩ := h.groupCanAllocate hwhile.2 target
        rw [hcan]
        cases can with
        | true =>
            refine ih (group + 1) _ (count + 1) fun j hj => ?_
            by_cases hjc : j = count
            · subst hjc
              rw [Function.update_self]
              exact husable rfl
            · rw [Function.update_of_ne hjc]
              exact hlist j (by omega)
        | false => exact ih (group + 1) fastGroups count hlist
      · exact ⟨fastGroups, count, rfl, hlist⟩

/-- What the search of a fast group does to a lane. -/
structure Searched (P : DefragmentationGroup → Prop) (n : Nat) (lane lane' : DefragmentationLane) :
    Prop where
  inv : lane'.Inv P
  number : lane'.number = lane.number
  active_le : lane.numberOfActiveGroups ≤ lane'.numberOfActiveGroups
  found : lane'.fastGroup = INVALID_GROUP ∧ lane.numberOfActiveGroups = GROUPS_PER_LANE ∨
    lane'.Usable P n lane'.fastGroup

theorem Inv.refreshFastGroups (h : lane.Inv P) (hP : ∀ block, P (.constructor block)) {n : Nat}
    (hn : n ≤ 64) (fresh : FreshMemory) :
    ∃ lane', lane.refreshFastGroups fresh = .ok lane' ∧ Searched P n lane lane' := by
  obtain ⟨fastGroups, count, hcollect, hlist⟩ :=
    h.collectFastGroups 64 lane.numberOfActiveGroups 0 lane.fastGroups 0
      fun j hj => absurd hj (Nat.not_lt_zero j)
  rw [DefragmentationLane.refreshFastGroups, hcollect]
  refine ⟨_, rfl, ?_⟩
  have hactive : ∀ j < count, fastGroups j < lane.numberOfActiveGroups :=
    fun j hj => (hlist j hj).active
  dsimp only
  split
  · -- the first group of the new list
    rename_i hpos
    have husable := (hlist 0 hpos).mono hn
    exact
      { inv := ⟨h.active_le, h.online, h.offline, .inr husable.active, hactive⟩
        number := rfl
        active_le := Nat.le_refl _
        found := .inr ⟨husable.active, husable.canAllocate⟩ }
  · rename_i hnone
    obtain rfl : count = 0 := Nat.eq_zero_of_not_pos hnone
    split
    · rename_i hfull
      exact
        { inv := ⟨h.active_le, h.online, h.offline, .inl rfl, hactive⟩
          number := rfl
          active_le := Nat.le_refl _
          found := .inl ⟨rfl, hfull⟩ }
    · -- a group comes online
      rename_i hroom
      have hlt : lane.numberOfActiveGroups < GROUPS_PER_LANE :=
        Nat.lt_of_le_of_ne h.active_le hroom
      have hfirst : Function.update fastGroups 0 lane.numberOfActiveGroups 0 =
          lane.numberOfActiveGroups := Function.update_self _ _ _
      have hcan : (DefragmentationGroup.constructor fresh.block).canAllocate n := by
        unfold DefragmentationGroup.canAllocate DefragmentationGroup.constructor ELEMENTS_PER_GROUP
        dsimp only
        omega
      have honline : ∃ g, Function.update lane.groups lane.numberOfActiveGroups
          (some (.constructor fresh.block)) lane.numberOfActiveGroups = some g ∧ P g ∧
          g.canAllocate n := ⟨_, Function.update_self _ _ _, hP _, hcan⟩
      refine ⟨⟨hlt, fun i hi => ?_, fun i hi => ?_, .inr ?_, fun j hj => ?_⟩, rfl,
        Nat.le_succ _, .inr ⟨?_, ?_⟩⟩
      · by_cases hnew : i = lane.numberOfActiveGroups
        · subst hnew
          exact ⟨_, Function.update_self _ _ _, hP _⟩
        · have hold : i < lane.numberOfActiveGroups := by
            have hi : i < lane.numberOfActiveGroups + 1 := hi
            omega
          obtain ⟨g, hg, hg'⟩ := h.online i hold
          exact ⟨g, (Function.update_of_ne hnew _ _).trans hg, hg'⟩
      · have hlater : lane.numberOfActiveGroups + 1 ≤ i := hi
        exact (Function.update_of_ne (by omega) _ _).trans (h.offline i (by omega))
      · exact Nat.lt_of_le_of_lt (Nat.le_of_eq hfirst) (Nat.lt_succ_self _)
      · have hzero : j < 0 + 1 := hj
        obtain rfl : j = 0 := by omega
        exact Nat.lt_of_le_of_lt (Nat.le_of_eq hfirst) (Nat.lt_succ_self _)
      · exact Nat.lt_of_le_of_lt (Nat.le_of_eq hfirst) (Nat.lt_succ_self _)
      · dsimp only
        rw [hfirst]
        exact honline

theorem Inv.getFastGroup (h : lane.Inv P) (hP : ∀ block, P (.constructor block)) {n : Nat}
    (hn : n ≤ 64) (fresh : FreshMemory) :
    ∃ lane', lane.getFastGroup n fresh = .ok lane' ∧ Searched P n lane lane' := by
  obtain ⟨can, hcan, husable⟩ := h.indexCanAllocate h.fastGroup n
  rw [DefragmentationLane.getFastGroup, hcan]
  cases can with
  | true => exact ⟨lane, rfl, h, rfl, Nat.le_refl _, .inr (husable rfl)⟩
  | false =>
      obtain ⟨found, hfound, hserves⟩ := h.findFastGroup n lane.numberOfFastGroups 0 (by omega)
      show ∃ lane', (lane.findFastGroup n lane.numberOfFastGroups 0).bind _ = .ok lane' ∧ _
      rw [hfound]
      cases found with
      | none => exact h.refreshFastGroups hP hn fresh
      | some group =>
          have hgroup := hserves group rfl
          exact ⟨_, rfl, ⟨h.active_le, h.online, h.offline, .inr hgroup.active, h.fastGroups⟩, rfl,
            Nat.le_refl _, .inr ⟨hgroup.active, hgroup.canAllocate⟩⟩

/-- The query never faults. -/
theorem Inv.canAllocate (h : lane.Inv P) (hP : ∀ block, P (.constructor block)) {n : Nat}
    (hn : n ≤ 64) (fresh : FreshMemory) :
    ∃ r, lane.canAllocate n fresh = .ok r ∧ Answered P n lane r := by
  obtain ⟨can, hcan, husable⟩ := h.indexCanAllocate h.fastGroup n
  rw [DefragmentationLane.canAllocate, hcan]
  cases can with
  | true =>
      exact ⟨_, rfl, h, rfl, Nat.le_refl _, fun _ => (husable rfl).serves h,
        fun hfalse => by cases hfalse⟩
  | false =>
      obtain ⟨lane', hget, hsearched⟩ := h.getFastGroup hP hn fresh
      show ∃ r, (lane.getFastGroup n fresh).map _ = .ok r ∧ _
      rw [hget]
      refine ⟨_, rfl, hsearched.inv, hsearched.number, hsearched.active_le, fun htrue => ?_,
        fun hfalse => ?_⟩
      · exact (hsearched.found.resolve_left fun hno => of_decide_eq_true htrue hno.1).serves
          hsearched.inv
      · rcases hsearched.found with hfull | hfound
        · exact hfull.2
        · obtain ⟨g, hserves, -⟩ := hfound.serves hsearched.inv
          exact absurd hserves.valid (of_decide_eq_false hfalse)

/-- The fast group that serves a request gets it. -/
theorem Inv.allocate (h : lane.Inv P) {bytesPerElement : Nat} (hP : KeptByCalls bytesPerElement P)
    {n : Nat} (hpos : 1 ≤ n) (hn : n ≤ 64) {g : DefragmentationGroup} (hserves : lane.Serves n g)
    (s : Scratch) :
    ∃ lane' a, lane.allocate n bytesPerElement s = .ok (lane', a) ∧ lane'.Inv P ∧
      lane'.number = lane.number ∧ lane'.fastGroup = lane.fastGroup ∧
      lane'.numberOfActiveGroups = lane.numberOfActiveGroups ∧ a < 65536 := by
  have hlt := h.lt_of_some hserves.online
  obtain ⟨g', hget, hg', hPg⟩ := h.getGroup hlt
  obtain rfl : g' = g := Option.some.inj (hg'.symm.trans hserves.online)
  rw [DefragmentationLane.allocate, hget]
  exact ⟨_, _, rfl, h.setGroup hlt (hP.allocate g' n s hPg hpos hn hserves.canAllocate), rfl, rfl,
    rfl, Nat.mod_lt _ (by decide)⟩

end DefragmentationLane

end RayPlatform
