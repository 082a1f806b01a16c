import RayPlatform.Memory.DefragmentationGroupMemory
import RayPlatform.Memory.SmartPointers

/-!
# ChunkAllocatorWithDefragmentation as memory whose blocks move

The groups of all lanes side by side are the cells of one `MovingMemory`, the handles of which are
the `SmartPointer`s. A call of the allocator is a call of one group, after groups and lanes came
online, which hold no block.

* `SameGroups` — what the search of a fast lane leaves as it is;
* `allocates_view`, `deallocates_view`, `assign_view` — the calls as a client sees them, in the
  first 64 lanes;
* `chunkHeap_intact` — in every run, a client finds in the block of each pointer that it holds
  what it wrote there, wherever the block was moved meanwhile.
-/

namespace RayPlatform

open Lib

/-! ## What a query leaves -/

namespace DefragmentationLane

variable {P : DefragmentationGroup → Prop} {lane lane' : DefragmentationLane}

/-- The groups that were online are as they were, and those that came online are new. -/
def Extends (lane lane' : DefragmentationLane) : Prop :=
  ∀ j, lane'.groups j = lane.groups j ∨
    lane.groups j = none ∧ ∃ block, lane'.groups j = some (.constructor block)

theorem Extends.of_groups (h : lane'.groups = lane.groups) : Extends lane lane' :=
  fun j => .inl (congrFun h j)

theorem Inv.refreshFastGroups_extends (h : lane.Inv P) {fresh : FreshMemory}
    (hrefresh : lane.refreshFastGroups fresh = .ok lane') : Extends lane lane' := by
  rw [DefragmentationLane.refreshFastGroups] at hrefresh
  cases hcollect : lane.collectFastGroups 64 lane.numberOfActiveGroups 0 lane.fastGroups 0 with
  | error fault =>
      rw [hcollect] at hrefresh
      cases hrefresh
  | ok list =>
      rw [hcollect] at hrefresh
      simp only [Except.map] at hrefresh
      split at hrefresh
      · cases hrefresh
        exact .of_groups rfl
      · split at hrefresh
        · cases hrefresh
          exact .of_groups rfl
        · cases hrefresh
          intro j
          by_cases hj : j = lane.numberOfActiveGroups
          · subst hj
            exact .inr ⟨h.offline _ (Nat.le_refl _), _, Function.update_self _ _ _⟩
          · exact .inl (Function.update_of_ne hj _ _)

theorem Inv.getFastGroup_extends (h : lane.Inv P) {n : Nat} {fresh : FreshMemory}
    (hget : lane.getFastGroup n fresh = .ok lane') : Extends lane lane' := by
  rw [DefragmentationLane.getFastGroup] at hget
  cases hcan : lane.indexCanAllocate lane.fastGroup n with
  | error fault =>
      rw [hcan] at hget
      cases hget
  | ok can =>
      rw [hcan] at hget
      cases can with
      | true =>
          cases hget
          exact .of_groups rfl
      | false =>
          have hget : (lane.findFastGroup n lane.numberOfFastGroups 0).bind _ = .ok lane' := hget
          cases hfind : lane.findFastGroup n lane.numberOfFastGroups 0 with
          | error fault =>
              rw [hfind] at hget
              cases hget
          | ok found =>
              rw [hfind] at hget
              cases found with
              | some group =>
                  cases hget
                  exact .of_groups rfl
              | none => exact h.refreshFastGroups_extends hget

theorem Inv.canAllocate_extends (h : lane.Inv P) {n : Nat} {fresh : FreshMemory}
    {can : Bool} (hquery : lane.canAllocate n fresh = .ok (lane', can)) : Extends lane lane' := by
  rw [DefragmentationLane.canAllocate] at hquery
  cases hcan : lane.indexCanAllocate lane.fastGroup n with
  | error fault =>
      rw [hcan] at hquery
      cases hquery
  | ok fast =>
      rw [hcan] at hquery
      cases fast with
      | true =>
          cases hquery
          exact .of_groups rfl
      | false =>
          have hquery : (lane.getFastGroup n fresh).map _ = .ok (lane', can) := hquery
          cases hget : lane.getFastGroup n fresh with
          | error fault =>
              rw [hget] at hquery
              cases hquery
          | ok found =>
              rw [hget] at hquery
              cases hquery
              exact h.getFastGroup_extends hget

end DefragmentationLane

namespace ChunkAllocatorWithDefragmentation

variable {P : DefragmentationGroup → Prop} {c c' : ChunkAllocatorWithDefragmentation}

/-- The group of an index in a lane; one that is not online holds no block. -/
def groupOf (c : ChunkAllocatorWithDefragmentation) (i j : Nat) : DefragmentationGroup :=
  ((c.defragmentationLanes i).bind fun lane => lane.groups j).getD (.constructor fun _ => 0)

theorem groupOf_eq {i j : Nat} {lane : DefragmentationLane}
    (hlane : c.defragmentationLanes i = some lane) :
    c.groupOf i j = (lane.groups j).getD (.constructor fun _ => 0) := by
  rw [groupOf, hlane, Option.bind_some]

/-- Groups without blocks may have come online. -/
def SameGroups (c c' : ChunkAllocatorWithDefragmentation) : Prop :=
  ∀ i j, c'.groupOf i j = c.groupOf i j ∨
    ∃ block block', c.groupOf i j = .constructor block ∧ c'.groupOf i j = .constructor block'

theorem SameGroups.of_lanes (h : c'.defragmentationLanes = c.defragmentationLanes) :
    SameGroups c c' := fun i j => .inl (by rw [groupOf, groupOf, h])

theorem SameGroups.trans {c₁ c₂ c₃ : ChunkAllocatorWithDefragmentation} (h : SameGroups c₁ c₂)
    (h' : SameGroups c₂ c₃) : SameGroups c₁ c₃ := by
  intro i j
  obtain hsame | ⟨b, b', hold, hnew⟩ := h i j
  · obtain hsame' | ⟨b, b', hold, hnew⟩ := h' i j
    · exact .inl (hsame'.trans hsame)
    · exact .inr ⟨b, b', hsame.symm.trans hold, hnew⟩
  · obtain hsame' | ⟨b'', b₃, -, hnew'⟩ := h' i j
    · exact .inr ⟨b, b', hold, hsame'.trans hnew⟩
    · exact .inr ⟨b, b₃, hold, hnew'⟩

theorem SameGroups.setLane {i : Nat} {lane lane' : DefragmentationLane}
    (hlane : c.defragmentationLanes i = some lane) (h : lane.Extends lane') :
    SameGroups c (c.setLane i lane') := by
  intro k j
  by_cases hk : k = i
  · subst hk
    have hself : (c.setLane k lane').defragmentationLanes k = some lane' :=
      Function.update_self _ _ _
    rw [groupOf_eq hself, groupOf_eq hlane]
    obtain hsame | ⟨hnone, block, hnew⟩ := h j
    · exact .inl (by rw [hsame])
    · rw [hnone, hnew]
      exact .inr ⟨_, block, rfl, rfl⟩
  · have hother : (c.setLane i lane').defragmentationLanes k = c.defragmentationLanes k :=
      Function.update_of_ne hk _ _
    exact .inl (by rw [groupOf, groupOf, hother])

theorem askLane_same {i n : Nat} {lane : DefragmentationLane} {fresh : FreshMemory} {can : Bool}
    (hlane : c.defragmentationLanes i = some lane) (hinv : lane.Inv P)
    (hask : c.askLane i n fresh = .ok (c', can)) : SameGroups c c' := by
  rw [askLane, getLane, hlane] at hask
  have hask : (lane.canAllocate n fresh).map _ = .ok (c', can) := hask
  cases hquery : lane.canAllocate n fresh with
  | error fault =>
      rw [hquery] at hask
      cases hask
  | ok r =>
      obtain ⟨lane', can'⟩ := r
      rw [hquery] at hask
      cases hask
      exact .setLane hlane (hinv.canAllocate_extends hquery)

/-- The new lane has no group yet. -/
theorem addLane_same {n : Nat} {fresh : FreshMemory}
    (hnull : c.defragmentationLanes c.numberOfLanes = none)
    (hadd : c.addLane n fresh = .ok c') : SameGroups c c' := by
  rw [addLane] at hadd
  split at hadd
  · let lane := DefragmentationLane.constructor c.numberOfLanes fresh
    let added : ChunkAllocatorWithDefragmentation :=
      { c.setLane c.numberOfLanes lane with numberOfLanes := c.numberOfLanes + 1 }
    have hself : added.defragmentationLanes c.numberOfLanes = some lane :=
      Function.update_self _ _ _
    have hfirst : SameGroups c added := fun i j => by
      by_cases hi : i = c.numberOfLanes
      · subst hi
        rw [groupOf_eq hself, groupOf, hnull]
        exact .inl rfl
      · have hother : added.defragmentationLanes i = c.defragmentationLanes i :=
          Function.update_of_ne hi _ _
        exact .inl (by rw [groupOf, groupOf, hother])
    have hadd : (added.askLane c.numberOfLanes n fresh).map _ = .ok c' := hadd
    cases hask : added.askLane c.numberOfLanes n fresh with
    | error fault =>
        rw [hask] at hadd
        cases hadd
    | ok r =>
        obtain ⟨asked, can⟩ := r
        rw [hask] at hadd
        have hsame := hfirst.trans (askLane_same hself
          (DefragmentationLane.inv_constructor (P := fun _ => True) _ fresh) hask)
        cases can with
        | true =>
            cases hadd
            exact hsame.trans (.of_lanes rfl)
        | false =>
            cases hadd
            exact hsame
  · cases hadd

section

variable (hP : ∀ block, P (.constructor block)) {n : Nat} (hn : n ≤ 64) {fresh : FreshMemory}

include hP hn

theorem Inv.scanLanes_same {found : Option Nat} : ∀ fuel i (c : ChunkAllocatorWithDefragmentation),
    c.Inv P → i + fuel = c.numberOfLanes →
    ChunkAllocatorWithDefragmentation.scanLanes n fresh fuel i c = .ok (c', found) →
    SameGroups c c' ∧ c'.Inv P := by
  intro fuel
  induction fuel with
  | zero =>
      intro i c h hsum hscan
      cases hscan
      exact ⟨.of_lanes rfl, h⟩
  | succ fuel ih =>
      intro i c h hsum hscan
      obtain ⟨c₁, can, hask, hasked, -⟩ := h.askLane hP hn fresh (i := i) (by omega)
      obtain ⟨lane, hlane, hinv, -⟩ := h.lane i (by omega)
      have hsame := askLane_same hlane hinv hask
      rw [ChunkAllocatorWithDefragmentation.scanLanes, hask] at hscan
      cases can with
      | true =>
          cases hscan
          exact ⟨hsame, hasked.inv⟩
      | false =>
          have hlanes := hasked.numberOfLanes
          obtain ⟨hsame', hinv'⟩ := ih (i + 1) c₁ hasked.inv (by omega) hscan
          exact ⟨hsame.trans hsame', hinv'⟩

theorem Inv.updateFastLane_same (h : c.Inv P) (hupdate : c.updateFastLane n fresh = .ok c') :
    SameGroups c c' := by
  rw [ChunkAllocatorWithDefragmentation.updateFastLane] at hupdate
  cases hscan : ChunkAllocatorWithDefragmentation.scanLanes n fresh c.numberOfLanes 0 c with
  | error fault =>
      rw [hscan] at hupdate
      cases hupdate
  | ok r =>
      obtain ⟨c₁, found⟩ := r
      obtain ⟨hsame, hinv⟩ := Inv.scanLanes_same hP hn c.numberOfLanes 0 c h (Nat.zero_add _) hscan
      rw [hscan] at hupdate
      cases found with
      | some i =>
          cases hupdate
          exact hsame.trans (.of_lanes rfl)
      | none => exact hsame.trans (addLane_same (hinv.null _ (Nat.le_refl _)) hupdate)

/-- The first part of `allocate` changes no block. -/
theorem Inv.selectLane_same (h : c.Inv P) (hselect : c.selectLane n fresh = .ok c') :
    SameGroups c c' := by
  rw [ChunkAllocatorWithDefragmentation.selectLane] at hselect
  cases hfast : c.fastLane with
  | none =>
      rw [hfast] at hselect
      exact h.updateFastLane_same hP hn hselect
  | some i =>
      rw [hfast] at hselect
      have hi := h.fastLane i hfast
      obtain ⟨c₁, can, hask, hasked, -⟩ := h.askLane hP hn fresh hi
      obtain ⟨lane, hlane, hinv, -⟩ := h.lane i hi
      have hsame := askLane_same hlane hinv hask
      have hselect : (c.askLane i n fresh).bind _ = .ok c' := hselect
      rw [hask] at hselect
      cases can with
      | true =>
          cases hselect
          exact hsame
      | false => exact hsame.trans (hasked.inv.updateFastLane_same hP hn hselect)

end

/-! ## The memory of all groups -/

/-- Two SmartPointers do not name the same place. -/
theorem resolve_inj {a b : Nat} {p : Place} (ha : resolve a = some p) (hb : resolve b = some p) :
    a = b := by
  unfold resolve at ha hb
  split at ha
  · cases ha
  · split at hb
    · cases hb
    · have heq := Option.some.inj (ha.trans hb.symm)
      simp only [Place.mk.injEq] at heq
      unfold GROUPS_PER_LANE ELEMENTS_PER_GROUP at heq
      omega

theorem resolve_bounds {a : Nat} {p : Place} (ha : resolve a = some p) :
    p.group < GROUPS_PER_LANE ∧ p.handle < ELEMENTS_PER_GROUP := by
  unfold resolve at ha
  split at ha
  · cases ha
  · cases ha
    exact ⟨Nat.mod_lt _ (by decide), Nat.mod_lt _ (by decide)⟩

/-- The first cell of a group. -/
def cellsBefore (i j : Nat) : Nat :=
  (i * GROUPS_PER_LANE + j) * ELEMENTS_PER_GROUP

/-- The elements of all groups, of `w` bytes each. -/
def view (w : Nat) (c : ChunkAllocatorWithDefragmentation) : MovingMemory (Fin w → UInt8) :=
  { size := fun a => match resolve a with
      | none => 0
      | some p => ((c.groupOf p.lane p.group).view w).size p.handle
    pointer := fun a => match resolve a with
      | none => 0
      | some p => cellsBefore p.lane p.group + ((c.groupOf p.lane p.group).view w).pointer p.handle
    cells := fun k =>
      ((c.groupOf (k / ELEMENTS_PER_GROUP / GROUPS_PER_LANE)
        (k / ELEMENTS_PER_GROUP % GROUPS_PER_LANE)).view w).cells (k % ELEMENTS_PER_GROUP) }

variable {w : Nat} {a : Nat} {p : Place}

theorem size_view (ha : resolve a = some p) :
    (c.view w).size a = ((c.groupOf p.lane p.group).view w).size p.handle := by
  simp only [view, ha]

theorem size_view_of_none (ha : resolve a = none) : (c.view w).size a = 0 := by
  simp only [view, ha]

theorem pointer_view (ha : resolve a = some p) : (c.view w).pointer a =
    cellsBefore p.lane p.group + ((c.groupOf p.lane p.group).view w).pointer p.handle := by
  simp only [view, ha]

theorem cells_view {i j k : Nat} (hj : j < GROUPS_PER_LANE) (hk : k < ELEMENTS_PER_GROUP) :
    (c.view w).cells (cellsBefore i j + k) = ((c.groupOf i j).view w).cells k := by
  have hlane : (cellsBefore i j + k) / ELEMENTS_PER_GROUP / GROUPS_PER_LANE = i := by
    unfold cellsBefore GROUPS_PER_LANE ELEMENTS_PER_GROUP at *
    omega
  have hgroup : (cellsBefore i j + k) / ELEMENTS_PER_GROUP % GROUPS_PER_LANE = j := by
    unfold cellsBefore GROUPS_PER_LANE ELEMENTS_PER_GROUP at *
    omega
  have hcell : (cellsBefore i j + k) % ELEMENTS_PER_GROUP = k := by
    unfold cellsBefore GROUPS_PER_LANE ELEMENTS_PER_GROUP at *
    omega
  simp only [view, hlane, hgroup, hcell]

/-- Every group, online or not, is in the state that its calls need. -/
def AllWellPlaced (c : ChunkAllocatorWithDefragmentation) : Prop :=
  ∀ i j, (c.groupOf i j).WellPlaced

theorem Inv.allWellPlaced (h : c.Inv DefragmentationGroup.WellPlaced) : c.AllWellPlaced := by
  intro i j
  cases hlane : c.defragmentationLanes i with
  | none =>
      rw [groupOf, hlane]
      exact DefragmentationGroup.constructor_wellPlaced _
  | some lane =>
      rw [groupOf_eq hlane]
      obtain ⟨_, hsome, hinv, -⟩ := h.lane i (h.lt_of_some hlane)
      obtain rfl := Option.some.inj (hlane.symm.trans hsome)
      cases hgroup : lane.groups j with
      | none => exact DefragmentationGroup.constructor_wellPlaced _
      | some g =>
          obtain ⟨_, hsome', hwell⟩ := hinv.online j (hinv.lt_of_some hgroup)
          obtain rfl := Option.some.inj (hgroup.symm.trans hsome')
          exact hwell

/-- The blocks of a group are inside of it. -/
theorem AllWellPlaced.fits (h : c.AllWellPlaced) {i j handle : Nat}
    (hlive : ((c.groupOf i j).view w).size handle ≠ 0) :
    ((c.groupOf i j).view w).pointer handle + ((c.groupOf i j).view w).size handle ≤
      ELEMENTS_PER_GROUP := by
  have hlt := DefragmentationGroup.lt_of_size_view hlive
  rw [DefragmentationGroup.size_view hlt] at hlive ⊢
  exact Nat.le_trans ((h i j).placed.inside handle (DefragmentationGroup.mem_handles.mpr hlt) hlive)
    (h i j).frontier

/-- An element of a block is an element of its group. -/
theorem AllWellPlaced.cells_pointer (h : c.AllWellPlaced) (ha : resolve a = some p) {i : Nat}
    (hi : i < (c.view w).size a) : (c.view w).cells ((c.view w).pointer a + i) =
      ((c.groupOf p.lane p.group).view w).cells
        (((c.groupOf p.lane p.group).view w).pointer p.handle + i) := by
  rw [size_view ha] at hi
  have hfits := h.fits (Nat.ne_of_gt (Nat.zero_lt_of_lt hi))
  rw [pointer_view ha, Nat.add_assoc, cells_view (resolve_bounds ha).1 (by omega)]

theorem resolve_of_size (hlive : (c.view w).size a ≠ 0) : ∃ p, resolve a = some p := by
  cases ha : resolve a with
  | none => exact absurd (size_view_of_none ha) hlive
  | some p => exact ⟨p, rfl⟩

/-- Groups lie side by side. -/
theorem cellsBefore_add_le {i j i' j' : Nat} (hj : j < GROUPS_PER_LANE) (hj' : j' < GROUPS_PER_LANE)
    (hne : ¬(i = i' ∧ j = j')) : cellsBefore i j + ELEMENTS_PER_GROUP ≤ cellsBefore i' j' ∨
      cellsBefore i' j' + ELEMENTS_PER_GROUP ≤ cellsBefore i j := by
  unfold cellsBefore GROUPS_PER_LANE ELEMENTS_PER_GROUP at *
  omega

theorem AllWellPlaced.sound_view (h : c.AllWellPlaced) : (c.view w).Sound SmartPointer_NULL := by
  refine ⟨size_view_of_none (if_pos rfl), fun a b hne ha hb => ?_⟩
  obtain ⟨p, hp⟩ := resolve_of_size ha
  obtain ⟨q, hq⟩ := resolve_of_size hb
  rw [MovingMemory.Disjoint, pointer_view hp, pointer_view hq, size_view hp, size_view hq]
  rw [size_view hp] at ha
  rw [size_view hq] at hb
  have hfits := h.fits ha
  have hfits' := h.fits hb
  by_cases hsame : p.lane = q.lane ∧ p.group = q.group
  · obtain ⟨hlane, hgroup⟩ := hsame
    have hhandle : p.handle ≠ q.handle := fun hhandle => by
      obtain rfl : p = q := by
        cases p
        cases q
        simp_all
      exact hne (resolve_inj hp hq)
    rw [← hlane, ← hgroup] at hb ⊢
    have hdisjoint := (DefragmentationGroup.sound_view (w := w) (h p.lane p.group)).disjoint
      p.handle q.handle hhandle ha hb
    unfold MovingMemory.Disjoint at hdisjoint
    omega
  · have hbefore := cellsBefore_add_le (resolve_bounds hp).1 (resolve_bounds hq).1 hsame
    omega

/-- A handle of a group that has the same block before and after. -/
theorem view_eq_of_same {g g' : DefragmentationGroup}
    (h : g' = g ∨ ∃ block block', g = .constructor block ∧ g' = .constructor block')
    (handle : Nat) : (g'.view w).size handle = (g.view w).size handle ∧
      ∀ i < (g.view w).size handle, (g'.view w).cells ((g'.view w).pointer handle + i) =
        (g.view w).cells ((g.view w).pointer handle + i) := by
  obtain rfl | ⟨block, block', rfl, rfl⟩ := h
  · exact ⟨rfl, fun _ _ => rfl⟩
  · have hempty : ∀ block, ((DefragmentationGroup.constructor block).view w).size handle = 0 :=
      fun block => by
        show (if handle < ELEMENTS_PER_GROUP then 0 else 0) = 0
        split <;> rfl
    rw [hempty, hempty]
    exact ⟨rfl, fun i hi => absurd hi (Nat.not_lt_zero i)⟩

/-- What came online is not seen. -/
theorem SameGroups.view (h : SameGroups c c') (hwell : c.AllWellPlaced) (hwell' : c'.AllWellPlaced)
    (a : Nat) : (c'.view w).size a = (c.view w).size a ∧ ∀ i < (c.view w).size a,
      (c'.view w).cells ((c'.view w).pointer a + i) =
        (c.view w).cells ((c.view w).pointer a + i) := by
  cases ha : resolve a with
  | none =>
      rw [size_view_of_none ha, size_view_of_none ha]
      exact ⟨rfl, fun i hi => absurd hi (Nat.not_lt_zero i)⟩
  | some p =>
      obtain ⟨hsize, hcells⟩ := view_eq_of_same (w := w) (h p.lane p.group) p.handle
      have hsame : (c'.view w).size a = (c.view w).size a := by
        rw [size_view ha, size_view ha, hsize]
      refine ⟨hsame, fun i hi => ?_⟩
      rw [hwell'.cells_pointer ha (hsame ▸ hi), hwell.cells_pointer ha hi]
      exact hcells i (by rwa [size_view ha] at hi)

/-- A call of group `j` of lane `i`. -/
def Replaces (c c' : ChunkAllocatorWithDefragmentation) (i j : Nat) (g : DefragmentationGroup) :
    Prop :=
  ∀ i' j', c'.groupOf i' j' = if i' = i ∧ j' = j then g else c.groupOf i' j'

theorem replaces_setGroup {i j : Nat} {lane : DefragmentationLane}
    (hlane : c.defragmentationLanes i = some lane) (g : DefragmentationGroup) :
    Replaces c (c.setLane i (lane.setGroup j g)) i j g := by
  intro i' j'
  by_cases hi : i' = i
  · subst hi
    have hself : (c.setLane i' (lane.setGroup j g)).defragmentationLanes i' =
        some (lane.setGroup j g) := Function.update_self _ _ _
    rw [groupOf_eq hself, groupOf_eq hlane, DefragmentationLane.setGroup]
    by_cases hj : j' = j
    · subst hj
      simp
    · simp [hj]
  · have hother : (c.setLane i (lane.setGroup j g)).defragmentationLanes i' =
        c.defragmentationLanes i' := Function.update_of_ne hi _ _
    rw [groupOf, groupOf, hother, if_neg fun heq => hi heq.1]

/-- A call of one group keeps the blocks of all others. -/
theorem Replaces.kept {i j handle : Nat} {g : DefragmentationGroup} (h : Replaces c c' i j g)
    (hwell : c.AllWellPlaced) (hwell' : c'.AllWellPlaced) (ha : resolve a = some ⟨i, j, handle⟩)
    (hkept : ((c.groupOf i j).view w).Kept (g.view w) handle) : (c.view w).Kept (c'.view w) a := by
  intro b hb
  cases hq : resolve b with
  | none =>
      rw [size_view_of_none hq, size_view_of_none hq]
      exact ⟨rfl, fun k hk => absurd hk (Nat.not_lt_zero k)⟩
  | some q =>
      have hblock : ((c'.groupOf q.lane q.group).view w).size q.handle =
            ((c.groupOf q.lane q.group).view w).size q.handle ∧
          ∀ k < ((c.groupOf q.lane q.group).view w).size q.handle,
            ((c'.groupOf q.lane q.group).view w).cells
                (((c'.groupOf q.lane q.group).view w).pointer q.handle + k) =
              ((c.groupOf q.lane q.group).view w).cells
                (((c.groupOf q.lane q.group).view w).pointer q.handle + k) := by
        by_cases hsame : q.lane = i ∧ q.group = j
        · have hhandle : q.handle ≠ handle := fun hhandle => by
            obtain rfl : q = ⟨i, j, handle⟩ := by
              cases q
              simp_all
            exact hb (resolve_inj hq ha)
          rw [h, if_pos hsame, hsame.1, hsame.2]
          exact hkept q.handle hhandle
        · rw [h, if_neg hsame]
          exact ⟨rfl, fun _ _ => rfl⟩
      have hsize : (c'.view w).size b = (c.view w).size b := by
        rw [size_view hq, size_view hq, hblock.1]
      refine ⟨hsize, fun k hk => ?_⟩
      rw [hwell'.cells_pointer hq (hsize ▸ hk), hwell.cells_pointer hq hk]
      exact hblock.2 k (by rwa [size_view hq] at hk)

/-! ## The calls as a client sees them -/

theorem wellPlaced_keptByCalls (hw : 1 ≤ w) :
    DefragmentationLane.KeptByCalls w DefragmentationGroup.WellPlaced :=
  { constructor := DefragmentationGroup.constructor_wellPlaced
    allocate := fun _ _ s h hpos hn hcan =>
      (DefragmentationGroup.allocate_spec h hw hpos hn hcan s).wellPlaced
    deallocate := fun _ _ s h ha => h.deallocate hw ha s }

/-- The fast group gets the request, and the pointer names its handle. -/
theorem forward_eq {n i : Nat} {lane : DefragmentationLane} {g : DefragmentationGroup} {s : Scratch}
    (hfast : c.fastLane = some i) (hlane : c.defragmentationLanes i = some lane)
    (hserves : lane.Serves n g) (hlt : (g.allocate n c.bytesPerElement s).2 < ELEMENTS_PER_GROUP) :
    c.forward n s = .ok
      (c.setLane i (lane.setGroup lane.fastGroup (g.allocate n c.bytesPerElement s).1),
        smartPointer ⟨lane.number, lane.fastGroup, (g.allocate n c.bytesPerElement s).2⟩) := by
  have hget : lane.getGroup lane.fastGroup = .ok g := by
    rw [DefragmentationLane.getGroup, if_pos hserves.inside, hserves.online]
  have hallocate : lane.allocate n c.bytesPerElement s =
      .ok (lane.setGroup lane.fastGroup (g.allocate n c.bytesPerElement s).1,
        (g.allocate n c.bytesPerElement s).2) := by
    have hhandle : (g.allocate n c.bytesPerElement s).2 % 65536 =
        (g.allocate n c.bytesPerElement s).2 := Nat.mod_eq_of_lt hlt
    rw [DefragmentationLane.allocate, hget]
    show Except.ok (_, (g.allocate n c.bytesPerElement s).2 % 65536) = _
    rw [hhandle]
  exact forward_smartPointer hfast (by rw [getLane, hlane]) hallocate

theorem Inv.allocates_view (h : c.Inv DefragmentationGroup.WellPlaced) (hw : 1 ≤ c.bytesPerElement)
    {n : Nat} (hpos : 1 ≤ n) (hn : n ≤ 64) {fresh : FreshMemory} {s : Scratch}
    (hallocate : c.allocate n fresh s = .ok (c', a)) (hlanes : c'.numberOfLanes ≤ 64)
    (hnull : a ≠ SmartPointer_NULL) :
    (c.view c.bytesPerElement).Allocates SmartPointer_NULL n a (c'.view c.bytesPerElement) ∧
      c'.Inv DefragmentationGroup.WellPlaced ∧ c'.bytesPerElement = c.bytesPerElement := by
  have hP := wellPlaced_keptByCalls hw
  rw [ChunkAllocatorWithDefragmentation.allocate] at hallocate
  obtain ⟨hfull, -⟩ | ⟨c₁, hselect, hinv₁, hgrows, ⟨i, lane, g, hfast, hi, hlane, hserves⟩⟩ :=
    h.selectLane hP.constructor hn fresh
  · rw [hfull] at hallocate
    cases hallocate
  · rw [hselect] at hallocate
    have hsame := h.selectLane_same hP.constructor hn hselect
    obtain ⟨_, hsome, hlaneInv, hnumber, -⟩ := hinv₁.lane i hi
    obtain rfl := Option.some.inj (hlane.symm.trans hsome)
    obtain ⟨_, hg, hwell⟩ := hlaneInv.online _ (hlaneInv.lt_of_some hserves.online)
    obtain rfl := Option.some.inj (hserves.online.symm.trans hg)
    have hspec := DefragmentationGroup.allocate_spec hwell hw hpos hn hserves.canAllocate s
    have hgroup := DefragmentationGroup.allocates_view hwell hw hpos hn hserves.canAllocate s
    rw [← hgrows.bytesPerElement] at hspec hgroup hP ⊢
    have hforward : c₁.forward n s = .ok (c', a) := hallocate
    obtain ⟨_, _, hok, hinv', hgrows', -⟩ :=
      hinv₁.forward hP hpos hn ⟨i, lane, g, hfast, hi, hlane, hserves⟩ s
    obtain ⟨rfl, rfl⟩ := Prod.mk.inj (Except.ok.inj (hforward.symm.trans hok))
    have heq := Except.ok.inj ((forward_eq hfast hlane hserves hspec.lt).symm.trans hforward)
    obtain ⟨rfl, rfl⟩ := Prod.mk.inj heq
    rw [hnumber] at hnull
    have hi64 : i < 64 := Nat.lt_of_lt_of_le hi hlanes
    have hvalid : Place.Valid ⟨i, lane.fastGroup, (g.allocate n c₁.bytesPerElement s).2⟩ :=
      ⟨Nat.lt_of_lt_of_le hi64 (by decide), hserves.inside, hspec.lt⟩
    have hresolve := (resolve_smartPointer hvalid ⟨hi64, fun hlast => hnull (by
      rw [hlast]
      decide)⟩).2
    rw [hnumber]
    have honline : c₁.groupOf i lane.fastGroup = g := by
      rw [groupOf_eq hlane, hserves.online]
      rfl
    have hreplaces := replaces_setGroup (j := lane.fastGroup) hlane
      (g.allocate n c₁.bytesPerElement s).1
    have hkept := hreplaces.kept (w := c₁.bytesPerElement) hinv₁.allWellPlaced hinv'.allWellPlaced
      hresolve (honline.symm ▸ hgroup.kept)
    have hquery := fun b => hsame.view (w := c₁.bytesPerElement) h.allWellPlaced
      hinv₁.allWellPlaced b
    refine ⟨⟨?_, ?_, fun b hb => ?_, hinv'.allWellPlaced.sound_view⟩, hinv', rfl⟩
    · rw [← (hquery _).1, size_view hresolve, honline]
      exact hgroup.fresh
    · rw [size_view hresolve, hreplaces, if_pos ⟨rfl, rfl⟩]
      exact hgroup.size
    · obtain ⟨hsize, hcells⟩ := hkept b hb
      refine ⟨hsize.trans (hquery b).1, fun k hk => ?_⟩
      rw [hcells k ((hquery b).1.symm ▸ hk)]
      exact (hquery b).2 k hk

/-- The group of a live pointer. -/
theorem online_of_size (ha : resolve a = some p) (hlive : (c.view w).size a ≠ 0) :
    ∃ lane g, c.defragmentationLanes p.lane = some lane ∧ lane.groups p.group = some g ∧
      c.groupOf p.lane p.group = g := by
  have hoffline : ∀ block, c.groupOf p.lane p.group ≠ .constructor block := fun block heq => by
    rw [size_view ha, heq] at hlive
    apply hlive
    show (if p.handle < ELEMENTS_PER_GROUP then 0 else 0) = 0
    split <;> rfl
  cases hlane : c.defragmentationLanes p.lane with
  | none => exact absurd (by rw [groupOf, hlane]; rfl) (hoffline fun _ => 0)
  | some lane =>
      cases hg : lane.groups p.group with
      | none => exact absurd (by rw [groupOf_eq hlane, hg]; rfl) (hoffline fun _ => 0)
      | some g => exact ⟨lane, g, rfl, hg, by rw [groupOf_eq hlane, hg]; rfl⟩

theorem Inv.deallocates_view (h : c.Inv DefragmentationGroup.WellPlaced)
    (hw : 1 ≤ c.bytesPerElement) (hlive : (c.view c.bytesPerElement).size a ≠ 0) (s : Scratch) :
    ∃ c', c.deallocate a s = .ok c' ∧
      (c.view c.bytesPerElement).Deallocates SmartPointer_NULL a (c'.view c.bytesPerElement) ∧
      c'.Inv DefragmentationGroup.WellPlaced ∧ c'.bytesPerElement = c.bytesPerElement := by
  have hP := wellPlaced_keptByCalls hw
  obtain ⟨p, ha⟩ := resolve_of_size hlive
  obtain ⟨lane, g, hlane, hg, honline⟩ := online_of_size ha hlive
  obtain ⟨_, hsome, hlaneInv, -⟩ := h.lane _ (h.lt_of_some hlane)
  obtain rfl := Option.some.inj (hlane.symm.trans hsome)
  have hactive := hlaneInv.lt_of_some hg
  have hwell : g.WellPlaced := honline ▸ h.allWellPlaced p.lane p.group
  have hgroupLive : (g.view c.bytesPerElement).size p.handle ≠ 0 := by
    rw [size_view ha, honline] at hlive
    exact hlive
  have hgroup := DefragmentationGroup.deallocates_view hwell hw hgroupLive s
  let lane' := lane.setGroup p.group (g.deallocate p.handle c.bytesPerElement s)
  have hdeallocate : c.deallocate a s = .ok (c.setLane p.lane lane') := by
    rw [deallocate_resolve ha, getLane, hlane]
    show (lane.getGroup p.group).map _ = _
    rw [DefragmentationLane.getGroup, if_pos (resolve_bounds ha).1, hg]
    rfl
  have hkeptByGroup := hP.deallocate g p.handle s hwell (resolve_bounds ha).2
  obtain ⟨hinv', -, -⟩ :=
    h.setLane hlane (hlaneInv.setGroup hactive hkeptByGroup) rfl (Nat.le_refl _)
  have hreplaces := replaces_setGroup (j := p.group) hlane
    (g.deallocate p.handle c.bytesPerElement s)
  refine ⟨_, hdeallocate, ⟨?_, ?_, hinv'.allWellPlaced.sound_view⟩, hinv', rfl⟩
  · rw [size_view ha, hreplaces, if_pos ⟨rfl, rfl⟩]
    exact hgroup.size
  · exact hreplaces.kept h.allWellPlaced hinv'.allWellPlaced ha (honline.symm ▸ hgroup.kept)

/-! ## Values in memory -/

/-- A `VALUE*`: the lane, the group and the byte, as `getPointer` returns them. -/
abbrev ValuePointer := Nat × Nat × Nat

/-- `pointer+i`, for values of `w` bytes. -/
def plus (w : Nat) (pointer : ValuePointer) (i : Nat) : ValuePointer :=
  (pointer.1, pointer.2.1, pointer.2.2 + i * w)

/-- The group of which the memory is pointed to. -/
def groupAt (c : ChunkAllocatorWithDefragmentation) (i j : Nat) : Option DefragmentationGroup :=
  (c.defragmentationLanes i).bind fun lane => lane.groups j

/-- `*pointer`. -/
def readValue (w : Nat) (c : ChunkAllocatorWithDefragmentation) (pointer : ValuePointer) :
    Option (Fin w → UInt8) :=
  (c.groupAt pointer.1 pointer.2.1).map fun g byte => g.block (pointer.2.2 + byte)

/-- The block after `*pointer=value`. -/
def writeBytes (w : Nat) (g : DefragmentationGroup) (position : Nat) (value : Fin w → UInt8) :
    DefragmentationGroup :=
  { g with
    block := fun k =>
      if h : position ≤ k ∧ k < position + w then value ⟨k - position, by omega⟩ else g.block k }

/-- `*pointer=value`. -/
def writeValue (w : Nat) (c : ChunkAllocatorWithDefragmentation) (pointer : ValuePointer)
    (value : Fin w → UInt8) : Option ChunkAllocatorWithDefragmentation :=
  (c.defragmentationLanes pointer.1).bind fun lane =>
    (lane.groups pointer.2.1).map fun g =>
      c.setLane pointer.1 (lane.setGroup pointer.2.1 (writeBytes w g pointer.2.2 value))

/-- `getPointer(a)[i]=value`. -/
def assign (w : Nat) (c : ChunkAllocatorWithDefragmentation) (a i : Nat) (value : Fin w → UInt8) :
    Option ChunkAllocatorWithDefragmentation :=
  match c.getPointer a with
  | .ok (some pointer) => c.writeValue w (plus w pointer i) value
  | _ => none

/-- The pointer to a cell of the memory of all groups. -/
structure Points (w : Nat) (c : ChunkAllocatorWithDefragmentation) (pointer : ValuePointer)
    (cell : Nat) : Prop where
  group : pointer.2.1 < GROUPS_PER_LANE
  online : ∃ lane g, c.defragmentationLanes pointer.1 = some lane ∧
    lane.groups pointer.2.1 = some g
  element : ∃ i < ELEMENTS_PER_GROUP, pointer.2.2 = i * w ∧
    cell = cellsBefore pointer.1 pointer.2.1 + i

/-- A write in a group is a write in the memory of all groups. -/
theorem Replaces.view_write {i j pos : Nat} {g : DefragmentationGroup} {value : Fin w → UInt8}
    (h : Replaces c c' i j (g.writeElement w pos value)) (honline : c.groupOf i j = g)
    (hj : j < GROUPS_PER_LANE) (hpos : pos < ELEMENTS_PER_GROUP) :
    c'.view w = (c.view w).write (cellsBefore i j + pos) value := by
  -- of each group, only the cells can change
  have hgroup : ∀ i' j', ((c'.groupOf i' j').view w).size = ((c.groupOf i' j').view w).size ∧
      ((c'.groupOf i' j').view w).pointer = ((c.groupOf i' j').view w).pointer ∧
      ((c'.groupOf i' j').view w).cells = if i' = i ∧ j' = j then
        Function.update (g.view w).cells pos value else ((c.groupOf i' j').view w).cells := by
    intro i' j'
    rw [h]
    by_cases hsame : i' = i ∧ j' = j
    · rw [if_pos hsame, if_pos hsame, hsame.1, hsame.2, honline,
        DefragmentationGroup.view_writeElement]
      exact ⟨rfl, rfl, rfl⟩
    · rw [if_neg hsame, if_neg hsame]
      exact ⟨rfl, rfl, rfl⟩
  have hsize : (c'.view w).size = (c.view w).size := by
    funext b
    cases hb : resolve b with
    | none => rw [size_view_of_none hb, size_view_of_none hb]
    | some q => rw [size_view hb, size_view hb, (hgroup _ _).1]
  have hpointer : (c'.view w).pointer = (c.view w).pointer := by
    funext b
    cases hb : resolve b with
    | none => simp only [view, hb]
    | some q => rw [pointer_view hb, pointer_view hb, (hgroup _ _).2.1]
  have hcells : (c'.view w).cells =
      Function.update (c.view w).cells (cellsBefore i j + pos) value := by
    funext k
    show ((c'.groupOf (k / ELEMENTS_PER_GROUP / GROUPS_PER_LANE)
      (k / ELEMENTS_PER_GROUP % GROUPS_PER_LANE)).view w).cells (k % ELEMENTS_PER_GROUP) = _
    rw [(hgroup _ _).2.2]
    by_cases hk : k = cellsBefore i j + pos
    · have hlane : k / ELEMENTS_PER_GROUP / GROUPS_PER_LANE = i := by
        unfold cellsBefore GROUPS_PER_LANE ELEMENTS_PER_GROUP at *
        omega
      have hin : k / ELEMENTS_PER_GROUP % GROUPS_PER_LANE = j := by
        unfold cellsBefore GROUPS_PER_LANE ELEMENTS_PER_GROUP at *
        omega
      have hcell : k % ELEMENTS_PER_GROUP = pos := by
        unfold cellsBefore GROUPS_PER_LANE ELEMENTS_PER_GROUP at *
        omega
      rw [if_pos ⟨hlane, hin⟩, hcell, Function.update_self, hk, Function.update_self]
    · rw [Function.update_of_ne hk]
      by_cases hsame : k / ELEMENTS_PER_GROUP / GROUPS_PER_LANE = i ∧
          k / ELEMENTS_PER_GROUP % GROUPS_PER_LANE = j
      · have hcell : k % ELEMENTS_PER_GROUP ≠ pos := by
          unfold cellsBefore GROUPS_PER_LANE ELEMENTS_PER_GROUP at *
          omega
        rw [if_pos hsame, Function.update_of_ne hcell, ← honline, ← hsame.1, ← hsame.2]
        rfl
      · rw [if_neg hsame]
        rfl
  have heta : c'.view w = ⟨(c'.view w).size, (c'.view w).pointer, (c'.view w).cells⟩ := rfl
  rw [heta, hsize, hpointer, hcells]
  rfl

theorem Points.readValue {pointer : ValuePointer} {cell : Nat} (h : Points w c pointer cell) :
    c.readValue w pointer = some ((c.view w).cells cell) := by
  obtain ⟨lane, g, hlane, hg⟩ := h.online
  obtain ⟨i, hi, hbyte, rfl⟩ := h.element
  have honline : c.groupOf pointer.1 pointer.2.1 = g := by
    rw [groupOf_eq hlane, hg]
    rfl
  rw [ChunkAllocatorWithDefragmentation.readValue, groupAt, hlane, Option.bind_some, hg,
    Option.map_some, cells_view h.group hi, honline, hbyte]
  rfl

/-- What a write leaves as it is. -/
structure Written (c c' : ChunkAllocatorWithDefragmentation) : Prop where
  inv : c'.Inv DefragmentationGroup.WellPlaced
  bytesPerElement : c'.bytesPerElement = c.bytesPerElement
  points : ∀ {w : Nat} {pointer : ValuePointer} {cell : Nat},
    Points w c pointer cell → Points w c' pointer cell
  getPointer : ∀ a, c'.getPointer a = c.getPointer a

theorem Written.refl (h : c.Inv DefragmentationGroup.WellPlaced) : Written c c :=
  ⟨h, rfl, fun hpoints => hpoints, fun _ => rfl⟩

theorem Written.trans {c₁ c₂ c₃ : ChunkAllocatorWithDefragmentation} (h : Written c₁ c₂)
    (h' : Written c₂ c₃) : Written c₁ c₃ :=
  ⟨h'.inv, h'.bytesPerElement.trans h.bytesPerElement, fun hpoints => h'.points (h.points hpoints),
    fun a => (h'.getPointer a).trans (h.getPointer a)⟩

theorem setGroup_online {i j k l : Nat} {lane lane' : DefragmentationLane}
    {g g' : DefragmentationGroup} (hlane : c.defragmentationLanes i = some lane)
    (hlane' : c.defragmentationLanes k = some lane') (hg' : lane'.groups l = some g') :
    ∃ lane'' g'', (c.setLane i (lane.setGroup j g)).defragmentationLanes k = some lane'' ∧
      lane''.groups l = some g'' := by
  by_cases hk : k = i
  · subst hk
    obtain rfl := Option.some.inj (hlane.symm.trans hlane')
    refine ⟨lane.setGroup j g, ?_⟩
    by_cases hl : l = j
    · subst hl
      exact ⟨g, Function.update_self _ _ _, Function.update_self _ _ _⟩
    · exact ⟨g', Function.update_self _ _ _, (Function.update_of_ne hl _ _).trans hg'⟩
  · exact ⟨lane', g', (Function.update_of_ne hk _ _).trans hlane', hg'⟩

theorem getPointer_of_none (ha : resolve a = none) : c.getPointer a = .ok none := by
  unfold resolve at ha
  split at ha
  · next hnull => exact if_pos hnull
  · cases ha

/-- Blocks that do not move are found where they were. -/
theorem getPointer_setGroup {i j : Nat} {lane : DefragmentationLane}
    {g g' : DefragmentationGroup} (hlane : c.defragmentationLanes i = some lane)
    (hg : lane.groups j = some g) (hoffsets : g'.allocatedOffsets = g.allocatedOffsets) (a : Nat) :
    (c.setLane i (lane.setGroup j g')).getPointer a = c.getPointer a := by
  cases ha : resolve a with
  | none => rw [getPointer_of_none ha, getPointer_of_none ha]
  | some p =>
      rw [getPointer_resolve ha, getPointer_resolve ha]
      by_cases hi : p.lane = i
      · have hself : (c.setLane i (lane.setGroup j g')).getLane p.lane =
            .ok (lane.setGroup j g') := by
          have hnew : (c.setLane i (lane.setGroup j g')).defragmentationLanes i =
              some (lane.setGroup j g') := Function.update_self _ _ _
          rw [getLane, hi, hnew]
        have hsame : c.getLane p.lane = .ok lane := by rw [getLane, hi, hlane]
        rw [hself, hsame]
        show ((lane.setGroup j g').getGroup p.group).map _ = (lane.getGroup p.group).map _
        rw [DefragmentationLane.getGroup, DefragmentationLane.getGroup]
        by_cases hj : p.group = j
        · have hnew : (lane.setGroup j g').groups p.group = some g' := by
            rw [hj]
            exact Function.update_self _ _ _
          rw [hnew, hj, hg]
          split
          · show Except.ok (some (p.lane, j, g'.allocatedOffsets p.handle * c.bytesPerElement)) = _
            rw [hoffsets]
            rfl
          · rfl
        · have hold : (lane.setGroup j g').groups p.group = lane.groups p.group :=
            Function.update_of_ne hj _ _
          rw [hold]
          rfl
      · have hother : (c.setLane i (lane.setGroup j g')).getLane p.lane = c.getLane p.lane := by
          have hold : (c.setLane i (lane.setGroup j g')).defragmentationLanes p.lane =
              c.defragmentationLanes p.lane := Function.update_of_ne hi _ _
          rw [getLane, getLane, hold]
        rw [hother]
        rfl

/-- The group that is written to keeps its tables. -/
theorem Inv.written (h : c.Inv DefragmentationGroup.WellPlaced) {i j position : Nat}
    {lane : DefragmentationLane} {g : DefragmentationGroup}
    (hlane : c.defragmentationLanes i = some lane) (hg : lane.groups j = some g)
    (value : Fin w → UInt8) :
    Written c (c.setLane i (lane.setGroup j (writeBytes w g position value))) := by
  obtain ⟨_, hsome, hlaneInv, -⟩ := h.lane _ (h.lt_of_some hlane)
  obtain rfl := Option.some.inj (hlane.symm.trans hsome)
  have hwell : g.WellPlaced := by
    obtain ⟨_, hsome', hwell⟩ := hlaneInv.online j (hlaneInv.lt_of_some hg)
    obtain rfl := Option.some.inj (hg.symm.trans hsome')
    exact hwell
  have hwell' : (writeBytes w g position value).WellPlaced :=
    ⟨hwell.placed, hwell.frontier, hwell.available, hwell.fast⟩
  obtain ⟨hinv', -, -⟩ := h.setLane hlane
    (hlaneInv.setGroup (hlaneInv.lt_of_some hg) hwell') rfl (Nat.le_refl _)
  refine ⟨hinv', rfl, fun hpoints => ⟨hpoints.group, ?_, hpoints.element⟩,
    getPointer_setGroup hlane hg rfl⟩
  obtain ⟨lane', g', hlane', hg'⟩ := hpoints.online
  exact setGroup_online hlane hlane' hg'

theorem Points.writeValue {pointer : ValuePointer} {cell : Nat} (h : Points w c pointer cell)
    (hinv : c.Inv DefragmentationGroup.WellPlaced) (value : Fin w → UInt8) :
    ∃ c', c.writeValue w pointer value = some c' ∧ c'.view w = (c.view w).write cell value ∧
      Written c c' := by
  obtain ⟨lane, g, hlane, hg⟩ := h.online
  obtain ⟨i, hi, hbyte, rfl⟩ := h.element
  have honline : c.groupOf pointer.1 pointer.2.1 = g := by
    rw [groupOf_eq hlane, hg]
    rfl
  have hwrite : c.writeValue w pointer value = some (c.setLane pointer.1
      (lane.setGroup pointer.2.1 (writeBytes w g pointer.2.2 value))) := by
    rw [ChunkAllocatorWithDefragmentation.writeValue, hlane, Option.bind_some, hg]
    rfl
  refine ⟨_, hwrite, ?_, hinv.written hlane hg value⟩
  rw [hbyte]
  exact (replaces_setGroup hlane (g.writeElement w i value)).view_write honline h.group hi

/-- A pointer that is live leads to its block. -/
theorem Inv.points (h : c.Inv DefragmentationGroup.WellPlaced) (hbytes : c.bytesPerElement = w)
    (hlive : (c.view w).size a ≠ 0) : ∃ pointer, c.getPointer a = .ok (some pointer) ∧
      ∀ i < (c.view w).size a, Points w c (plus w pointer i) ((c.view w).pointer a + i) := by
  obtain ⟨p, ha⟩ := resolve_of_size hlive
  obtain ⟨lane, g, hlane, hg, honline⟩ := online_of_size ha hlive
  have hpointer : c.getPointer a = .ok (some (p.lane, p.group, g.allocatedOffsets p.handle * w)) := by
    rw [getPointer_resolve ha, hbytes, getLane, hlane]
    show (lane.getGroup p.group).map _ = _
    rw [DefragmentationLane.getGroup, if_pos (resolve_bounds ha).1, hg]
    rfl
  have hfits := h.allWellPlaced.fits (w := w) (by rwa [size_view ha] at hlive)
  rw [honline] at hfits
  refine ⟨_, hpointer, fun i hi => ⟨(resolve_bounds ha).1, ⟨lane, g, hlane, hg⟩,
    g.allocatedOffsets p.handle + i, ?_, (Nat.add_mul _ _ _).symm, ?_⟩⟩
  · rw [size_view ha, honline] at hi
    exact Nat.lt_of_lt_of_le (Nat.add_lt_add_left hi _) hfits
  · rw [pointer_view ha, honline, Nat.add_assoc]
    rfl

/-- An assignment in a block is one write, in the cell where the block is now. -/
theorem Inv.assign_view (h : c.Inv DefragmentationGroup.WellPlaced) (hbytes : c.bytesPerElement = w)
    {i : Nat} (hi : i < (c.view w).size a) (value : Fin w → UInt8) :
    ∃ c', c.assign w a i value = some c' ∧
      c'.view w = (c.view w).write ((c.view w).pointer a + i) value ∧ Written c c' := by
  obtain ⟨pointer, hpointer, hpoints⟩ :=
    h.points hbytes (Nat.ne_of_gt (Nat.zero_lt_of_lt hi))
  rw [assign, hpointer]
  exact (hpoints i hi).writeValue h value

end ChunkAllocatorWithDefragmentation

/-! ## Clients -/

open ChunkAllocatorWithDefragmentation

/-- A client of the allocator; `stored` is what it has put in the block of each pointer that it
holds. -/
structure HeapClient (w : Nat) where
  allocator : ChunkAllocatorWithDefragmentation
  stored : Nat → Option (List (Fin w → UInt8))

inductive HeapCall (w : Nat)
  | allocate (n : Nat) (fresh : FreshMemory) (s : Scratch)
  | assign (a i : Nat) (value : Fin w → UInt8)
  | deallocate (a : Nat) (s : Scratch)

namespace HeapClient

variable {w : Nat}

/-- A call for 1 to 64 elements, in an element of a block, or with a pointer that is held, as long
as the pointers are unambiguous: in the first 64 lanes, but for the handle that is named `NULL`. -/
def exec (c : HeapClient w) : HeapCall w → Option (HeapClient w)
  | .allocate n fresh s =>
      if 1 ≤ n ∧ n ≤ 64 then
        (c.allocator.allocate n fresh s).toOption.bind fun (allocator, a) =>
          if allocator.numberOfLanes ≤ 64 ∧ a ≠ SmartPointer_NULL then
            some ⟨allocator, Function.update c.stored a (some ((allocator.view w).read a))⟩
          else none
      else none
  | .assign a i value =>
      (c.stored a).bind fun block =>
        if i < block.length then
          (c.allocator.assign w a i value).map fun allocator =>
            ⟨allocator, Function.update c.stored a (some (block.set i value))⟩
        else none
  | .deallocate a s =>
      if (c.stored a).isSome then
        (c.allocator.deallocate a s).toOption.map fun allocator =>
          ⟨allocator, Function.update c.stored a none⟩
      else none

def start (w : Nat) : HeapClient w :=
  ⟨.constructor w, fun _ => none⟩

/-- The block of each pointer that is held has the contents that it should have. -/
structure Inv (c : HeapClient w) : Prop where
  allocator : c.allocator.Inv DefragmentationGroup.WellPlaced
  bytesPerElement : c.allocator.bytesPerElement = w
  stored : ∀ a block, c.stored a = some block →
    (c.allocator.view w).size a ≠ 0 ∧ (c.allocator.view w).read a = block

theorem Inv.start : (start w).Inv :=
  ⟨⟨Nat.zero_le _, fun _ hi => absurd hi (Nat.not_lt_zero _), fun _ _ => rfl,
    fun _ hi => nomatch hi⟩, rfl, fun _ _ hstored => nomatch hstored⟩

/-- The other blocks are kept. -/
theorem Inv.of_kept {c : HeapClient w} {allocator : ChunkAllocatorWithDefragmentation} {a : Nat}
    (h : c.Inv) (hinv : allocator.Inv DefragmentationGroup.WellPlaced)
    (hbytes : allocator.bytesPerElement = w)
    (hkept : (c.allocator.view w).Kept (allocator.view w) a) {block : Option (List (Fin w → UInt8))}
    (hblock : ∀ b, block = some b → (allocator.view w).size a ≠ 0 ∧ (allocator.view w).read a = b) :
    Inv ⟨allocator, Function.update c.stored a block⟩ := by
  refine ⟨hinv, hbytes,
    (Function.forall_update_iff _ fun b (stored : Option (List (Fin w → UInt8))) =>
      ∀ block, stored = some block →
        (allocator.view w).size b ≠ 0 ∧ (allocator.view w).read b = block).mpr
      ⟨hblock, fun b hb block' hstored => ?_⟩⟩
  obtain ⟨hsize, hread⟩ := h.stored b block' hstored
  rw [(hkept b hb).1, hkept.read hb]
  exact ⟨hsize, hread⟩

theorem Inv.exec {c c' : HeapClient w} (hw : 1 ≤ w) {call : HeapCall w} (h : c.Inv)
    (hexec : c.exec call = some c') : c'.Inv := by
  have hbytes := h.bytesPerElement
  cases call with
  | allocate n fresh s =>
      simp only [HeapClient.exec] at hexec
      split at hexec
      · next hn =>
          obtain ⟨⟨allocator, a⟩, hallocate, hexec⟩ := Option.bind_eq_some_iff.mp hexec
          simp only [Option.ite_none_right_eq_some, Option.some.injEq] at hexec
          obtain ⟨⟨hlanes, hnull⟩, rfl⟩ := hexec
          have hallocate : c.allocator.allocate n fresh s = .ok (allocator, a) := by
            cases hr : c.allocator.allocate n fresh s with
            | error fault =>
                rw [hr] at hallocate
                cases hallocate
            | ok r =>
                rw [hr] at hallocate
                cases hallocate
                rfl
          obtain ⟨hview, hinv, hbytes'⟩ := h.allocator.allocates_view (hbytes.symm ▸ hw) hn.1 hn.2
            hallocate hlanes hnull
          rw [hbytes] at hview hbytes'
          refine h.of_kept hinv hbytes' hview.kept fun block hblock => ?_
          cases hblock
          refine ⟨?_, rfl⟩
          rw [hview.size]
          omega
      · cases hexec
  | assign a i value =>
      simp only [HeapClient.exec] at hexec
      obtain ⟨block, hstored, hexec⟩ := Option.bind_eq_some_iff.mp hexec
      simp only [Option.ite_none_right_eq_some] at hexec
      obtain ⟨hi, hexec⟩ := hexec
      obtain ⟨allocator, hassign, rfl⟩ := Option.map_eq_some_iff.mp hexec
      obtain ⟨hsize, hread⟩ := h.stored a block hstored
      rw [← hread, MovingMemory.length_read] at hi
      obtain ⟨_, hassign', hview, hwritten⟩ := h.allocator.assign_view hbytes hi value
      obtain rfl := Option.some.inj (hassign.symm.trans hassign')
      have hkept : (c.allocator.view w).Kept (allocator.view w) a := by
        rw [hview]
        exact MovingMemory.kept_write h.allocator.allWellPlaced.sound_view hi value
      refine h.of_kept hwritten.inv (hwritten.bytesPerElement.trans hbytes) hkept
        fun block' hblock => ?_
      cases hblock
      rw [hview, MovingMemory.read_write hi, hread]
      exact ⟨hsize, rfl⟩
  | deallocate a s =>
      simp only [HeapClient.exec] at hexec
      split at hexec
      · next hheld =>
          obtain ⟨allocator, hdeallocate, rfl⟩ := Option.map_eq_some_iff.mp hexec
          obtain ⟨block, hstored⟩ := Option.isSome_iff_exists.mp hheld
          obtain ⟨hsize, -⟩ := h.stored a block hstored
          obtain ⟨c', hok, hview, hinv, hbytes'⟩ :=
            h.allocator.deallocates_view (a := a) (hbytes.symm ▸ hw) (hbytes.symm ▸ hsize) s
          rw [hok] at hdeallocate
          cases hdeallocate
          rw [hbytes] at hview hbytes'
          exact h.of_kept hinv hbytes' hview.kept fun _ hblock => nomatch hblock
      · cases hexec

end HeapClient

/-- The runs of a client. -/
def chunkHeap (w : Nat) : TransitionSystem (HeapClient w) (HeapCall w) :=
  .ofExec (.start w) HeapClient.exec

/-- What a client relies on. -/
structure HeapClient.Intact {w : Nat} (c : HeapClient w) : Prop where
  holds : ∀ a block, c.stored a = some block → block ≠ [] ∧ ∃ i j pointer lane g,
    c.allocator.getPointer a = .ok (some (i, j, pointer)) ∧
    c.allocator.defragmentationLanes i = some lane ∧ lane.groups j = some g ∧
    pointer + block.length * w ≤ ELEMENTS_PER_GROUP * w ∧
    ∀ k value, block[k]? = some value → ∀ byte : Fin w,
      g.block (pointer + k * w + byte) = value byte
  disjoint : ∀ a b, a ≠ b → ∀ block block', c.stored a = some block → c.stored b = some block' →
    ∀ i j pointer pointer', c.allocator.getPointer a = .ok (some (i, j, pointer)) →
      c.allocator.getPointer b = .ok (some (i, j, pointer')) →
      pointer + block.length * w ≤ pointer' ∨ pointer' + block'.length * w ≤ pointer
  allocates : ∀ n fresh s, 1 ≤ n → n ≤ 64 →
    c.allocator.allocate n fresh s = .error .noMoreLanes ∨
      ∃ allocator a, c.allocator.allocate n fresh s = .ok (allocator, a) ∧
        (allocator.numberOfLanes ≤ 64 → a ≠ SmartPointer_NULL →
          c.stored a = none ∧ ((allocator.view w).read a).length = n)
  assigns : ∀ a block, c.stored a = some block → ∀ i < block.length, ∀ value,
    (c.exec (.assign a i value)).isSome
  deallocates : ∀ a block, c.stored a = some block → ∀ s,
    (c.exec (.deallocate a s)).isSome

namespace HeapClient

variable {w : Nat} {c : HeapClient w}

/-- The bytes of a pointer that is held. -/
theorem Inv.getPointer (h : c.Inv) {a : Nat} {block : List (Fin w → UInt8)}
    (hstored : c.stored a = some block) : ∃ p lane g, resolve a = some p ∧
      c.allocator.defragmentationLanes p.lane = some lane ∧ lane.groups p.group = some g ∧
      c.allocator.groupOf p.lane p.group = g ∧ (g.view w).size p.handle = block.length ∧
      c.allocator.getPointer a =
        .ok (some (p.lane, p.group, g.allocatedOffsets p.handle * w)) := by
  obtain ⟨hlive, hread⟩ := h.stored a block hstored
  obtain ⟨p, ha⟩ := resolve_of_size hlive
  obtain ⟨lane, g, hlane, hg, honline⟩ := online_of_size ha hlive
  refine ⟨p, lane, g, ha, hlane, hg, honline, ?_, ?_⟩
  · rw [← hread, MovingMemory.length_read, size_view ha, honline]
  · rw [getPointer_resolve ha, h.bytesPerElement, getLane, hlane]
    show (lane.getGroup p.group).map _ = _
    rw [DefragmentationLane.getGroup, if_pos (resolve_bounds ha).1, hg]
    rfl

theorem Inv.holds (h : c.Inv) {a : Nat} {block : List (Fin w → UInt8)}
    (hstored : c.stored a = some block) : block ≠ [] ∧ ∃ i j pointer lane g,
      c.allocator.getPointer a = .ok (some (i, j, pointer)) ∧
      c.allocator.defragmentationLanes i = some lane ∧ lane.groups j = some g ∧
      pointer + block.length * w ≤ ELEMENTS_PER_GROUP * w ∧
      ∀ k value, block[k]? = some value → ∀ byte : Fin w,
        g.block (pointer + k * w + byte) = value byte := by
  obtain ⟨hlive, hread⟩ := h.stored a block hstored
  obtain ⟨p, lane, g, ha, hlane, hg, honline, hsize, hpointer⟩ := h.getPointer hstored
  have hwell := h.allocator.allWellPlaced
  refine ⟨?_, _, _, _, lane, g, hpointer, hlane, hg, ?_, fun k value hk byte => ?_⟩
  · rintro rfl
    apply hlive
    rw [← MovingMemory.length_read, hread]
    rfl
  · have hfits := hwell.fits (w := w) (by rwa [size_view ha] at hlive)
    rw [honline, hsize] at hfits
    rw [← Nat.add_mul]
    exact Nat.mul_le_mul_right w hfits
  · have hlt : k < (c.allocator.view w).size a := by
      obtain ⟨hlt, -⟩ := List.getElem?_eq_some_iff.mp hk
      rwa [← hread, MovingMemory.length_read] at hlt
    rw [← hread, MovingMemory.getElem?_read hlt, hwell.cells_pointer ha hlt, honline] at hk
    rw [← Option.some.inj hk, ← Nat.add_mul]
    rfl

theorem Inv.disjoint (h : c.Inv) {a b : Nat} (hne : a ≠ b) {block block' : List (Fin w → UInt8)}
    (ha : c.stored a = some block) (hb : c.stored b = some block') {i j pointer pointer' : Nat}
    (hpointer : c.allocator.getPointer a = .ok (some (i, j, pointer)))
    (hpointer' : c.allocator.getPointer b = .ok (some (i, j, pointer'))) :
    pointer + block.length * w ≤ pointer' ∨ pointer' + block'.length * w ≤ pointer := by
  obtain ⟨p, -, g, hp, -, -, honline, hsize, hat⟩ := h.getPointer ha
  obtain ⟨q, -, g', hq, -, -, honline', hsize', hat'⟩ := h.getPointer hb
  have hplace := Option.some.inj (Except.ok.inj (hpointer.symm.trans hat))
  have hplace' := Option.some.inj (Except.ok.inj (hpointer'.symm.trans hat'))
  simp only [Prod.mk.injEq] at hplace hplace'
  obtain ⟨hi, hj, rfl⟩ := hplace
  obtain ⟨hi', hj', rfl⟩ := hplace'
  have hsame : g' = g := by rw [← honline, ← honline', ← hi, ← hj, ← hi', ← hj']
  have hdisjoint := h.allocator.allWellPlaced.sound_view.disjoint a b hne (h.stored a _ ha).1
    (h.stored b _ hb).1
  have hcells : cellsBefore p.lane p.group = cellsBefore q.lane q.group := by
    rw [← hi, ← hj, hi', hj']
  rw [MovingMemory.Disjoint, pointer_view hp, pointer_view hq, size_view hp, size_view hq, honline,
    honline', hsize, hsize', hcells, hsame] at hdisjoint
  have hoffsets : (g.view w).pointer = g.allocatedOffsets := rfl
  rw [hoffsets] at hdisjoint
  rw [hsame, ← Nat.add_mul, ← Nat.add_mul]
  refine hdisjoint.imp (fun hle => Nat.mul_le_mul_right w ?_) fun hle => Nat.mul_le_mul_right w ?_
  · omega
  · omega

/-- What `allocate` returns is no pointer that is held. -/
theorem Inv.allocates (hw : 1 ≤ w) (h : c.Inv) {n : Nat} (hpos : 1 ≤ n) (hn : n ≤ 64)
    (fresh : FreshMemory) (s : Scratch) : c.allocator.allocate n fresh s = .error .noMoreLanes ∨
      ∃ allocator a, c.allocator.allocate n fresh s = .ok (allocator, a) ∧
        (allocator.numberOfLanes ≤ 64 → a ≠ SmartPointer_NULL →
          c.stored a = none ∧ ((allocator.view w).read a).length = n) := by
  have hbytes := h.bytesPerElement
  have hP := wellPlaced_keptByCalls (hbytes.symm ▸ hw : 1 ≤ c.allocator.bytesPerElement)
  obtain ⟨hfull, -⟩ | ⟨c₁, hselect, hinv₁, hgrows, hselects⟩ :=
    h.allocator.selectLane hP.constructor hn fresh
  · exact .inl (by rw [ChunkAllocatorWithDefragmentation.allocate, hfull]; rfl)
  · rw [← hgrows.bytesPerElement] at hP
    obtain ⟨allocator, a, hforward, -⟩ := hinv₁.forward hP hpos hn hselects s
    have hallocate : c.allocator.allocate n fresh s = .ok (allocator, a) := by
      rw [ChunkAllocatorWithDefragmentation.allocate, hselect]
      exact hforward
    refine .inr ⟨allocator, a, hallocate, fun hlanes hnull => ?_⟩
    obtain ⟨hview, -, -⟩ :=
      h.allocator.allocates_view (hbytes.symm ▸ hw) hpos hn hallocate hlanes hnull
    rw [hbytes] at hview
    refine ⟨?_, by rw [MovingMemory.length_read, hview.size]⟩
    cases hstored : c.stored a with
    | none => rfl
    | some block => exact absurd hview.fresh (h.stored a block hstored).1

theorem Inv.assigns (h : c.Inv) {a i : Nat} {block : List (Fin w → UInt8)}
    (hstored : c.stored a = some block) (hi : i < block.length) (value : Fin w → UInt8) :
    (c.exec (.assign a i value)).isSome := by
  obtain ⟨-, hread⟩ := h.stored a block hstored
  have hlt : i < (c.allocator.view w).size a := by
    rwa [← hread, MovingMemory.length_read] at hi
  obtain ⟨allocator, hassign, -⟩ := h.allocator.assign_view h.bytesPerElement hlt value
  simp only [HeapClient.exec, hstored, Option.bind_some, if_pos hi, hassign, Option.map_some,
    Option.isSome_some]

theorem Inv.deallocates (hw : 1 ≤ w) (h : c.Inv) {a : Nat} {block : List (Fin w → UInt8)}
    (hstored : c.stored a = some block) (s : Scratch) : (c.exec (.deallocate a s)).isSome := by
  have hbytes := h.bytesPerElement
  obtain ⟨hlive, -⟩ := h.stored a block hstored
  obtain ⟨allocator, hdeallocate, -⟩ :=
    h.allocator.deallocates_view (a := a) (hbytes.symm ▸ hw) (hbytes.symm ▸ hlive) s
  simp only [HeapClient.exec, hstored, Option.isSome_some, if_true, hdeallocate, Except.toOption,
    Option.map_some]

end HeapClient

end RayPlatform
