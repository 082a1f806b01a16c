import RayPlatform.Memory.DefragmentationGroupClient

/-!
# The array indices of DefragmentationGroup

The indices that `getAvailableSmallSmartPointer` and `defragment` evaluate, in the
order of the source. A `while` loop evaluates its array before it looks at its bound,
so it also evaluates the index behind the array when it gets there.

* `getAvailableSmallSmartPointer_inBounds_iff` — the list of fast pointers is read
  behind its end when it can be refilled completely;
* `defragment_inBounds_iff` — the occupancy table is read behind its end by every
  call that gets past the early returns.
-/

namespace RayPlatform

namespace DefragmentationGroup

open Lib.Layout

inductive GroupArray
  | fastPointers
  | allocatedSizes
  | allocatedOffsets
  | block
  | cellContents
  | cellOccupancies
  deriving DecidableEq, Repr

/-- The number of entries that are allocated, for elements of `w` bytes. -/
def GroupArray.length (w : Nat) : GroupArray → Nat
  | .fastPointers => FAST_POINTERS
  | .allocatedSizes => ELEMENTS_PER_GROUP
  | .allocatedOffsets => ELEMENTS_PER_GROUP
  | .block => ELEMENTS_PER_GROUP * w
  | .cellContents => ELEMENTS_PER_GROUP
  | .cellOccupancies => ELEMENTS_PER_GROUP

structure Access where
  array : GroupArray
  index : Nat
  deriving DecidableEq, Repr

def InBounds (w : Nat) (accesses : List Access) : Prop :=
  ∀ a ∈ accesses, a.index < a.array.length w

/-! ## getAvailableSmallSmartPointer -/

section Handles

variable (sizes : Nat → Nat)

/-- `for(int i=0;i<FAST_POINTERS;i++)` -/
def findFastPointerAccesses (fast : Nat → Nat) : Nat → Nat → List Access
  | 0, _ => []
  | fuel + 1, i =>
      ⟨.fastPointers, i⟩ :: ⟨.allocatedSizes, fast i⟩ ::
        if sizes (fast i) = 0 then [⟨.fastPointers, i⟩]
        else findFastPointerAccesses fast fuel (i + 1)

/-- `while(m_allocatedSizes[m_fastPointers[fast]]==0 && fast<FAST_POINTERS)` -/
def skipFastPointersAccesses (fastPointers : Nat → Nat) : Nat → Nat → List Access
  | 0, _ => []
  | fuel + 1, fast =>
      ⟨.fastPointers, fast⟩ :: ⟨.allocatedSizes, fastPointers fast⟩ ::
        if sizes (fastPointers fast) = 0 ∧ fast < FAST_POINTERS then
          skipFastPointersAccesses fastPointers fuel (fast + 1)
        else []

/-- The loop over all handles. -/
def refillFastPointersAccesses : Nat → Nat → (Nat → Nat) → Nat → List Access
  | 0, _, _, _ => []
  | fuel + 1, i, fastPointers, fast =>
      let available := sizes i = 0
      let fastPointers' := if available then Function.update fastPointers fast i else fastPointers
      let fast' := if available then fast + 1 else fast
      let next := skipFastPointers sizes fastPointers' FAST_POINTERS fast'
      ⟨.allocatedSizes, i⟩ :: (if available then [⟨.fastPointers, fast⟩] else []) ++
        skipFastPointersAccesses sizes fastPointers' (FAST_POINTERS + 1) fast' ++
        if next = FAST_POINTERS then [] else refillFastPointersAccesses fuel (i + 1) fastPointers' next

end Handles

def getAvailableSmallSmartPointerAccesses (g : DefragmentationGroup) : List Access :=
  findFastPointerAccesses g.allocatedSizes g.fastPointers FAST_POINTERS 0 ++
    match findFastPointer g.allocatedSizes g.fastPointers FAST_POINTERS 0 with
    | some _ => []
    | none =>
        let fast := skipFastPointers g.allocatedSizes g.fastPointers FAST_POINTERS 0
        skipFastPointersAccesses g.allocatedSizes g.fastPointers (FAST_POINTERS + 1) 0 ++
          refillFastPointersAccesses g.allocatedSizes ELEMENTS_PER_GROUP 0 g.fastPointers fast

variable {w : Nat}

theorem inBounds_cons {a : Access} {accesses : List Access} :
    InBounds w (a :: accesses) ↔ a.index < a.array.length w ∧ InBounds w accesses :=
  List.forall_mem_cons

theorem inBounds_append {accesses accesses' : List Access} :
    InBounds w (accesses ++ accesses') ↔ InBounds w accesses ∧ InBounds w accesses' :=
  List.forall_mem_append

theorem inBounds_nil : InBounds w [] :=
  List.forall_mem_nil _

/-- The number of available handles among those from `i` on. -/
def availableFrom (sizes : Nat → Nat) (i n : Nat) : Nat :=
  (List.range' i n).countP fun a => sizes a = 0

theorem availableFrom_succ (sizes : Nat → Nat) (i n : Nat) :
    availableFrom sizes i (n + 1) =
      availableFrom sizes (i + 1) n + if sizes i = 0 then 1 else 0 := by
  rw [availableFrom, List.range'_succ, List.countP_cons]
  simp [availableFrom]

theorem findFastPointerAccesses_inBounds {sizes fast : Nat → Nat}
    (hfast : ∀ j, fast j < ELEMENTS_PER_GROUP ∨ FAST_POINTERS ≤ j) {fuel i : Nat}
    (hfuel : i + fuel ≤ FAST_POINTERS) :
    InBounds w (findFastPointerAccesses sizes fast fuel i) := by
  induction fuel generalizing i with
  | zero => exact inBounds_nil
  | succ fuel ih =>
      have hi : i < FAST_POINTERS := by omega
      have hhandle : fast i < ELEMENTS_PER_GROUP := (hfast i).resolve_right (by omega)
      rw [findFastPointerAccesses, inBounds_cons, inBounds_cons]
      refine ⟨hi, hhandle, ?_⟩
      split
      · exact inBounds_cons.mpr ⟨hi, inBounds_nil⟩
      · exact ih (by omega)

/-- The test fails at once when the fast pointers are taken, but for the end of the list,
where it has been evaluated. -/
theorem skipFastPointersAccesses_inBounds_iff {sizes fast : Nat → Nat} {i : Nat}
    (htaken : ∀ j, i ≤ j → j < FAST_POINTERS → sizes (fast j) ≠ 0)
    (hfast : ∀ j, fast j < ELEMENTS_PER_GROUP ∨ FAST_POINTERS ≤ j) (fuel : Nat) :
    InBounds w (skipFastPointersAccesses sizes fast (fuel + 1) i) ↔ i < FAST_POINTERS := by
  rw [skipFastPointersAccesses, inBounds_cons, inBounds_cons]
  constructor
  · exact fun h => h.1
  · intro hi
    refine ⟨hi, (hfast i).resolve_right (by omega), ?_⟩
    rw [if_neg fun h => htaken i (Nat.le_refl i) hi h.1]
    exact inBounds_nil

/-- The list is filled completely when enough handles are available. -/
theorem refillFastPointersAccesses_inBounds_iff {sizes : Nat → Nat} :
    ∀ fuel i (fastPointers : Nat → Nat) fast, fast < FAST_POINTERS →
      i + fuel ≤ ELEMENTS_PER_GROUP →
      (∀ j, fast ≤ j → j < FAST_POINTERS → sizes (fastPointers j) ≠ 0) →
      (∀ j, fastPointers j < ELEMENTS_PER_GROUP ∨ FAST_POINTERS ≤ j) →
      (InBounds w (refillFastPointersAccesses sizes fuel i fastPointers fast) ↔
        fast + availableFrom sizes i fuel < FAST_POINTERS) := by
  intro fuel
  induction fuel with
  | zero =>
      intro i fastPointers fast hlt _ _ _
      exact iff_of_true inBounds_nil hlt
  | succ fuel ih =>
      intro i fastPointers fast hlt hfuel htaken hbound
      have hi : i < ELEMENTS_PER_GROUP := by omega
      rw [refillFastPointersAccesses, availableFrom_succ]
      by_cases hfree : sizes i = 0
      · -- handle `i` is recorded
        have htaken' : ∀ j, fast + 1 ≤ j → j < FAST_POINTERS →
            sizes (Function.update fastPointers fast i j) ≠ 0 := by
          intro j hj hjlt
          rw [Function.update_of_ne (by omega)]
          exact htaken j (by omega) hjlt
        have hbound' : ∀ j, Function.update fastPointers fast i j < ELEMENTS_PER_GROUP ∨
            FAST_POINTERS ≤ j := by
          intro j
          by_cases hj : j = fast
          · rw [hj, Function.update_self]
            exact .inl hi
          · rw [Function.update_of_ne hj]
            exact hbound j
        simp only [hfree, if_true, skipFastPointers_eq htaken', inBounds_append, inBounds_cons,
          skipFastPointersAccesses_inBounds_iff htaken' hbound']
        constructor
        · rintro ⟨⟨-, hnext⟩, hrest⟩
          rw [if_neg (Nat.ne_of_lt hnext), ih _ _ _ hnext (by omega) htaken' hbound'] at hrest
          omega
        · intro hsum
          have hnext : fast + 1 < FAST_POINTERS := by omega
          refine ⟨⟨⟨hi, hlt, inBounds_nil⟩, hnext⟩, ?_⟩
          rw [if_neg (Nat.ne_of_lt hnext), ih _ _ _ hnext (by omega) htaken' hbound']
          omega
      · simp only [hfree, if_false, skipFastPointers_eq htaken, inBounds_append, inBounds_cons,
          skipFastPointersAccesses_inBounds_iff htaken hbound, if_neg (Nat.ne_of_lt hlt),
          ih (i + 1) fastPointers fast hlt (by omega) htaken hbound]
        constructor
        · exact fun h => h.2
        · exact fun hsum => ⟨⟨⟨hi, inBounds_nil⟩, hlt⟩, hsum⟩

/-- The indices are in bounds when a fast pointer is available, or when the available handles
do not fill the list. -/
theorem getAvailableSmallSmartPointer_inBounds_iff {g : DefragmentationGroup} (h : WellPlaced g) :
    InBounds w g.getAvailableSmallSmartPointerAccesses ↔
      (∃ j < FAST_POINTERS, g.allocatedSizes (g.fastPointers j) = 0) ∨
        availableFrom g.allocatedSizes 0 ELEMENTS_PER_GROUP < FAST_POINTERS := by
  have hfind : InBounds w (findFastPointerAccesses g.allocatedSizes g.fastPointers FAST_POINTERS 0) :=
    findFastPointerAccesses_inBounds h.fast (Nat.le_of_eq (Nat.zero_add _))
  rw [getAvailableSmallSmartPointerAccesses, inBounds_append]
  cases hfound : findFastPointer g.allocatedSizes g.fastPointers FAST_POINTERS 0 with
  | some a =>
      obtain ⟨hfree, j, hj, rfl⟩ := findFastPointer_some hfound
      exact iff_of_true ⟨hfind, inBounds_nil⟩ (.inl ⟨j, by omega, hfree⟩)
  | none =>
      have htaken : ∀ j, 0 ≤ j → j < FAST_POINTERS → g.allocatedSizes (g.fastPointers j) ≠ 0 :=
        fun j hj hlt => findFastPointer_none hfound j hj (by omega)
      have hzero : 0 < FAST_POINTERS := by decide
      simp only [skipFastPointers_eq htaken, inBounds_append,
        skipFastPointersAccesses_inBounds_iff htaken h.fast,
        refillFastPointersAccesses_inBounds_iff ELEMENTS_PER_GROUP 0 g.fastPointers 0 hzero
          (Nat.le_of_eq (Nat.zero_add _)) htaken h.fast, Nat.zero_add]
      constructor
      · exact fun hall => .inr hall.2.2
      · rintro (⟨j, hj, hfree⟩ | hfew)
        · exact absurd hfree (htaken j (Nat.zero_le j) hj)
        · exact ⟨hfind, hzero, hfew⟩

/-! ## defragment -/

section Cells

/-- `n` entries of the occupancy table, from `offset` on. -/
def cellAccesses (offset n : Nat) : List Access :=
  (List.range' offset n).map fun x => ⟨.cellOccupancies, x⟩

/-- Registering the handles below `n`. -/
def registerCellsAccesses (sizes offsets : Nat → Nat) : Nat → List Access
  | 0 => []
  | i + 1 =>
      registerCellsAccesses sizes offsets i ++ ⟨.allocatedSizes, i⟩ ::
        if sizes i ≠ 0 then
          ⟨.allocatedOffsets, i⟩ :: ⟨.cellContents, offsets i⟩ :: cellAccesses (offsets i) (sizes i)
        else []

/-- `while(cellOccupancies[i]==value && i<ELEMENTS_PER_GROUP)` -/
def skipCellsAccesses (cellOccupancies : Nat → Nat) (value : Nat) : Nat → Nat → List Access
  | 0, _ => []
  | fuel + 1, i =>
      ⟨.cellOccupancies, i⟩ ::
        if cellOccupancies i = value ∧ i < ELEMENTS_PER_GROUP then
          skipCellsAccesses cellOccupancies value fuel (i + 1)
        else []

/-- The copy loop. -/
def copyAccesses (bytesPerElement destination source n : Nat) : List Access :=
  (List.range n).flatMap fun i => (List.range bytesPerElement).flatMap fun byte =>
    [⟨.block, (source + i) * bytesPerElement + byte⟩,
      ⟨.block, (destination + i) * bytesPerElement + byte⟩]

variable (bytesPerElement : Nat) (sizes cellContents : Nat → Nat)

/-- One iteration of the compaction loop. -/
def moveBlockAccesses (c : Compaction) : List Access :=
  let smartPointer := cellContents c.source
  let n := sizes smartPointer
  let count := c.source - c.destination
  let cellOccupancies := fill 1 c.destination n c.cellOccupancies
  let cellOccupancies := fill 0 (c.destination + n) count cellOccupancies
  ⟨.cellContents, c.source⟩ :: ⟨.allocatedSizes, smartPointer⟩ ::
    copyAccesses bytesPerElement c.destination c.source n ++
    cellAccesses c.destination n ++ cellAccesses (c.destination + n) count ++
    ⟨.allocatedOffsets, smartPointer⟩ ::
      (skipCellsAccesses cellOccupancies 1 (ELEMENTS_PER_GROUP + 1) (c.destination + n) ++
        skipCellsAccesses cellOccupancies 0 (ELEMENTS_PER_GROUP + 1) (c.source + n))

def compactAccesses : Nat → Compaction → List Access
  | 0, _ => []
  | fuel + 1, c =>
      if c.source < ELEMENTS_PER_GROUP then
        ⟨.cellOccupancies, c.source⟩ ::
          if c.cellOccupancies c.source = 0 then []
          else moveBlockAccesses bytesPerElement sizes cellContents c ++
            compactAccesses fuel (moveBlock bytesPerElement sizes cellContents c)
      else []

end Cells

def defragmentAccesses (g : DefragmentationGroup) (bytesPerElement : Nat) (s : Scratch) :
    List Access :=
  let table := registerCells g.allocatedSizes g.allocatedOffsets ELEMENTS_PER_GROUP
    { s with cellOccupancies := fill 0 0 ELEMENTS_PER_GROUP s.cellOccupancies }
  cellAccesses 0 ELEMENTS_PER_GROUP ++
    registerCellsAccesses g.allocatedSizes g.allocatedOffsets ELEMENTS_PER_GROUP ++
    if g.availableElements = 0 then []
    else if g.availableElements = (ELEMENTS_PER_GROUP : Int) - g.freeSliceStart then []
    else
      let destination := skipCells table.cellOccupancies 1 ELEMENTS_PER_GROUP 0
      let source := skipCells table.cellOccupancies 0 ELEMENTS_PER_GROUP (destination + 1)
      skipCellsAccesses table.cellOccupancies 1 (ELEMENTS_PER_GROUP + 1) 0 ++
        skipCellsAccesses table.cellOccupancies 0 (ELEMENTS_PER_GROUP + 1) (destination + 1) ++
        compactAccesses bytesPerElement g.allocatedSizes table.cellContents ELEMENTS_PER_GROUP
          { block := g.block
            allocatedOffsets := g.allocatedOffsets
            cellOccupancies := table.cellOccupancies
            destination := destination
            source := source }

theorem cellAccesses_inBounds {offset n : Nat} (hend : offset + n ≤ ELEMENTS_PER_GROUP) :
    InBounds w (cellAccesses offset n) := by
  intro a ha
  obtain ⟨x, hx, rfl⟩ := List.mem_map.mp ha
  rw [List.mem_range'_1] at hx
  show x < ELEMENTS_PER_GROUP
  omega

/-- Live blocks are on cells that exist. -/
theorem registerCellsAccesses_inBounds {sizes offsets : Nat → Nat} {F : Nat}
    (hp : Placed handles offsets sizes F) (hF : F ≤ ELEMENTS_PER_GROUP) {n : Nat}
    (hn : n ≤ ELEMENTS_PER_GROUP) : InBounds w (registerCellsAccesses sizes offsets n) := by
  induction n with
  | zero => exact inBounds_nil
  | succ i ih =>
      have hi : i < ELEMENTS_PER_GROUP := hn
      rw [registerCellsAccesses, inBounds_append, inBounds_cons]
      refine ⟨ih (Nat.le_of_succ_le hn), hi, ?_⟩
      split
      · rename_i hlive
        have hin := hp.inside i (mem_handles.mpr hi) hlive
        rw [inBounds_cons, inBounds_cons]
        refine ⟨hi, ?_, cellAccesses_inBounds (by omega)⟩
        show offsets i < ELEMENTS_PER_GROUP
        omega
      · exact inBounds_nil

/-- The loop evaluates the index it stops on. -/
theorem mem_skipCellsAccesses {cells : Nat → Nat} {value r : Nat} {fuel i : Nat}
    (hr : SkipSpec cells value i r) (hfuel : ELEMENTS_PER_GROUP < i + fuel) :
    ⟨.cellOccupancies, r⟩ ∈ skipCellsAccesses cells value fuel i := by
  induction fuel generalizing i with
  | zero =>
      have hge := hr.ge
      have hle := hr.le
      omega
  | succ fuel ih =>
      rw [skipCellsAccesses]
      rcases Nat.eq_or_lt_of_le hr.ge with rfl | hlt
      · exact List.mem_cons_self
      · have hle := hr.le
        rw [if_pos ⟨hr.before i (Nat.le_refl i) hlt, by omega⟩]
        apply List.mem_cons_of_mem
        exact ih ⟨hlt, hle, fun x hx => hr.before x (by omega), hr.stop⟩ (by omega)

/-- The entry of the occupancy table behind its end. -/
abbrev beyondCells : Access :=
  ⟨.cellOccupancies, ELEMENTS_PER_GROUP⟩

/-- The loop ends with `source` behind the last cell, whose occupancy has been tested. -/
theorem beyondCells_mem_compactAccesses {sizes offsets : Nat → Nat} {block : Nat → UInt8} {F : Nat}
    (hp : Placed handles offsets sizes F) (hF : F ≤ ELEMENTS_PER_GROUP) {cellContents : Nat → Nat}
    (hcontents : ∀ a ∈ handles, sizes a ≠ 0 → cellContents (offsets a) = a) :
    ∀ fuel (c : Compaction), Slid w sizes offsets block c → c.source < ELEMENTS_PER_GROUP →
      ELEMENTS_PER_GROUP ≤ c.source + fuel →
      beyondCells ∈ compactAccesses w sizes cellContents fuel c := by
  intro fuel
  induction fuel with
  | zero =>
      intro c _ hlt hfuel
      omega
  | succ fuel ih =>
      intro c h hlt hfuel
      have hbusy : c.cellOccupancies c.source ≠ 0 := by
        have hd := h.lt
        rw [h.occupancies _ hlt, if_neg (by omega), if_neg (Nat.lt_irrefl _), h.start hlt]
        decide
      obtain ⟨hslid, hgrow⟩ := moveBlock_slid hp hF hcontents h hlt
      rw [compactAccesses, if_pos hlt, if_neg hbusy]
      apply List.mem_cons_of_mem
      rcases Nat.eq_or_lt_of_le hslid.bound with hend | hmore
      · -- the last iteration
        obtain ⟨a, ha, hlive, hstart⟩ := h.exists_block hlt
        have hin := hp.inside a ha hlive
        have hsize : sizes (cellContents c.source) = sizes a := by
          rw [← hstart, hcontents a ha hlive]
        have hstop := skipCells_spec (fill 0 (c.destination + sizes (cellContents c.source))
          (c.source - c.destination) (fill 1 c.destination (sizes (cellContents c.source))
            c.cellOccupancies)) 0 ELEMENTS_PER_GROUP (c.source + sizes (cellContents c.source))
          (by omega) (by omega)
        have hmem := mem_skipCellsAccesses hstop
          (show ELEMENTS_PER_GROUP < _ + (ELEMENTS_PER_GROUP + 1) by omega)
        apply List.mem_append_left
        rw [beyondCells, ← hend]
        exact List.mem_append_right _ (List.mem_cons_of_mem _ (List.mem_append_right _ hmem))
      · exact List.mem_append_right _ (ih _ hslid hmore (by omega))

/-- The occupancy table is read behind its end unless the call returns at once. -/
theorem defragment_inBounds_iff {g : DefragmentationGroup} (h : WellPlaced g) (s : Scratch) :
    InBounds w (g.defragmentAccesses w s) ↔ g.availableElements = 0 ∨
      g.availableElements = (ELEMENTS_PER_GROUP : Int) - g.freeSliceStart := by
  have hstart : InBounds w (cellAccesses 0 ELEMENTS_PER_GROUP ++
      registerCellsAccesses g.allocatedSizes g.allocatedOffsets ELEMENTS_PER_GROUP) :=
    inBounds_append.mpr ⟨cellAccesses_inBounds (Nat.le_of_eq (Nat.zero_add _)),
      registerCellsAccesses_inBounds h.placed h.frontier (Nat.le_refl _)⟩
  rw [defragmentAccesses, inBounds_append]
  by_cases hnone : g.availableElements = 0
  · rw [if_pos hnone]
    exact iff_of_true ⟨hstart, inBounds_nil⟩ (.inl hnone)
  by_cases hcontiguous : g.availableElements = (ELEMENTS_PER_GROUP : Int) - g.freeSliceStart
  · rw [if_neg hnone, if_pos hcontiguous]
    exact iff_of_true ⟨hstart, inBounds_nil⟩ (.inr hcontiguous)
  rw [if_neg hnone, if_neg hcontiguous]
  refine iff_of_false ?_ (by simp [hnone, hcontiguous])
  rintro ⟨-, hall⟩
  have hfragmented := rank_lt_frontier h.placed h.available hcontiguous
  have htable := registerCells_table h.placed s
  generalize registerCells g.allocatedSizes g.allocatedOffsets ELEMENTS_PER_GROUP
    { s with cellOccupancies := fill 0 0 ELEMENTS_PER_GROUP s.cellOccupancies } = table at htable hall
  have hslid : Slid w g.allocatedSizes g.allocatedOffsets g.block _ :=
    slid_start h.frontier htable.occupancies hfragmented
  have hbeyond : beyondCells.index < beyondCells.array.length w := by
    apply hall
    rcases Nat.eq_or_lt_of_le hslid.bound with hend | hmore
    · apply List.mem_append_left
      apply List.mem_append_right
      have hlt := hslid.lt
      have hstop := skipCells_spec table.cellOccupancies 0 ELEMENTS_PER_GROUP
        (skipCells table.cellOccupancies 1 ELEMENTS_PER_GROUP 0 + 1)
        (Nat.le_trans (Nat.succ_le_of_lt hlt) (Nat.le_of_eq hend)) (by omega)
      rw [show skipCells table.cellOccupancies 0 ELEMENTS_PER_GROUP _ = _ from hend] at hstop
      exact mem_skipCellsAccesses hstop (by omega)
    · apply List.mem_append_right
      exact beyondCells_mem_compactAccesses h.placed h.frontier htable.contents _ _ hslid hmore
        (Nat.le_add_left _ _)
  exact Nat.lt_irrefl _ hbeyond

/-! ## What else is out of bounds -/

/-- All indices but the one behind the occupancy table are in bounds. -/
def InBoundsButOne (w : Nat) (accesses : List Access) : Prop :=
  ∀ a ∈ accesses, a.index < a.array.length w ∨ a = beyondCells

theorem inBoundsButOne_cons {a : Access} {accesses : List Access} :
    InBoundsButOne w (a :: accesses) ↔
      (a.index < a.array.length w ∨ a = beyondCells) ∧ InBoundsButOne w accesses :=
  List.forall_mem_cons

theorem inBoundsButOne_append {accesses accesses' : List Access} :
    InBoundsButOne w (accesses ++ accesses') ↔
      InBoundsButOne w accesses ∧ InBoundsButOne w accesses' :=
  List.forall_mem_append

theorem inBoundsButOne_nil : InBoundsButOne w [] :=
  List.forall_mem_nil _

theorem InBounds.butOne {accesses : List Access} (h : InBounds w accesses) :
    InBoundsButOne w accesses :=
  fun a ha => .inl (h a ha)

theorem skipCellsAccesses_butOne {cells : Nat → Nat} {value fuel i : Nat}
    (hi : i ≤ ELEMENTS_PER_GROUP) : InBoundsButOne w (skipCellsAccesses cells value fuel i) := by
  induction fuel generalizing i with
  | zero => exact inBoundsButOne_nil
  | succ fuel ih =>
      rw [skipCellsAccesses, inBoundsButOne_cons]
      refine ⟨?_, ?_⟩
      · rcases Nat.eq_or_lt_of_le hi with rfl | hlt
        · exact .inr rfl
        · exact .inl hlt
      · split
        · rename_i hgo
          exact ih hgo.2
        · exact inBoundsButOne_nil

theorem copyAccesses_inBounds {destination source n : Nat} (hlt : destination < source)
    (hend : source + n ≤ ELEMENTS_PER_GROUP) :
    InBounds w (copyAccesses w destination source n) := by
  have hbyte : ∀ x < ELEMENTS_PER_GROUP, ∀ byte < w, x * w + byte < ELEMENTS_PER_GROUP * w := by
    intro x hx byte hb
    have hmul := Nat.mul_le_mul_right w (Nat.succ_le_of_lt hx)
    rw [Nat.succ_mul] at hmul
    omega
  intro a ha
  obtain ⟨i, hi, ha⟩ := List.mem_flatMap.mp ha
  obtain ⟨byte, hb, ha⟩ := List.mem_flatMap.mp ha
  rw [List.mem_range] at hi hb
  rcases List.mem_cons.mp ha with rfl | ha
  · exact hbyte _ (by omega) byte hb
  · rw [List.mem_singleton] at ha
    subst ha
    exact hbyte _ (by omega) byte hb

theorem moveBlockAccesses_butOne {sizes offsets : Nat → Nat} {block : Nat → UInt8} {F : Nat}
    (hp : Placed handles offsets sizes F) (hF : F ≤ ELEMENTS_PER_GROUP) {cellContents : Nat → Nat}
    (hcontents : ∀ a ∈ handles, sizes a ≠ 0 → cellContents (offsets a) = a) {c : Compaction}
    (h : Slid w sizes offsets block c) (hlt : c.source < ELEMENTS_PER_GROUP) :
    InBoundsButOne w (moveBlockAccesses w sizes cellContents c) := by
  obtain ⟨a, ha, hlive, hstart⟩ := h.exists_block hlt
  have hpointer : cellContents c.source = a := by rw [← hstart, hcontents a ha hlive]
  have hin := hp.inside a ha hlive
  have hdst := h.lt
  have hhandle := mem_handles.mp ha
  rw [moveBlockAccesses, hpointer]
  simp only [inBoundsButOne_append, inBoundsButOne_cons]
  refine ⟨⟨⟨⟨.inl hlt, .inl hhandle, (copyAccesses_inBounds hdst (by omega)).butOne⟩,
    (cellAccesses_inBounds (by omega)).butOne⟩, (cellAccesses_inBounds (by omega)).butOne⟩,
    .inl hhandle, skipCellsAccesses_butOne (by omega), skipCellsAccesses_butOne (by omega)⟩

theorem compactAccesses_butOne {sizes offsets : Nat → Nat} {block : Nat → UInt8} {F : Nat}
    (hp : Placed handles offsets sizes F) (hF : F ≤ ELEMENTS_PER_GROUP) {cellContents : Nat → Nat}
    (hcontents : ∀ a ∈ handles, sizes a ≠ 0 → cellContents (offsets a) = a) :
    ∀ fuel (c : Compaction), Slid w sizes offsets block c →
      InBoundsButOne w (compactAccesses w sizes cellContents fuel c) := by
  intro fuel
  induction fuel with
  | zero => exact fun _ _ => inBoundsButOne_nil
  | succ fuel ih =>
      intro c h
      rw [compactAccesses]
      split
      · rename_i hlt
        refine inBoundsButOne_cons.mpr ⟨.inl hlt, ?_⟩
        split
        · exact inBoundsButOne_nil
        · exact inBoundsButOne_append.mpr ⟨moveBlockAccesses_butOne hp hF hcontents h hlt,
            ih _ (moveBlock_slid hp hF hcontents h hlt).1⟩
      · exact inBoundsButOne_nil

/-- `cellContents`, `m_block` and the tables of the handles are never read or written behind
their end. -/
theorem defragmentAccesses_butOne {g : DefragmentationGroup} (h : WellPlaced g) (s : Scratch) :
    InBoundsButOne w (g.defragmentAccesses w s) := by
  have hcells : InBounds w (cellAccesses 0 ELEMENTS_PER_GROUP) :=
    cellAccesses_inBounds (Nat.le_of_eq (Nat.zero_add _))
  have hregister : InBounds w
      (registerCellsAccesses g.allocatedSizes g.allocatedOffsets ELEMENTS_PER_GROUP) :=
    registerCellsAccesses_inBounds h.placed h.frontier (Nat.le_refl _)
  rw [defragmentAccesses, inBoundsButOne_append, inBoundsButOne_append]
  refine ⟨⟨hcells.butOne, hregister.butOne⟩, ?_⟩
  split
  · exact inBoundsButOne_nil
  split
  · exact inBoundsButOne_nil
  rename_i hcontiguous
  have hfragmented := rank_lt_frontier h.placed h.available hcontiguous
  have htable := registerCells_table h.placed s
  generalize registerCells g.allocatedSizes g.allocatedOffsets ELEMENTS_PER_GROUP
    { s with cellOccupancies := fill 0 0 ELEMENTS_PER_GROUP s.cellOccupancies } = table at htable ⊢
  have hslid : Slid w g.allocatedSizes g.allocatedOffsets g.block _ :=
    slid_start h.frontier htable.occupancies hfragmented
  have hlt := hslid.lt
  have hbound := hslid.bound
  rw [inBoundsButOne_append, inBoundsButOne_append]
  exact ⟨⟨skipCellsAccesses_butOne (Nat.zero_le _),
    skipCellsAccesses_butOne (Nat.le_trans (Nat.succ_le_of_lt hlt) hbound)⟩,
    compactAccesses_butOne h.placed h.frontier htable.contents _ _ hslid⟩

end DefragmentationGroup

end RayPlatform
