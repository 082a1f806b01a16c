import Mathlib.Logic.Function.Basic

/-!
# DefragmentationGroup

A block of 65536 elements cut in two by a frontier: the fragmented slice on its
left, the free slice on its right. A handle (`SmallSmartPointer`) has an offset
and a size in elements; size 0 means that the handle is available.

* An array is a function of its index; what lies past its end is whatever the
  function gives there, and no result below depends on it.
* `uint8_t` and `uint16_t` cells are `Nat` reduced where they are stored;
  the element counters are `int` and never leave `[-64, 65536]`.
* `Scratch` are the two work arrays a caller lends to each call, with arbitrary
  contents.
* A `while` loop takes the number of iterations its index can make as fuel.

The operation counters are read by nobody here and are left out.
-/

namespace RayPlatform

def ELEMENTS_PER_GROUP : Nat := 65536

def FAST_POINTERS : Nat := 256

/-- The work arrays of a defragmentation. -/
structure Scratch where
  cellContents : Nat → Nat
  cellOccupancies : Nat → Nat

structure DefragmentationGroup where
  /-- freed stuff to accelerate things -/
  fastPointers : Nat → Nat
  availableElements : Int
  freeSliceStart : Nat
  block : Nat → UInt8
  allocatedSizes : Nat → Nat
  allocatedOffsets : Nat → Nat

namespace DefragmentationGroup

/-- `constructor`: `block` is what the allocated memory holds. -/
def constructor (block : Nat → UInt8) : DefragmentationGroup :=
  { fastPointers := fun i => i
    availableElements := ELEMENTS_PER_GROUP
    freeSliceStart := 0
    block := block
    allocatedSizes := fun _ => 0
    allocatedOffsets := fun _ => 0 }

def getContiguousElements (g : DefragmentationGroup) : Int :=
  (ELEMENTS_PER_GROUP : Int) - g.freeSliceStart

def getFragmentedElements (g : DefragmentationGroup) : Int :=
  g.availableElements - g.getContiguousElements

def canAllocate (g : DefragmentationGroup) (n : Int) : Prop :=
  n ≤ (ELEMENTS_PER_GROUP : Int) - g.freeSliceStart

/-- The byte where the memory of a handle starts. -/
def getPointer (g : DefragmentationGroup) (a : Nat) (bytesPerElement : Nat) : Nat :=
  g.allocatedOffsets a * bytesPerElement

/-! ## Handles -/

/-- The first fast pointer that is available, if any. -/
def findFastPointer (sizes fast : Nat → Nat) : Nat → Nat → Option Nat
  | 0, _ => none
  | fuel + 1, i => if sizes (fast i) = 0 then some (fast i) else findFastPointer sizes fast fuel (i + 1)

/-- `while(m_allocatedSizes[m_fastPointers[fast]]==0 && fast<FAST_POINTERS) fast++;` -/
def skipFastPointers (sizes fastPointers : Nat → Nat) : Nat → Nat → Nat
  | 0, fast => fast
  | fuel + 1, fast =>
      if sizes (fastPointers fast) = 0 ∧ fast < FAST_POINTERS then
        skipFastPointers sizes fastPointers fuel (fast + 1)
      else fast

/-- The loop over all handles: the fast pointers and the handle to return. -/
def refillFastPointers (sizes : Nat → Nat) :
    Nat → Nat → (Nat → Nat) → Nat → Nat → (Nat → Nat) × Nat
  | 0, _, fastPointers, _, returnValue => (fastPointers, returnValue)
  | fuel + 1, i, fastPointers, fast, returnValue =>
      let available := sizes i = 0
      let fastPointers := if available then Function.update fastPointers fast i else fastPointers
      let fast := if available then fast + 1 else fast
      let returnValue := if available then i else returnValue
      let fast := skipFastPointers sizes fastPointers FAST_POINTERS fast
      if fast = FAST_POINTERS then (fastPointers, returnValue)
      else refillFastPointers sizes fuel (i + 1) fastPointers fast returnValue

def getAvailableSmallSmartPointer (g : DefragmentationGroup) : DefragmentationGroup × Nat :=
  match findFastPointer g.allocatedSizes g.fastPointers FAST_POINTERS 0 with
  | some a => (g, a)
  | none =>
      let fast := skipFastPointers g.allocatedSizes g.fastPointers FAST_POINTERS 0
      let r := refillFastPointers g.allocatedSizes ELEMENTS_PER_GROUP 0 g.fastPointers fast 0
      ({ g with fastPointers := r.1 }, r.2)

/-! ## Defragmentation -/

/-- `for(j..n) cellOccupancies[offset+j]=value` and `memset`. -/
def fill (value : Nat) (offset : Nat) : Nat → (Nat → Nat) → Nat → Nat
  | 0, cells => cells
  | n + 1, cells => Function.update (fill value offset n cells) (offset + n) value

/-- The look-up tables after the handles below `n` have been registered. -/
def registerCells (sizes offsets : Nat → Nat) : Nat → Scratch → Scratch
  | 0, s => s
  | i + 1, s =>
      let s := registerCells sizes offsets i s
      if sizes i ≠ 0 then
        { cellContents := Function.update s.cellContents (offsets i) i
          cellOccupancies := fill 1 (offsets i) (sizes i) s.cellOccupancies }
      else s

/-- `while(cellOccupancies[i]==value && i<ELEMENTS_PER_GROUP) i++;` -/
def skipCells (cellOccupancies : Nat → Nat) (value : Nat) : Nat → Nat → Nat
  | 0, i => i
  | fuel + 1, i =>
      if cellOccupancies i = value ∧ i < ELEMENTS_PER_GROUP then
        skipCells cellOccupancies value fuel (i + 1)
      else i

/-- The inner copy loop: the first `n` bytes of an element. -/
def copyBytes (destination source : Nat) : Nat → (Nat → UInt8) → Nat → UInt8
  | 0, block => block
  | byte + 1, block =>
      let block := copyBytes destination source byte block
      Function.update block (destination + byte) (block (source + byte))

/-- The outer copy loop: `n` elements. -/
def copyElements (bytesPerElement destination source : Nat) : Nat → (Nat → UInt8) → Nat → UInt8
  | 0, block => block
  | i + 1, block =>
      copyBytes ((destination + i) * bytesPerElement) ((source + i) * bytesPerElement)
        bytesPerElement (copyElements bytesPerElement destination source i block)

/-- What the compaction loop changes. -/
structure Compaction where
  block : Nat → UInt8
  allocatedOffsets : Nat → Nat
  cellOccupancies : Nat → Nat
  destination : Nat
  source : Nat

section

variable (bytesPerElement : Nat) (sizes cellContents : Nat → Nat)

/-- One iteration: move the block that starts at `source`. -/
def moveBlock (c : Compaction) : Compaction :=
  let smartPointer := cellContents c.source
  let n := sizes smartPointer
  let block := copyElements bytesPerElement c.destination c.source n c.block
  let count := c.source - c.destination
  let cellOccupancies := fill 1 c.destination n c.cellOccupancies
  let cellOccupancies := fill 0 (c.destination + n) count cellOccupancies
  { block := block
    allocatedOffsets :=
      Function.update c.allocatedOffsets smartPointer (c.destination % 65536)
    cellOccupancies := cellOccupancies
    destination := skipCells cellOccupancies 1 ELEMENTS_PER_GROUP (c.destination + n)
    source := skipCells cellOccupancies 0 ELEMENTS_PER_GROUP (c.source + n) }

/-- `while(source<ELEMENTS_PER_GROUP)` -/
def compact : Nat → Compaction → Compaction
  | 0, c => c
  | fuel + 1, c =>
      if c.source < ELEMENTS_PER_GROUP then
        -- if source is empty, we are done
        if c.cellOccupancies c.source = 0 then c
        else compact fuel (moveBlock bytesPerElement sizes cellContents c)
      else c

end

/-- `defragment`, with what it returns. -/
def defragment (g : DefragmentationGroup) (bytesPerElement : Nat) (s : Scratch) :
    DefragmentationGroup × Bool :=
  let s := registerCells g.allocatedSizes g.allocatedOffsets ELEMENTS_PER_GROUP
    { s with cellOccupancies := fill 0 0 ELEMENTS_PER_GROUP s.cellOccupancies }
  -- nothing is available
  if g.availableElements = 0 then (g, false)
  -- everything is already in the free slice
  else if g.availableElements = (ELEMENTS_PER_GROUP : Int) - g.freeSliceStart then (g, false)
  else
    let destination := skipCells s.cellOccupancies 1 ELEMENTS_PER_GROUP 0
    let source := skipCells s.cellOccupancies 0 ELEMENTS_PER_GROUP (destination + 1)
    let c := compact bytesPerElement g.allocatedSizes s.cellContents ELEMENTS_PER_GROUP
      { block := g.block
        allocatedOffsets := g.allocatedOffsets
        cellOccupancies := s.cellOccupancies
        destination := destination
        source := source }
    ({ g with
        block := c.block
        allocatedOffsets := c.allocatedOffsets
        freeSliceStart := c.destination }, true)

def triggerDefragmentationRoutine (g : DefragmentationGroup) (bytesPerElement : Nat)
    (s : Scratch) : DefragmentationGroup :=
  let elementsInFreeSlice := g.getContiguousElements
  let fragmentedElements := g.getFragmentedElements
  let thresholdForFragmentedWarZone := 2048
  let thresholdForFreeSlice := 128
  if fragmentedElements ≥ thresholdForFragmentedWarZone ∧
      elementsInFreeSlice ≤ thresholdForFreeSlice then
    (g.defragment bytesPerElement s).1
  else g

/-! ## Allocating and deallocating -/

def allocate (g : DefragmentationGroup) (n bytesPerElement : Nat) (s : Scratch) :
    DefragmentationGroup × Nat :=
  let r := g.getAvailableSmallSmartPointer
  let g := r.1
  let returnValue := r.2
  let g :=
    { g with
      allocatedOffsets :=
        Function.update g.allocatedOffsets returnValue (g.freeSliceStart % 65536)
      allocatedSizes := Function.update g.allocatedSizes returnValue (n % 256)
      -- move the frontier
      freeSliceStart := g.freeSliceStart + n
      availableElements := g.availableElements - n }
  (g.triggerDefragmentationRoutine bytesPerElement s, returnValue)

def deallocate (g : DefragmentationGroup) (a bytesPerElement : Nat) (s : Scratch) :
    DefragmentationGroup :=
  let allocatedSize := g.allocatedSizes a
  let offset := g.allocatedOffsets a
  let g :=
    { g with
      allocatedSizes := Function.update g.allocatedSizes a 0
      -- the region touches the frontier
      freeSliceStart :=
        if offset + allocatedSize = g.freeSliceStart then offset else g.freeSliceStart
      availableElements := g.availableElements + allocatedSize }
  g.triggerDefragmentationRoutine bytesPerElement s

end DefragmentationGroup

end RayPlatform
