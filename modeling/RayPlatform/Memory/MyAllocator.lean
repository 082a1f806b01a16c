import Mathlib.Data.List.Pairwise
import Mathlib.Data.List.Perm.Basic
import RayPlatform.Lib.FreeList
import RayPlatform.Lib.TransitionSystem

/-!
# MyAllocator

A pool of chunks of one size, served from the first to the last, and a store of freed
blocks. Sizes are rounded up to a multiple of 8 where a block is cut from a chunk; in
the store a block is found under the size it was freed with.

* An address is a chunk and an offset; `next` is what the memory of the chunks holds
  where it is read as an `Element`, the link of a freed block.
* `m_currentPosition` and `m_currentChunkId` have no initial value; `addChunk` sets
  them before they are read.
* A block is an address and the size it was requested with; `extent` is what it takes of its
  chunk.
-/

namespace RayPlatform

open Lib (TransitionSystem)
open Lib.FreeList

structure Address where
  chunk : Nat
  offset : Nat
  deriving DecidableEq, Repr

/-! ## ReusableMemoryStore -/

structure ReusableMemoryStore where
  /-- the first freed block of each size -/
  toReuse : Nat → Option Address

namespace ReusableMemoryStore

def reset : ReusableMemoryStore :=
  { toReuse := fun _ => none }

def hasAddressesToReuse (store : ReusableMemoryStore) (size : Nat) : Bool :=
  (store.toReuse size).isSome

/-- `reuseAddress`: an entry without a next block is erased. -/
def reuseAddress (store : ReusableMemoryStore) (next : Address → Option Address) (size : Nat) :
    ReusableMemoryStore × Option Address :=
  let tmp := store.toReuse size
  ({ toReuse := Function.update store.toReuse size (tmp.bind next) }, tmp)

/-- `sizeof(Element)` -/
def sizeofElement : Nat := 8

/-- `addAddressToReuse`, with the link that it writes in the block. -/
def addAddressToReuse (store : ReusableMemoryStore) (next : Address → Option Address)
    (p : Address) (size : Nat) : ReusableMemoryStore × (Address → Option Address) :=
  -- don't free these tiny bits
  if size < sizeofElement then (store, next)
  else
    ({ toReuse := Function.update store.toReuse size (some p) },
      Function.update next p (store.toReuse size))

end ReusableMemoryStore

/-! ## The allocator -/

structure MyAllocator where
  /-- `m_chunks.size()` -/
  chunks : Nat
  currentPosition : Nat
  currentChunkId : Nat
  chunkSize : Nat
  store : ReusableMemoryStore
  next : Address → Option Address

def roundNumber (s alignment : Nat) : Nat :=
  (s / alignment + 1) * alignment

/-- The size of a block cut from a chunk. -/
def rounded (s : Nat) : Nat :=
  if s % 8 ≠ 0 then roundNumber s 8 else s

namespace MyAllocator

/-- `constructor`, with what the members it does not set happen to be. -/
def constructor (chunkSize currentPosition currentChunkId : Nat)
    (next : Address → Option Address) : MyAllocator :=
  { chunks := 0
    currentPosition := currentPosition
    currentChunkId := currentChunkId
    chunkSize := chunkSize
    store := .reset
    next := next }

def reset (a : MyAllocator) : MyAllocator :=
  { a with currentPosition := 0, currentChunkId := 0, store := .reset }

def clear (a : MyAllocator) : MyAllocator :=
  { a with chunks := 0, currentPosition := 0, currentChunkId := 0, store := .reset }

def addChunk (a : MyAllocator) : MyAllocator :=
  { a with chunks := a.chunks + 1, currentChunkId := 0, currentPosition := 0 }

/-- The chunk behind the current one, a new one if need be. -/
def renewChunk (a : MyAllocator) : MyAllocator :=
  { a with
    chunks := if ¬ (a.currentChunkId + 1 < a.chunks) then a.chunks + 1 else a.chunks
    currentChunkId := a.currentChunkId + 1
    currentPosition := 0 }

def allocate (a : MyAllocator) (s : Nat) : MyAllocator × Option Address :=
  -- reuse memory freed elsewhere
  if a.store.hasAddressesToReuse s then
    let r := a.store.reuseAddress a.next s
    ({ a with store := r.1 }, r.2)
  else
    let a' := if a.chunks = 0 then a.addChunk else a
    let s' := rounded s
    if a'.chunkSize < s' then (a', none)
    else
      let left : Int := a'.chunkSize - a'.currentPosition
      if left < s' then a'.renewChunk.allocate s'
      else
        ({ a' with currentPosition := a'.currentPosition + s' },
          some ⟨a'.currentChunkId, a'.currentPosition⟩)
termination_by a.currentPosition
decreasing_by
  show 0 < a.currentPosition
  rename_i hfit hleft
  by_cases hchunks : a.chunks = 0
  · simp only [a', left, dif_pos hchunks, addChunk] at hfit hleft
    omega
  · simp only [a', left, dif_neg hchunks] at hfit hleft
    omega

def free (a : MyAllocator) (address : Address) (bytes : Nat) : MyAllocator :=
  let r := a.store.addAddressToReuse a.next address bytes
  { a with store := r.1, next := r.2 }

end MyAllocator

/-! ## Blocks -/

theorem le_rounded (s : Nat) : s ≤ rounded s := by
  unfold rounded roundNumber
  split <;> omega

theorem rounded_mod (s : Nat) : rounded s % 8 = 0 := by
  unfold rounded roundNumber
  split <;> omega

@[simp] theorem rounded_rounded (s : Nat) : rounded (rounded s) = rounded s := by
  have h := rounded_mod s
  rw [rounded, if_neg (fun hne => hne h)]

/-- Blocks, with an address and a size, that have no byte in common. -/
def Apart (b c : Address × Nat) : Prop :=
  b.1.chunk ≠ c.1.chunk ∨ b.1.offset + b.2 ≤ c.1.offset ∨ c.1.offset + c.2 ≤ b.1.offset

theorem Apart.symm {b c : Address × Nat} (h : Apart b c) : Apart c b := by
  unfold Apart at *
  omega

/-- Smaller blocks at the same addresses are apart too. -/
theorem Apart.mono {p q : Address} {m n m' n' : Nat} (h : Apart (p, m) (q, n)) (hm : m' ≤ m)
    (hn : n' ≤ n) : Apart (p, m') (q, n') := by
  unfold Apart at *
  simp only at *
  omega

theorem Apart.ne {p q : Address} {m n : Nat} (h : Apart (p, m) (q, n)) (hm : 0 < m) (hn : 0 < n) :
    p ≠ q := by
  rintro rfl
  unfold Apart at h
  simp only at h
  omega

/-- A block as it was cut from its chunk. -/
def extent (b : Address × Nat) : Address × Nat :=
  (b.1, rounded b.2)

end RayPlatform
