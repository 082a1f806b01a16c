import RayPlatform.Lib.Loops
import RayPlatform.Lib.Rows
import RayPlatform.Communication.VirtualCommunicator

/-!
# BufferedData

One buffer of `capacity` units for each destination, all in one array. A buffer is sent
as one message when it holds as many whole periods as fit the capacity, or when it is
forced.

* The two blocks of memory are what `__Malloc` gives, which takes the number of bytes as
  an `int`.
* `contents` — the units that are buffered for a destination;
* `flush_cases`, `flushAll_cases` — what the two calls do;
* `flushRepeatedly` — the loop of a caller that flushes until nothing is sent.
-/

namespace RayPlatform

open Lib (Returns)
open Lib.Rows

def sizeofInt : Nat := 4

/-- `__Malloc`: the bytes of the block; `malloc` refuses what is negative as an `int`. -/
def Malloc (bytes : Nat) : Option Nat :=
  let c := bytes % 2 ^ 32
  if c < 2 ^ 31 then some c else none

structure BufferedData where
  count : Nat
  period : Nat
  flushedMessages : Nat
  pushedMessages : Nat
  sizes : Nat → Nat
  data : Nat → MessageUnit
  /-- the `int` that fit the block of `sizes` -/
  sizesLength : Nat
  /-- the units that fit the block of `data` -/
  dataLength : Nat
  ranks : Nat
  capacity : Nat

namespace BufferedData

/-- `constructor`, with what the new array happens to hold. -/
def constructor (numberOfRanks capacity period : Nat) (data : Nat → MessageUnit) :
    Option BufferedData := do
  let sizesBytes ← Malloc (sizeofInt * numberOfRanks)
  let dataBytes ← Malloc (sizeofMessageUnit * capacity * numberOfRanks)
  return {
    count := 0
    period := period
    flushedMessages := 0
    pushedMessages := 0
    sizes := fun _ => 0
    data := data
    sizesLength := sizesBytes / sizeofInt
    dataLength := dataBytes / sizeofMessageUnit
    ranks := numberOfRanks
    capacity := capacity }

def size (b : BufferedData) (i : Nat) : Nat :=
  b.sizes i

def getAt (b : BufferedData) (i j : Nat) : MessageUnit :=
  b.data (position b.capacity i j)

def addAt (b : BufferedData) (i : Nat) (k : MessageUnit) : BufferedData :=
  let j := b.size i
  let count := b.count + 1
  { b with
    data := Function.update b.data (position b.capacity i j) k
    sizes := Function.update b.sizes i (j + 1)
    count := if count = b.period then 0 else count
    pushedMessages := if count = b.period then b.pushedMessages + 1 else b.pushedMessages }

def reset (b : BufferedData) (i : Nat) : BufferedData :=
  { b with sizes := Function.update b.sizes i 0 }

/-- `isEmpty`, before `clear`. -/
def isEmpty (b : BufferedData) : Bool :=
  (List.range b.ranks).all fun i => b.size i == 0

/-- The threshold of `flush` and `needsFlushing`. -/
def threshold (b : BufferedData) (period : Nat) : Nat :=
  b.capacity / period * period

def flush (b : BufferedData) (destination period : Nat) (tag : MessageTag)
    (outbox : List UnitMessage) (rank : Rank) (force : Bool) :
    BufferedData × List UnitMessage × Bool :=
  let threshold := if ¬ force then b.threshold period else 0
  let amount := b.size destination
  if ¬ force ∧ amount < threshold then (b, outbox, false)
  else if amount = 0 then (b, outbox, false)
  else
    let aMessage : UnitMessage :=
      { content := (List.range amount).map fun i => b.getAt destination i
        destination := Int32.ofNat destination
        tag := tag
        source := rank }
    ({ b.reset destination with flushedMessages := b.flushedMessages + 1 },
      outbox ++ [aMessage], true)

def needsFlushing (b : BufferedData) (destination period : Nat) : Bool :=
  b.threshold period ≤ b.size destination

/-- The loop of `flushAll` over the destinations from `i` on. -/
def flushFrom (b : BufferedData) (tag : MessageTag) (outbox : List UnitMessage) (rank : Rank)
    (i : Nat) : Nat → BufferedData × List UnitMessage × Nat
  | 0 => (b, outbox, 0)
  | left + 1 =>
      let r := b.flush i 0 tag outbox rank true
      if r.2.2 then (r.1, r.2.1, 1)
      else r.1.flushFrom tag r.2.1 rank (i + 1) left

def flushAll (b : BufferedData) (tag : MessageTag) (outbox : List UnitMessage) (rank : Rank) :
    BufferedData × List UnitMessage × Nat :=
  if b.isEmpty then (b, outbox, 0)
  else b.flushFrom tag outbox rank 0 b.ranks

/-- `flushAll` until it reports that nothing was sent. -/
def flushRepeatedly (tag : MessageTag) (rank : Rank) :
    Nat → BufferedData → List UnitMessage → Option (BufferedData × List UnitMessage)
  | 0, _, _ => none
  | fuel + 1, b, outbox =>
      let r := b.flushAll tag outbox rank
      if r.2.2 = 0 then some (r.1, r.2.1)
      else flushRepeatedly tag rank fuel r.1 r.2.1

/-! ## What is buffered -/

/-- The units that are buffered for a destination. -/
def contents (b : BufferedData) (i : Nat) : List MessageUnit :=
  row b.data b.capacity i (b.size i)

/-- The buffers after the one of a destination was sent. -/
def emptied (b : BufferedData) (destination : Nat) : BufferedData :=
  { b.reset destination with flushedMessages := b.flushedMessages + 1 }

variable {b : BufferedData}

@[simp] theorem length_contents (b : BufferedData) (i : Nat) :
    (b.contents i).length = b.size i :=
  length_row _ _ _ _

theorem contents_of_size_zero {i : Nat} (h : b.size i = 0) : b.contents i = [] := by
  rw [contents, h, row_zero]

theorem size_addAt (b : BufferedData) (i : Nat) (k : MessageUnit) :
    (b.addAt i k).size = Function.update b.size i (b.size i + 1) := rfl

theorem size_emptied (b : BufferedData) (i : Nat) :
    (b.emptied i).size = Function.update b.size i 0 := rfl

theorem contents_addAt_self (b : BufferedData) (i : Nat) (k : MessageUnit) :
    (b.addAt i k).contents i = b.contents i ++ [k] := by
  rw [contents, size_addAt, Function.update_self]
  exact row_update_next b.data b.capacity i (b.size i) k

theorem contents_addAt_of_ne {i i' : Nat} (hne : i' ≠ i) (hi : b.size i < b.capacity)
    (hi' : b.size i' ≤ b.capacity) (k : MessageUnit) :
    (b.addAt i k).contents i' = b.contents i' := by
  rw [contents, size_addAt, Function.update_of_ne hne]
  exact row_update_of_ne b.data k hne hi' hi

theorem contents_emptied_self (b : BufferedData) (i : Nat) : (b.emptied i).contents i = [] :=
  contents_of_size_zero (by rw [size_emptied, Function.update_self])

theorem contents_emptied_of_ne {i i' : Nat} (hne : i' ≠ i) (b : BufferedData) :
    (b.emptied i).contents i' = b.contents i' := by
  rw [contents, size_emptied, Function.update_of_ne hne]
  rfl

/-! ## Flushing -/

/-- The message that a flush of a destination sends. -/
def message (b : BufferedData) (destination : Nat) (tag : MessageTag) (rank : Rank) :
    UnitMessage :=
  { content := b.contents destination
    destination := Int32.ofNat destination
    tag := tag
    source := rank }

/-- A flush sends all that is buffered for the destination, or leaves it because it is
nothing or too little. -/
theorem flush_cases (b : BufferedData) (destination period : Nat) (tag : MessageTag)
    (outbox : List UnitMessage) (rank : Rank) (force : Bool) :
    b.flush destination period tag outbox rank force = (b, outbox, false) ∧
        (b.size destination = 0 ∨ force = false ∧ b.size destination < b.threshold period) ∨
      b.flush destination period tag outbox rank force =
          (b.emptied destination, outbox ++ [b.message destination tag rank], true) ∧
        b.size destination ≠ 0 ∧ (force = true ∨ b.threshold period ≤ b.size destination) := by
  cases force with
  | true =>
      by_cases hempty : b.size destination = 0
      · exact .inl ⟨by simp [flush, hempty], .inl hempty⟩
      · exact .inr ⟨by simp only [flush]; rw [if_neg (by simp), if_neg hempty]; rfl,
          hempty, .inl rfl⟩
  | false =>
      by_cases hfew : b.size destination < b.threshold period
      · exact .inl ⟨by simp [flush, hfew], .inr ⟨rfl, hfew⟩⟩
      · by_cases hempty : b.size destination = 0
        · exact .inl ⟨by simp [flush, hempty], .inl hempty⟩
        · refine .inr ⟨?_, hempty, .inr (Nat.le_of_not_lt hfew)⟩
          simp only [flush]
          rw [if_neg (by simp [hfew]), if_neg hempty]
          rfl

/-- `flush` without force sends what `needsFlushing` asks for, if there is anything. -/
theorem flush_sends_iff (b : BufferedData) (destination period : Nat) (tag : MessageTag)
    (outbox : List UnitMessage) (rank : Rank) :
    (b.flush destination period tag outbox rank false).2.2 = true ↔
      b.size destination ≠ 0 ∧ b.needsFlushing destination period = true := by
  rcases flush_cases b destination period tag outbox rank false with
    ⟨hflush, hkept⟩ | ⟨hflush, hsize, hforce⟩
  · simp only [hflush, needsFlushing]
    simp
    omega
  · simp only [hflush, needsFlushing]
    simpa [hsize] using hforce

theorem isEmpty_iff : b.isEmpty = true ↔ ∀ i < b.ranks, b.size i = 0 := by
  simp [isEmpty]

/-- The first destination that has a buffer. -/
def First (b : BufferedData) (destination : Nat) : Prop :=
  destination < b.ranks ∧ b.size destination ≠ 0 ∧ ∀ i < destination, b.size i = 0

theorem flushFrom_of_first {destination i left : Nat} (tag : MessageTag)
    (outbox : List UnitMessage) (rank : Rank) (hsize : b.size destination ≠ 0)
    (hi : i ≤ destination) (hleft : destination < i + left)
    (hbefore : ∀ i < destination, b.size i = 0) :
    b.flushFrom tag outbox rank i left =
      (b.emptied destination, outbox ++ [b.message destination tag rank], 1) := by
  induction left generalizing i with
  | zero => omega
  | succ left ih =>
      rw [flushFrom]
      rcases flush_cases b i 0 tag outbox rank true with ⟨hflush, hkept⟩ | ⟨hflush, hsent, -⟩
      · have hzero : b.size i = 0 := by
          rcases hkept with hzero | ⟨hforce, -⟩
          · exact hzero
          · cases hforce
        have hne : i ≠ destination := by
          rintro rfl
          exact hsize hzero
        simp only [hflush]
        exact ih (by omega) (by omega)
      · obtain rfl : i = destination := by
          by_contra hne
          exact hsent (hbefore i (by omega))
        simp [hflush]

/-- `flushAll` sends the first buffer, and reports nothing sent exactly when there is none. -/
theorem flushAll_cases (b : BufferedData) (tag : MessageTag) (outbox : List UnitMessage)
    (rank : Rank) :
    b.flushAll tag outbox rank = (b, outbox, 0) ∧ (∀ i < b.ranks, b.size i = 0) ∨
      ∃ destination, b.First destination ∧ b.flushAll tag outbox rank =
        (b.emptied destination, outbox ++ [b.message destination tag rank], 1) := by
  by_cases hempty : ∀ i < b.ranks, b.size i = 0
  · exact .inl ⟨by rw [flushAll, if_pos (isEmpty_iff.mpr hempty)], hempty⟩
  · right
    have hsome : ∃ i, i < b.ranks ∧ b.size i ≠ 0 := by
      simpa using hempty
    obtain ⟨hrank, hsize⟩ := Nat.find_spec hsome
    have hbefore : ∀ i < Nat.find hsome, b.size i = 0 := by
      intro i hi
      by_contra hne
      exact Nat.find_min hsome hi ⟨hi.trans hrank, hne⟩
    refine ⟨Nat.find hsome, ⟨hrank, hsize, hbefore⟩, ?_⟩
    rw [flushAll, if_neg fun h => hempty (isEmpty_iff.mp h)]
    exact flushFrom_of_first tag outbox rank hsize (Nat.zero_le _) (by omega) hbefore

end BufferedData

end RayPlatform
