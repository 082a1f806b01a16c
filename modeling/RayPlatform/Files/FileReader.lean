import RayPlatform.Lib.ByteBuffer

/-!
# FileReader

Lines of a file through a buffer of 524288 bytes. A call of `getline` refills the buffer if
fewer bytes are available than its caller has room for, looks for the first newline among
the available bytes, and hands out the bytes up to it.

The scan stops at the end of the available bytes or of the room as well, and the byte behind
them is then compared with a newline once more. That byte is whatever the memory holds: what
the file had there before, what was allocated, or what stands behind the buffer (`Memory`).

* `moveDown_eq` — the loop that moves the rest of the buffer to its beginning;
* `scan_spec` — where the scan stops;
* `getline_eq` — a call in terms of the bytes it sees;
* `getline_within_iff` — when a call stays in the room that its caller has.
-/

namespace RayPlatform

open Lib

/-- `ifstream`. A read that gets less than it asks for sets the end of the file. -/
structure InputStream where
  unread : List UInt8
  eof : Bool
  deriving DecidableEq, Repr

/-- `read` and `gcount`: the bytes that are got, none at the end of the file. -/
def InputStream.read (s : InputStream) (n : Nat) : List UInt8 × InputStream :=
  if s.eof then ([], s)
  else (s.unread.take n, { unread := s.unread.drop n, eof := s.unread.length < n })

/-- What the program reads without having written it: the bytes of an allocation, and the byte
behind the buffer. -/
structure Memory where
  allocated : Nat → UInt8
  behind : UInt8

structure FileReader where
  m_startInBuffer : Nat
  m_availableBytes : Int
  m_bufferSize : Nat
  m_buffer : Option (List UInt8)
  m_active : Bool
  m_reader : InputStream

/-- `'\n'` -/
def newline : UInt8 := 10

/-- The arguments of a call, and the memory that it meets. -/
structure Call where
  size : Int
  memory : Memory

namespace FileReader

/-- The constructor. -/
def initial : FileReader where
  m_startInBuffer := 0
  m_availableBytes := 0
  m_bufferSize := 524288
  m_buffer := none
  m_active := false
  m_reader := { unread := [], eof := false }

/-- `open`, of a file with these bytes -/
def openFile (content : List UInt8) (reader : FileReader) : FileReader :=
  if reader.m_active then reader
  else { reader with m_reader := { unread := content, eof := false }, m_active := true }

/-- `while(source < m_bufferSize) m_buffer[destination++] = m_buffer[source++]`, a number of
rounds of it -/
def moveDown : Nat → Nat → Nat → List UInt8 → List UInt8
  | 0, _, _, buffer => buffer
  | rounds + 1, source, destination, buffer =>
    moveDown rounds (source + 1) (destination + 1)
      (buffer.set destination (buffer.getD source 0))

/-- The buffer, which the first read allocates, with its rest at the beginning. -/
def moved (memory : Memory) (reader : FileReader) : List UInt8 :=
  moveDown (reader.m_bufferSize - reader.m_startInBuffer) reader.m_startInBuffer 0
    (reader.m_buffer.getD ((List.range reader.m_bufferSize).map memory.allocated))

/-- The bytes of the stream are written behind the available ones. Without bytes nothing is
written, wherever that would be. -/
def store (availableBytes : Int) (data buffer : List UInt8) : Option (List UInt8) :=
  if data = [] then some buffer
  else if 0 ≤ availableBytes then writeAt buffer availableBytes.toNat data
  else none

def read (memory : Memory) (reader : FileReader) : Option FileReader := do
  let bytes := (reader.m_bufferSize : Int) - reader.m_availableBytes
  let got := reader.m_reader.read bytes.toNat
  let buffer ← store reader.m_availableBytes got.1 (reader.moved memory)
  return { reader with
    m_startInBuffer := 0
    m_availableBytes := reader.m_availableBytes + got.1.length
    m_buffer := some buffer
    m_reader := got.2 }

/-- `if(size > getAvailableBytes()) this->read()` -/
def refill (call : Call) (reader : FileReader) : Option FileReader :=
  if call.size > reader.m_availableBytes then reader.read call.memory else some reader

/-- The bytes from `getAvailableBuffer()` on, with the one behind the buffer. -/
def visible (memory : Memory) (reader : FileReader) : Option (List UInt8) :=
  reader.m_buffer.map fun buffer => (buffer ++ [memory.behind]).drop reader.m_startInBuffer

/-- `while(i < availableBytes && i < size && availableBuffer[i] != '\n') i++` -/
def scan (availableBytes size : Int) : Nat → List UInt8 → Nat
  | i, [] => i
  | i, byte :: rest =>
    if (i : Int) < availableBytes ∧ (i : Int) < size ∧ byte ≠ newline then
      scan availableBytes size (i + 1) rest
    else i

/-- What is written to the caller's buffer, from its beginning. -/
def getline (call : Call) (reader : FileReader) : Option (List UInt8 × FileReader) := do
  if reader.m_active = false then
    return ([], reader)
  else
    let reader ← reader.refill call
    -- the buffer may still be the null pointer
    let availableBuffer ← reader.visible call.memory
    let i := scan reader.m_availableBytes call.size 0 availableBuffer
    let last ← availableBuffer[i]?
    let i := if last = newline then i + 1 else i
    return (availableBuffer.take i ++ [0], { reader with
      m_startInBuffer := reader.m_startInBuffer + i
      m_availableBytes := reader.m_availableBytes - i })

/-- The positions are kept. -/
def close (reader : FileReader) : FileReader :=
  if reader.m_active then { reader with m_buffer := none, m_active := false } else reader

def eof (reader : FileReader) : Bool :=
  if reader.m_active then reader.m_availableBytes == 0 && reader.m_reader.eof else true

/-! ## The loops -/

theorem moveDown_spec : ∀ (rounds source destination : Nat) (buffer : List UInt8),
    destination ≤ source → source + rounds = buffer.length →
      moveDown rounds source destination buffer =
        buffer.take destination ++ buffer.drop source ++ buffer.drop (destination + rounds) := by
  intro rounds
  induction rounds with
  | zero =>
      intro source destination buffer hle hlength
      rw [moveDown, List.drop_eq_nil_of_le (by omega : buffer.length ≤ source), List.append_nil,
        Nat.add_zero, List.take_append_drop]
  | succ rounds ih =>
      intro source destination buffer hle hlength
      have hsource : source < buffer.length := by omega
      rw [moveDown, ih (source + 1) (destination + 1) _ (by omega)
        (by rw [List.length_set]; omega)]
      have hget : buffer.getD source 0 = buffer[source] := by
        rw [List.getD_eq_getElem?_getD, List.getElem?_eq_getElem hsource, Option.getD_some]
      rw [List.drop_set_of_lt (by omega), List.drop_set_of_lt (by omega), hget]
      have htake : (buffer.set destination buffer[source]).take (destination + 1) =
          buffer.take destination ++ [buffer[source]] := by
        rw [List.take_add_one, List.take_set_of_le (by omega), List.getElem?_set_self (by omega)]
        rfl
      rw [htake, List.append_assoc (buffer.take destination), List.singleton_append,
        List.getElem_cons_drop, show destination + 1 + rounds = destination + (rounds + 1) by omega]

/-- The rest of the buffer stands at its beginning, and what was at the end stays there. -/
theorem moveDown_eq (buffer : List UInt8) {start : Nat} (hle : start ≤ buffer.length) :
    moveDown (buffer.length - start) start 0 buffer =
      buffer.drop start ++ buffer.drop (buffer.length - start) := by
  rw [moveDown_spec _ _ _ _ (Nat.zero_le _) (by omega), List.take_zero, List.nil_append,
    Nat.zero_add]

theorem length_moveDown : ∀ (rounds source destination : Nat) (buffer : List UInt8),
    (moveDown rounds source destination buffer).length = buffer.length := by
  intro rounds
  induction rounds with
  | zero => exact fun _ _ _ => rfl
  | succ rounds ih =>
      intro source destination buffer
      rw [moveDown, ih, List.length_set]

/-- Where the scan stops: behind bytes that are no newlines, at one of the ends or a newline. -/
structure Scanned (availableBytes size : Int) (bytes : List UInt8) (k : Nat) : Prop where
  before : ∀ j < k, (j : Int) < availableBytes ∧ (j : Int) < size ∧ bytes[j]? ≠ some newline
  stops : ∀ byte, bytes[k]? = some byte → (k : Int) < availableBytes → (k : Int) < size →
    byte = newline

theorem scan_spec (availableBytes size : Int) (bytes : List UInt8) :
    Scanned availableBytes size bytes (scan availableBytes size 0 bytes) := by
  -- from any position on
  have hfrom : ∀ (bytes : List UInt8) (i : Nat), ∃ k, scan availableBytes size i bytes = i + k ∧
      Scanned (availableBytes - i) (size - i) bytes k := by
    intro bytes
    induction bytes with
    | nil =>
        intro i
        exact ⟨0, rfl, fun j hj => absurd hj (Nat.not_lt_zero j), fun _ h => by cases h⟩
    | cons byte rest ih =>
        intro i
        rw [scan]
        split
        case isTrue hgo =>
          obtain ⟨k, hk, hbefore, hstops⟩ := ih (i + 1)
          refine ⟨k + 1, by omega, fun j hj => ?_, fun last hlast h h' => ?_⟩
          · cases j with
            | zero => exact ⟨by omega, by omega, by simpa using hgo.2.2⟩
            | succ j =>
                have := hbefore j (by omega)
                rw [List.getElem?_cons_succ]
                exact ⟨by omega, by omega, this.2.2⟩
          · rw [List.getElem?_cons_succ] at hlast
            exact hstops last hlast (by omega) (by omega)
        case isFalse hstop =>
          refine ⟨0, rfl, fun j hj => absurd hj (Nat.not_lt_zero j), fun last hlast h h' => ?_⟩
          obtain rfl : byte = last := by simpa using hlast
          by_contra hne
          exact hstop ⟨by omega, by omega, hne⟩
  obtain ⟨k, hk, hscanned⟩ := hfrom bytes 0
  rw [Nat.zero_add] at hk
  rw [hk]
  simpa using hscanned

/-- Never beyond the available bytes. -/
theorem Scanned.le {availableBytes size : Int} {bytes : List UInt8} {k : Nat}
    (h : Scanned availableBytes size bytes k) : k ≤ availableBytes.toNat := by
  cases k with
  | zero => exact Nat.zero_le _
  | succ k =>
      have := (h.before k (Nat.lt_succ_self k)).1
      omega

/-- The number of bytes that are taken: a newline where the scan stops belongs to the line. -/
def taken (availableBytes size : Int) (bytes : List UInt8) : Nat :=
  let k := scan availableBytes size 0 bytes
  if bytes[k]? = some newline then k + 1 else k

/-- A call, after its refill. -/
theorem getline_eq {reader reader' : FileReader} {call : Call} {bytes : List UInt8}
    (hactive : reader.m_active = true) (hrefill : reader.refill call = some reader')
    (hvisible : reader'.visible call.memory = some bytes)
    (hlong : reader'.m_availableBytes.toNat < bytes.length) :
    reader.getline call =
      some (bytes.take (taken reader'.m_availableBytes call.size bytes) ++ [0], { reader' with
        m_startInBuffer :=
          reader'.m_startInBuffer + taken reader'.m_availableBytes call.size bytes
        m_availableBytes :=
          reader'.m_availableBytes - taken reader'.m_availableBytes call.size bytes }) := by
  have hle := (scan_spec reader'.m_availableBytes call.size bytes).le
  rw [getline, if_neg (by rw [hactive]; decide), taken]
  simp only [Option.bind_eq_bind, hrefill, hvisible, Option.bind_some]
  rw [List.getElem?_eq_getElem (by omega)]
  simp only [Option.bind_some, Option.some.injEq]
  rfl

theorem refilled_of_getline {reader reader' : FileReader} {call : Call} {written : List UInt8}
    (hactive : reader.m_active = true) (hline : reader.getline call = some (written, reader')) :
    ∃ reader₁ bytes, reader.refill call = some reader₁ ∧
      reader₁.visible call.memory = some bytes := by
  rw [getline, if_neg (by rw [hactive]; decide)] at hline
  obtain ⟨reader₁, hrefill, hline⟩ := Option.bind_eq_some_iff.mp hline
  obtain ⟨bytes, hvisible, -⟩ := Option.bind_eq_some_iff.mp hline
  exact ⟨reader₁, bytes, hrefill, hvisible⟩

/-- The first refill, of a file that fits the buffer. -/
theorem refill_first {reader : FileReader} (hstart : reader.m_startInBuffer = 0)
    (havailable : reader.m_availableBytes = 0) (hbuffer : reader.m_buffer = none)
    (heof : reader.m_reader.eof = false)
    (hfits : reader.m_reader.unread.length ≤ reader.m_bufferSize) {call : Call}
    (hsize : 1 ≤ call.size) :
    reader.refill call = some { reader with
      m_startInBuffer := 0
      m_availableBytes := reader.m_reader.unread.length
      m_buffer := some (reader.m_reader.unread ++
        ((List.range reader.m_bufferSize).map call.memory.allocated).drop
          reader.m_reader.unread.length)
      m_reader := {
        unread := []
        eof := reader.m_reader.unread.length < reader.m_bufferSize } } := by
  have hlength : ((List.range reader.m_bufferSize).map call.memory.allocated).length =
      reader.m_bufferSize := by
    rw [List.length_map, List.length_range]
  have hmoved : reader.moved call.memory =
      (List.range reader.m_bufferSize).map call.memory.allocated := by
    have hmove := moveDown_eq ((List.range reader.m_bufferSize).map call.memory.allocated)
      (Nat.zero_le _)
    rw [List.drop_zero, Nat.sub_zero, List.drop_length, List.append_nil, hlength] at hmove
    rw [moved, hbuffer, hstart, Nat.sub_zero, Option.getD_none, hmove]
  have hgot : reader.m_reader.read ((reader.m_bufferSize : Int) - 0).toNat =
      (reader.m_reader.unread,
        { unread := [], eof := reader.m_reader.unread.length < reader.m_bufferSize }) := by
    rw [Int.sub_zero, Int.toNat_natCast, InputStream.read, heof, if_neg (by decide),
      List.take_of_length_le hfits, List.drop_eq_nil_of_le hfits]
  have hstore : store 0 reader.m_reader.unread
      ((List.range reader.m_bufferSize).map call.memory.allocated) =
        some (reader.m_reader.unread ++
          ((List.range reader.m_bufferSize).map call.memory.allocated).drop
            reader.m_reader.unread.length) := by
    rw [store]
    split
    case isTrue hnone => rw [hnone]; rfl
    case isFalse => exact writeAt_zero (by rw [hlength]; exact hfits)
  rw [refill, havailable, if_pos (by omega), read, havailable, hgot, hmoved]
  simp only [hstore, Option.bind_eq_bind, Option.bind_some, Int.zero_add]
  rfl

/-! ## The positions -/

/-- The available bytes stand in the buffer. A negative number of them says nothing about the
position. -/
structure Bounded (reader : FileReader) : Prop where
  length : ∀ buffer, reader.m_buffer = some buffer → buffer.length = reader.m_bufferSize
  inside : 0 ≤ reader.m_availableBytes →
    reader.m_startInBuffer + reader.m_availableBytes ≤ reader.m_bufferSize

namespace Bounded

variable {reader reader' : FileReader} {call : Call} {written : List UInt8}

theorem length_moved (h : reader.Bounded) (memory : Memory) :
    (reader.moved memory).length = reader.m_bufferSize := by
  rw [moved, length_moveDown]
  cases hb : reader.m_buffer with
  | none => rw [Option.getD_none, List.length_map, List.length_range]
  | some buffer => exact h.length buffer hb

theorem read (h : reader.Bounded) {memory : Memory} (hread : reader.read memory = some reader') :
    reader'.Bounded ∧ reader'.m_startInBuffer = 0 := by
  obtain ⟨buffer, hstore, hread⟩ := Option.bind_eq_some_iff.mp hread
  obtain rfl := Option.some.inj hread
  have hinside := h.inside
  have hmoved := h.length_moved memory
  rw [store] at hstore
  split at hstore
  case isTrue hnone =>
    obtain rfl := Option.some.inj hstore
    refine ⟨⟨fun buffer hbuffer => ?_, fun hnonneg => ?_⟩, rfl⟩
    · rw [← Option.some.inj hbuffer, hmoved]
    · simp only [hnone, List.length_nil] at hnonneg ⊢
      omega
  case isFalse =>
    split at hstore
    case isTrue hpos =>
      have hlength := length_writeAt hstore
      refine ⟨⟨fun buffer hbuffer => ?_, fun hnonneg => ?_⟩, rfl⟩
      · rw [← Option.some.inj hbuffer, hlength, hmoved]
      · rw [writeAt] at hstore
        split at hstore
        case isTrue hfits =>
          simp only at hnonneg ⊢
          omega
        case isFalse => cases hstore
    case isFalse => cases hstore

/-- With room for a byte, negative availability is met at the beginning of the buffer. -/
theorem refill (h : reader.Bounded) (hsize : 1 ≤ call.size)
    (hrefill : reader.refill call = some reader') :
    reader'.Bounded ∧ (reader'.m_availableBytes < 0 → reader'.m_startInBuffer = 0) := by
  rw [FileReader.refill] at hrefill
  split at hrefill
  case isTrue =>
    obtain ⟨hbounded, hstart⟩ := h.read hrefill
    exact ⟨hbounded, fun _ => hstart⟩
  case isFalse hle =>
    obtain rfl := Option.some.inj hrefill
    exact ⟨h, fun hneg => by omega⟩

/-- There is a byte to compare with where the scan stops. -/
theorem visible (h : reader.Bounded)
    (hneg : reader.m_availableBytes < 0 → reader.m_startInBuffer = 0) {memory : Memory}
    {bytes : List UInt8} (hvisible : reader.visible memory = some bytes) :
    reader.m_availableBytes.toNat < bytes.length := by
  obtain ⟨buffer, hbuffer, rfl⟩ := Option.map_eq_some_iff.mp hvisible
  have hlength := h.length buffer hbuffer
  have hinside := h.inside
  rw [List.length_drop, List.length_append, List.length_singleton]
  omega

theorem getline (h : reader.Bounded) (hsize : 1 ≤ call.size)
    (hline : reader.getline call = some (written, reader')) : reader'.Bounded := by
  by_cases hactive : reader.m_active = true
  · obtain ⟨reader₁, bytes, hrefill, hvisible⟩ := refilled_of_getline hactive hline
    obtain ⟨hbounded, hneg⟩ := h.refill hsize hrefill
    rw [getline_eq hactive hrefill hvisible (hbounded.visible hneg hvisible)] at hline
    obtain ⟨-, rfl⟩ := Prod.mk.inj (Option.some.inj hline)
    have hinside := hbounded.inside
    refine ⟨hbounded.length, fun hnonneg => ?_⟩
    simp only at hnonneg ⊢
    omega
  · rw [FileReader.getline, if_pos (by simpa using hactive)] at hline
    obtain ⟨-, rfl⟩ := Prod.mk.inj (Option.some.inj hline)
    exact h

end Bounded

/-- The readers that a program can have. -/
inductive Reached : FileReader → Prop
  | initial : Reached .initial
  | openFile {reader : FileReader} (content : List UInt8) :
      Reached reader → Reached (reader.openFile content)
  | getline {reader reader' : FileReader} {call : Call} {written : List UInt8} : Reached reader →
      1 ≤ call.size → reader.getline call = some (written, reader') → Reached reader'
  | close {reader : FileReader} : Reached reader → Reached reader.close

theorem Reached.bounded {reader : FileReader} (h : Reached reader) : reader.Bounded := by
  induction h with
  | initial => exact ⟨fun buffer hbuffer => (by cases hbuffer), fun _ => by decide⟩
  | openFile content _ ih =>
      rw [FileReader.openFile]
      split
      case isTrue => exact ih
      case isFalse => exact ⟨ih.length, ih.inside⟩
  | getline _ hsize hline ih => exact ih.getline hsize hline
  | close _ ih =>
      rw [FileReader.close]
      split
      case isTrue => exact ⟨fun buffer hbuffer => (by cases hbuffer), ih.inside⟩
      case isFalse => exact ih

/-! ## The caller's buffer -/

/-- What a call writes, the terminating zero included, is in the caller's buffer. -/
def WritesWithin (reader : FileReader) (call : Call) : Prop :=
  ∀ written reader', reader.getline call = some (written, reader') →
    (written.length : Int) ≤ call.size

/-- After the refill there is a newline among the first `size - 1` bytes up to the one behind
the available bytes, or there are at most `size - 1` available bytes and no newline is behind
them. -/
def FitsRoom (reader : FileReader) (call : Call) : Prop :=
  reader.m_active = true → ∀ reader' bytes, reader.refill call = some reader' →
    reader'.visible call.memory = some bytes →
      (∃ j : Nat, (j : Int) + 2 ≤ call.size ∧ j ≤ reader'.m_availableBytes.toNat ∧
        bytes[j]? = some newline) ∨
      ((reader'.m_availableBytes.toNat : Int) + 1 ≤ call.size ∧
        bytes[reader'.m_availableBytes.toNat]? ≠ some newline)

theorem length_written {availableBytes size : Int} {bytes : List UInt8}
    (hlong : availableBytes.toNat < bytes.length) :
    ((bytes.take (taken availableBytes size bytes) ++ [0]).length : Int) =
      taken availableBytes size bytes + 1 := by
  have hle := (scan_spec availableBytes size bytes).le
  have htaken : taken availableBytes size bytes ≤ bytes.length := by
    simp only [taken]
    split <;> omega
  rw [List.length_append, List.length_take, List.length_singleton]
  omega

/-- When what is taken and a zero fit the room. -/
theorem taken_lt_iff {availableBytes size : Int} {bytes : List UInt8}
    (hlong : availableBytes.toNat < bytes.length) :
    (taken availableBytes size bytes : Int) + 1 ≤ size ↔
      (∃ j : Nat, (j : Int) + 2 ≤ size ∧ j ≤ availableBytes.toNat ∧ bytes[j]? = some newline) ∨
      ((availableBytes.toNat : Int) + 1 ≤ size ∧ bytes[availableBytes.toNat]? ≠ some newline) := by
  have hscanned := scan_spec availableBytes size bytes
  have hle := hscanned.le
  rw [taken]
  generalize scan availableBytes size 0 bytes = k at *
  constructor
  · intro hfits
    by_cases hlast : bytes[k]? = some newline
    · rw [if_pos hlast] at hfits
      exact .inl ⟨k, by omega, hle, hlast⟩
    · rw [if_neg hlast] at hfits
      -- without a newline, all the available bytes are taken
      have hall : k = availableBytes.toNat := by
        by_contra hne
        rw [List.getElem?_eq_getElem (by omega)] at hlast
        exact hlast (congrArg some (hscanned.stops _ (List.getElem?_eq_getElem (by omega))
          (by omega) (by omega)))
      exact .inr ⟨by omega, hall ▸ hlast⟩
  · rintro (⟨j, hj, -, hnewline⟩ | ⟨hfew, hbehind⟩)
    · have hkj : k ≤ j := by
        by_contra hlt
        exact (hscanned.before j (by omega)).2.2 hnewline
      split <;> omega
    · by_cases hlast : bytes[k]? = some newline
      · have hne : k ≠ availableBytes.toNat := fun heq => hbehind (heq ▸ hlast)
        rw [if_pos hlast]
        omega
      · rw [if_neg hlast]
        omega

theorem fitsRoom_of_writesWithin {reader : FileReader} {call : Call} (h : reader.Bounded)
    (hsize : 1 ≤ call.size) (hwithin : reader.WritesWithin call) : reader.FitsRoom call := by
  intro hactive reader' bytes hrefill hvisible
  obtain ⟨hbounded, hneg⟩ := h.refill hsize hrefill
  have hlong := hbounded.visible hneg hvisible
  have hfits := hwithin _ _ (getline_eq hactive hrefill hvisible hlong)
  rw [length_written hlong] at hfits
  exact (taken_lt_iff hlong).mp hfits

theorem writesWithin_of_fitsRoom {reader : FileReader} {call : Call} (h : reader.Bounded)
    (hsize : 1 ≤ call.size) (hfits : reader.FitsRoom call) : reader.WritesWithin call := by
  intro written reader' hline
  by_cases hactive : reader.m_active = true
  · obtain ⟨reader₁, bytes, hrefill, hvisible⟩ := refilled_of_getline hactive hline
    obtain ⟨hbounded, hneg⟩ := h.refill hsize hrefill
    have hlong := hbounded.visible hneg hvisible
    rw [getline_eq hactive hrefill hvisible hlong] at hline
    obtain ⟨rfl, -⟩ := Prod.mk.inj (Option.some.inj hline)
    rw [length_written hlong]
    exact (taken_lt_iff hlong).mpr (hfits hactive reader₁ bytes hrefill hvisible)
  · rw [getline, if_pos (by simpa using hactive)] at hline
    obtain ⟨rfl, -⟩ := Prod.mk.inj (Option.some.inj hline)
    simp only [List.length_nil]
    omega

/-- A call of any reader stays in the caller's buffer when the line and its zero fit. -/
theorem getline_within_iff {reader : FileReader} {call : Call} (h : Reached reader)
    (hsize : 1 ≤ call.size) : reader.WritesWithin call ↔ reader.FitsRoom call :=
  ⟨fitsRoom_of_writesWithin h.bounded hsize, writesWithin_of_fitsRoom h.bounded hsize⟩

/-- Memory without anything in it. -/
def blankMemory : Memory :=
  { allocated := fun _ => 0, behind := 0 }

theorem newline_notMem_blank {content : List UInt8} (h : newline ∉ content) (positions : List Nat)
    (k : Nat) : newline ∉ content ++ (positions.map blankMemory.allocated).drop k ++
      [blankMemory.behind] := by
  intro hmem
  rcases List.mem_append.mp hmem with hmem | hbehind
  · rcases List.mem_append.mp hmem with hcontent | hallocated
    · exact h hcontent
    · obtain ⟨position, -, hzero⟩ := List.mem_map.mp (List.mem_of_mem_drop hallocated)
      exact absurd (show (0 : UInt8) = newline from hzero) (by decide)
  · exact absurd (List.mem_singleton.mp hbehind) (by decide)

theorem getline_within_iff_short :
    (initial.openFile [97]).WritesWithin { size := 2, memory := blankMemory } := by
  have hreached : Reached (initial.openFile [97]) := .openFile [97] .initial
  refine (getline_within_iff hreached (by decide)).mpr fun _ reader' bytes hrefill hvisible => ?_
  rw [refill_first rfl rfl rfl rfl (by decide) (by decide)] at hrefill
  obtain rfl := Option.some.inj hrefill
  obtain rfl := Option.some.inj hvisible
  refine .inr ⟨by decide, fun hnewline => ?_⟩
  exact newline_notMem_blank (by decide) _ _ (List.mem_of_getElem? hnewline)

/-- With room for one byte, the byte is written and the zero behind the room. -/
theorem getline_beyond : Reached (initial.openFile [97]) ∧
    ¬ (initial.openFile [97]).WritesWithin { size := 1, memory := blankMemory } := by
  have hreached : Reached (initial.openFile [97]) := .openFile [97] .initial
  refine ⟨hreached, fun hwithin => ?_⟩
  rcases fitsRoom_of_writesWithin hreached.bounded (by decide) hwithin rfl _ _
    (refill_first rfl rfl rfl rfl (by decide) (by decide)) rfl with ⟨j, hj, -⟩ | ⟨hfew, -⟩
  · simp only at hj
    omega
  · exact absurd hfew (by decide)

end FileReader

end RayPlatform
