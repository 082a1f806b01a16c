import Mathlib.Data.List.Basic

/-!
# Buffers

A buffer as the list of its elements. `readAt` and `writeAt` fail when the range is not in
the buffer; a copy from one buffer to another is a read followed by a write.
-/

namespace RayPlatform.Lib

variable {α : Type}

def readAt (buffer : List α) (position n : Nat) : Option (List α) :=
  if position + n ≤ buffer.length then some ((buffer.drop position).take n) else none

def writeAt (buffer : List α) (position : Nat) (data : List α) : Option (List α) :=
  if position + data.length ≤ buffer.length then
    some (buffer.take position ++ data ++ buffer.drop (position + data.length))
  else none

theorem readAt_append (before data after : List α) :
    readAt (before ++ data ++ after) before.length data.length = some data := by
  rw [readAt, if_pos (by simp)]
  simp

/-- A write at the beginning. -/
theorem writeAt_zero {buffer data : List α} (hfits : data.length ≤ buffer.length) :
    writeAt buffer 0 data = some (data ++ buffer.drop data.length) := by
  rw [writeAt, if_pos (by omega)]
  simp

/-- A write after what was written. -/
theorem writeAt_append {before rest data : List α} (hfits : data.length ≤ rest.length) :
    writeAt (before ++ rest) before.length data =
      some (before ++ data ++ rest.drop data.length) := by
  rw [writeAt, if_pos (by simp; omega)]
  simp [List.drop_append]

theorem length_writeAt {buffer buffer' data : List α} {position : Nat}
    (h : writeAt buffer position data = some buffer') : buffer'.length = buffer.length := by
  unfold writeAt at h
  split at h
  · cases h
    simp only [List.length_append, List.length_take, List.length_drop]
    omega
  · cases h

/-- The buffer up to the end of what was written. -/
theorem take_writeAt {buffer buffer' data : List α} {position : Nat}
    (h : writeAt buffer position data = some buffer') :
    buffer'.take (position + data.length) = buffer.take position ++ data := by
  unfold writeAt at h
  split at h
  · cases h
    have hlength : (buffer.take position ++ data).length = position + data.length := by
      rw [List.length_append, List.length_take]
      omega
    rw [List.take_append_of_le_length (by omega), ← hlength, List.take_length]
  · cases h

/-- The next elements of a list, after the first ones. -/
theorem take_append_take_drop (l : List α) (i n : Nat) :
    l.take i ++ (l.drop i).take n = l.take (i + n) := by
  rw [List.take_add]

end RayPlatform.Lib
