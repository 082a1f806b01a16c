import RayPlatform.Files.FileReader

/-!
# FileReaderRuns

Reading a file until its end, whatever room each call has.

* `refill_spec` — a refill keeps what is still to be returned;
* `getline_spec` — a call returns the beginning of it, unless the byte behind the available
  ones is a newline and the scan stops there (`StaleNewline`);
* `readsFaithfully_iff` — a loop that meets no such newline returns the file and ends, and no
  other loop does.
-/

namespace RayPlatform

open Lib

/-- What a read does to a stream whose end is known only when all is read. -/
theorem InputStream.read_spec {s : InputStream} (heof : s.eof = true → s.unread = []) (n : Nat) :
    (s.read n).1.length ≤ n ∧ s.unread = (s.read n).1 ++ (s.read n).2.unread ∧
      ((s.read n).2.eof = true → (s.read n).2.unread = []) ∧
      (0 < n → s.unread = [] → (s.read n).2.eof = true) ∧
      (0 < n → s.unread ≠ [] → (s.read n).1 ≠ []) := by
  rw [InputStream.read]
  split
  case isTrue h =>
    exact ⟨Nat.zero_le _, rfl, heof, fun _ _ => h, fun _ hne => absurd (heof h) hne⟩
  case isFalse =>
    refine ⟨List.length_take_le .., (List.take_append_drop ..).symm, fun h => ?_,
      fun hn h => ?_, fun hn hne h => ?_⟩
    · exact List.drop_eq_nil_of_le (Nat.le_of_lt (of_decide_eq_true h))
    · simpa [h] using hn
    · rcases List.take_eq_nil_iff.mp h with rfl | h
      · exact absurd hn (Nat.lt_irrefl 0)
      · exact hne h

namespace FileReader

/-- The bytes in the buffer that are still to be returned. -/
def available (reader : FileReader) : List UInt8 :=
  ((reader.m_buffer.getD []).drop reader.m_startInBuffer).take reader.m_availableBytes.toNat

/-- All the bytes that are still to be returned. -/
def pending (reader : FileReader) : List UInt8 :=
  reader.available ++ reader.m_reader.unread

/-- A reader that has returned some bytes of a file. -/
structure Sound (content returned : List UInt8) (reader : FileReader) : Prop where
  active : reader.m_active = true
  room : 0 < reader.m_bufferSize
  bounded : reader.Bounded
  nonneg : 0 ≤ reader.m_availableBytes
  null : reader.m_buffer = none → reader.m_availableBytes = 0
  eof : reader.m_reader.eof = true → reader.m_reader.unread = []
  whole : content = returned ++ reader.pending

namespace Sound

variable {content returned : List UInt8} {reader : FileReader}

theorem length_available (h : Sound content returned reader) :
    reader.available.length = reader.m_availableBytes.toNat := by
  have hinside := h.bounded.inside h.nonneg
  rw [available, List.length_take, List.length_drop]
  cases hb : reader.m_buffer with
  | none =>
      have := h.null hb
      simp only [Option.getD_none, List.length_nil]
      omega
  | some buffer =>
      have := h.bounded.length buffer hb
      rw [Option.getD_some]
      omega

/-- The available bytes come first after the move. -/
theorem take_moved (h : Sound content returned reader) (memory : Memory) :
    (reader.moved memory).take reader.m_availableBytes.toNat = reader.available := by
  have hnonneg := h.nonneg
  have hinside := h.bounded.inside hnonneg
  rw [moved, available]
  cases hb : reader.m_buffer with
  | none => rw [h.null hb]; rfl
  | some buffer =>
      have hlength := h.bounded.length buffer hb
      rw [Option.getD_some, Option.getD_some, ← hlength, moveDown_eq _ (by omega),
        List.take_append_of_le_length (by rw [List.length_drop]; omega)]

theorem store_spec (h : Sound content returned reader) (memory : Memory) {data : List UInt8}
    (hfits : reader.m_availableBytes.toNat + data.length ≤ reader.m_bufferSize) :
    ∃ buffer, store reader.m_availableBytes data (reader.moved memory) = some buffer ∧
      buffer.length = reader.m_bufferSize ∧
      buffer.take (reader.m_availableBytes.toNat + data.length) = reader.available ++ data := by
  have hlength := h.bounded.length_moved memory
  rw [store]
  split
  case isTrue hnone =>
    refine ⟨_, rfl, hlength, ?_⟩
    rw [hnone, List.length_nil, Nat.add_zero, h.take_moved, List.append_nil]
  case isFalse =>
    rw [if_pos h.nonneg]
    have hwrite : writeAt (reader.moved memory) reader.m_availableBytes.toNat data = some _ :=
      if_pos (hlength ▸ hfits)
    refine ⟨_, hwrite, (length_writeAt hwrite).trans hlength, ?_⟩
    rw [take_writeAt hwrite, h.take_moved]

theorem read_spec (h : Sound content returned reader) (memory : Memory) :
    ∃ reader', reader.read memory = some reader' ∧ Sound content returned reader' ∧
      reader'.m_buffer ≠ none ∧ reader'.pending = reader.pending ∧
      (reader.pending ≠ [] → 0 < reader'.m_availableBytes) ∧
      (reader.pending = [] → reader'.m_reader.eof = true) := by
  have hnonneg := h.nonneg
  have hroom := h.room
  have hinside := h.bounded.inside hnonneg
  have havailable := h.length_available
  obtain ⟨hlength, hunread, heof, hend, hmore⟩ := InputStream.read_spec h.eof
    ((reader.m_bufferSize : Int) - reader.m_availableBytes).toNat
  generalize hgot : reader.m_reader.read
    ((reader.m_bufferSize : Int) - reader.m_availableBytes).toNat = got at *
  obtain ⟨buffer, hstore, hbuffer, htake⟩ :=
    h.store_spec memory (show _ + got.1.length ≤ _ by omega)
  have hread : reader.read memory = some { reader with
      m_startInBuffer := 0
      m_availableBytes := reader.m_availableBytes + got.1.length
      m_buffer := some buffer
      m_reader := got.2 } := by
    rw [FileReader.read, hgot]
    simp only [hstore]
    rfl
  have hpending : ∀ r, reader.read memory = some r → r.pending = reader.pending := by
    intro r hr
    obtain rfl := Option.some.inj (hread.symm.trans hr)
    rw [pending, pending, hunread, ← List.append_assoc, ← htake, available]
    simp only [Option.getD_some, List.drop_zero]
    rw [show (reader.m_availableBytes + (got.1.length : Int)).toNat =
      reader.m_availableBytes.toNat + got.1.length by omega]
  refine ⟨_, hread, ⟨h.active, hroom, (h.bounded.read hread).1, ?_,
    fun hnone => absurd hnone (Option.some_ne_none _), heof, ?_⟩, Option.some_ne_none _,
    hpending _ hread, ?_, ?_⟩
  · simp only
    omega
  · rw [hpending _ hread]
    exact h.whole
  · intro hne
    simp only
    by_cases hzero : reader.m_availableBytes = 0
    · -- nothing was available, so that something is read
      rw [hzero, Int.toNat_zero, List.length_eq_zero_iff] at havailable
      rw [pending, havailable, List.nil_append] at hne
      have hdata := List.length_pos_iff.mpr (hmore (by omega) hne)
      omega
    · omega
  · intro hnone
    rw [pending, List.append_eq_nil_iff] at hnone
    rw [hnone.1, List.length_nil] at havailable
    exact hend (by omega) hnone.2

theorem refill_spec (h : Sound content returned reader) {call : Call} (hsize : 1 ≤ call.size) :
    ∃ reader', reader.refill call = some reader' ∧ Sound content returned reader' ∧
      reader'.m_buffer ≠ none ∧ (reader.pending ≠ [] → 0 < reader'.m_availableBytes) ∧
      (reader.pending = [] → reader'.m_reader.eof = true) := by
  rw [refill]
  split
  case isTrue =>
    obtain ⟨reader', hread, hsound, hbuffer, -, hmore, hend⟩ := h.read_spec call.memory
    exact ⟨reader', hread, hsound, hbuffer, hmore, hend⟩
  case isFalse hle =>
    refine ⟨reader, rfl, h, fun hnone => ?_, fun _ => by omega, fun hnone => ?_⟩
    · have := h.null hnone
      omega
    · have hlength := h.length_available
      rw [pending, List.append_eq_nil_iff] at hnone
      rw [hnone.1, List.length_nil] at hlength
      omega

end Sound

/-- The scan stops at the end of the available bytes, and the byte behind them is a newline. -/
def StaleNewline (reader : FileReader) (call : Call) : Prop :=
  ∃ reader' bytes, reader.refill call = some reader' ∧
    reader'.visible call.memory = some bytes ∧ reader'.m_availableBytes ≤ call.size ∧
    (∀ j < reader'.m_availableBytes.toNat, bytes[j]? ≠ some newline) ∧
    bytes[reader'.m_availableBytes.toNat]? = some newline

/-- A stale newline is taken, and is not available. -/
theorem getline_of_staleNewline {reader : FileReader} {call : Call}
    (hactive : reader.m_active = true) (hbounded : reader.Bounded) (hsize : 1 ≤ call.size)
    (hstale : reader.StaleNewline call) :
    ∃ written reader', reader.getline call = some (written, reader') ∧
      reader'.m_availableBytes < 0 := by
  obtain ⟨reader', bytes, hrefill, hvisible, hle, hnone, hnewline⟩ := hstale
  obtain ⟨hbounded', hneg⟩ := hbounded.refill hsize hrefill
  have hlong := hbounded'.visible hneg hvisible
  refine ⟨_, _, getline_eq hactive hrefill hvisible hlong, ?_⟩
  have hscanned := scan_spec reader'.m_availableBytes call.size bytes
  have hk := hscanned.le
  simp only [taken]
  generalize scan reader'.m_availableBytes call.size 0 bytes = k at *
  have hall : k = reader'.m_availableBytes.toNat := by
    by_contra hne
    have hget := List.getElem?_eq_getElem (show k < bytes.length by omega)
    exact hnone k (by omega)
      (hget.trans (congrArg some (hscanned.stops _ hget (by omega) (by omega))))
  rw [hall, if_pos hnewline]
  omega

/-- A newline ends what is taken. -/
theorem newline_notMem_dropLast_taken (availableBytes size : Int) (bytes : List UInt8) :
    newline ∉ (bytes.take (taken availableBytes size bytes)).dropLast := by
  have hscanned := scan_spec availableBytes size bytes
  intro hmem
  obtain ⟨j, hj, hget⟩ := List.mem_iff_getElem.mp hmem
  rw [List.getElem_dropLast, List.getElem_take] at hget
  rw [List.length_dropLast, List.length_take] at hj
  have hbound : taken availableBytes size bytes ≤ scan availableBytes size 0 bytes + 1 := by
    simp only [taken]
    split <;> omega
  have hne := (hscanned.before j (by omega)).2.2
  rw [List.getElem?_eq_getElem (by omega), hget] at hne
  exact hne rfl

/-- Something is taken when something is available. -/
theorem taken_pos {availableBytes size : Int} {bytes : List UInt8} (havailable : 0 < availableBytes)
    (hsize : 1 ≤ size) (hlong : 0 < bytes.length) : 0 < taken availableBytes size bytes := by
  have hscanned := scan_spec availableBytes size bytes
  simp only [taken]
  split
  case isTrue => exact Nat.succ_pos _
  case isFalse hnewline =>
    by_contra hzero
    generalize scan availableBytes size 0 bytes = k at *
    obtain rfl : k = 0 := by omega
    have hget := List.getElem?_eq_getElem hlong
    exact hnewline (hget.trans (congrArg some (hscanned.stops _ hget havailable (by omega))))

namespace Sound

variable {content returned : List UInt8} {reader : FileReader}

/-- What is taken is available. -/
theorem taken_le_available {reader' : FileReader} {call : Call} {bytes : List UInt8}
    (h : Sound content returned reader') (hsize : 1 ≤ call.size)
    (hrefill : reader.refill call = some reader')
    (hvisible : reader'.visible call.memory = some bytes)
    (hstale : ¬ reader.StaleNewline call) :
    taken reader'.m_availableBytes call.size bytes ≤ reader'.m_availableBytes.toNat := by
  have hnonneg := h.nonneg
  have hscanned := scan_spec reader'.m_availableBytes call.size bytes
  have hk := hscanned.le
  simp only [taken]
  generalize scan reader'.m_availableBytes call.size 0 bytes = k at *
  split
  case isFalse => exact hk
  case isTrue hnewline =>
    by_contra hmore
    obtain rfl : k = reader'.m_availableBytes.toNat := by omega
    refine hstale ⟨reader', bytes, hrefill, hvisible, ?_, fun j hj => (hscanned.before j hj).2.2,
      hnewline⟩
    by_contra hlarge
    have := (hscanned.before (reader'.m_availableBytes.toNat - 1) (by omega)).2.1
    omega

/-- The rest of the bytes is available when some of them are returned. -/
theorem advance (h : Sound content returned reader) {t : Nat}
    (ht : t ≤ reader.m_availableBytes.toNat) {line : List UInt8}
    (hline : line = reader.available.take t) {reader' : FileReader}
    (hreader : reader' = { reader with
      m_startInBuffer := reader.m_startInBuffer + t
      m_availableBytes := reader.m_availableBytes - t }) :
    reader.pending = line ++ reader'.pending ∧ Sound content (returned ++ line) reader' := by
  have hnonneg := h.nonneg
  have hinside := h.bounded.inside hnonneg
  have hnull := h.null
  have hrest : reader'.available = reader.available.drop t := by
    rw [hreader, available, available, List.drop_take, List.drop_drop]
    simp only
    rw [show (reader.m_availableBytes - (t : Int)).toNat = reader.m_availableBytes.toNat - t
      by omega]
  have hpending : reader.pending = line ++ reader'.pending := by
    rw [pending, pending, hrest, hline, ← List.append_assoc, List.take_append_drop, hreader]
  refine ⟨hpending, ?_⟩
  have hwhole : content = (returned ++ line) ++ reader'.pending := by
    rw [List.append_assoc, ← hpending]
    exact h.whole
  subst hreader
  exact ⟨h.active, h.room, ⟨h.bounded.length, fun _ => by simp only; omega⟩, by simp only; omega,
    fun hnone => by have := hnull hnone; simp only; omega, h.eof, hwhole⟩

/-- A call that meets no stale newline returns the beginning of what is pending. -/
theorem getline_spec (h : Sound content returned reader) {call : Call} (hsize : 1 ≤ call.size)
    (hstale : ¬ reader.StaleNewline call) :
    ∃ line reader', reader.getline call = some (line ++ [0], reader') ∧
      Sound content (returned ++ line) reader' ∧ newline ∉ line.dropLast ∧
      (reader.pending ≠ [] → line ≠ []) ∧ (reader.pending = [] → reader'.eof = true) := by
  obtain ⟨reader₁, hrefill, hsound, hbuffer, hmore, hend⟩ := h.refill_spec hsize
  obtain ⟨buffer, hb⟩ := Option.ne_none_iff_exists'.mp hbuffer
  have hnonneg := hsound.nonneg
  have hinside := hsound.bounded.inside hnonneg
  have hlength := hsound.bounded.length buffer hb
  have hvisible : reader₁.visible call.memory =
      some ((buffer ++ [call.memory.behind]).drop reader₁.m_startInBuffer) := by
    rw [visible, hb]
    rfl
  have hlong := hsound.bounded.visible (fun hneg => by omega) hvisible
  have htaken := hsound.taken_le_available hsize hrefill hvisible hstale
  have hgetline := getline_eq h.active hrefill hvisible hlong
  have hpending : reader₁.pending = reader.pending :=
    List.append_cancel_left (hsound.whole.symm.trans h.whole)
  have hline : ∀ t ≤ reader₁.m_availableBytes.toNat,
      ((buffer ++ [call.memory.behind]).drop reader₁.m_startInBuffer).take t =
        reader₁.available.take t := by
    intro t ht
    rw [available, hb, Option.getD_some, List.take_take, Nat.min_eq_left ht,
      List.drop_append_of_le_length (by omega),
      List.take_append_of_le_length (by rw [List.length_drop]; omega)]
  obtain ⟨-, hsound'⟩ := hsound.advance htaken (hline _ htaken) rfl
  generalize (buffer ++ [call.memory.behind]).drop reader₁.m_startInBuffer = bytes at *
  refine ⟨_, _, hgetline, hsound', newline_notMem_dropLast_taken _ _ _, fun hne hnil => ?_,
    fun hnone => ?_⟩
  · have hpos := hmore hne
    have ht : 0 < taken reader₁.m_availableBytes call.size bytes :=
      taken_pos hpos hsize (by omega)
    have htake := congrArg List.length hnil
    rw [List.length_take, List.length_nil] at htake
    omega
  · have hzero : reader₁.m_availableBytes = 0 := by
      have havailable := hsound.length_available
      rw [pending, hnone, List.append_eq_nil_iff] at hpending
      rw [hpending.1, List.length_nil] at havailable
      omega
    rw [hzero, Int.toNat_zero] at htaken
    rw [FileReader.eof, if_pos hsound.active]
    simp only [hzero]
    rw [Nat.le_zero.mp htaken, hend hnone]
    rfl

end Sound

/-! ## Reading a file -/

/-- The string that stands in a buffer. -/
def cString (written : List UInt8) : List UInt8 :=
  written.takeWhile (· != 0)

theorem cString_append_zero {line : List UInt8} (h : 0 ∉ line) : cString (line ++ [0]) = line := by
  rw [cString, List.takeWhile_append_of_pos]
  · simp
  · intro byte hbyte
    exact bne_iff_ne.mpr fun hzero => h (hzero ▸ hbyte)

/-- The strings that are returned, and the reader, after some rounds of
`while(!reader.eof()) reader.getline(buffer, size)`. -/
def readLines (content : List UInt8) (calls : Nat → Call) :
    Nat → Option (List (List UInt8) × FileReader)
  | 0 => some ([], FileReader.initial.openFile content)
  | n + 1 => do
    let (lines, reader) ← readLines content calls n
    if reader.eof then
      return (lines, reader)
    else
      let (written, reader) ← reader.getline (calls n)
      return (lines ++ [cString written], reader)

/-- The loop ends, the strings are the file, and they have newlines at their ends only. -/
structure ReadsFaithfully (content : List UInt8) (calls : Nat → Call) : Prop where
  returns : ∀ n, ∃ lines reader, readLines content calls n = some (lines, reader)
  nonneg : ∀ n lines reader, readLines content calls n = some (lines, reader) →
    0 ≤ reader.m_availableBytes
  newlines : ∀ n lines reader, readLines content calls n = some (lines, reader) →
    ∀ line ∈ lines, newline ∉ line.dropLast
  ends : ∃ n lines reader, readLines content calls n = some (lines, reader) ∧ reader.eof = true
  whole : ∀ n lines reader, readLines content calls n = some (lines, reader) →
    reader.eof = true → lines.flatten = content

/-- No call of the loop meets a stale newline. -/
def MeetsNoStaleNewline (content : List UInt8) (calls : Nat → Call) : Prop :=
  ∀ n lines reader, readLines content calls n = some (lines, reader) → reader.eof = false →
    ¬ reader.StaleNewline (calls n)

theorem sound_openFile (content : List UInt8) :
    Sound content [] (FileReader.initial.openFile content) where
  active := rfl
  room := (by decide : 0 < 524288)
  bounded := ⟨fun buffer hbuffer => (by cases hbuffer), fun _ => (by decide : (0 : Int) ≤ 524288)⟩
  nonneg := Int.le_refl 0
  null := fun _ => rfl
  eof := fun h => (by cases h)
  whole := rfl

theorem readLines_succ {content : List UInt8} {calls : Nat → Call} {n : Nat}
    {lines : List (List UInt8)} {reader reader' : FileReader} {written : List UInt8}
    (hrun : readLines content calls n = some (lines, reader)) (heof : reader.eof = false)
    (hgetline : reader.getline (calls n) = some (written, reader')) :
    readLines content calls (n + 1) = some (lines ++ [cString written], reader') := by
  rw [readLines, hrun]
  simp only [Option.bind_eq_bind, Option.bind_some, heof, hgetline]
  rfl

theorem readLines_stay {content : List UInt8} {calls : Nat → Call} {n : Nat}
    {lines : List (List UInt8)} {reader : FileReader}
    (hrun : readLines content calls n = some (lines, reader)) (heof : reader.eof = true) :
    readLines content calls (n + 1) = some (lines, reader) := by
  rw [readLines, hrun]
  simp only [Option.bind_eq_bind, Option.bind_some, heof, if_true]
  rfl

theorem readLines_reached {content : List UInt8} {calls : Nat → Call}
    (hsizes : ∀ n, 2 ≤ (calls n).size) : ∀ n lines reader,
      readLines content calls n = some (lines, reader) → Reached reader := by
  intro n
  induction n with
  | zero =>
      intro lines reader hrun
      obtain ⟨-, rfl⟩ := Prod.mk.inj (Option.some.inj hrun)
      exact .openFile content .initial
  | succ n ih =>
      intro lines reader hrun
      rw [readLines] at hrun
      obtain ⟨⟨lines', reader'⟩, hbefore, hrun⟩ := Option.bind_eq_some_iff.mp hrun
      have hreached := ih lines' reader' hbefore
      simp only at hrun
      split at hrun
      case isTrue =>
        obtain ⟨-, rfl⟩ := Prod.mk.inj (Option.some.inj hrun)
        exact hreached
      case isFalse =>
        obtain ⟨⟨written, reader''⟩, hgetline, hrun⟩ := Option.bind_eq_some_iff.mp hrun
        obtain ⟨-, rfl⟩ := Prod.mk.inj (Option.some.inj hrun)
        exact hreached.getline (by have := hsizes n; omega) hgetline

/-- Each round returns the next bytes, and the last one notices the end of the file. -/
theorem readLines_spec {content : List UInt8} {calls : Nat → Call} (hcontent : 0 ∉ content)
    (hsizes : ∀ n, 2 ≤ (calls n).size) (hclean : MeetsNoStaleNewline content calls) :
    ∀ n, ∃ lines reader, readLines content calls n = some (lines, reader) ∧
      Sound content lines.flatten reader ∧ (∀ line ∈ lines, newline ∉ line.dropLast) ∧
      (reader.eof = true ∨ n + reader.pending.length ≤ content.length) := by
  intro n
  induction n with
  | zero =>
      refine ⟨[], _, rfl, sound_openFile content,
        fun line hline => absurd hline List.not_mem_nil, .inr ?_⟩
      rw [Nat.zero_add]
      exact Nat.le_refl _
  | succ n ih =>
      obtain ⟨lines, reader, hrun, hsound, hlines, hmeasure⟩ := ih
      cases heof : reader.eof with
      | true =>
          exact ⟨lines, reader, readLines_stay hrun heof, hsound, hlines, .inl heof⟩
      | false =>
          obtain ⟨line, reader', hgetline, hsound', hnewline, hmore, hend⟩ :=
            hsound.getline_spec (by have := hsizes n; omega) (hclean n lines reader hrun heof)
          have hpending : reader.pending = line ++ reader'.pending := by
            have hwhole := hsound.whole.symm.trans hsound'.whole
            rw [List.append_assoc] at hwhole
            exact List.append_cancel_left hwhole
          have hzero : 0 ∉ line := by
            intro hmem
            refine hcontent ?_
            rw [hsound.whole, hpending]
            exact List.mem_append_right _ (List.mem_append_left _ hmem)
          refine ⟨lines ++ [line], reader', ?_, ?_, ?_, ?_⟩
          · rw [readLines_succ hrun heof hgetline, cString_append_zero hzero]
          · rw [List.flatten_append, List.flatten_singleton]
            exact hsound'
          · intro line' hline'
            rcases List.mem_append.mp hline' with hbefore | hlast
            · exact hlines line' hbefore
            · rwa [List.mem_singleton.mp hlast]
          · by_cases hnone : reader.pending = []
            · exact .inl (hend hnone)
            · have hlength := congrArg List.length hpending
              have hpos := List.length_pos_iff.mpr (hmore hnone)
              rw [List.length_append] at hlength
              rcases hmeasure with htrue | hmeasure
              · rw [heof] at htrue
                cases htrue
              · exact .inr (by omega)

/-- The state of the loop when it has ended. -/
theorem whole_of_eof {content returned : List UInt8} {reader : FileReader}
    (h : Sound content returned reader) (heof : reader.eof = true) : returned = content := by
  rw [eof, if_pos h.active, Bool.and_eq_true, beq_iff_eq] at heof
  have havailable := h.length_available
  rw [heof.1, Int.toNat_zero, List.length_eq_zero_iff] at havailable
  rw [h.whole, pending, havailable, h.eof heof.2, List.append_nil, List.append_nil]

theorem meetsNoStaleNewline_of_faithful {content : List UInt8} {calls : Nat → Call}
    (hsizes : ∀ n, 2 ≤ (calls n).size) (h : ReadsFaithfully content calls) :
    MeetsNoStaleNewline content calls := by
  intro n lines reader hrun heof hstale
  have hactive : reader.m_active = true := by
    by_contra hnot
    rw [eof, if_neg hnot] at heof
    cases heof
  obtain ⟨written, reader', hgetline, hneg⟩ := getline_of_staleNewline hactive
    (readLines_reached hsizes n lines reader hrun).bounded (by have := hsizes n; omega) hstale
  have hnonneg := h.nonneg (n + 1) _ _ (readLines_succ hrun heof hgetline)
  omega

theorem faithful_of_meetsNoStaleNewline {content : List UInt8} {calls : Nat → Call}
    (hcontent : 0 ∉ content) (hsizes : ∀ n, 2 ≤ (calls n).size)
    (hclean : MeetsNoStaleNewline content calls) : ReadsFaithfully content calls := by
  have hspec := readLines_spec hcontent hsizes hclean
  have hsound : ∀ {n lines reader}, readLines content calls n = some (lines, reader) →
      Sound content lines.flatten reader ∧ ∀ line ∈ lines, newline ∉ line.dropLast := by
    intro n lines reader hrun
    obtain ⟨lines', reader', hrun', hsound, hlines, -⟩ := hspec n
    obtain ⟨rfl, rfl⟩ := Prod.mk.inj (Option.some.inj (hrun.symm.trans hrun'))
    exact ⟨hsound, hlines⟩
  constructor
  · intro n
    obtain ⟨lines, reader, hrun, -⟩ := hspec n
    exact ⟨lines, reader, hrun⟩
  · intro n lines reader hrun
    exact (hsound hrun).1.nonneg
  · intro n lines reader hrun
    exact (hsound hrun).2
  · obtain ⟨lines, reader, hrun, -, -, hmeasure⟩ := hspec (content.length + 1)
    refine ⟨_, lines, reader, hrun, ?_⟩
    rcases hmeasure with heof | hmeasure
    · exact heof
    · omega
  · intro n lines reader hrun heof
    exact whole_of_eof (hsound hrun).1 heof

/-- The file is read as it is, and to its end, exactly when no newline of earlier data is taken
for one of the file. -/
theorem readsFaithfully_iff {content : List UInt8} {calls : Nat → Call} (hcontent : 0 ∉ content)
    (hsizes : ∀ n, 2 ≤ (calls n).size) :
    ReadsFaithfully content calls ↔ MeetsNoStaleNewline content calls :=
  ⟨meetsNoStaleNewline_of_faithful hsizes, faithful_of_meetsNoStaleNewline hcontent hsizes⟩

/-- Without newlines nothing behind the available bytes is taken. -/
theorem taken_le_of_notMem {availableBytes size : Int} {bytes : List UInt8}
    (h : newline ∉ bytes) : taken availableBytes size bytes ≤ availableBytes.toNat := by
  have hle := (scan_spec availableBytes size bytes).le
  simp only [taken]
  rw [if_neg fun hnewline => h (List.mem_of_getElem? hnewline)]
  exact hle

theorem readsFaithfully_iff_short :
    ReadsFaithfully [97] fun _ => { size := 100, memory := blankMemory } := by
  refine (readsFaithfully_iff (by decide) fun _ => by decide).mpr ?_
  obtain ⟨reader₁, bytes, hrefill, hactive, havailable, heof, hvisible, hnewline⟩ :
      ∃ reader₁ bytes, (initial.openFile [97]).refill { size := 100, memory := blankMemory } =
        some reader₁ ∧ reader₁.m_active = true ∧ reader₁.m_availableBytes = 1 ∧
        reader₁.m_reader.eof = true ∧ reader₁.visible blankMemory = some bytes ∧ newline ∉ bytes :=
    ⟨_, _, refill_first rfl rfl rfl rfl (by decide) (by decide), rfl, rfl, by decide, rfl,
      newline_notMem_blank (by decide) _ _⟩
  have hlong := ((sound_openFile [97]).bounded.refill (by decide) hrefill).1.visible
    (fun hneg => absurd (havailable ▸ hneg) (by decide)) hvisible
  have htaken : taken reader₁.m_availableBytes 100 bytes = 1 := by
    have hle := @taken_le_of_notMem reader₁.m_availableBytes 100 bytes hnewline
    have hpos := @taken_pos reader₁.m_availableBytes 100 bytes (by omega) (by decide) (by omega)
    omega
  rw [havailable] at htaken
  have hends : ∀ n, ∃ lines reader, readLines [97]
      (fun _ => { size := 100, memory := blankMemory }) (n + 1) = some (lines, reader) ∧
        reader.eof = true := by
    intro n
    induction n with
    | zero =>
        refine ⟨_, _, readLines_succ rfl rfl (getline_eq rfl hrefill hvisible hlong), ?_⟩
        simp only [eof, hactive, if_true, havailable, htaken, heof]
        decide
    | succ n ih =>
        obtain ⟨lines, reader, hrun, heof⟩ := ih
        exact ⟨lines, reader, readLines_stay hrun heof, heof⟩
  intro n lines reader hrun hopen hstale
  cases n with
  | zero =>
      obtain ⟨-, rfl⟩ := Prod.mk.inj (Option.some.inj hrun)
      obtain ⟨reader', bytes', hrefill', hvisible', -, -, hlast⟩ := hstale
      obtain rfl := Option.some.inj (hrefill.symm.trans hrefill')
      obtain rfl := Option.some.inj (hvisible.symm.trans hvisible')
      exact hnewline (List.mem_of_getElem? hlast)
  | succ n =>
      obtain ⟨lines', reader', hrun', hend⟩ := hends n
      obtain ⟨-, rfl⟩ := Prod.mk.inj (Option.some.inj (hrun.symm.trans hrun'))
      rw [hend] at hopen
      cases hopen

/-- A line that ends before the available bytes and the room do. -/
theorem taken_of_line {availableBytes size : Int} {line rest : List UInt8} (h : newline ∉ line)
    (havailable : (line.length : Int) < availableBytes) (hsize : (line.length : Int) < size) :
    taken availableBytes size (line ++ newline :: rest) = line.length + 1 := by
  have hscanned := scan_spec availableBytes size (line ++ newline :: rest)
  have hlast : (line ++ newline :: rest)[line.length]? = some newline := by
    rw [List.getElem?_append_right (Nat.le_refl _), Nat.sub_self, List.getElem?_cons_zero]
  have hscan : scan availableBytes size 0 (line ++ newline :: rest) = line.length := by
    generalize scan availableBytes size 0 (line ++ newline :: rest) = k at *
    rcases Nat.lt_trichotomy k line.length with hbefore | heq | hbehind
    · have hget : (line ++ newline :: rest)[k]? = some (line.get ⟨k, hbefore⟩) := by
        rw [List.getElem?_append_left hbefore, List.getElem?_eq_getElem hbefore]
        rfl
      have hbyte := hscanned.stops _ hget (by omega) (by omega)
      exact absurd (hbyte ▸ List.get_mem line ⟨k, hbefore⟩) h
    · exact heq
    · exact absurd hlast (hscanned.before _ hbehind).2.2
  simp only [taken]
  rw [hscan, if_pos hlast]

/-- Such a line is returned with its newline. -/
theorem getline_of_line {reader reader' : FileReader} {call : Call} {line rest : List UInt8}
    (h : newline ∉ line) (hactive : reader.m_active = true)
    (hrefill : reader.refill call = some reader')
    (hvisible : reader'.visible call.memory = some (line ++ newline :: rest))
    (havailable : (line.length : Int) < reader'.m_availableBytes)
    (hlong : reader'.m_availableBytes ≤ line.length + rest.length)
    (hsize : (line.length : Int) < call.size) :
    ∃ written, reader.getline call = some (written, { reader' with
      m_startInBuffer := reader'.m_startInBuffer + (line.length + 1)
      m_availableBytes := reader'.m_availableBytes - (line.length + 1) }) := by
  have hbytes : reader'.m_availableBytes.toNat < (line ++ newline :: rest).length := by
    rw [List.length_append, List.length_cons]
    omega
  have hgetline := getline_eq hactive hrefill hvisible hbytes
  rw [taken_of_line h havailable hsize, Int.natCast_succ] at hgetline
  exact ⟨_, hgetline⟩

/-- When the file is read and all of it returned, the buffer stays as it is. -/
theorem refill_drained {reader : FileReader} {buffer : List UInt8}
    (hstart : reader.m_bufferSize ≤ reader.m_startInBuffer)
    (havailable : reader.m_availableBytes = 0) (hbuffer : reader.m_buffer = some buffer)
    (hunread : reader.m_reader.unread = []) (call : Call) (hsize : 1 ≤ call.size) :
    reader.refill call = some { reader with
      m_startInBuffer := 0
      m_availableBytes := 0
      m_buffer := some buffer
      m_reader := (reader.m_reader.read reader.m_bufferSize).2 } := by
  have hmoved : reader.moved call.memory = buffer := by
    rw [moved, hbuffer, Nat.sub_eq_zero_of_le hstart]
    rfl
  have hnothing : (reader.m_reader.read reader.m_bufferSize).1 = [] := by
    rw [InputStream.read]
    split
    · rfl
    · rw [hunread, List.take_nil]
  rw [refill, havailable, if_pos (by omega), read, havailable, Int.sub_zero, Int.toNat_natCast,
    hnothing, hmoved]
  rfl

theorem eof_eq_false {reader : FileReader} (hactive : reader.m_active = true)
    (hopen : reader.m_reader.eof = false) : reader.eof = false := by
  rw [eof, if_pos hactive, hopen, Bool.and_false]

/-- When the last line ends at the end of the buffer and is returned before the end of the file
is known, the newline at the beginning of the buffer is taken for another line. -/
theorem staleNewline_of_last {reader : FileReader} {line : List UInt8} (hline : newline ∉ line)
    (hactive : reader.m_active = true) (hstart : reader.m_startInBuffer = 1)
    (havailable : reader.m_availableBytes = line.length + 1)
    (hbuffer : reader.m_buffer = some (newline :: (line ++ [newline])))
    (hunread : reader.m_reader.unread = []) (hopen : reader.m_reader.eof = false)
    (hfull : line.length + 2 = reader.m_bufferSize) {call next : Call}
    (hsize : call.size = line.length + 1) (hnext : 1 ≤ next.size) :
    ∃ written reader', reader.getline call = some (written, reader') ∧ reader'.eof = false ∧
      reader'.StaleNewline next := by
  have hrefill : reader.refill call = some reader := if_neg (by omega)
  have hvisible : reader.visible call.memory =
      some (line ++ newline :: [call.memory.behind]) := by
    simp only [visible, hbuffer, hstart, Option.map_some, List.cons_append, List.drop_succ_cons,
      List.drop_zero, List.append_assoc, List.nil_append]
  obtain ⟨written, hgetline⟩ := getline_of_line hline hactive hrefill hvisible (by omega)
    (by rw [havailable]; exact Int.le_refl _) (by omega)
  refine ⟨written, _, hgetline, eof_eq_false hactive hopen, ?_⟩
  have hrefill' := @refill_drained { reader with
    m_startInBuffer := reader.m_startInBuffer + (line.length + 1)
    m_availableBytes := reader.m_availableBytes - (line.length + 1) } _
    (show reader.m_bufferSize ≤ reader.m_startInBuffer + (line.length + 1) by omega)
    (show reader.m_availableBytes - (line.length + 1) = 0 by omega) hbuffer hunread next hnext
  exact ⟨_, _, hrefill', rfl, Int.le_trans Int.one_nonneg hnext,
    fun j hj => absurd hj (Nat.not_lt_zero j), rfl⟩

/-- A file that fills the buffer, of an empty line and one other line. When both are returned,
the end of the file is not known yet, and the newline of the first line stands at the beginning
of the buffer. -/
theorem staleNewline_of_full {reader : FileReader} {line : List UInt8} (hline : newline ∉ line)
    (hactive : reader.m_active = true) (hstart : reader.m_startInBuffer = 0)
    (havailable : reader.m_availableBytes = 0) (hbuffer : reader.m_buffer = none)
    (heof : reader.m_reader.eof = false)
    (hcontent : reader.m_reader.unread = newline :: (line ++ [newline]))
    (hfull : line.length + 2 = reader.m_bufferSize) {first second third : Call}
    (hfirst : 1 ≤ first.size) (hsecond : second.size = line.length + 1)
    (hthird : 1 ≤ third.size) :
    ∃ written reader₁ written' reader₂, reader.getline first = some (written, reader₁) ∧
      reader₁.eof = false ∧ reader₁.getline second = some (written', reader₂) ∧
      reader₂.eof = false ∧ reader₂.StaleNewline third := by
  have hlength : reader.m_reader.unread.length = reader.m_bufferSize := by
    rw [hcontent, List.length_cons, List.length_append, List.length_singleton]
    omega
  have hrefill := refill_first hstart havailable hbuffer heof (Nat.le_of_eq hlength) hfirst
  have hrest : ((List.range reader.m_bufferSize).map first.memory.allocated).drop
      reader.m_bufferSize = [] :=
    List.drop_eq_nil_of_le (Nat.le_of_eq (by rw [List.length_map, List.length_range]))
  rw [hlength, hrest, List.append_nil, hcontent] at hrefill
  have hopen := decide_eq_false (Nat.lt_irrefl reader.m_bufferSize)
  -- the first line is empty
  obtain ⟨written, hgetline⟩ := @getline_of_line _ _ _ [] (line ++ [newline] ++
    [first.memory.behind]) List.not_mem_nil hactive hrefill rfl
    (by simp only [List.length_nil]; omega)
    (by simp only [List.length_nil, List.length_append, List.length_singleton]; omega)
    (by simp only [List.length_nil]; omega)
  obtain ⟨written', reader₂, hlast⟩ := @staleNewline_of_last { reader with
    m_startInBuffer := 1
    m_availableBytes := reader.m_bufferSize - 1
    m_buffer := some (newline :: (line ++ [newline]))
    m_reader := { unread := [], eof := decide (reader.m_bufferSize < reader.m_bufferSize) } } line
    hline hactive rfl (show (reader.m_bufferSize : Int) - 1 = line.length + 1 by omega) rfl rfl
    hopen hfull second third hsecond hthird
  exact ⟨written, _, written', reader₂, hgetline, eof_eq_false hactive hopen, hlast⟩

/-- A buffer full of bytes: an empty line and one other line. -/
def fullBuffer : List UInt8 :=
  newline :: (List.replicate 524286 120 ++ [newline])

/-- Room for the buffer, for the second line, and for two bytes from then on. -/
def fullBufferCalls : Nat → Call
  | 0 => { size := 524288, memory := blankMemory }
  | 1 => { size := 524287, memory := blankMemory }
  | _ => { size := 2, memory := blankMemory }

/-- The third call returns a newline that is not in the file, and makes the number of available
bytes negative. -/
theorem fullBuffer_misread : ¬ ReadsFaithfully fullBuffer fullBufferCalls := by
  intro h
  obtain ⟨written, reader₁, written', reader₂, hfirst, hopen₁, hsecond, hopen₂, hstale⟩ :=
    @staleNewline_of_full (initial.openFile fullBuffer) (List.replicate 524286 120)
      (fun hmem => absurd (List.eq_of_mem_replicate hmem) (by decide)) rfl rfl rfl rfl rfl rfl
      (by rw [List.length_replicate]; rfl) (fullBufferCalls 0) (fullBufferCalls 1)
      (fullBufferCalls 2) (by decide) (by rw [List.length_replicate]; rfl) (by decide)
  have hsizes : ∀ n, 2 ≤ (fullBufferCalls n).size := by
    intro n
    match n with
    | 0 => decide
    | 1 => decide
    | n + 2 => exact Int.le_refl 2
  exact meetsNoStaleNewline_of_faithful hsizes h 2 _ _
    (readLines_succ (readLines_succ rfl rfl hfirst) hopen₁ hsecond) hopen₂ hstale

end FileReader

end RayPlatform
