import RayPlatform.Core.MessageDispatch
import RayPlatform.Lib.Traversal
import RayPlatform.Lib.TransitionSystem

/-!
# TickLogger

The slave modes that were current one after the other, with their ticks and the messages
received and sent, in parallel vectors. A print closes the current entry, writes one row
for each mode, and empties the vectors but those of the messages.

* `ModeRow` — a mode with its ticks, and what was logged while it was current;
* `Print.Exact` — the vectors are aligned and the rows are those of the modes;
* `tickSystem_exact` — the runs whose prints are all exact;
* `tickSystem_first` — no print but the first one can be.
-/

namespace RayPlatform

open Lib

abbrev SlaveMode := Int

structure TickLogger where
  slaveCounts : List Nat
  slaveModes : List SlaveMode
  /-- milliseconds -/
  slaveStarts : List Nat
  slaveEnds : List Nat
  receivedMessageCounts : List Nat
  sentMessageCounts : List Nat
  lastSlaveMode : SlaveMode
  slaveCount : Nat
  receivedMessageCount : Nat
  sentMessageCount : Nat
  deriving DecidableEq, Repr

/-- A row of the file, with the name of the mode left as its handle. -/
structure TickRow where
  index : Nat
  slaveMode : SlaveMode
  realStart : Int
  realEnd : Int
  delta : Int
  ticks : Nat
  granularity : Nat
  received : Nat
  receptionSpeed : Nat
  sent : Nat
  sendingSpeed : Nat
  deriving DecidableEq, Repr

/-- A number as an `int`. -/
def asInt (x : Int) : Int :=
  x.bmod (2 ^ 32)

/-- A number as an `uint64_t`. -/
def asUInt64 (x : Int) : Nat :=
  (x % 2 ^ 64).toNat

namespace TickLogger

/-- The constructor leaves the two counters of messages as they are. -/
def constructor (receivedMessageCount sentMessageCount : Nat) : TickLogger :=
  { slaveCounts := []
    slaveModes := []
    slaveStarts := []
    slaveEnds := []
    receivedMessageCounts := []
    sentMessageCounts := []
    lastSlaveMode := INVALID_HANDLE
    slaveCount := 0
    receivedMessageCount := receivedMessageCount
    sentMessageCount := sentMessageCount }

/-- add the last entry -/
def addEntry (logger : TickLogger) (stamp : Nat) : TickLogger :=
  { logger with
    slaveModes := logger.slaveModes ++ [logger.lastSlaveMode]
    slaveCounts := logger.slaveCounts ++ [logger.slaveCount]
    slaveEnds := logger.slaveEnds ++ [stamp]
    receivedMessageCounts := logger.receivedMessageCounts ++ [logger.receivedMessageCount]
    receivedMessageCount := 0
    sentMessageCounts := logger.sentMessageCounts ++ [logger.sentMessageCount]
    sentMessageCount := 0 }

/-- start the new entry -/
def startEntry (logger : TickLogger) (i : SlaveMode) (stamp : Nat) : TickLogger :=
  { logger with
    lastSlaveMode := i
    slaveCount := 0
    slaveStarts := logger.slaveStarts ++ [stamp] }

def logSlaveTick (logger : TickLogger) (i : SlaveMode) (time : Nat) : TickLogger :=
  let logger :=
    -- this case occurs once during the first call
    if logger.lastSlaveMode = INVALID_HANDLE then logger.startEntry i time
    -- this is the same as the last one
    else if i = logger.lastSlaveMode then logger
    else (logger.addEntry time).startEntry i time
  { logger with slaveCount := logger.slaveCount + 1 }

def logReceivedMessage (logger : TickLogger) : TickLogger :=
  { logger with receivedMessageCount := logger.receivedMessageCount + 1 }

def logSendMessage (logger : TickLogger) : TickLogger :=
  { logger with sentMessageCount := logger.sentMessageCount + 1 }

/-- The messages of a second. -/
def speed (messages : Nat) (delta : Int) : Nat :=
  if delta ≠ 0 then asUInt64 (messages * 1000) / asUInt64 delta else messages

/-- Row `i` of a print; there is none where a vector has no element `i`, or without ticks. -/
def rowAt (logger : TickLogger) (i : Nat) : Option TickRow := do
  let firstTime : Nat ← logger.slaveStarts[0]?
  let startTime : Nat ← logger.slaveStarts[i]?
  let endTime : Nat ← logger.slaveEnds[i]?
  let ticks : Nat ← logger.slaveCounts[i]?
  let received : Nat ← logger.receivedMessageCounts[i]?
  let sent : Nat ← logger.sentMessageCounts[i]?
  let slaveMode : SlaveMode ← logger.slaveModes[i]?
  let realStart := asInt ((startTime : Int) - firstTime)
  let realEnd := asInt ((endTime : Int) - firstTime)
  let delta := asInt (realEnd - realStart)
  -- the granularity is divided by the number of ticks
  if ticks = 0 then none
  else
    return {
      index := i
      slaveMode := slaveMode
      realStart := realStart
      realEnd := realEnd
      delta := delta
      ticks := ticks
      granularity := asUInt64 (delta * (1000 * 1000)) / ticks
      received := received
      receptionSpeed := speed received delta
      sent := sent
      sendingSpeed := speed sent delta }

def rows (logger : TickLogger) : Option (List TickRow) :=
  (List.range logger.slaveModes.length).mapM logger.rowAt

/-- What `printSlaveTicks` prints: the vectors with the last entry. -/
def lastEntry (logger : TickLogger) (time : Nat) : TickLogger :=
  { logger.addEntry time with lastSlaveMode := INVALID_HANDLE, slaveCount := 0 }

def printSlaveTicks (logger : TickLogger) (time : Nat) : TickLogger × Option (List TickRow) :=
  let logger := logger.lastEntry time
  ({ logger with slaveModes := [], slaveCounts := [], slaveStarts := [], slaveEnds := [] },
    logger.rows)

end TickLogger

/-! ## Runs -/

/-- A mode that was current. -/
structure ModeRow where
  mode : SlaveMode
  ticks : Nat
  received : Nat
  sent : Nat
  deriving DecidableEq, Repr

def TickRow.modeRow (row : TickRow) : ModeRow :=
  ⟨row.slaveMode, row.ticks, row.received, row.sent⟩

/-- A print: the vectors, the rows, and the modes since the print before. -/
structure Print where
  logger : TickLogger
  rows : Option (List TickRow)
  expected : List ModeRow
  deriving DecidableEq, Repr

/-- The vectors are aligned, and each row has what was logged while its mode was current. -/
structure Print.Exact (p : Print) : Prop where
  counts : p.logger.slaveCounts.length = p.logger.slaveModes.length
  received : p.logger.receivedMessageCounts.length = p.logger.slaveModes.length
  sent : p.logger.sentMessageCounts.length = p.logger.slaveModes.length
  rows : ∃ rows, p.rows = some rows ∧ rows.map TickRow.modeRow = p.expected

/-- The logger, the modes since the last print, and the prints. -/
structure TickClient where
  logger : TickLogger
  /-- the modes before the current one -/
  finished : List ModeRow
  current : Option ModeRow
  printed : List Print
  deriving DecidableEq, Repr

inductive TickCall
  | logSlaveTick (i : SlaveMode) (time : Nat)
  | logReceivedMessage
  | logSendMessage
  | printSlaveTicks (time : Nat)

namespace TickClient

def logSlaveTick (c : TickClient) (i : SlaveMode) (time : Nat) : TickClient :=
  let logger := c.logger.logSlaveTick i time
  match c.current with
  | none => { c with logger := logger, current := some ⟨i, 1, 0, 0⟩ }
  | some row =>
      if i = row.mode then
        { c with logger := logger, current := some { row with ticks := row.ticks + 1 } }
      else
        { c with
          logger := logger
          finished := c.finished ++ [row]
          current := some ⟨i, 1, 0, 0⟩ }

def logReceivedMessage (c : TickClient) : TickClient :=
  { c with
    logger := c.logger.logReceivedMessage
    current := c.current.map fun row => { row with received := row.received + 1 } }

def logSendMessage (c : TickClient) : TickClient :=
  { c with
    logger := c.logger.logSendMessage
    current := c.current.map fun row => { row with sent := row.sent + 1 } }

/-- What a print would be now. -/
def print (c : TickClient) (time : Nat) : Print :=
  { logger := c.logger.lastEntry time
    rows := (c.logger.printSlaveTicks time).2
    expected := c.finished ++ c.current.toList }

def printSlaveTicks (c : TickClient) (time : Nat) : TickClient :=
  { logger := (c.logger.printSlaveTicks time).1
    finished := []
    current := none
    printed := c.printed ++ [c.print time] }

end TickClient

def tickSystem : TransitionSystem TickClient TickCall :=
  { init := fun c => ∃ receivedMessageCount sentMessageCount,
      c = ⟨.constructor receivedMessageCount sentMessageCount, [], none, []⟩
    step := fun c call c' =>
      match call with
      | .logSlaveTick i time => c' = c.logSlaveTick i time
      | .logReceivedMessage => c' = c.logReceivedMessage
      | .logSendMessage => c' = c.logSendMessage
      | .printSlaveTicks time => c' = c.printSlaveTicks time }

/-- A mode is not `INVALID_HANDLE` and starts with no message counted; at a print a mode is
current, and no counts of an earlier print are left. -/
def MeetsTicks (c : TickClient) : TickCall → Prop
  | .logSlaveTick i _ => i ≠ INVALID_HANDLE ∧
      (c.logger.lastSlaveMode = INVALID_HANDLE →
        c.logger.receivedMessageCount = 0 ∧ c.logger.sentMessageCount = 0)
  | .printSlaveTicks _ => c.logger.lastSlaveMode ≠ INVALID_HANDLE ∧
      c.logger.receivedMessageCounts.length = c.logger.slaveModes.length
  | _ => True

/-! ## Rows -/

/-- Aligned vectors print the modes that they are made of. -/
theorem TickLogger.rows_of_aligned {logger : TickLogger} {modes : List ModeRow}
    (hmodes : logger.slaveModes = modes.map ModeRow.mode)
    (hcounts : logger.slaveCounts = modes.map ModeRow.ticks)
    (hreceived : logger.receivedMessageCounts = modes.map ModeRow.received)
    (hsent : logger.sentMessageCounts = modes.map ModeRow.sent)
    (hstarts : logger.slaveStarts.length = modes.length)
    (hends : logger.slaveEnds.length = modes.length)
    (hticks : ∀ row ∈ modes, row.ticks ≠ 0) :
    ∃ rows, logger.rows = some rows ∧ rows.map TickRow.modeRow = modes := by
  rw [TickLogger.rows, hmodes, List.length_map]
  refine mapM_range_of_forall fun i hi => ?_
  obtain ⟨firstTime, hfirst⟩ : ∃ t, logger.slaveStarts[0]? = some t :=
    ⟨_, List.getElem?_eq_getElem (by omega)⟩
  obtain ⟨startTime, hstart⟩ : ∃ t, logger.slaveStarts[i]? = some t :=
    ⟨_, List.getElem?_eq_getElem (by omega)⟩
  obtain ⟨endTime, hend⟩ : ∃ t, logger.slaveEnds[i]? = some t :=
    ⟨_, List.getElem?_eq_getElem (by omega)⟩
  have hcolumn : ∀ {α : Type} (column : ModeRow → α),
      (modes.map column)[i]? = some (column modes[i]) := fun column => by
    rw [List.getElem?_map, List.getElem?_eq_getElem hi]
    rfl
  have hpos := hticks _ (List.getElem_mem hi)
  simp only [TickLogger.rowAt, hfirst, hstart, hend, hmodes, hcounts, hreceived, hsent,
    hcolumn, Option.bind_eq_bind, Option.bind_some, if_neg hpos]
  exact ⟨_, rfl, rfl⟩

/-! ## The invariant -/

/-- The logger counts for the current mode. -/
def TickLogger.Current (logger : TickLogger) : Option ModeRow → Prop
  | none => logger.lastSlaveMode = INVALID_HANDLE
  | some row => logger.lastSlaveMode = row.mode ∧ row.mode ≠ INVALID_HANDLE ∧
      logger.slaveCount = row.ticks ∧ logger.receivedMessageCount = row.received ∧
      logger.sentMessageCount = row.sent

namespace TickClient

structure Inv (c : TickClient) : Prop where
  modes : c.logger.slaveModes = c.finished.map ModeRow.mode
  counts : c.logger.slaveCounts = c.finished.map ModeRow.ticks
  /-- the counts of earlier prints are still there -/
  messages : ∃ received sent : List Nat, received.length = sent.length ∧
    c.logger.receivedMessageCounts = received ++ c.finished.map ModeRow.received ∧
    c.logger.sentMessageCounts = sent ++ c.finished.map ModeRow.sent
  starts : c.logger.slaveStarts.length = (c.finished ++ c.current.toList).length
  ends : c.logger.slaveEnds.length = c.finished.length
  current : c.logger.Current c.current
  ticks : ∀ row ∈ c.finished ++ c.current.toList, row.ticks ≠ 0
  printed : ∀ p ∈ c.printed, p.Exact

variable {c : TickClient}

/-- With a current mode, a print is exact if and only if no counts of earlier prints are
left. -/
theorem Inv.print_exact_iff (h : Inv c) (time : Nat)
    (hmode : c.logger.lastSlaveMode ≠ INVALID_HANDLE) :
    (c.print time).Exact ↔
      c.logger.receivedMessageCounts.length = c.logger.slaveModes.length := by
  obtain ⟨received, sent, hstale, hreceived, hsent⟩ := h.messages
  obtain ⟨row, hrow⟩ : ∃ row, c.current = some row := by
    cases hcurrent : c.current with
    | none =>
        have hnone := h.current
        rw [hcurrent] at hnone
        exact absurd hnone hmode
    | some row => exact ⟨row, rfl⟩
  have hcurrent := h.current
  have hstarts := h.starts
  have hends := h.ends
  have hticks := h.ticks
  rw [hrow] at hcurrent hstarts hticks
  obtain ⟨hlast, -, hcount, hreceivedNow, hsentNow⟩ := hcurrent
  constructor
  · intro hexact
    have hlength := hexact.received
    simpa [print, TickLogger.lastEntry, TickLogger.addEntry] using hlength
  · intro hlength
    obtain rfl : received = [] := by
      rw [hreceived, h.modes] at hlength
      simpa using hlength
    obtain rfl : sent = [] := List.eq_nil_of_length_eq_zero hstale.symm
    have hmodes' : (c.logger.lastEntry time).slaveModes =
        (c.finished ++ [row]).map ModeRow.mode := by
      simp [TickLogger.lastEntry, TickLogger.addEntry, h.modes, hlast]
    have hcounts' : (c.logger.lastEntry time).slaveCounts =
        (c.finished ++ [row]).map ModeRow.ticks := by
      simp [TickLogger.lastEntry, TickLogger.addEntry, h.counts, hcount]
    have hreceived' : (c.logger.lastEntry time).receivedMessageCounts =
        (c.finished ++ [row]).map ModeRow.received := by
      simp [TickLogger.lastEntry, TickLogger.addEntry, hreceived, hreceivedNow]
    have hsent' : (c.logger.lastEntry time).sentMessageCounts =
        (c.finished ++ [row]).map ModeRow.sent := by
      simp [TickLogger.lastEntry, TickLogger.addEntry, hsent, hsentNow]
    have hends' : (c.logger.lastEntry time).slaveEnds.length = (c.finished ++ [row]).length := by
      simp [TickLogger.lastEntry, TickLogger.addEntry, hends]
    have hexpected : (c.print time).expected = c.finished ++ [row] := by
      simp [print, hrow]
    refine ⟨?_, ?_, ?_, ?_⟩
    · simp only [print, hcounts', hmodes', List.length_map]
    · simp only [print, hreceived', hmodes', List.length_map]
    · simp only [print, hsent', hmodes', List.length_map]
    · rw [hexpected]
      exact TickLogger.rows_of_aligned hmodes' hcounts' hreceived' hsent' hstarts hends' hticks

theorem Inv.logSlaveTick (h : Inv c) {i : SlaveMode} (hi : i ≠ INVALID_HANDLE)
    (hzero : c.logger.lastSlaveMode = INVALID_HANDLE →
      c.logger.receivedMessageCount = 0 ∧ c.logger.sentMessageCount = 0) (time : Nat) :
    Inv (c.logSlaveTick i time) := by
  obtain ⟨received, sent, hstale, hreceived, hsent⟩ := h.messages
  have hcurrent := h.current
  have hstarts := h.starts
  have hticks := h.ticks
  unfold TickClient.logSlaveTick TickLogger.logSlaveTick
  cases hrow : c.current with
  | none =>
      rw [hrow] at hcurrent hstarts hticks
      obtain ⟨hreceivedZero, hsentZero⟩ := hzero hcurrent
      have hlast : c.logger.lastSlaveMode = INVALID_HANDLE := hcurrent
      simp only [hlast, if_true]
      refine ⟨h.modes, h.counts, ⟨received, sent, hstale, hreceived, hsent⟩, ?_, h.ends,
        ⟨rfl, hi, rfl, hreceivedZero, hsentZero⟩, fun row hmem => ?_, h.printed⟩
      · simpa [TickLogger.startEntry] using hstarts
      · rcases List.mem_append.mp hmem with hmem | hmem
        · exact hticks row (List.mem_append_left _ hmem)
        · obtain rfl := List.mem_singleton.mp hmem
          exact Nat.one_ne_zero
  | some row =>
      rw [hrow] at hcurrent hstarts hticks
      obtain ⟨hlast, hvalid, hcount, hreceivedNow, hsentNow⟩ := hcurrent
      have hne : c.logger.lastSlaveMode ≠ INVALID_HANDLE := hlast ▸ hvalid
      by_cases hsame : i = row.mode
      · simp only [hlast, if_neg hvalid, if_pos hsame]
        refine ⟨h.modes, h.counts, ⟨received, sent, hstale, hreceived, hsent⟩, ?_, h.ends,
          ⟨rfl, hvalid, congrArg Nat.succ hcount, hreceivedNow, hsentNow⟩, fun other hmem => ?_,
          h.printed⟩
        · simpa using hstarts
        · rcases List.mem_append.mp hmem with hmem | hmem
          · exact hticks other (List.mem_append_left _ hmem)
          · obtain rfl := List.mem_singleton.mp hmem
            exact Nat.succ_ne_zero _
      · simp only [hlast, if_neg hvalid, if_neg hsame]
        refine ⟨?_, ?_, ⟨received, sent, hstale, ?_, ?_⟩, ?_, ?_, ⟨rfl, hi, rfl, rfl, rfl⟩,
          fun other hmem => ?_, h.printed⟩
        · simp [TickLogger.startEntry, TickLogger.addEntry, h.modes, hlast]
        · simp [TickLogger.startEntry, TickLogger.addEntry, h.counts, hcount]
        · simp [TickLogger.startEntry, TickLogger.addEntry, hreceived, hreceivedNow]
        · simp [TickLogger.startEntry, TickLogger.addEntry, hsent, hsentNow]
        · simpa [TickLogger.startEntry, TickLogger.addEntry] using hstarts
        · simp [TickLogger.startEntry, TickLogger.addEntry, h.ends]
        · rcases List.mem_append.mp hmem with hmem | hmem
          · exact hticks other (by simpa using hmem)
          · obtain rfl := List.mem_singleton.mp hmem
            exact Nat.one_ne_zero

/-- Messages are logged, for the current mode if there is one. -/
theorem Inv.logMessages (h : Inv c) (received sent : Nat) :
    Inv { c with
      logger := { c.logger with
        receivedMessageCount := c.logger.receivedMessageCount + received
        sentMessageCount := c.logger.sentMessageCount + sent }
      current := c.current.map fun row =>
        { row with received := row.received + received, sent := row.sent + sent } } := by
  have hcurrent := h.current
  have hstarts := h.starts
  have hticks := h.ticks
  cases hrow : c.current with
  | none =>
      rw [hrow] at hcurrent hstarts hticks
      exact ⟨h.modes, h.counts, h.messages, hstarts, h.ends, hcurrent, hticks, h.printed⟩
  | some row =>
      rw [hrow] at hcurrent hstarts hticks
      obtain ⟨hlast, hvalid, hcount, hreceived, hsent⟩ := hcurrent
      refine ⟨h.modes, h.counts, h.messages, ?_, h.ends,
        ⟨hlast, hvalid, hcount, congrArg (· + received) hreceived, congrArg (· + sent) hsent⟩,
        fun other hmem => ?_, h.printed⟩
      · simpa using hstarts
      · rcases List.mem_append.mp hmem with hmem | hmem
        · exact hticks other (List.mem_append_left _ hmem)
        · obtain rfl := List.mem_singleton.mp hmem
          exact hticks row (List.mem_append_right _ (List.mem_singleton_self row))

/-- After a print all counts of messages are left over. -/
theorem Inv.printSlaveTicks (h : Inv c) (time : Nat) (hexact : (c.print time).Exact) :
    Inv (c.printSlaveTicks time) := by
  refine ⟨rfl, rfl, ?_, rfl, ?_, rfl, fun row hrow => absurd hrow List.not_mem_nil,
    fun p hp => ?_⟩
  · refine ⟨_, _, ?_, (List.append_nil _).symm, (List.append_nil _).symm⟩
    exact hexact.received.trans hexact.sent.symm
  · rfl
  · rcases List.mem_append.mp hp with hp | hp
    · exact h.printed p hp
    · rw [List.mem_singleton.mp hp]
      exact hexact

theorem inv_inductive : (tickSystem.restrict MeetsTicks).Inductive Inv := by
  refine ⟨?_, ?_⟩
  · rintro c ⟨receivedMessageCount, sentMessageCount, rfl⟩
    exact ⟨rfl, rfl, ⟨[], [], rfl, rfl, rfl⟩, rfl, rfl, rfl,
      fun row hrow => absurd hrow List.not_mem_nil, fun p hp => absurd hp List.not_mem_nil⟩
  · rintro c call c' h ⟨hmeets, hstep⟩
    cases call with
    | logSlaveTick i time =>
        obtain rfl := hstep
        exact h.logSlaveTick hmeets.1 hmeets.2 time
    | logReceivedMessage =>
        obtain rfl := hstep
        exact h.logMessages 1 0
    | logSendMessage =>
        obtain rfl := hstep
        exact h.logMessages 0 1
    | printSlaveTicks time =>
        obtain rfl := hstep
        exact h.printSlaveTicks time ((h.print_exact_iff time hmeets.1).mpr hmeets.2)

/-! ## Every other print -/

/-- The vectors of the messages have a row more for each print, and what is printed since. -/
def LeftOver (c : TickClient) : Prop :=
  c.logger.slaveModes.length + c.printed.length ≤ c.logger.receivedMessageCounts.length ∧
    (c.printed = [] → c.logger.receivedMessageCounts.length = c.logger.slaveModes.length)

theorem leftOver_inductive : tickSystem.Inductive LeftOver := by
  refine ⟨?_, ?_⟩
  · rintro c ⟨receivedMessageCount, sentMessageCount, rfl⟩
    exact ⟨Nat.le_refl 0, fun _ => rfl⟩
  · rintro c call c' ⟨hmore, hnone⟩ hstep
    cases call with
    | logSlaveTick i time =>
        obtain rfl := hstep
        have hprinted : (c.logSlaveTick i time).printed = c.printed := by
          unfold TickClient.logSlaveTick
          split
          · rfl
          · split <;> rfl
        have hlogger : (c.logSlaveTick i time).logger = c.logger.logSlaveTick i time := by
          unfold TickClient.logSlaveTick
          split
          · rfl
          · split <;> rfl
        unfold LeftOver
        rw [hprinted, hlogger]
        unfold TickLogger.logSlaveTick
        split
        · exact ⟨hmore, hnone⟩
        · split
          · exact ⟨hmore, hnone⟩
          · simp only [TickLogger.startEntry, TickLogger.addEntry, List.length_append,
              List.length_singleton]
            exact ⟨by omega, fun hempty => by rw [hnone hempty]⟩
    | logReceivedMessage =>
        obtain rfl := hstep
        exact ⟨hmore, hnone⟩
    | logSendMessage =>
        obtain rfl := hstep
        exact ⟨hmore, hnone⟩
    | printSlaveTicks time =>
        obtain rfl := hstep
        refine ⟨?_, fun hempty => absurd hempty (by simp [TickClient.printSlaveTicks])⟩
        simp [TickClient.printSlaveTicks, TickLogger.printSlaveTicks, TickLogger.lastEntry,
          TickLogger.addEntry]
        omega

end TickClient

/-- No counts of earlier prints are left exactly before the first print, in any run. -/
theorem tickSystem_first {c : TickClient} (hreach : tickSystem.Reachable c) :
    c.logger.receivedMessageCounts.length = c.logger.slaveModes.length ↔ c.printed = [] := by
  obtain ⟨hmore, hnone⟩ := TickClient.leftOver_inductive.holds hreach
  refine ⟨fun hlength => ?_, hnone⟩
  exact List.eq_nil_of_length_eq_zero (by omega)

/-- What holds of the prints of a run. -/
structure ExactPrints (c : TickClient) : Prop where
  printed : ∀ p ∈ c.printed, p.Exact
  /-- with a current mode, the next print is exact if and only if it is the first one -/
  next : ∀ time, c.logger.lastSlaveMode ≠ INVALID_HANDLE →
    ((c.print time).Exact ↔ c.printed = [])

/-- In every run that meets the condition the prints are exact. -/
theorem tickSystem_exact (c : TickClient)
    (hreach : (tickSystem.restrict MeetsTicks).Reachable c) : ExactPrints c := by
  have h := TickClient.inv_inductive.holds hreach
  refine ⟨h.printed, fun time hmode => ?_⟩
  rw [h.print_exact_iff time hmode]
  exact tickSystem_first hreach.of_restrict

theorem tickSystem_exact_printed :
    ExactPrints (((TickClient.mk (.constructor 0 0) [] none []).logSlaveTick 1 10).printSlaveTicks
      20) := by
  have hstart : (tickSystem.restrict MeetsTicks).Reachable
      (TickClient.mk (.constructor 0 0) [] none []) := .init ⟨0, 0, rfl⟩
  have htick : (tickSystem.restrict MeetsTicks).Reachable
      ((TickClient.mk (.constructor 0 0) [] none []).logSlaveTick 1 10) :=
    .step (l := .logSlaveTick 1 10) hstart ⟨⟨by decide, fun _ => ⟨rfl, rfl⟩⟩, rfl⟩
  exact tickSystem_exact _ (.step (l := .printSlaveTicks 20) htick ⟨⟨by decide, rfl⟩, rfl⟩)

/-- A message is received while mode 1 is current, both modes are printed, and the second print
has one mode, two counts, and the message in the row of mode 2. -/
theorem tickSystem_misaligned :
    let c := (((TickClient.mk (.constructor 0 0) [] none []).logSlaveTick 1
      10).logReceivedMessage.printSlaveTicks 20).logSlaveTick 2 30
    let p := c.print 40
    p.logger.slaveModes = [2] ∧ p.logger.receivedMessageCounts = [1, 0] ∧
      p.rows.map (List.map TickRow.modeRow) = some [⟨2, 1, 1, 0⟩] ∧
      p.expected = [⟨2, 1, 0, 0⟩] := by
  decide

end RayPlatform
