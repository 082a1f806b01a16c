import RayPlatform.Lib.Barrier

/-!
# SwitchMan

The master opens a mode by a message to each rank; a rank that gets the message enters the
slave mode of its tag, and closes it with a completion message to the master, which counts
them. The ranks and the messages in flight, which arrive in any order, are a
`Lib.Barrier` (`switchSystem_simulates`), hence no two modes overlap
(`switchMan_isBarrier`).
-/

namespace RayPlatform

open Lib (Barrier BarrierEvent Stage barrierSystem)

/-- What the plugins register: the handles and the switches, on all ranks the same. -/
structure SwitchTables where
  RAY_SLAVE_MODE_DO_NOTHING : Nat
  RAY_MASTER_MODE_DO_NOTHING : Nat
  RAY_MPI_TAG_SWITCHMAN_COMPLETION_SIGNAL : Nat
  switches : Nat → Option Nat
  tagToSlaveModeTable : Nat → Option Nat
  masterModeToTagTable : Nat → Option Nat

structure SwitchMan where
  tables : SwitchTables
  size : Nat
  slaveMode : Nat
  masterMode : Nat
  lastMasterMode : Nat
  counter : Nat

/-- The messages of the switchman have no content. -/
structure SwitchMessage where
  source : Nat
  destination : Nat
  tag : Nat
  deriving DecidableEq, Repr

def MASTER_RANK : Nat :=
  0

namespace SwitchMan

variable (s : SwitchMan)

def reset : SwitchMan :=
  { s with counter := 0 }

/-- With the default modes, which `registerPlugin` sets. -/
def constructor (tables : SwitchTables) (size : Nat) : SwitchMan :=
  reset
    { tables := tables
      size := size
      slaveMode := tables.RAY_SLAVE_MODE_DO_NOTHING
      masterMode := tables.RAY_MASTER_MODE_DO_NOTHING
      lastMasterMode := tables.RAY_MASTER_MODE_DO_NOTHING
      counter := 0 }

def allRanksAreReady : Bool :=
  s.counter == s.size

def closeSlaveMode : SwitchMan :=
  { s with counter := s.counter + 1 }

def closeSlaveModeLocally (source : Nat) : SwitchMan × SwitchMessage :=
  ({ s with slaveMode := s.tables.RAY_SLAVE_MODE_DO_NOTHING },
    ⟨source, MASTER_RANK, s.tables.RAY_MPI_TAG_SWITCHMAN_COMPLETION_SIGNAL⟩)

def openSlaveMode (tag source destination : Nat) : SwitchMessage :=
  ⟨source, destination, tag⟩

/-- A missing master mode is added to the table with tag 0 by `operator[]`. -/
def openMasterMode (source : Nat) : SwitchMan × List SwitchMessage :=
  let tag := (s.tables.masterModeToTagTable s.masterMode).getD 0
  (s.reset, (List.range s.size).map fun i => openSlaveMode tag source i)

/-- Tags without a slave mode are those of other messages. -/
def openSlaveModeLocally (tag : Nat) : SwitchMan :=
  match s.tables.tagToSlaveModeTable tag with
  | none => s
  | some desiredSlaveMode => { s with slaveMode := desiredSlaveMode }

def setMasterMode (mode : Nat) : SwitchMan :=
  { s with
    masterMode := mode
    lastMasterMode :=
      if mode ≠ s.tables.RAY_MASTER_MODE_DO_NOTHING then mode else s.lastMasterMode }

def closeMasterMode : SwitchMan :=
  let currentMasterMode :=
    if s.masterMode = s.tables.RAY_MASTER_MODE_DO_NOTHING then s.lastMasterMode else s.masterMode
  match s.tables.switches currentMasterMode with
  | none => s
  | some nextMode => s.setMasterMode nextMode

/-- What `processMessages` does with a message of the switchman: first the switch, then the
handler `call_RAY_MPI_TAG_SWITCHMAN_COMPLETION_SIGNAL`. -/
def processMessage (message : SwitchMessage) : SwitchMan :=
  let s := s.openSlaveModeLocally message.tag
  if message.tag = s.tables.RAY_MPI_TAG_SWITCHMAN_COMPLETION_SIGNAL then s.closeSlaveMode else s

end SwitchMan

/-! ## The ranks -/

structure SwitchNetwork where
  ranks : Nat → SwitchMan
  messages : List SwitchMessage
  /-- the rounds that were opened, for the record, and the tag of the last one -/
  rounds : Nat
  tag : Nat
  /-- how often each rank entered and closed a mode -/
  openings : Nat → Nat
  closings : Nat → Nat

inductive SwitchStep
  | openMasterMode
  | deliver (message : SwitchMessage)
  | closeSlaveModeLocally (rank : Nat)
  | setMasterMode (mode : Nat)
  | closeMasterMode

namespace SwitchNetwork

def exec (s : SwitchNetwork) : SwitchStep → Option SwitchNetwork
  | .openMasterMode =>
      let master := s.ranks MASTER_RANK
      let opened := master.openMasterMode MASTER_RANK
      some { s with
        ranks := Function.update s.ranks MASTER_RANK opened.1
        messages := s.messages ++ opened.2
        rounds := s.rounds + 1
        tag := (master.tables.masterModeToTagTable master.masterMode).getD 0 }
  | .deliver message =>
      if message ∈ s.messages then
        let rank := s.ranks message.destination
        some { s with
          ranks := Function.update s.ranks message.destination (rank.processMessage message)
          messages := s.messages.erase message
          openings := if (rank.tables.tagToSlaveModeTable message.tag).isSome then
              Function.update s.openings message.destination (s.openings message.destination + 1)
            else s.openings }
      else none
  | .closeSlaveModeLocally rank =>
      let closed := (s.ranks rank).closeSlaveModeLocally rank
      some { s with
        ranks := Function.update s.ranks rank closed.1
        messages := s.messages ++ [closed.2]
        closings := Function.update s.closings rank (s.closings rank + 1) }
  | .setMasterMode mode =>
      some { s with
        ranks := Function.update s.ranks MASTER_RANK ((s.ranks MASTER_RANK).setMasterMode mode) }
  | .closeMasterMode =>
      some { s with
        ranks := Function.update s.ranks MASTER_RANK (s.ranks MASTER_RANK).closeMasterMode }

/-- The master opens modes that have a tag and a slave mode, at the start or when all ranks
are ready, and a rank closes a mode once after it entered it. -/
def Disciplined (n : Nat) (s : SwitchNetwork) : SwitchStep → Prop
  | .openMasterMode => (s.rounds = 0 ∨ (s.ranks MASTER_RANK).allRanksAreReady = true) ∧
      ∃ tag ∈ (s.ranks MASTER_RANK).tables.masterModeToTagTable (s.ranks MASTER_RANK).masterMode,
        ((s.ranks MASTER_RANK).tables.tagToSlaveModeTable tag).isSome = true
  | .closeSlaveModeLocally rank => rank < n ∧ s.closings rank < s.openings rank
  | .deliver _ | .setMasterMode _ | .closeMasterMode => True

instance (n : Nat) (s : SwitchNetwork) (step : SwitchStep) : Decidable (Disciplined n s step) :=
  match step with
  | .openMasterMode => inferInstanceAs (Decidable ((_ ∨ _) ∧ ∃ tag ∈ (_ : Option Nat), _))
  | .closeSlaveModeLocally _ => inferInstanceAs (Decidable (_ ∧ _))
  | .deliver _ | .setMasterMode _ | .closeMasterMode => isTrue trivial

/-- The opening messages in flight. -/
def openingsInFlight (tables : SwitchTables) (s : SwitchNetwork) : Nat :=
  s.messages.countP fun m => (tables.tagToSlaveModeTable m.tag).isSome

def completionsInFlight (tables : SwitchTables) (s : SwitchNetwork) : Nat :=
  s.messages.countP fun m => m.tag = tables.RAY_MPI_TAG_SWITCHMAN_COMPLETION_SIGNAL

/-- The ranks inside the mode. -/
def inside (n : Nat) (s : SwitchNetwork) : Finset Nat :=
  (Finset.range n).filter fun r => s.closings r < s.openings r

end SwitchNetwork

/-- The ranks at the start. -/
def switchSystem (tables : SwitchTables) (n : Nat) :
    Lib.TransitionSystem SwitchNetwork SwitchStep :=
  (Lib.TransitionSystem.ofExec
    { ranks := fun _ => .constructor tables n
      messages := []
      rounds := 0
      tag := 0
      openings := fun _ => 0
      closings := fun _ => 0 } SwitchNetwork.exec).restrict (SwitchNetwork.Disciplined n)

namespace SwitchNetwork

structure IsBarrier (tables : SwitchTables) (n : Nat) (s : SwitchNetwork) : Prop where
  bounded : (s.ranks MASTER_RANK).counter ≤ n
  conserved : 0 < s.rounds → (s.ranks MASTER_RANK).counter + s.openingsInFlight tables +
    (s.inside n).card + s.completionsInFlight tables = n
  /-- the round is over for every rank -/
  ready : (s.ranks MASTER_RANK).allRanksAreReady = true → s.messages = [] ∧
    ∀ r < n, s.closings r = s.rounds ∧
      (s.ranks r).slaveMode = tables.RAY_SLAVE_MODE_DO_NOTHING
  /-- the ranks inside are in the same mode, and the others are not behind them by a mode -/
  noOverlap : ∀ r ∈ s.inside n, ∀ r' < n, s.openings r ≤ s.closings r' + 1 ∧
    (r' ∈ s.inside n →
      s.openings r' = s.openings r ∧ (s.ranks r').slaveMode = (s.ranks r).slaveMode)

/-! ## The network is a barrier -/

/-- The message in flight of a rank in a stage. -/
def messageOf (tables : SwitchTables) (tag : Nat) (stage : Stage) (r : Nat) :
    Option SwitchMessage :=
  match stage with
  | .opening => some ⟨MASTER_RANK, r, tag⟩
  | .completing => some ⟨r, MASTER_RANK, tables.RAY_MPI_TAG_SWITCHMAN_COMPLETION_SIGNAL⟩
  | .inside | .counted => none

/-- The messages in flight and the modes, by the stages of the ranks. -/
structure Follows (tables : SwitchTables) (n : Nat) (s : SwitchNetwork) (b : Barrier Nat) :
    Prop where
  sameTables : ∀ r, (s.ranks r).tables = tables
  size : ∀ r, (s.ranks r).size = n
  rounds : s.rounds = b.rounds
  start : b.rounds = 0 → ∀ r, b.stage r = .counted
  counter : (s.ranks MASTER_RANK).counter =
    if b.rounds = 0 then 0 else b.number (Finset.range n) .counted
  nodup : s.messages.Nodup
  messages : ∀ m, m ∈ s.messages ↔ ∃ r < n, messageOf tables s.tag (b.stage r) r = some m
  openings : ∀ r < n, s.openings r + (if b.stage r = .opening then 1 else 0) = b.rounds
  closings : ∀ r < n,
    s.closings r + (if b.stage r = .opening ∨ b.stage r = .inside then 1 else 0) = b.rounds
  slaveMode : ∀ r < n, if b.stage r = .inside then
      tables.tagToSlaveModeTable s.tag = some (s.ranks r).slaveMode
    else (s.ranks r).slaveMode = tables.RAY_SLAVE_MODE_DO_NOTHING
  tag : 0 < b.rounds → (tables.tagToSlaveModeTable s.tag).isSome = true

/-- Which events of the barrier the steps are. -/
def event (tables : SwitchTables) : SwitchStep → Option (BarrierEvent Nat)
  | .openMasterMode => some .openRound
  | .deliver m =>
      if m.tag = tables.RAY_MPI_TAG_SWITCHMAN_COMPLETION_SIGNAL then some (.count m.source)
      else some (.enter m.destination)
  | .closeSlaveModeLocally rank => some (.leave rank)
  | .setMasterMode _ | .closeMasterMode => none

variable {tables : SwitchTables} {n : Nat} {s s' : SwitchNetwork} {b : Barrier Nat}

/-- Before a round is opened all ranks are counted and no message is in flight. -/
theorem Follows.over (h : Follows tables n s b)
    (hopen : s.rounds = 0 ∨ (s.ranks MASTER_RANK).allRanksAreReady = true) :
    (∀ r < n, b.stage r = .counted) ∧ s.messages = [] := by
  have hcounted : ∀ r < n, b.stage r = .counted := by
    by_cases hrounds : b.rounds = 0
    · exact fun r _ => h.start hrounds r
    · have hready := hopen.resolve_left (by rw [h.rounds]; exact hrounds)
      have hnumber : b.number (Finset.range n) .counted = (Finset.range n).card := by
        have hcounter := h.counter
        rw [if_neg hrounds] at hcounter
        rw [SwitchMan.allRanksAreReady, beq_iff_eq, hcounter, h.size] at hready
        rw [hready, Finset.card_range]
      intro r hr
      exact (Barrier.number_counted _ b).mp hnumber r (Finset.mem_range.mpr hr)
  refine ⟨hcounted, List.eq_nil_iff_forall_not_mem.mpr fun m hm => ?_⟩
  obtain ⟨r, hr, hmessage⟩ := (h.messages m).mp hm
  rw [hcounted r hr] at hmessage
  cases hmessage

/-- A field that a new value of a rank does not change. -/
theorem update_field {α : Type} (f : SwitchMan → α) {ranks : Nat → SwitchMan} {a : Nat}
    {rank : SwitchMan} (hf : f rank = f (ranks a)) (r : Nat) :
    f (Function.update ranks a rank r) = f (ranks r) := by
  by_cases hr : r = a
  · subst hr
    rw [Function.update_self, hf]
  · rw [Function.update_of_ne hr]

/-- A change of the master mode does not show. -/
theorem Follows.silent (h : Follows tables n s b) {master : SwitchMan}
    (htables : master.tables = tables) (hsize : master.size = n)
    (hcounter : master.counter = (s.ranks MASTER_RANK).counter)
    (hmode : master.slaveMode = (s.ranks MASTER_RANK).slaveMode) :
    Follows tables n { s with ranks := Function.update s.ranks MASTER_RANK master } b := by
  exact
    { sameTables := fun r =>
        (update_field SwitchMan.tables (htables.trans (h.sameTables _).symm) r).trans (h.sameTables r)
      size := fun r =>
        (update_field SwitchMan.size (hsize.trans (h.size _).symm) r).trans (h.size r)
      rounds := h.rounds
      start := h.start
      counter := (update_field SwitchMan.counter hcounter _).trans h.counter
      nodup := h.nodup
      messages := h.messages
      openings := h.openings
      closings := h.closings
      slaveMode := fun r hr => by
        rw [show (Function.update s.ranks MASTER_RANK master r).slaveMode = _ from
          update_field SwitchMan.slaveMode hmode r]
        exact h.slaveMode r hr
      tag := h.tag }

theorem setMasterMode_frame (m : SwitchMan) (mode : Nat) :
    (m.setMasterMode mode).tables = m.tables ∧ (m.setMasterMode mode).size = m.size ∧
      (m.setMasterMode mode).counter = m.counter ∧
      (m.setMasterMode mode).slaveMode = m.slaveMode :=
  ⟨rfl, rfl, rfl, rfl⟩

theorem closeMasterMode_frame (m : SwitchMan) :
    m.closeMasterMode.tables = m.tables ∧ m.closeMasterMode.size = m.size ∧
      m.closeMasterMode.counter = m.counter ∧ m.closeMasterMode.slaveMode = m.slaveMode := by
  unfold SwitchMan.closeMasterMode
  simp only
  split
  · exact ⟨rfl, rfl, rfl, rfl⟩
  · exact setMasterMode_frame m _

theorem Follows.openMasterMode (h : Follows tables n s b)
    (hguard : Disciplined n s .openMasterMode) (hexec : s.exec .openMasterMode = some s') :
    ∃ b', Barrier.Step (Finset.range n) b .openRound b' ∧ Follows tables n s' b' := by
  obtain ⟨hopen, tag, htag, hmode⟩ := hguard
  obtain ⟨hcounted, hempty⟩ := h.over hopen
  rw [h.sameTables] at htag hmode
  have hopened : ((s.ranks MASTER_RANK).tables.masterModeToTagTable
      (s.ranks MASTER_RANK).masterMode).getD 0 = tag := by
    rw [h.sameTables, htag]
    rfl
  have hmembers : ∀ r ∈ Finset.range n, b.stage r = .counted := fun r hr =>
    hcounted r (Finset.mem_range.mp hr)
  have hrange : (s.ranks MASTER_RANK).size = n := h.size _
  cases hexec
  refine ⟨_, .openRound (.inr hmembers), ?_⟩
  exact
    { sameTables := fun r => (update_field SwitchMan.tables (by rfl) r).trans (h.sameTables r)
      size := fun r => (update_field SwitchMan.size (by rfl) r).trans (h.size r)
      rounds := congrArg (· + 1) h.rounds
      start := fun hrounds => absurd hrounds (Nat.succ_ne_zero _)
      counter := by
        simp [SwitchMan.openMasterMode, SwitchMan.reset, Barrier.number]
      nodup := by
        simp only [hempty, List.nil_append, SwitchMan.openMasterMode]
        refine List.Nodup.map (fun i j hij => ?_) List.nodup_range
        exact congrArg SwitchMessage.destination hij
      messages := fun m => by
        simp only [hempty, List.nil_append, SwitchMan.openMasterMode, hrange, List.mem_map,
          List.mem_range, SwitchMan.openSlaveMode, messageOf, Option.some.injEq]
      openings := fun r hr => by
        have hold := h.openings r hr
        rw [hcounted r hr] at hold
        simpa using hold
      closings := fun r hr => by
        have hold := h.closings r hr
        rw [hcounted r hr] at hold
        simpa using hold
      slaveMode := fun r hr => by
        have hold := h.slaveMode r hr
        rw [hcounted r hr] at hold
        have hsame : (Function.update s.ranks MASTER_RANK
            ((s.ranks MASTER_RANK).openMasterMode MASTER_RANK).1 r).slaveMode =
              (s.ranks r).slaveMode := update_field SwitchMan.slaveMode (by rfl) r
        simpa [hsame] using hold
      tag := fun _ => by
        simp only [hopened]
        exact hmode }

/-! ### Messages of a rank that moves -/

section Messages

variable {messages : List SwitchMessage} {tag r : Nat} {stage : Stage} {m : SwitchMessage}

/-- A message tells the rank it is of. -/
theorem messageOf_injective
    (htag : tag ≠ tables.RAY_MPI_TAG_SWITCHMAN_COMPLETION_SIGNAL) {stage' : Stage} {r' : Nat}
    (h : messageOf tables tag stage r = some m) (h' : messageOf tables tag stage' r' = some m) :
    r = r' := by
  have hne : ∀ r r' : Nat, (⟨MASTER_RANK, r, tag⟩ : SwitchMessage) ≠
      ⟨r', MASTER_RANK, tables.RAY_MPI_TAG_SWITCHMAN_COMPLETION_SIGNAL⟩ :=
    fun r r' heq => htag (congrArg SwitchMessage.tag heq)
  cases stage with
  | opening =>
      cases h
      cases stage' with
      | opening => cases h'; rfl
      | completing => exact absurd (Option.some.inj h').symm (hne _ _)
      | inside => cases h'
      | counted => cases h'
  | completing =>
      cases h
      cases stage' with
      | opening => exact absurd (Option.some.inj h') (hne _ _)
      | completing => cases h'; rfl
      | inside => cases h'
      | counted => cases h'
  | inside => cases h
  | counted => cases h

/-- The message of a rank is delivered. -/
theorem messages_erase (hnodup : messages.Nodup)
    (hmessages : ∀ m, m ∈ messages ↔ ∃ r < n, messageOf tables tag (b.stage r) r = some m)
    (htag : tag ≠ tables.RAY_MPI_TAG_SWITCHMAN_COMPLETION_SIGNAL) (hr : r < n)
    (hold : messageOf tables tag (b.stage r) r = some m)
    (hnew : messageOf tables tag stage r = none) :
    (messages.erase m).Nodup ∧ ∀ m', m' ∈ messages.erase m ↔
      ∃ r' < n, messageOf tables tag ((b.move r stage).stage r') r' = some m' := by
  refine ⟨hnodup.erase m, fun m' => ?_⟩
  rw [hnodup.mem_erase_iff, hmessages]
  constructor
  · rintro ⟨hne, r', hr', hmessage⟩
    have hother : r' ≠ r := by
      rintro rfl
      rw [hold] at hmessage
      exact hne (Option.some.inj hmessage).symm
    exact ⟨r', hr', by rw [Barrier.stage_move_of_ne _ _ hother]; exact hmessage⟩
  · rintro ⟨r', hr', hmessage⟩
    have hother : r' ≠ r := by
      rintro rfl
      rw [Barrier.stage_move_self, hnew] at hmessage
      cases hmessage
    rw [Barrier.stage_move_of_ne _ _ hother] at hmessage
    refine ⟨?_, r', hr', hmessage⟩
    rintro rfl
    exact hother (messageOf_injective htag hmessage hold)

/-- A rank sends a message. -/
theorem messages_append (hnodup : messages.Nodup)
    (hmessages : ∀ m, m ∈ messages ↔ ∃ r < n, messageOf tables tag (b.stage r) r = some m)
    (htag : tag ≠ tables.RAY_MPI_TAG_SWITCHMAN_COMPLETION_SIGNAL) (hr : r < n)
    (hold : messageOf tables tag (b.stage r) r = none)
    (hnew : messageOf tables tag stage r = some m) :
    (messages ++ [m]).Nodup ∧ ∀ m', m' ∈ messages ++ [m] ↔
      ∃ r' < n, messageOf tables tag ((b.move r stage).stage r') r' = some m' := by
  have hout : m ∉ messages := by
    intro hm
    obtain ⟨r', -, hmessage⟩ := (hmessages m).mp hm
    rw [messageOf_injective htag hmessage hnew, hold] at hmessage
    cases hmessage
  refine ⟨List.Nodup.append hnodup (List.nodup_singleton m) (by simpa using hout), fun m' => ?_⟩
  rw [List.mem_append, List.mem_singleton, hmessages]
  constructor
  · rintro (⟨r', hr', hmessage⟩ | rfl)
    · have hother : r' ≠ r := by
        rintro rfl
        rw [hold] at hmessage
        cases hmessage
      exact ⟨r', hr', by rw [Barrier.stage_move_of_ne _ _ hother]; exact hmessage⟩
    · exact ⟨r, hr, by rw [Barrier.stage_move_self]; exact hnew⟩
  · rintro ⟨r', hr', hmessage⟩
    by_cases hother : r' = r
    · subst hother
      rw [Barrier.stage_move_self, hnew] at hmessage
      exact .inr (Option.some.inj hmessage).symm
    · rw [Barrier.stage_move_of_ne _ _ hother] at hmessage
      exact .inl ⟨r', hr', hmessage⟩

end Messages

/-! ### The stages -/

/-- In a round the tag of the opening messages is not the one of the completion messages. -/
theorem Follows.tag_ne (h : Follows tables n s b)
    (hcompletion :
      tables.tagToSlaveModeTable tables.RAY_MPI_TAG_SWITCHMAN_COMPLETION_SIGNAL = none)
    {r : Nat} (hstage : b.stage r ≠ .counted) :
    0 < b.rounds ∧ s.tag ≠ tables.RAY_MPI_TAG_SWITCHMAN_COMPLETION_SIGNAL := by
  have hrounds : 0 < b.rounds := Nat.pos_of_ne_zero fun hzero => hstage (h.start hzero r)
  refine ⟨hrounds, fun heq => ?_⟩
  have hsome := h.tag hrounds
  rw [heq, hcompletion] at hsome
  cases hsome

/-- A move between stages that are both behind the opening, or both are not, opens nothing. -/
theorem Follows.openings_move (h : Follows tables n s b) {r : Nat} {stage : Stage}
    (hsame : stage = .opening ↔ b.stage r = .opening) :
    ∀ r' < n, s.openings r' + (if (b.move r stage).stage r' = .opening then 1 else 0) =
      b.rounds := by
  intro r' hr'
  by_cases heq : r' = r
  · subst heq
    simp only [Barrier.stage_move_self, hsame]
    exact h.openings r' hr'
  · rw [Barrier.stage_move_of_ne b stage heq]
    exact h.openings r' hr'

/-- A move between stages that are both before the closing, or both are not, closes nothing. -/
theorem Follows.closings_move (h : Follows tables n s b) {r : Nat} {stage : Stage}
    (hsame : (stage = .opening ∨ stage = .inside) ↔
      (b.stage r = .opening ∨ b.stage r = .inside)) :
    ∀ r' < n, s.closings r' + (if (b.move r stage).stage r' = .opening ∨
      (b.move r stage).stage r' = .inside then 1 else 0) = b.rounds := by
  intro r' hr'
  by_cases heq : r' = r
  · subst heq
    simp only [Barrier.stage_move_self, hsame]
    exact h.closings r' hr'
  · rw [Barrier.stage_move_of_ne b stage heq]
    exact h.closings r' hr'

/-- A rank takes an opening message. -/
theorem Follows.enter (h : Follows tables n s b)
    (hcompletion :
      tables.tagToSlaveModeTable tables.RAY_MPI_TAG_SWITCHMAN_COMPLETION_SIGNAL = none)
    {r : Nat} (hr : r < n) (hstage : b.stage r = .opening)
    (hexec : s.exec (.deliver ⟨MASTER_RANK, r, s.tag⟩) = some s') :
    Follows tables n s' (b.move r .inside) := by
  obtain ⟨hrounds, htag⟩ := h.tag_ne hcompletion (show b.stage r ≠ .counted by rw [hstage]; simp)
  obtain ⟨mode, hmode⟩ := Option.isSome_iff_exists.mp (h.tag hrounds)
  have hprocess : (s.ranks r).processMessage ⟨MASTER_RANK, r, s.tag⟩ =
      { s.ranks r with slaveMode := mode } := by
    simp [SwitchMan.processMessage, SwitchMan.openSlaveModeLocally, h.sameTables, hmode, htag]
  obtain ⟨hnodup, hmessages⟩ := messages_erase h.nodup h.messages htag hr
    (show messageOf tables s.tag (b.stage r) r = _ by rw [hstage]; rfl)
    (show messageOf tables s.tag .inside r = none from rfl)
  unfold SwitchNetwork.exec at hexec
  simp only at hexec
  split at hexec
  · simp only [h.sameTables, hmode, Option.isSome_some, if_true, hprocess] at hexec
    cases hexec
    exact
      { sameTables := fun r' =>
          (update_field SwitchMan.tables (h.sameTables r).symm r').trans (h.sameTables r')
        size := fun r' => (update_field SwitchMan.size (by rfl) r').trans (h.size r')
        rounds := h.rounds
        start := fun hzero => absurd hzero (Nat.pos_iff_ne_zero.mp hrounds)
        counter := by
          rw [Barrier.number_move_of_ne (by rw [hstage]; simp) (by simp)]
          exact (update_field SwitchMan.counter (by rfl) _).trans h.counter
        nodup := hnodup
        messages := hmessages
        openings := fun r' hr' => by
          have hold := h.openings r' hr'
          by_cases heq : r' = r
          · subst heq
            simpa [hstage] using hold
          · simpa [heq, Barrier.stage_move_of_ne b .inside heq] using hold
        closings := h.closings_move (by rw [hstage]; simp)
        slaveMode := fun r' hr' => by
          have hold := h.slaveMode r' hr'
          by_cases heq : r' = r
          · subst heq
            simpa using hmode
          · simpa [heq, Barrier.stage_move_of_ne b .inside heq] using hold
        tag := h.tag }
  · cases hexec

/-- The master counts a completion message. -/
theorem Follows.count (h : Follows tables n s b)
    (hcompletion :
      tables.tagToSlaveModeTable tables.RAY_MPI_TAG_SWITCHMAN_COMPLETION_SIGNAL = none)
    {r : Nat} (hr : r < n) (hstage : b.stage r = .completing)
    (hexec : s.exec (.deliver
      ⟨r, MASTER_RANK, tables.RAY_MPI_TAG_SWITCHMAN_COMPLETION_SIGNAL⟩) = some s') :
    Follows tables n s' (b.move r .counted) := by
  obtain ⟨hrounds, htag⟩ := h.tag_ne hcompletion (show b.stage r ≠ .counted by rw [hstage]; simp)
  have hprocess : (s.ranks MASTER_RANK).processMessage
      ⟨r, MASTER_RANK, tables.RAY_MPI_TAG_SWITCHMAN_COMPLETION_SIGNAL⟩ =
      (s.ranks MASTER_RANK).closeSlaveMode := by
    simp [SwitchMan.processMessage, SwitchMan.openSlaveModeLocally, h.sameTables, hcompletion]
  obtain ⟨hnodup, hmessages⟩ := messages_erase h.nodup h.messages htag hr
    (show messageOf tables s.tag (b.stage r) r = _ by rw [hstage]; rfl)
    (show messageOf tables s.tag .counted r = none from rfl)
  unfold SwitchNetwork.exec at hexec
  simp only at hexec
  split at hexec
  · simp only [h.sameTables, hcompletion, Option.isSome_none, hprocess] at hexec
    cases hexec
    exact
      { sameTables := fun r' => (update_field SwitchMan.tables (by rfl) r').trans (h.sameTables r')
        size := fun r' => (update_field SwitchMan.size (by rfl) r').trans (h.size r')
        rounds := h.rounds
        start := fun hzero => absurd hzero (Nat.pos_iff_ne_zero.mp hrounds)
        counter := by
          have hold := h.counter
          rw [if_neg (Nat.pos_iff_ne_zero.mp hrounds)] at hold
          rw [Barrier.rounds_move, if_neg (Nat.pos_iff_ne_zero.mp hrounds),
            Barrier.number_move_self (Finset.mem_range.mpr hr) (by rw [hstage]; simp), ← hold]
          simp [SwitchMan.closeSlaveMode]
        nodup := hnodup
        messages := hmessages
        openings := h.openings_move (by rw [hstage]; simp)
        closings := h.closings_move (by rw [hstage]; simp)
        slaveMode := fun r' hr' => by
          have hold := h.slaveMode r' hr'
          have hsame : (Function.update s.ranks MASTER_RANK
              (s.ranks MASTER_RANK).closeSlaveMode r').slaveMode = (s.ranks r').slaveMode :=
            update_field SwitchMan.slaveMode (by rfl) r'
          by_cases heq : r' = r
          · subst heq
            simpa [hstage, hsame] using hold
          · simpa [Barrier.stage_move_of_ne b .counted heq, hsame] using hold
        tag := h.tag }
  · cases hexec

/-- A rank closes its mode. -/
theorem Follows.leave (h : Follows tables n s b)
    (hcompletion :
      tables.tagToSlaveModeTable tables.RAY_MPI_TAG_SWITCHMAN_COMPLETION_SIGNAL = none)
    {r : Nat} (hr : r < n) (hstage : b.stage r = .inside)
    (hexec : s.exec (.closeSlaveModeLocally r) = some s') :
    Follows tables n s' (b.move r .completing) := by
  obtain ⟨hrounds, htag⟩ := h.tag_ne hcompletion (show b.stage r ≠ .counted by rw [hstage]; simp)
  obtain ⟨hnodup, hmessages⟩ := messages_append h.nodup h.messages htag hr
    (show messageOf tables s.tag (b.stage r) r = none by rw [hstage]; rfl)
    (show messageOf tables s.tag .completing r = _ from rfl)
  rw [← h.sameTables r] at hnodup hmessages
  cases hexec
  exact
    { sameTables := fun r' => (update_field SwitchMan.tables (by rfl) r').trans (h.sameTables r')
      size := fun r' => (update_field SwitchMan.size (by rfl) r').trans (h.size r')
      rounds := h.rounds
      start := fun hzero => absurd hzero (Nat.pos_iff_ne_zero.mp hrounds)
      counter := by
        rw [Barrier.number_move_of_ne (by rw [hstage]; simp) (by simp)]
        exact (update_field SwitchMan.counter (by rfl) _).trans h.counter
      nodup := hnodup
      messages := by
        rw [← h.sameTables r]
        exact hmessages
      openings := h.openings_move (by rw [hstage]; simp)
      closings := fun r' hr' => by
        have hold := h.closings r' hr'
        by_cases heq : r' = r
        · subst heq
          simpa [hstage] using hold
        · simpa [heq, Barrier.stage_move_of_ne b .completing heq] using hold
      slaveMode := fun r' hr' => by
        have hold := h.slaveMode r' hr'
        by_cases heq : r' = r
        · subst heq
          simp [SwitchMan.closeSlaveModeLocally, h.sameTables]
        · simpa [heq, Barrier.stage_move_of_ne b .completing heq] using hold
      tag := h.tag }

/-- A rank is inside the mode in the stage of that name. -/
theorem Follows.inside_iff (h : Follows tables n s b) {r : Nat} (hr : r < n) :
    s.closings r < s.openings r ↔ b.stage r = .inside := by
  have hopenings := h.openings r hr
  have hclosings := h.closings r hr
  cases hstage : b.stage r <;> simp [hstage] at hopenings hclosings ⊢ <;> omega

theorem Follows.step (h : Follows tables n s b)
    (hcompletion :
      tables.tagToSlaveModeTable tables.RAY_MPI_TAG_SWITCHMAN_COMPLETION_SIGNAL = none)
    {step : SwitchStep} (hguard : Disciplined n s step) (hexec : s.exec step = some s')
    {e : BarrierEvent Nat} (hevent : event tables step = some e) :
    ∃ b', Barrier.Step (Finset.range n) b e b' ∧ Follows tables n s' b' := by
  cases step with
  | openMasterMode =>
      cases hevent
      exact h.openMasterMode hguard hexec
  | deliver m =>
      have hmem : m ∈ s.messages := by
        by_contra hout
        unfold SwitchNetwork.exec at hexec
        simp only [if_neg hout] at hexec
        cases hexec
      obtain ⟨r, hr, hmessage⟩ := (h.messages m).mp hmem
      have hrange := Finset.mem_range.mpr hr
      cases hstage : b.stage r with
      | opening =>
          rw [hstage] at hmessage
          cases hmessage
          obtain ⟨-, htag⟩ := h.tag_ne hcompletion (show b.stage r ≠ .counted by rw [hstage]; simp)
          rw [event, if_neg htag] at hevent
          cases hevent
          exact ⟨_, .enter hrange hstage, h.enter hcompletion hr hstage hexec⟩
      | completing =>
          rw [hstage] at hmessage
          cases hmessage
          rw [event, if_pos rfl] at hevent
          cases hevent
          exact ⟨_, .count hrange hstage, h.count hcompletion hr hstage hexec⟩
      | inside =>
          rw [hstage] at hmessage
          cases hmessage
      | counted =>
          rw [hstage] at hmessage
          cases hmessage
  | closeSlaveModeLocally r =>
      cases hevent
      have hstage := (h.inside_iff hguard.1).mp hguard.2
      exact ⟨_, .leave (Finset.mem_range.mpr hguard.1) hstage,
        h.leave hcompletion hguard.1 hstage hexec⟩
  | setMasterMode mode => cases hevent
  | closeMasterMode => cases hevent

/-- The ranks and their messages do what a barrier does. -/
theorem switchSystem_simulates (tables : SwitchTables) (n : Nat)
    (hcompletion :
      tables.tagToSlaveModeTable tables.RAY_MPI_TAG_SWITCHMAN_COMPLETION_SIGNAL = none) :
    (switchSystem tables n).StutterSimulation (barrierSystem (Finset.range n)) (event tables)
      (Follows tables n) := by
  refine ⟨fun s hinit => ?_, fun s b step s' h hstep hsilent => ?_,
    fun s b step e s' h hstep hevent => h.step hcompletion hstep.1 hstep.2 hevent⟩
  · obtain rfl : s = _ := hinit
    refine ⟨Barrier.start, rfl, ?_⟩
    exact
      { sameTables := fun r => rfl
        size := fun r => rfl
        rounds := rfl
        start := fun _ r => rfl
        counter := rfl
        nodup := List.nodup_nil
        messages := fun m => iff_of_false (List.not_mem_nil) (by rintro ⟨r, -, hnone⟩; cases hnone)
        openings := fun r hr => rfl
        closings := fun r hr => rfl
        slaveMode := fun r hr => rfl
        tag := fun hpos => absurd hpos (Nat.lt_irrefl 0) }
  · have hexec := hstep.2
    cases step with
    | setMasterMode mode =>
        cases hexec
        obtain ⟨htables, hsize, hcounter, hmode⟩ := setMasterMode_frame (s.ranks MASTER_RANK) mode
        exact h.silent (htables.trans (h.sameTables _)) (hsize.trans (h.size _)) hcounter hmode
    | closeMasterMode =>
        cases hexec
        obtain ⟨htables, hsize, hcounter, hmode⟩ := closeMasterMode_frame (s.ranks MASTER_RANK)
        exact h.silent (htables.trans (h.sameTables _)) (hsize.trans (h.size _)) hcounter hmode
    | openMasterMode => cases hsilent
    | closeSlaveModeLocally r => cases hsilent
    | deliver m =>
        unfold event at hsilent
        simp only at hsilent
        split at hsilent
        · cases hsilent
        · cases hsilent

/-! ## What a barrier says about the ranks -/

/-- Messages that are all different, one for each rank of a set. -/
theorem countP_eq_card {messages : List SwitchMessage} (hnodup : messages.Nodup)
    {p : SwitchMessage → Bool} {ranks : Finset Nat} {f : Nat → SwitchMessage}
    (hf : Function.Injective f) (hmem : ∀ m, (m ∈ messages ∧ p m = true) ↔ ∃ r ∈ ranks, f r = m) :
    messages.countP p = ranks.card := by
  have himage : (messages.filter p).toFinset = ranks.image f := by
    ext m
    rw [List.mem_toFinset, List.mem_filter, Finset.mem_image]
    exact hmem m
  rw [List.countP_eq_length_filter, ← List.toFinset_card_of_nodup (hnodup.filter p), himage,
    Finset.card_image_of_injective _ hf]

theorem Follows.openingsInFlight (h : Follows tables n s b)
    (hcompletion :
      tables.tagToSlaveModeTable tables.RAY_MPI_TAG_SWITCHMAN_COMPLETION_SIGNAL = none) :
    s.openingsInFlight tables = b.number (Finset.range n) .opening := by
  refine countP_eq_card (f := fun r => ⟨MASTER_RANK, r, s.tag⟩) h.nodup
    (fun r r' heq => congrArg SwitchMessage.destination heq) fun m => ?_
  rw [h.messages]
  constructor
  · rintro ⟨⟨r, hr, hmessage⟩, hopening⟩
    cases hstage : b.stage r with
    | opening =>
        rw [hstage] at hmessage
        exact ⟨r, Finset.mem_filter.mpr ⟨Finset.mem_range.mpr hr, hstage⟩, Option.some.inj hmessage⟩
    | completing =>
        rw [hstage] at hmessage
        cases hmessage
        rw [hcompletion] at hopening
        cases hopening
    | inside => rw [hstage] at hmessage; cases hmessage
    | counted => rw [hstage] at hmessage; cases hmessage
  · rintro ⟨r, hr, rfl⟩
    obtain ⟨hrange, hstage⟩ := Finset.mem_filter.mp hr
    obtain ⟨hrounds, -⟩ := h.tag_ne hcompletion (show b.stage r ≠ .counted by rw [hstage]; simp)
    exact ⟨⟨r, Finset.mem_range.mp hrange, by rw [hstage]; rfl⟩, h.tag hrounds⟩

theorem Follows.completionsInFlight (h : Follows tables n s b)
    (hcompletion :
      tables.tagToSlaveModeTable tables.RAY_MPI_TAG_SWITCHMAN_COMPLETION_SIGNAL = none) :
    s.completionsInFlight tables = b.number (Finset.range n) .completing := by
  refine countP_eq_card (f := fun r =>
      ⟨r, MASTER_RANK, tables.RAY_MPI_TAG_SWITCHMAN_COMPLETION_SIGNAL⟩) h.nodup
    (fun r r' heq => congrArg SwitchMessage.source heq) fun m => ?_
  rw [h.messages]
  constructor
  · rintro ⟨⟨r, hr, hmessage⟩, htag⟩
    cases hstage : b.stage r with
    | opening =>
        obtain ⟨-, hne⟩ := h.tag_ne hcompletion (show b.stage r ≠ .counted by rw [hstage]; simp)
        rw [hstage] at hmessage
        cases hmessage
        exact absurd (of_decide_eq_true htag) hne
    | completing =>
        rw [hstage] at hmessage
        exact ⟨r, Finset.mem_filter.mpr ⟨Finset.mem_range.mpr hr, hstage⟩, Option.some.inj hmessage⟩
    | inside => rw [hstage] at hmessage; cases hmessage
    | counted => rw [hstage] at hmessage; cases hmessage
  · rintro ⟨r, hr, rfl⟩
    obtain ⟨hrange, hstage⟩ := Finset.mem_filter.mp hr
    exact ⟨⟨r, Finset.mem_range.mp hrange, by rw [hstage]; rfl⟩, decide_eq_true rfl⟩

theorem Follows.isBarrier (h : Follows tables n s b)
    (hcompletion :
      tables.tagToSlaveModeTable tables.RAY_MPI_TAG_SWITCHMAN_COMPLETION_SIGNAL = none) :
    IsBarrier tables n s := by
  have hsum := Barrier.number_add (Finset.range n) b
  rw [Finset.card_range] at hsum
  have hinside : (s.inside n).card = b.number (Finset.range n) .inside := by
    refine congrArg Finset.card (Finset.filter_congr fun r hr => ?_)
    exact h.inside_iff (Finset.mem_range.mp hr)
  refine ⟨?_, fun hpos => ?_, fun hready => ?_, fun r hr r' hr' => ?_⟩
  · rw [h.counter]
    split <;> omega
  · have hrounds : b.rounds ≠ 0 := by
      rw [← h.rounds]
      omega
    rw [h.counter, if_neg hrounds, h.openingsInFlight hcompletion, hinside,
      h.completionsInFlight hcompletion]
    exact hsum
  · obtain ⟨hcounted, hempty⟩ := h.over (.inr hready)
    refine ⟨hempty, fun r hr => ?_⟩
    have hclosings := h.closings r hr
    have hmode := h.slaveMode r hr
    rw [hcounted r hr] at hclosings hmode
    exact ⟨by simpa [h.rounds] using hclosings, by simpa using hmode⟩
  · obtain ⟨hrange, hin⟩ := Finset.mem_filter.mp hr
    have hstage := (h.inside_iff (Finset.mem_range.mp hrange)).mp hin
    have hopenings := h.openings r (Finset.mem_range.mp hrange)
    have hmode := h.slaveMode r (Finset.mem_range.mp hrange)
    rw [hstage] at hopenings hmode
    simp only [reduceCtorEq, if_false, Nat.add_zero, if_true] at hopenings hmode
    refine ⟨?_, fun hin' => ?_⟩
    · have hclosings := h.closings r' hr'
      rw [hopenings]
      split at hclosings <;> omega
    · have hstage' := (h.inside_iff hr').mp (Finset.mem_filter.mp hin').2
      have hopenings' := h.openings r' hr'
      have hmode' := h.slaveMode r' hr'
      rw [hstage'] at hopenings' hmode'
      simp only [reduceCtorEq, if_false, Nat.add_zero, if_true] at hopenings' hmode'
      exact ⟨hopenings'.trans hopenings.symm, Option.some.inj (hmode'.symm.trans hmode)⟩

end SwitchNetwork

/-- Any number of ranks, any order of the messages, any modes. Only the plugin that owns a tag
can give it a slave mode, and SwitchMan gives none to its completion signal. -/
theorem switchMan_isBarrier {tables : SwitchTables} {n : Nat}
    (hcompletion :
      tables.tagToSlaveModeTable tables.RAY_MPI_TAG_SWITCHMAN_COMPLETION_SIGNAL = none)
    {s : SwitchNetwork} (hs : (switchSystem tables n).Reachable s) :
    SwitchNetwork.IsBarrier tables n s := by
  obtain ⟨b, -, hfollows⟩ :=
    (SwitchNetwork.switchSystem_simulates tables n hcompletion).reachable hs
  exact hfollows.isBarrier hcompletion

/-- Two ranks go through one mode, and the master opens it again. -/
theorem switchMan_isBarrier_two : ∃ tables, ∃ s : SwitchNetwork,
    s.rounds = 2 ∧ (s.messages.length, (s.ranks MASTER_RANK).counter) = (2, 0) ∧
      SwitchNetwork.IsBarrier tables 2 s := by
  let tables : SwitchTables :=
    { RAY_SLAVE_MODE_DO_NOTHING := 0
      RAY_MASTER_MODE_DO_NOTHING := 0
      RAY_MPI_TAG_SWITCHMAN_COMPLETION_SIGNAL := 0
      switches := fun _ => none
      tagToSlaveModeTable := fun tag => if tag = 7 then some 5 else none
      masterModeToTagTable := fun mode => if mode = 3 then some 7 else none }
  let start : SwitchNetwork :=
    { ranks := fun _ => .constructor tables 2
      messages := []
      rounds := 0
      tag := 0
      openings := fun _ => 0
      closings := fun _ => 0 }
  let steps : List SwitchStep := [.setMasterMode 3, .openMasterMode, .deliver ⟨0, 1, 7⟩,
    .closeSlaveModeLocally 1, .deliver ⟨0, 0, 7⟩, .deliver ⟨1, 0, 0⟩, .closeSlaveModeLocally 0,
    .deliver ⟨0, 0, 0⟩, .openMasterMode]
  have hrun : (Lib.TransitionSystem.runAll
      (Lib.TransitionSystem.guarded (SwitchNetwork.Disciplined 2) SwitchNetwork.exec) start
        steps).map (fun s => (s.rounds, s.messages.length, (s.ranks MASTER_RANK).counter)) =
      some (2, 2, 0) := by decide +kernel
  obtain ⟨last, hlast, hstate⟩ := Option.map_eq_some_iff.mp hrun
  injection hstate with hrounds hrest
  exact ⟨tables, last, hrounds, hrest,
    switchMan_isBarrier rfl (.of_guarded (.runAll (.init rfl) hlast))⟩

end RayPlatform
