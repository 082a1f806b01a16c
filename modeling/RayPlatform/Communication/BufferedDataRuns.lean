import RayPlatform.Lib.TransitionSystem
import RayPlatform.Communication.BufferedData

/-!
# Callers of BufferedData

The runs of a caller that appends one period of units to a destination between two calls
of `flush` on it. `flushAll` calls `flush` on the destinations up to the first one that
has a buffer.

* `HoldsPeriods` — the units of a buffer: whole periods, and those since the last flush;
* `Sound` — nothing is lost, nothing is beyond its slot, messages are whole periods;
* `bufferSystem_sound_iff` — every run is sound exactly when the array could be allocated
  as it was meant.
-/

namespace RayPlatform

open Lib (TransitionSystem Returns)
open Lib.Rows

/-- The buffers, the messages sent, and what the caller has done. -/
structure BufferClient where
  buffers : BufferedData
  outbox : List UnitMessage
  /-- the units appended, for each destination -/
  appended : Nat → List MessageUnit
  /-- how many of them since the last call of `flush` on the destination -/
  sinceFlush : Nat → Nat

inductive BufferCall
  | addAt (i : Nat) (k : MessageUnit)
  | flush (destination period : Nat) (tag : MessageTag) (rank : Rank) (force : Bool)
  | flushAll (tag : MessageTag) (rank : Rank)

/-- The destinations on which `flushAll` calls `flush`. -/
def BufferedData.Visited (b : BufferedData) (i : Nat) : Prop :=
  i < b.ranks ∧ ∀ i' < i, b.size i' = 0

instance BufferedData.decidableVisited (b : BufferedData) (i : Nat) : Decidable (b.Visited i) :=
  inferInstanceAs (Decidable (i < b.ranks ∧ ∀ i' < i, b.size i' = 0))

namespace BufferClient

def addAt (c : BufferClient) (i : Nat) (k : MessageUnit) : BufferClient :=
  { c with
    buffers := c.buffers.addAt i k
    appended := Function.update c.appended i (c.appended i ++ [k])
    sinceFlush := Function.update c.sinceFlush i (c.sinceFlush i + 1) }

def flush (c : BufferClient) (destination period : Nat) (tag : MessageTag) (rank : Rank)
    (force : Bool) : BufferClient :=
  let r := c.buffers.flush destination period tag c.outbox rank force
  { c with
    buffers := r.1
    outbox := r.2.1
    sinceFlush := Function.update c.sinceFlush destination 0 }

def flushAll (c : BufferClient) (tag : MessageTag) (rank : Rank) : BufferClient :=
  let r := c.buffers.flushAll tag c.outbox rank
  { c with
    buffers := r.1
    outbox := r.2.1
    sinceFlush := fun i => if c.buffers.Visited i then 0 else c.sinceFlush i }

/-- A period of units was appended since the last flush, or nothing. -/
def Due (c : BufferClient) (period destination : Nat) : Prop :=
  c.sinceFlush destination = 0 ∨ c.sinceFlush destination = period

end BufferClient

/-- The runs of a caller of buffers that were constructed. -/
def bufferSystem (numberOfRanks capacity period : Nat) :
    TransitionSystem BufferClient BufferCall :=
  { init := fun c => ∃ data b,
      BufferedData.constructor numberOfRanks capacity period data = some b ∧
        c = { buffers := b, outbox := [], appended := fun _ => [], sinceFlush := fun _ => 0 }
    step := fun c call c' =>
      match call with
      | .addAt i k => i < numberOfRanks ∧ c.sinceFlush i < period ∧ c' = c.addAt i k
      | .flush destination period' tag rank force =>
          destination < numberOfRanks ∧ c.Due period destination ∧
            (force = true ∨ period' = period) ∧
            c' = c.flush destination period' tag rank force
      | .flushAll tag rank =>
          (∀ i, c.buffers.Visited i → c.Due period i) ∧ c' = c.flushAll tag rank }

/-- The units that were sent to a destination. -/
def sentTo (outbox : List UnitMessage) (destination : Nat) : List MessageUnit :=
  (outbox.filter fun m => m.destination = Int32.ofNat destination).flatMap UnitMessage.content

/-- What a caller relies on. -/
structure BufferClient.Sound (numberOfRanks capacity period : Nat) (c : BufferClient) : Prop where
  /-- the array of sizes has an element for each destination -/
  sizes : numberOfRanks ≤ c.buffers.sizesLength
  /-- an append stays in the slot of its destination, and the slot is in the array -/
  room : ∀ i < numberOfRanks, c.sinceFlush i < period →
    c.buffers.size i < capacity ∧
      position c.buffers.capacity i (c.buffers.size i) < c.buffers.dataLength
  messages : ∀ m ∈ c.outbox, m.content ≠ [] ∧ period ∣ m.content.length ∧
    m.content.length ≤ capacity
  order : ∀ i < numberOfRanks, sentTo c.outbox i ++ c.buffers.contents i = c.appended i
  /-- `flushAll` comes to report that nothing was sent, and then all has been sent -/
  drained : ∀ tag rank, ∃ b outbox,
    Returns (fun fuel => BufferedData.flushRepeatedly tag rank fuel c.buffers c.outbox)
      (b, outbox) ∧
      ∀ i < numberOfRanks, b.size i = 0 ∧ sentTo outbox i = c.appended i

/-! ## The units of a buffer -/

/-- A buffer of `size` units: whole periods, not as many as fit, and `since` more. -/
def HoldsPeriods (capacity period size since : Nat) : Prop :=
  since ≤ period ∧ ∃ periods < capacity / period, size = periods * period + since

section HoldsPeriods

variable {capacity period size since : Nat}

theorem holdsPeriods_zero (hperiod : 1 ≤ period) (hcapacity : period ≤ capacity) :
    HoldsPeriods capacity period 0 0 :=
  ⟨Nat.zero_le _, 0, Nat.div_pos hcapacity hperiod, by simp⟩

theorem HoldsPeriods.append (h : HoldsPeriods capacity period size since)
    (hsince : since < period) :
    HoldsPeriods capacity period (size + 1) (since + 1) := by
  obtain ⟨-, periods, hperiods, hsize⟩ := h
  exact ⟨hsince, periods, hperiods, by omega⟩

/-- One period more than the whole ones still fits. -/
theorem HoldsPeriods.next_le (h : HoldsPeriods capacity period size since) :
    ∃ periods < capacity / period, size = periods * period + since ∧
      periods * period + period ≤ capacity / period * period := by
  obtain ⟨-, periods, hperiods, hsize⟩ := h
  refine ⟨periods, hperiods, hsize, ?_⟩
  rw [← Nat.succ_mul]
  exact Nat.mul_le_mul_right period hperiods

theorem HoldsPeriods.le_capacity (h : HoldsPeriods capacity period size since) :
    size ≤ capacity := by
  have hsince := h.1
  obtain ⟨periods, -, hsize, hnext⟩ := h.next_le
  have hfit := Nat.div_mul_le_self capacity period
  omega

theorem HoldsPeriods.lt_capacity (h : HoldsPeriods capacity period size since)
    (hsince : since < period) : size < capacity := by
  obtain ⟨periods, -, hsize, hnext⟩ := h.next_le
  have hfit := Nat.div_mul_le_self capacity period
  omega

theorem HoldsPeriods.eq_zero (h : HoldsPeriods capacity period 0 since) : since = 0 := by
  obtain ⟨-, periods, -, hsize⟩ := h
  omega

theorem HoldsPeriods.dvd (h : HoldsPeriods capacity period size since)
    (hdue : since = 0 ∨ since = period) : period ∣ size := by
  obtain ⟨-, periods, -, rfl⟩ := h
  rcases hdue with rfl | rfl
  · exact Dvd.intro_left _ rfl
  · exact Nat.dvd_add (Nat.dvd_mul_left _ _) (Nat.dvd_refl _)

/-- Below the threshold another period fits. -/
theorem HoldsPeriods.flushed (h : HoldsPeriods capacity period size since)
    (hdue : since = 0 ∨ since = period) (hfew : size < capacity / period * period) :
    HoldsPeriods capacity period size 0 := by
  obtain ⟨-, periods, hperiods, rfl⟩ := h
  rcases hdue with rfl | rfl
  · exact ⟨Nat.zero_le _, periods, hperiods, rfl⟩
  · rw [← Nat.succ_mul] at hfew ⊢
    exact ⟨Nat.zero_le _, periods + 1, Nat.lt_of_mul_lt_mul_right hfew, rfl⟩

end HoldsPeriods

/-! ## Messages of a destination -/

theorem ofNat_ne {i j : Nat} (hi : i < 2 ^ 31) (hj : j < 2 ^ 31) (hne : i ≠ j) :
    Int32.ofNat i ≠ Int32.ofNat j := by
  intro h
  have hint := congrArg Int32.toInt h
  rw [Int32.toInt_ofNat_of_lt hi, Int32.toInt_ofNat_of_lt hj] at hint
  omega

theorem sentTo_message_self (outbox : List UnitMessage) (b : BufferedData) (i : Nat)
    (tag : MessageTag) (rank : Rank) :
    sentTo (outbox ++ [b.message i tag rank]) i = sentTo outbox i ++ b.contents i := by
  simp [sentTo, BufferedData.message]

theorem sentTo_message_of_ne (outbox : List UnitMessage) (b : BufferedData) {i j : Nat}
    (hi : i < 2 ^ 31) (hj : j < 2 ^ 31) (hne : j ≠ i) (tag : MessageTag) (rank : Rank) :
    sentTo (outbox ++ [b.message j tag rank]) i = sentTo outbox i := by
  simp [sentTo, BufferedData.message, ofNat_ne hj hi hne]

/-! ## The invariant -/

namespace BufferClient

structure Inv (numberOfRanks capacity period : Nat) (c : BufferClient) : Prop where
  ranks : c.buffers.ranks = numberOfRanks
  width : c.buffers.capacity = capacity
  sizesLength : numberOfRanks ≤ c.buffers.sizesLength
  dataLength : capacity * numberOfRanks ≤ c.buffers.dataLength
  filled : ∀ i < numberOfRanks, HoldsPeriods capacity period (c.buffers.size i) (c.sinceFlush i)
  messages : ∀ m ∈ c.outbox, m.content ≠ [] ∧ period ∣ m.content.length ∧
    m.content.length ≤ capacity
  order : ∀ i < numberOfRanks, sentTo c.outbox i ++ c.buffers.contents i = c.appended i

variable {numberOfRanks capacity period : Nat} {c : BufferClient}

theorem Inv.addAt (h : Inv numberOfRanks capacity period c) {i : Nat} (hi : i < numberOfRanks)
    (hsince : c.sinceFlush i < period) (k : MessageUnit) :
    Inv numberOfRanks capacity period (c.addAt i k) := by
  refine ⟨h.ranks, h.width, h.sizesLength, h.dataLength, fun i' hi' => ?_, h.messages,
    fun i' hi' => ?_⟩
  · show HoldsPeriods capacity period ((c.buffers.addAt i k).size i')
      (Function.update c.sinceFlush i (c.sinceFlush i + 1) i')
    rw [BufferedData.size_addAt]
    by_cases hne : i' = i
    · subst hne
      rw [Function.update_self, Function.update_self]
      exact (h.filled i' hi').append hsince
    · rw [Function.update_of_ne hne, Function.update_of_ne hne]
      exact h.filled i' hi'
  · show sentTo c.outbox i' ++ (c.buffers.addAt i k).contents i' =
      Function.update c.appended i (c.appended i ++ [k]) i'
    by_cases hne : i' = i
    · subst hne
      rw [BufferedData.contents_addAt_self, Function.update_self, ← List.append_assoc,
        h.order i' hi']
    · have hroom := (h.filled i hi).lt_capacity hsince
      have hle := (h.filled i' hi').le_capacity
      rw [← h.width] at hroom hle
      rw [BufferedData.contents_addAt_of_ne hne hroom hle, Function.update_of_ne hne]
      exact h.order i' hi'

/-- A flush that leaves the buffer. -/
theorem Inv.kept (h : Inv numberOfRanks capacity period c) {destination : Nat}
    (hdestination : destination < numberOfRanks) (hdue : c.Due period destination)
    (hfew : c.buffers.size destination = 0 ∨
      c.buffers.size destination < capacity / period * period) :
    Inv numberOfRanks capacity period
      { c with sinceFlush := Function.update c.sinceFlush destination 0 } := by
  refine ⟨h.ranks, h.width, h.sizesLength, h.dataLength, fun i hi => ?_, h.messages, h.order⟩
  show HoldsPeriods capacity period (c.buffers.size i)
    (Function.update c.sinceFlush destination 0 i)
  have hfilled := h.filled i hi
  by_cases hne : i = destination
  · subst hne
    rw [Function.update_self]
    rcases hfew with hzero | hfew
    · rw [hzero] at hfilled ⊢
      rwa [hfilled.eq_zero] at hfilled
    · exact hfilled.flushed hdue hfew
  · rw [Function.update_of_ne hne]
    exact hfilled

/-- What is left of a run when the buffer of a destination is sent. -/
def send (c : BufferClient) (destination : Nat) (tag : MessageTag) (rank : Rank) :
    BufferClient :=
  { c with
    buffers := c.buffers.emptied destination
    outbox := c.outbox ++ [c.buffers.message destination tag rank]
    sinceFlush := Function.update c.sinceFlush destination 0 }

/-- The units of a destination are the same before and after a buffer is sent. -/
theorem sentTo_send (c : BufferClient) {i destination : Nat} (hi : i < 2 ^ 31)
    (hdestination : destination < 2 ^ 31) (tag : MessageTag) (rank : Rank) :
    sentTo (c.send destination tag rank).outbox i ++
        (c.send destination tag rank).buffers.contents i =
      sentTo c.outbox i ++ c.buffers.contents i := by
  simp only [send]
  by_cases hne : i = destination
  · subst hne
    rw [sentTo_message_self, BufferedData.contents_emptied_self, List.append_nil]
  · rw [sentTo_message_of_ne _ _ hi hdestination (Ne.symm hne),
      BufferedData.contents_emptied_of_ne hne]

theorem Inv.send (h : Inv numberOfRanks capacity period c) (hranks : numberOfRanks ≤ 2 ^ 31)
    (hperiod : 1 ≤ period) (hcapacity : period ≤ capacity) {destination : Nat}
    (hdestination : destination < numberOfRanks) (hdue : c.Due period destination)
    (hsize : c.buffers.size destination ≠ 0) (tag : MessageTag) (rank : Rank) :
    Inv numberOfRanks capacity period (c.send destination tag rank) := by
  refine ⟨h.ranks, h.width, h.sizesLength, h.dataLength, fun i hi => ?_, fun m hm => ?_,
    fun i hi => ?_⟩
  · show HoldsPeriods capacity period ((c.buffers.emptied destination).size i)
      (Function.update c.sinceFlush destination 0 i)
    rw [BufferedData.size_emptied]
    by_cases hne : i = destination
    · rw [hne, Function.update_self, Function.update_self]
      exact holdsPeriods_zero hperiod hcapacity
    · rw [Function.update_of_ne hne, Function.update_of_ne hne]
      exact h.filled i hi
  · rcases List.mem_append.mp hm with hm | hm
    · exact h.messages m hm
    · obtain rfl := List.mem_singleton.mp hm
      have hfilled := h.filled destination hdestination
      have hlength := c.buffers.length_contents destination
      refine ⟨fun hnil => hsize ?_, ?_, ?_⟩
      · rw [← hlength]
        exact congrArg List.length hnil
      · exact hlength ▸ hfilled.dvd hdue
      · exact hlength ▸ hfilled.le_capacity
  · exact (c.sentTo_send (by omega) (by omega) tag rank).trans (h.order i hi)

theorem Inv.flush (h : Inv numberOfRanks capacity period c) (hranks : numberOfRanks ≤ 2 ^ 31)
    (hperiod : 1 ≤ period) (hcapacity : period ≤ capacity) {destination period' : Nat}
    (hdestination : destination < numberOfRanks) (hdue : c.Due period destination)
    {force : Bool} (hforce : force = true ∨ period' = period) (tag : MessageTag) (rank : Rank) :
    Inv numberOfRanks capacity period (c.flush destination period' tag rank force) := by
  rcases c.buffers.flush_cases destination period' tag c.outbox rank force with
    ⟨hflush, hkept⟩ | ⟨hflush, hsize, -⟩
  · rw [BufferClient.flush, hflush]
    refine h.kept hdestination hdue (hkept.imp_right ?_)
    rintro ⟨rfl, hfew⟩
    obtain rfl : period' = period := hforce.resolve_left (by simp)
    rwa [BufferedData.threshold, h.width] at hfew
  · rw [BufferClient.flush, hflush]
    exact h.send hranks hperiod hcapacity hdestination hdue hsize tag rank

/-- `flushAll` sends one buffer, or there is none. -/
theorem Inv.flushAll_cases (h : Inv numberOfRanks capacity period c) (tag : MessageTag)
    (rank : Rank) :
    c.flushAll tag rank = c ∨ ∃ destination, c.buffers.First destination ∧
      c.buffers.Visited destination ∧ c.flushAll tag rank = c.send destination tag rank := by
  have hsince : ∀ i < numberOfRanks, c.buffers.size i = 0 → c.sinceFlush i = 0 := by
    intro i hi hzero
    exact (hzero ▸ h.filled i hi : HoldsPeriods capacity period 0 _).eq_zero
  rcases c.buffers.flushAll_cases tag c.outbox rank with
    ⟨hflush, hempty⟩ | ⟨destination, hfirst, hflush⟩
  · left
    have hsame : (fun i => if c.buffers.Visited i then 0 else c.sinceFlush i) = c.sinceFlush := by
      funext i
      split
      · rename_i hvisited
        exact (hsince i (h.ranks ▸ hvisited.1) (hempty i hvisited.1)).symm
      · rfl
    rw [BufferClient.flushAll, hflush, hsame]
  · right
    obtain ⟨hrank, hsize, hbefore⟩ := hfirst
    refine ⟨destination, ⟨hrank, hsize, hbefore⟩, ⟨hrank, hbefore⟩, ?_⟩
    have hsame : (fun i => if c.buffers.Visited i then 0 else c.sinceFlush i) =
        Function.update c.sinceFlush destination 0 := by
      funext i
      rcases Nat.lt_trichotomy i destination with hlt | rfl | hgt
      · have hi := hlt.trans hrank
        rw [Function.update_of_ne (Nat.ne_of_lt hlt),
          if_pos ⟨hi, fun i' hi' => hbefore i' (hi'.trans hlt)⟩]
        exact (hsince i (h.ranks ▸ hi) (hbefore i hlt)).symm
      · rw [Function.update_self, if_pos ⟨hrank, hbefore⟩]
      · rw [Function.update_of_ne (Nat.ne_of_gt hgt), if_neg]
        rintro ⟨-, hall⟩
        exact hsize (hall destination hgt)
    rw [BufferClient.flushAll, hflush, hsame]
    rfl

/-! ## Flushing all -/

/-- With the destinations below `n` empty, `flushAll` comes to an end. -/
theorem drained_from (tag : MessageTag) (rank : Rank) {n : Nat} (hn : n ≤ c.buffers.ranks)
    (hranks : c.buffers.ranks ≤ 2 ^ 31) (hempty : ∀ i < n, c.buffers.size i = 0) :
    ∃ b outbox,
      Returns (fun fuel => BufferedData.flushRepeatedly tag rank fuel c.buffers c.outbox)
        (b, outbox) ∧
        ∀ i < c.buffers.ranks, b.size i = 0 ∧
          sentTo outbox i = sentTo c.outbox i ++ c.buffers.contents i := by
  induction hleft : c.buffers.ranks - n using Nat.strongRecOn generalizing c n with
  | ind left ih =>
      rcases c.buffers.flushAll_cases tag c.outbox rank with
        ⟨hflush, hall⟩ | ⟨destination, ⟨hrank, hsize, hbefore⟩, hflush⟩
      · refine ⟨c.buffers, c.outbox, ⟨1, fun fuel hfuel => ?_⟩, fun i hi => ⟨hall i hi, ?_⟩⟩
        · obtain ⟨less, rfl⟩ : ∃ less, fuel = less + 1 := ⟨fuel - 1, by omega⟩
          simp [BufferedData.flushRepeatedly, hflush]
        · rw [BufferedData.contents_of_size_zero (hall i hi), List.append_nil]
      · -- the first buffer is gone, and those before it were empty
        have hlt : n ≤ destination := by
          by_contra hlt
          exact hsize (hempty destination (by omega))
        have hempty' : ∀ i < destination + 1, (c.send destination tag rank).buffers.size i = 0 := by
          intro i hi
          show Function.update c.buffers.size destination 0 i = 0
          by_cases hne : i = destination
          · rw [hne, Function.update_self]
          · rw [Function.update_of_ne hne]
            exact hbefore i (by omega)
        obtain ⟨b, outbox, hreturns, hsent⟩ :=
          ih (c.buffers.ranks - (destination + 1)) (by omega) (c := c.send destination tag rank)
            (n := destination + 1) hrank hranks hempty' rfl
        refine ⟨b, outbox, hreturns.next fun fuel => ?_, fun i hi => ⟨(hsent i hi).1, ?_⟩⟩
        · simp [BufferedData.flushRepeatedly, hflush, BufferClient.send]
        · rw [(hsent i hi).2]
          exact c.sentTo_send (by omega) (by omega) tag rank

theorem Inv.sound (h : Inv numberOfRanks capacity period c) (hranks : numberOfRanks ≤ 2 ^ 31) :
    BufferClient.Sound numberOfRanks capacity period c := by
  refine ⟨h.sizesLength, fun i hi hsince => ?_, h.messages, h.order, fun tag rank => ?_⟩
  · have hroom := (h.filled i hi).lt_capacity hsince
    refine ⟨hroom, Nat.lt_of_lt_of_le ?_ h.dataLength⟩
    rw [h.width]
    exact position_lt hi hroom
  · obtain ⟨b, outbox, hreturns, hsent⟩ :=
      c.drained_from tag rank (Nat.zero_le _) (h.ranks ▸ hranks) (fun i hi => by omega)
    refine ⟨b, outbox, hreturns, fun i hi => ?_⟩
    obtain ⟨hzero, hsame⟩ := hsent i (h.ranks ▸ hi)
    exact ⟨hzero, hsame.trans (h.order i hi)⟩

end BufferClient

/-! ## Runs -/

/-- The blocks are those that were meant, or there are none. -/
def Allocated (numberOfRanks capacity : Nat) : Prop :=
  Malloc (sizeofInt * numberOfRanks) = none ∨
    Malloc (sizeofMessageUnit * capacity * numberOfRanks) = none ∨
    sizeofMessageUnit * capacity * numberOfRanks < 2 ^ 31

section Runs

variable {numberOfRanks capacity period : Nat}

open BufferClient

theorem Malloc_cases (bytes : Nat) :
    Malloc bytes = none ∨ Malloc bytes = some (bytes % 2 ^ 32) ∧ bytes % 2 ^ 32 < 2 ^ 31 := by
  unfold Malloc
  by_cases hsmall : bytes % 2 ^ 32 < 2 ^ 31
  · exact .inr ⟨if_pos hsmall, hsmall⟩
  · exact .inl (if_neg hsmall)

theorem Malloc_of_lt {bytes : Nat} (h : bytes < 2 ^ 31) : Malloc bytes = some bytes := by
  unfold Malloc
  rw [Nat.mod_eq_of_lt (by omega)]
  exact if_pos h

theorem bytes_eq (capacity numberOfRanks : Nat) :
    sizeofMessageUnit * capacity * numberOfRanks = 8 * (capacity * numberOfRanks) :=
  Nat.mul_assoc _ _ _

theorem bufferSystem_inv (hperiod : 1 ≤ period) (hcapacity : period ≤ capacity)
    (hfit : sizeofMessageUnit * capacity * numberOfRanks < 2 ^ 31) :
    (bufferSystem numberOfRanks capacity period).Inductive
      (Inv numberOfRanks capacity period) := by
  have hunits := hfit
  rw [bytes_eq] at hunits
  have hranks : numberOfRanks ≤ capacity * numberOfRanks :=
    Nat.le_mul_of_pos_left numberOfRanks (by omega)
  refine ⟨?_, ?_⟩
  · rintro c ⟨data, b, hb, rfl⟩
    have hsizes : sizeofInt * numberOfRanks < 2 ^ 31 := by
      unfold sizeofInt
      omega
    simp only [BufferedData.constructor, Malloc_of_lt hsizes, Malloc_of_lt hfit] at hb
    obtain rfl := Option.some.inj hb
    refine ⟨rfl, rfl, ?_, ?_, fun i _ => holdsPeriods_zero hperiod hcapacity,
      fun m hm => absurd hm List.not_mem_nil, fun i _ => rfl⟩
    · show numberOfRanks ≤ 4 * numberOfRanks / 4
      omega
    · show capacity * numberOfRanks ≤ 8 * capacity * numberOfRanks / 8
      rw [Nat.mul_assoc]
      omega
  · rintro c call c' h hstep
    have hle : numberOfRanks ≤ 2 ^ 31 := by omega
    cases call with
    | addAt i k =>
        obtain ⟨hi, hsince, rfl⟩ := hstep
        exact h.addAt hi hsince k
    | flush destination period' tag rank force =>
        obtain ⟨hdestination, hdue, hforce, rfl⟩ := hstep
        exact h.flush hle hperiod hcapacity hdestination hdue hforce tag rank
    | flushAll tag rank =>
        obtain ⟨hdue, rfl⟩ := hstep
        rcases h.flushAll_cases tag rank with hsame | ⟨destination, hfirst, hvisited, hsend⟩
        · rwa [hsame]
        · rw [hsend]
          exact h.send hle hperiod hcapacity (h.ranks ▸ hfirst.1) (hdue destination hvisited)
            hfirst.2.1 tag rank

/-- Where a block is not the one that was meant, it is shorter by a multiple of 2^29 units. -/
theorem dataLength_of_not_allocated (h : ¬ Allocated numberOfRanks capacity) (period : Nat)
    (data : Nat → MessageUnit) :
    ∃ b, BufferedData.constructor numberOfRanks capacity period data = some b ∧
      b.ranks = numberOfRanks ∧ b.capacity = capacity ∧ b.size = (fun _ => 0) ∧
      b.dataLength < 2 ^ 28 ∧ b.dataLength + 2 ^ 29 ≤ capacity * numberOfRanks := by
  rw [Allocated, not_or, not_or] at h
  obtain ⟨hsizes, hdata, hlarge⟩ := h
  obtain ⟨hsizes, -⟩ := (Malloc_cases (sizeofInt * numberOfRanks)).resolve_left hsizes
  obtain ⟨hdata, hsmall⟩ :=
    (Malloc_cases (sizeofMessageUnit * capacity * numberOfRanks)).resolve_left hdata
  refine ⟨_, by simp only [BufferedData.constructor, hsizes, hdata]; rfl, rfl, rfl, rfl, ?_, ?_⟩
  · show _ % 2 ^ 32 / 8 < 2 ^ 28
    omega
  · show sizeofMessageUnit * capacity * numberOfRanks % 2 ^ 32 / 8 + 2 ^ 29 ≤
      capacity * numberOfRanks
    rw [bytes_eq] at hlarge hsmall ⊢
    omega

/-- More than half of the capacity is below the threshold. -/
theorem lt_threshold (hperiod : 1 ≤ period) (hcapacity : period ≤ capacity) {size : Nat}
    (hsize : 2 * size < capacity) : size < capacity / period * period := by
  have hsplit := Nat.div_add_mod capacity period
  have hmod := Nat.mod_lt capacity hperiod
  have hone : 1 * period ≤ capacity / period * period :=
    Nat.mul_le_mul_right period (Nat.div_pos hcapacity hperiod)
  rw [Nat.mul_comm] at hsplit
  omega

/-- A run that appends `size` units to the first destination, which are too few to be sent. -/
theorem reachable_size {c : BufferClient}
    (hreach : (bufferSystem numberOfRanks capacity period).Reachable c)
    (hperiod : 1 ≤ period) (hcapacity : period ≤ capacity) (hranks : 0 < numberOfRanks)
    (hwidth : c.buffers.capacity = capacity) (hzero : c.buffers.size 0 = 0)
    (hsince : c.sinceFlush 0 = 0) (size : Nat) (hsize : 2 * size < capacity) :
    ∃ c', (bufferSystem numberOfRanks capacity period).Reachable c' ∧ c'.buffers.size 0 = size ∧
      c'.sinceFlush 0 < period ∧ c'.buffers.capacity = capacity ∧
      c'.buffers.dataLength = c.buffers.dataLength := by
  induction size with
  | zero => exact ⟨c, hreach, hzero, by omega, hwidth, rfl⟩
  | succ size ih =>
      obtain ⟨c', hreach', hsize', hsince', hwidth', hlength⟩ := ih (by omega)
      have hadd : (bufferSystem numberOfRanks capacity period).Reachable (c'.addAt 0 0) :=
        .step (l := .addAt 0 0) hreach' ⟨hranks, hsince', rfl⟩
      have hnext : (c'.addAt 0 0).buffers.size 0 = size + 1 := by
        show Function.update c'.buffers.size 0 (c'.buffers.size 0 + 1) 0 = size + 1
        rw [Function.update_self, hsize']
      have hcount : (c'.addAt 0 0).sinceFlush 0 = c'.sinceFlush 0 + 1 := by
        show Function.update c'.sinceFlush 0 (c'.sinceFlush 0 + 1) 0 = _
        rw [Function.update_self]
      by_cases hmore : c'.sinceFlush 0 + 1 < period
      · exact ⟨_, hadd, hnext, hcount ▸ hmore, hwidth', hlength⟩
      · -- a period is complete, and `flush` is called
        have hdue : (c'.addAt 0 0).Due period 0 := .inr (by omega)
        have hflush : (bufferSystem numberOfRanks capacity period).Reachable
            ((c'.addAt 0 0).flush 0 period 0 0 false) :=
          .step (l := .flush 0 period 0 0 false) hadd ⟨hranks, hdue, .inr rfl, rfl⟩
        have hkept : (c'.addAt 0 0).buffers.flush 0 period 0 (c'.addAt 0 0).outbox 0 false =
            ((c'.addAt 0 0).buffers, (c'.addAt 0 0).outbox, false) := by
          rcases (c'.addAt 0 0).buffers.flush_cases 0 period 0 (c'.addAt 0 0).outbox 0 false with
            ⟨hkept, -⟩ | ⟨-, -, hfull⟩
          · exact hkept
          · have hfew := lt_threshold hperiod hcapacity hsize
            have hthreshold : capacity / period * period ≤ size + 1 := by
              rw [← hnext, ← hwidth']
              exact hfull.resolve_left (by simp)
            omega
        rw [BufferClient.flush, hkept] at hflush
        exact ⟨_, hflush, hnext, by simp; omega, hwidth', hlength⟩

/-- Without the blocks that were meant, some append of some run is outside of the array. -/
theorem exists_unsound (hperiod : 1 ≤ period) (hcapacity : period ≤ capacity)
    (h : ¬ Allocated numberOfRanks capacity) :
    ∃ c, (bufferSystem numberOfRanks capacity period).Reachable c ∧
      ¬ BufferClient.Sound numberOfRanks capacity period c := by
  obtain ⟨b, hb, -, hwidth, hsize, hsmall, hshort⟩ :=
    dataLength_of_not_allocated h period fun _ => 0
  have hstart : (bufferSystem numberOfRanks capacity period).Reachable ⟨b, [], fun _ => [],
      fun _ => 0⟩ := .init ⟨_, b, hb, rfl⟩
  obtain ⟨r, rfl⟩ : ∃ r, numberOfRanks = r + 1 := by
    refine ⟨numberOfRanks - 1, ?_⟩
    rcases Nat.eq_zero_or_pos numberOfRanks with rfl | hpos
    · omega
    · omega
  rw [Nat.mul_succ] at hshort
  by_cases hlast : b.dataLength ≤ capacity * r
  · -- the slot of the last destination
    refine ⟨_, hstart, fun hsound => ?_⟩
    have hroom := (hsound.room r (Nat.lt_succ_self r) hperiod).2
    simp only [position, hwidth, hsize, Nat.mul_comm r] at hroom
    omega
  · -- there is one destination, with more units than the block has
    have hone : r = 0 := by
      by_contra hne
      have hmul := Nat.le_mul_of_pos_right capacity (Nat.pos_of_ne_zero hne)
      omega
    subst hone
    obtain ⟨c, hreach, hfull, hsince, hcapacity', hlength⟩ :=
      reachable_size hstart hperiod hcapacity Nat.one_pos hwidth (congrFun hsize 0) rfl
        b.dataLength (by omega)
    refine ⟨c, hreach, fun hsound => ?_⟩
    have hroom := (hsound.room 0 Nat.one_pos hsince).2
    simp only [position, hfull, hlength] at hroom
    omega

end Runs

end RayPlatform
