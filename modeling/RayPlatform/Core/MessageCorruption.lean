import RayPlatform.Core.ComputeCore
import RayPlatform.Cryptography.HardwareCode

/-!
# Corrupted messages

What `verifyMessageChecksums` reports when the bytes of a message have changed
between `addMessageChecksums` and the inbox.
-/

namespace RayPlatform.ComputeCore

open Lib (MemoryBlock wordBytes bytesWord length_wordBytes bytesWord_wordBytes)
open Lib.MemoryBlock

variable {size : Nat}

/-- `verifyMessageChecksums`: the messages of the inbox, each with its buffer. -/
def verifyMessageChecksums (inbox : List (Message × MemoryBlock size)) :
    Option (List (Message × Bool)) :=
  inbox.mapM fun received => verifyMessageChecksum received.1 received.2

/-- Some of the first bytes of a buffer are no longer those that were sent, all of them
in a window of four bytes. The checksum behind them is the one that was sent. -/
structure AlteredInWindow (sent received : MemoryBlock size) (length start : Nat) : Prop where
  checksummed : Checksummed sent length
  altered : ∃ i < length, received.byte i ≠ sent.byte i
  window : ∀ i < length, received.byte i ≠ sent.byte i → start ≤ i ∧ i < start + 4
  checksum : ∀ i < 4, received.byte (length + i) = sent.byte (length + i)

variable {m : Message} {memory sent received : MemoryBlock size} {length start : Nat}

/-- A corruption is reported when the checksum behind some bytes is not theirs. -/
theorem verifyMessageChecksum_of_holds {data : List UInt8} {expected : UInt32}
    (hdata : memory.Holds 0 data) (hexpected : memory.Holds data.length (wordBytes 4 expected.toNat))
    (hbytes : m.bytes = data.length + 4) (hfit : data.length + 4 ≤ size) :
    verifyMessageChecksum m memory = some ({ m with bytes := data.length },
      decide (computeCyclicRedundancyCode32 data ≠ expected)) := by
  have hread := read_of_holds hdata (by omega)
  have hreadExpected := read_of_holds hexpected (by rw [length_wordBytes]; exact hfit)
  rw [length_wordBytes] at hreadExpected
  rw [verifyMessageChecksum, if_pos (by omega), hbytes]
  simp [hread, hreadExpected, bytesWord_wordBytes, UInt32.toNat_inj]

/-- A rank without SSE 4.2 accepts what a rank with SSE 4.2 sends when the bytes pass
the parity check. -/
theorem verifyMessageChecksum_of_hardware {data : List UInt8} (hdata : memory.Holds 0 data)
    (hexpected : memory.Holds data.length
      (wordBytes 4 (hardwareCyclicRedundancyCode32 data).toNat))
    (hbytes : m.bytes = data.length + 4) (hfit : data.length + 4 ≤ size) :
    verifyMessageChecksum m memory =
      some ({ m with bytes := data.length }, decide (¬ PassesParityCheck data)) := by
  rw [verifyMessageChecksum_of_holds hdata hexpected hbytes hfit]
  simp only [ne_eq, ← agree_iff, eq_comm]

theorem AlteredInWindow.differ (h : AlteredInWindow sent received length start)
    {data data' : List UInt8} (hsent : sent.Holds 0 data) (hreceived : received.Holds 0 data')
    (hlength : data.length = length) (hlength' : data'.length = length) :
    data' ≠ data ∧ DifferInWindow data' data start := by
  rw [holds_iff] at hsent hreceived
  simp only [Nat.zero_add] at hsent hreceived
  refine ⟨?_, fun i hne => ?_⟩
  · obtain ⟨i, hi, hne⟩ := h.altered
    rintro rfl
    have := (hreceived i (hlength' ▸ hi)).symm.trans (hsent i (hlength ▸ hi))
    exact hne (Option.some.inj this)
  · by_cases hi : i < length
    · apply h.window i hi
      rw [hsent i (hlength ▸ hi), hreceived i (hlength' ▸ hi)] at hne
      exact fun heq => hne (congrArg some heq)
    · refine absurd ?_ hne
      rw [List.getElem?_eq_none (by omega), List.getElem?_eq_none (by omega)]

/-- The checksum of other bytes is not the one behind them. -/
theorem AlteredInWindow.reported (h : AlteredInWindow sent received length start)
    (hbytes : m.bytes = length + 4) (hfit : length + 4 ≤ size) :
    verifyMessageChecksum m received = some ({ m with bytes := length }, true) := by
  obtain ⟨data, hsent, hlength, hcrc⟩ := h.checksummed
  obtain ⟨data', -, hlength', hreceived⟩ := read_zero received (Nat.le_of_add_right_le hfit)
  obtain ⟨hne, hwindow⟩ := h.differ hsent hreceived hlength hlength'
  have hexpected : received.Holds data'.length
      (wordBytes 4 (computeCyclicRedundancyCode32 data).toNat) := by
    rw [hlength', holds_iff]
    rw [holds_iff] at hcrc
    intro i hi
    rw [hcrc i hi, h.checksum i (by rwa [length_wordBytes] at hi)]
  rw [← hlength'] at hbytes hfit ⊢
  rw [verifyMessageChecksum_of_holds hreceived hexpected hbytes hfit,
    decide_eq_true (checksum_burst (hlength'.trans hlength.symm) hne hwindow)]

/-- The messages are verified one by one. -/
theorem verifyMessageChecksums_spec (inbox : List (Message × MemoryBlock size))
    (hinbox : ∀ received ∈ inbox, 4 ≤ received.1.bytes ∧ received.1.bytes ≤ size) :
    ∃ verified, verifyMessageChecksums inbox = some verified ∧
      ∀ i (h : i < inbox.length), verified[i]? = verifyMessageChecksum inbox[i].1 inbox[i].2 := by
  induction inbox with
  | nil => exact ⟨[], rfl, fun i h => absurd h (Nat.not_lt_zero i)⟩
  | cons first inbox ih =>
      obtain ⟨verified, hverified, hall⟩ := ih fun r hr => hinbox r (List.mem_cons_of_mem _ hr)
      obtain ⟨hleast, hmost⟩ := hinbox first List.mem_cons_self
      obtain ⟨data, hread, -, -⟩ := read_zero first.2 (show first.1.bytes - 4 ≤ size by omega)
      have hexpected : ∃ expected, first.2.read (first.1.bytes - 4) 4 = some expected := by
        refine ⟨_, if_pos ?_⟩
        omega
      obtain ⟨expected, hexpected⟩ := hexpected
      have hfirst : ∃ result, verifyMessageChecksum first.1 first.2 = some result := by
        rw [verifyMessageChecksum, if_pos hleast]
        simp [hread, hexpected]
      obtain ⟨result, hresult⟩ := hfirst
      refine ⟨result :: verified, ?_, fun i h => ?_⟩
      · unfold verifyMessageChecksums at hverified ⊢
        simp [List.mapM_cons, hresult, hverified]
      · cases i with
        | zero => exact hresult.symm
        | succ i => exact hall i (Nat.lt_of_succ_lt_succ h)

/-- A burst of errors of at most four bytes changes the checksum, and is reported. -/
theorem short_bursts_detected :
    (∀ (bytes bytes' : List UInt8) (start : Nat), bytes.length = bytes'.length → bytes ≠ bytes' →
      DifferInWindow bytes bytes' start →
      computeCyclicRedundancyCode32 bytes ≠ computeCyclicRedundancyCode32 bytes') ∧
    ∀ (size : Nat) (inbox : List (Message × MemoryBlock size)),
      (∀ received ∈ inbox, 4 ≤ received.1.bytes ∧ received.1.bytes ≤ size) →
      ∃ verified, verifyMessageChecksums inbox = some verified ∧
        ∀ (i : Nat) (m : Message) (sent received : MemoryBlock size) (start : Nat),
          inbox[i]? = some (m, received) →
          AlteredInWindow sent received (m.bytes - 4) start →
          verified[i]? = some ({ m with bytes := m.bytes - 4 }, true) := by
  refine ⟨fun bytes bytes' start hlength hne hwindow => checksum_burst hlength hne hwindow,
    fun size inbox hinbox => ?_⟩
  obtain ⟨verified, hverified, hall⟩ := verifyMessageChecksums_spec inbox hinbox
  refine ⟨verified, hverified, fun i m sent received start hi haltered => ?_⟩
  obtain ⟨hlt, hget⟩ := List.getElem?_eq_some_iff.mp hi
  obtain ⟨hleast, hmost⟩ : 4 ≤ m.bytes ∧ m.bytes ≤ size := hinbox _ (List.mem_of_getElem? hi)
  rw [hall i hlt, hget]
  exact haltered.reported (Nat.sub_add_cancel hleast).symm (by rwa [Nat.sub_add_cancel hleast])

/-- A message of two bytes with its checksum. -/
def smallMessage (first second : UInt8) : MemoryBlock 6 :=
  { byte := fun i => (first :: second ::
      wordBytes 4 (computeCyclicRedundancyCode32 [7, 8]).toNat).getD i 0 }

theorem short_bursts_detected_small :
    computeCyclicRedundancyCode32 [7, 8] ≠ computeCyclicRedundancyCode32 [7, 9] ∧
      ∃ verified, verifyMessageChecksums [(Message.new 6 1 5 0, smallMessage 7 9)] = some verified ∧
        verified[0]? = some (Message.new 2 1 5 0, true) := by
  constructor
  · refine short_bursts_detected.1 [7, 8] [7, 9] 0 rfl (by decide) fun i hne => ?_
    by_cases hi : i < 2
    · exact ⟨Nat.zero_le i, by omega⟩
    · refine absurd ?_ hne
      rw [List.getElem?_eq_none (Nat.le_of_not_lt hi), List.getElem?_eq_none (Nat.le_of_not_lt hi)]
  · obtain ⟨verified, hverified, hall⟩ :=
      short_bursts_detected.2 6 [(Message.new 6 1 5 0, smallMessage 7 9)] (by decide)
    refine ⟨verified, hverified, ?_⟩
    refine hall 0 (Message.new 6 1 5 0) (smallMessage 7 8) (smallMessage 7 9) 0 rfl ?_
    exact ⟨⟨[7, 8], rfl, rfl, by unfold Holds; decide +kernel⟩, ⟨1, by decide, by decide⟩,
      fun i hi _ => ⟨Nat.zero_le _, Nat.lt_of_lt_of_le hi (by decide)⟩, fun i _ => by
        rw [show (Message.new 6 1 5 0).bytes - 4 + i = i + 2 from Nat.add_comm ..]; rfl⟩

end RayPlatform.ComputeCore
