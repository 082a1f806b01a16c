import Mathlib.Tactic.Linarith
import RayPlatform.Lib.ByteBuffer
import RayPlatform.Lib.TransitionSystem

/-!
# Transfers in chunks

A sequence moves from one party to another in chunks of a bounded size. The receiver asks
for the chunk after what it has, the sender answers, and the transfer is done when
everything was received.

* `Transfer.Step` — a request, its answer and the reception are separate steps;
* `Transfer.Sound` — the chunks follow each other without gap or overlap, and the
  transfer is done after `roundTrips` of them and not before.
-/

namespace RayPlatform.Lib

variable {α : Type}

inductive TransferPhase
  | absent
  | idle
  | requested
  | replied
  | done
  deriving DecidableEq, Repr

structure Transfer (α : Type) where
  phase : TransferPhase
  received : List α
  /-- the offset and the length of each chunk -/
  chunks : List (Nat × Nat)

inductive TransferEvent
  | start
  | request
  | serve
  | receive
  deriving DecidableEq, Repr

/-- The number of chunks; an empty sequence takes one. -/
def roundTrips (capacity length : Nat) : Nat :=
  max 1 ((length + capacity - 1) / capacity)

/-- The chunks of a sequence, in order. -/
def chunkList (capacity length n : Nat) : List (Nat × Nat) :=
  (List.range n).map fun i => (i * capacity, min capacity (length - i * capacity))

namespace Transfer

def fresh : Transfer α :=
  { phase := .absent, received := [], chunks := [] }

/-- The next chunk is received. -/
def receive (capacity : Nat) (value : List α) (t : Transfer α) : Transfer α :=
  { phase := if t.received.length + min capacity (value.length - t.received.length) =
      value.length then .done else .idle
    received := t.received ++ (value.drop t.received.length).take capacity
    chunks := t.chunks ++
      [(t.received.length, min capacity (value.length - t.received.length))] }

inductive Step (capacity : Nat) (value : List α) :
    Transfer α → TransferEvent → Transfer α → Prop
  | start {t : Transfer α} : t.phase = .absent →
      Step capacity value t .start { t with phase := .idle }
  | request {t : Transfer α} : t.phase = .idle →
      Step capacity value t .request { t with phase := .requested }
  | serve {t : Transfer α} : t.phase = .requested →
      Step capacity value t .serve { t with phase := .replied }
  | receive {t : Transfer α} : t.phase = .replied →
      Step capacity value t .receive (t.receive capacity value)

structure Sound (capacity : Nat) (value : List α) (t : Transfer α) : Prop where
  received : t.received = value.take (t.chunks.length * capacity)
  chunks : t.chunks = chunkList capacity value.length t.chunks.length
  more : t.phase ≠ .done → t.chunks.length < roundTrips capacity value.length
  done : t.phase = .done → t.chunks.length = roundTrips capacity value.length ∧
    t.received = value
  absent : t.phase = .absent → t.chunks = []

end Transfer

theorem lt_roundTrips {capacity length n : Nat} (hpos : 0 < capacity) :
    n < roundTrips capacity length ↔ n = 0 ∨ n * capacity < length := by
  have hceil : n < (length + capacity - 1) / capacity ↔ (n + 1) * capacity ≤ length + capacity - 1 :=
    Nat.le_div_iff_mul_le hpos
  rw [roundTrips, lt_max_iff, hceil, Nat.succ_mul]
  omega

namespace Transfer

variable {capacity : Nat} {value : List α} {t t' : Transfer α}

theorem Sound.offset (h : Sound capacity value t) (hpos : 0 < capacity)
    (hmore : t.phase ≠ .done) : t.received.length = t.chunks.length * capacity := by
  have hlt := (lt_roundTrips hpos).mp (h.more hmore)
  rw [h.received, List.length_take]
  rcases hlt with hzero | hlt
  · rw [hzero, Nat.zero_mul, Nat.zero_min]
  · omega

theorem Sound.receive (h : Sound capacity value t) (hpos : 0 < capacity)
    (hphase : t.phase = .replied) : Sound capacity value (t.receive capacity value) := by
  have hmore : t.phase ≠ .done := by
    rw [hphase]
    exact TransferPhase.noConfusion
  have hoffset := h.offset hpos hmore
  have hlt := (lt_roundTrips hpos).mp (h.more hmore)
  have hlength : (t.receive capacity value).chunks.length = t.chunks.length + 1 := by
    simp [Transfer.receive]
  have hreceived : (t.receive capacity value).received =
      value.take ((t.chunks.length + 1) * capacity) := by
    show t.received ++ (value.drop t.received.length).take capacity = _
    rw [hoffset, h.received, take_append_take_drop, Nat.succ_mul]
  have hend : t.received.length + min capacity (value.length - t.received.length) = value.length ↔
      value.length ≤ (t.chunks.length + 1) * capacity := by
    rw [hoffset, Nat.succ_mul]
    rcases hlt with hzero | hlt
    · rw [hzero, Nat.zero_mul]
      omega
    · omega
  refine ⟨?_, ?_, ?_, ?_, ?_⟩
  · rw [hlength]
    exact hreceived
  · rw [hlength, chunkList, List.range_succ, List.map_append]
    show t.chunks ++ _ = _
    conv_lhs => rw [h.chunks]
    rw [hoffset]
    rfl
  · intro hnot
    rw [hlength, lt_roundTrips hpos]
    by_contra hge
    refine hnot (if_pos (hend.mpr ?_))
    omega
  · intro hdone
    have hall : value.length ≤ (t.chunks.length + 1) * capacity := by
      by_contra hge
      have hidle : (t.receive capacity value).phase = .idle := if_neg fun heq => hge (hend.mp heq)
      rw [hidle] at hdone
      cases hdone
    refine ⟨?_, ?_⟩
    · have hnot : ¬ t.chunks.length + 1 < roundTrips capacity value.length := by
        rw [lt_roundTrips hpos]
        omega
      have hle := h.more hmore
      omega
    · rw [hreceived, List.take_of_length_le hall]
  · intro habsent
    have hphases : (t.receive capacity value).phase = .done ∨
        (t.receive capacity value).phase = .idle := by
      unfold Transfer.receive
      simp only
      split
      · exact .inl rfl
      · exact .inr rfl
    rcases hphases with heq | heq <;> rw [heq] at habsent <;> cases habsent

theorem Sound.step (h : Sound capacity value t) (hpos : 0 < capacity) {e : TransferEvent}
    (hstep : Step capacity value t e t') : Sound capacity value t' := by
  cases hstep with
  | start hphase =>
      have hmore := h.more (by rw [hphase]; exact TransferPhase.noConfusion)
      exact ⟨h.received, h.chunks, fun _ => hmore, (fun hdone => by cases hdone),
        fun _ => h.absent hphase⟩
  | request hphase =>
      have hmore := h.more (by rw [hphase]; exact TransferPhase.noConfusion)
      exact ⟨h.received, h.chunks, fun _ => hmore, (fun hdone => by cases hdone),
        fun habsent => by cases habsent⟩
  | serve hphase =>
      have hmore := h.more (by rw [hphase]; exact TransferPhase.noConfusion)
      exact ⟨h.received, h.chunks, fun _ => hmore, (fun hdone => by cases hdone),
        fun habsent => by cases habsent⟩
  | receive hphase => exact h.receive hpos hphase

end Transfer

/-- The transfer of one value. -/
def transferSystem (capacity : Nat) (value : List α) :
    TransitionSystem (Transfer α) TransferEvent :=
  { init := fun t => t = .fresh
    step := Transfer.Step capacity value }

theorem transferSystem_inductive {capacity : Nat} (hpos : 0 < capacity) (value : List α) :
    (transferSystem capacity value).Inductive (Transfer.Sound capacity value) := by
  refine ⟨fun t ht => ?_, fun t e t' h hstep => h.step hpos hstep⟩
  rw [show t = Transfer.fresh from ht]
  refine ⟨by simp [Transfer.fresh], rfl, fun _ => ?_, (fun hdone => by cases hdone), fun _ => rfl⟩
  exact (lt_roundTrips hpos).mpr (.inl rfl)

end RayPlatform.Lib
