import RayPlatform.Lib.ChunkedTransfer
import RayPlatform.Store.KeyValueStoreHandlers

/-!
# Ranks that pull keys from each other

The stores of the ranks and the messages in flight, which arrive in any order. `InPhase`
says where the transfer of one key to one rank is: what the item of the rank has, and
which message is on its way. Each call and each delivery of the transfer is a step of
`Lib.Transfer` (`InPhase.test`, `InPhase.serve`, `InPhase.receive`), every other step
leaves it alone (`InPhase.frame`).
-/

namespace RayPlatform

open Lib (TransferPhase)
open KeyValueStore (Copied Downloading Complete)

variable {ι : Type}

/-- What a step did, for the record. -/
inductive StoreEvent (ι : Type)
  | tested (rank : ι) (key : List UInt8) (result : Bool)
  /-- the request of a rank was answered -/
  | served (rank : ι) (copied : Copied)
  /-- a rank took a reply -/
  | received (rank : ι) (copied : Copied)
  | inserted (rank : ι) (key value : List UInt8)
  deriving DecidableEq, Repr

structure StoreNetwork (ι : Type) where
  stores : ι → KeyValueStore
  messages : List (StoreMessage ι)
  log : List (StoreEvent ι)

/-- The memory argument is what allocated memory holds. -/
inductive StoreStep (ι : Type)
  | test (rank : ι) (key : List UInt8) (source : ι) (memory : Nat → UInt8)
  | deliver (i : Nat) (memory : Nat → UInt8)
  | insertLocalKey (rank : ι) (key : List UInt8) (value : Option (List UInt8))
  | removeLocalKey (rank : ι) (key : List UInt8)

/-- A message of the transfer of a key to a rank. -/
def StoreMessage.about [DecidableEq ι] (m : StoreMessage ι) (rank : ι) (key : List UInt8) : Bool :=
  (match m.tag with
    | .RAYPLATFORM_MESSAGE_TAG_DOWNLOAD_OBJECT_PART => decide (m.source = rank)
    | .RAYPLATFORM_MESSAGE_TAG_DOWNLOAD_OBJECT_PART_REPLY => decide (m.destination = rank)) &&
  decide (cString m.data = key)

namespace StoreNetwork

variable [DecidableEq ι]

/-- `KeyValueStore::test` on a rank. -/
def test (s : StoreNetwork ι) (rank : ι) (key : List UInt8) (source : ι) (memory : Nat → UInt8) :
    Option (StoreNetwork ι) :=
  ((s.stores rank).pullRemoteKeyWithLength rank key source memory).map fun pulled =>
    { stores := Function.update s.stores rank pulled.store
      messages := s.messages ++ pulled.sent.toList
      log := s.log ++ [.tested rank (cString key) pulled.result] }

/-- The handler of a message that leaves the network. -/
def handle (s : StoreNetwork ι) (m : StoreMessage ι) (memory : Nat → UInt8) :
    Option (StoreNetwork ι) :=
  match m.tag with
  | .RAYPLATFORM_MESSAGE_TAG_DOWNLOAD_OBJECT_PART =>
      ((s.stores m.destination).call_DOWNLOAD_OBJECT_PART m memory).map fun answer =>
        { s with
          messages := s.messages ++ [answer.1]
          log := s.log ++ [.served m.source answer.2] }
  | .RAYPLATFORM_MESSAGE_TAG_DOWNLOAD_OBJECT_PART_REPLY =>
      ((s.stores m.destination).call_DOWNLOAD_OBJECT_PART_REPLY m memory).map fun result =>
        { s with
          stores := Function.update s.stores m.destination result.1
          log := s.log ++ [.received m.destination result.2] }

def exec (s : StoreNetwork ι) : StoreStep ι → Option (StoreNetwork ι)
  | .test rank key source memory => s.test rank key source memory
  | .deliver i memory =>
      match s.messages[i]? with
      | some m => { s with messages := s.messages.eraseIdx i }.handle m memory
      | none => none
  | .insertLocalKey rank key value =>
      let inserted := (s.stores rank).insertLocalKey key value (value.getD []).length
      some { s with
        stores := Function.update s.stores rank inserted.1
        log := if inserted.2 then s.log ++ [.inserted rank (cString key) (value.getD [])]
          else s.log }
  | .removeLocalKey rank key =>
      some { s with
        stores := Function.update s.stores rank ((s.stores rank).removeLocalKey key) }

/-- The messages in flight of a transfer. -/
def inFlight (s : StoreNetwork ι) (rank : ι) (key : List UInt8) : List (StoreMessage ι) :=
  s.messages.filter (·.about rank key)

end StoreNetwork

/-- A network that starts with these stores and no message. -/
def storeSystem [DecidableEq ι] (stores : ι → KeyValueStore) :
    Lib.TransitionSystem (StoreNetwork ι) (StoreStep ι) :=
  .ofExec { stores := stores, messages := [], log := [] } StoreNetwork.exec

/-! ## Messages that leave the network -/

section Filter

variable {α : Type} {l : List α} {i : Nat} {a b : α} {p : α → Bool}

theorem filter_eraseIdx_of_not (hi : l[i]? = some a) (ha : p a = false) :
    (l.eraseIdx i).filter p = l.filter p := by
  obtain ⟨hlt, hget⟩ := List.getElem?_eq_some_iff.mp hi
  have hsplit : l = l.take i ++ a :: l.drop (i + 1) := by
    rw [← hget, ← List.drop_eq_getElem_cons hlt, List.take_append_drop]
  conv_rhs => rw [hsplit]
  rw [List.eraseIdx_eq_take_drop_succ, List.filter_append, List.filter_append,
    List.filter_cons_of_neg (by simp [ha])]

theorem filter_eraseIdx_of_single (hi : l[i]? = some a) (ha : p a = true)
    (hone : l.filter p = [b]) : a = b ∧ (l.eraseIdx i).filter p = [] := by
  obtain ⟨hlt, hget⟩ := List.getElem?_eq_some_iff.mp hi
  have hsplit : l = l.take i ++ a :: l.drop (i + 1) := by
    rw [← hget, ← List.drop_eq_getElem_cons hlt, List.take_append_drop]
  rw [hsplit, List.filter_append, List.filter_cons_of_pos ha] at hone
  rw [List.eraseIdx_eq_take_drop_succ, List.filter_append]
  cases hfirst : (l.take i).filter p with
  | nil =>
      rw [hfirst] at hone
      injection hone with heq hrest
      exact ⟨heq, hrest⟩
  | cons c rest =>
      rw [hfirst] at hone
      injection hone with _ hrest
      exact absurd hrest (by simp)

end Filter

/-! ## Where a transfer is -/

structure IsRequest (m : StoreMessage ι) (key : List UInt8) (offset : Nat) : Prop where
  tag : m.tag = .RAYPLATFORM_MESSAGE_TAG_DOWNLOAD_OBJECT_PART
  data : ∃ valueLength rest, valueLength < 2 ^ 32 ∧
    m.data = messageHeader key valueLength offset ++ rest

structure IsReply (m : StoreMessage ι) (key value : List UInt8) (offset : Nat) : Prop where
  tag : m.tag = .RAYPLATFORM_MESSAGE_TAG_DOWNLOAD_OBJECT_PART_REPLY
  data : ∃ padding,
    m.data = messageHeader key value.length offset ++ part key value offset ++ padding
  offset_le : offset ≤ value.length

/-- Where the transfer of a value to a rank is, by the item of the rank and the messages
in flight. -/
def InPhase (key value : List UInt8) (offset : Nat) (item : Option KeyValueStoreItem)
    (inFlight : List (StoreMessage ι)) : TransferPhase → Prop
  | .absent => item = none ∧ inFlight = [] ∧ offset = 0
  | .idle => ∃ i, item = some i ∧ Downloading i value offset ∧ i.messageWasSent = false ∧
      inFlight = []
  | .requested => ∃ i, item = some i ∧ Downloading i value offset ∧ i.messageWasSent = true ∧
      ∃ m, inFlight = [m] ∧ IsRequest m key offset
  | .replied => ∃ i, item = some i ∧ Downloading i value offset ∧ i.messageWasSent = true ∧
      ∃ m, inFlight = [m] ∧ IsReply m key value offset
  | .done => ∃ i, item = some i ∧ Complete i value ∧ inFlight = []

/-- What a call to `test` makes of a phase. -/
def tested : TransferPhase → TransferPhase
  | .absent => .idle
  | .idle => .requested
  | phase => phase

namespace InPhase

variable {key value : List UInt8} {offset : Nat} {item : Option KeyValueStoreItem}
  {inFlight : List (StoreMessage ι)} {phase : TransferPhase}

theorem absent_of_none (h : InPhase key value offset none inFlight phase) :
    phase = .absent ∧ inFlight = [] ∧ offset = 0 := by
  cases phase with
  | absent => exact ⟨rfl, h.2⟩
  | idle => obtain ⟨i, hi, -⟩ := h; cases hi
  | requested => obtain ⟨i, hi, -⟩ := h; cases hi
  | replied => obtain ⟨i, hi, -⟩ := h; cases hi
  | done => obtain ⟨i, hi, -⟩ := h; cases hi

/-- The phases of an item, by its flags. -/
theorem of_some {i : KeyValueStoreItem} (h : InPhase key value offset (some i) inFlight phase) :
    (phase = .done ∧ Complete i value ∧ inFlight = []) ∨
    (Downloading i value offset ∧
      ((phase = .idle ∧ i.messageWasSent = false ∧ inFlight = []) ∨
        ((phase = .requested ∨ phase = .replied) ∧ i.messageWasSent = true))) := by
  cases phase with
  | absent => cases h.1
  | idle =>
      obtain ⟨_, hi, hdown, hsent, hempty⟩ := h
      cases hi
      exact .inr ⟨hdown, .inl ⟨rfl, hsent, hempty⟩⟩
  | requested =>
      obtain ⟨_, hi, hdown, hsent, -⟩ := h
      cases hi
      exact .inr ⟨hdown, .inr ⟨.inl rfl, hsent⟩⟩
  | replied =>
      obtain ⟨_, hi, hdown, hsent, -⟩ := h
      cases hi
      exact .inr ⟨hdown, .inr ⟨.inr rfl, hsent⟩⟩
  | done =>
      obtain ⟨_, hi, hcomplete, hempty⟩ := h
      cases hi
      exact .inl ⟨rfl, hcomplete, hempty⟩

/-- The one message in flight is a request or a reply. -/
theorem of_mem (h : InPhase key value offset item inFlight phase) {m : StoreMessage ι}
    (hm : m ∈ inFlight) : inFlight = [m] ∧
      (phase = .requested ∧ IsRequest m key offset ∨
        phase = .replied ∧ IsReply m key value offset) := by
  cases phase with
  | absent =>
      rw [h.2.1] at hm
      cases hm
  | idle =>
      obtain ⟨_, _, _, _, hempty⟩ := h
      rw [hempty] at hm
      cases hm
  | requested =>
      obtain ⟨_, _, _, _, other, hone, hrequest⟩ := h
      rw [hone, List.mem_singleton] at hm
      subst hm
      exact ⟨hone, .inl ⟨rfl, hrequest⟩⟩
  | replied =>
      obtain ⟨_, _, _, _, other, hone, hreply⟩ := h
      rw [hone, List.mem_singleton] at hm
      subst hm
      exact ⟨hone, .inr ⟨rfl, hreply⟩⟩
  | done =>
      obtain ⟨_, _, _, hempty⟩ := h
      rw [hempty] at hm
      cases hm

theorem length_le (h : InPhase key value offset item inFlight phase) : inFlight.length ≤ 1 := by
  cases hflight : inFlight with
  | nil => exact Nat.zero_le 1
  | cons m rest =>
      obtain ⟨hone, -⟩ := h.of_mem (hflight ▸ List.mem_cons_self : m ∈ inFlight)
      rw [← hflight, hone]
      exact Nat.le_refl 1

end InPhase

/-! ## The parts in the record -/

/-- The offset and the length of a part that was sent to a rank. -/
def StoreEvent.servedPart [DecidableEq ι] (rank : ι) (key : List UInt8) :
    StoreEvent ι → Option (Nat × Nat)
  | .served r copied =>
      if r = rank ∧ copied.key = key then some (copied.offset, copied.bytes) else none
  | _ => none

/-- The offset and the length of a part that a rank wrote. -/
def StoreEvent.receivedPart [DecidableEq ι] (rank : ι) (key : List UInt8) :
    StoreEvent ι → Option (Nat × Nat)
  | .received r copied =>
      if r = rank ∧ copied.key = key then some (copied.offset, copied.bytes) else none
  | _ => none

def StoreNetwork.servedParts [DecidableEq ι] (s : StoreNetwork ι) (rank : ι) (key : List UInt8) :
    List (Nat × Nat) :=
  s.log.filterMap (StoreEvent.servedPart rank key)

def StoreNetwork.receivedParts [DecidableEq ι] (s : StoreNetwork ι) (rank : ι)
    (key : List UInt8) : List (Nat × Nat) :=
  s.log.filterMap (StoreEvent.receivedPart rank key)

namespace StoreNetwork

variable [DecidableEq ι] {s s' : StoreNetwork ι} {rank : ι} {key value : List UInt8} {offset : Nat}
  {phase : TransferPhase}

/-- The item of the rank that pulls. -/
def item (s : StoreNetwork ι) (rank : ι) (key : List UInt8) : Option KeyValueStoreItem :=
  (s.stores rank).items key

/-- Where the transfer of a value to a rank is. -/
def Transfers (s : StoreNetwork ι) (rank : ι) (key value : List UInt8) (offset : Nat)
    (phase : TransferPhase) : Prop :=
  InPhase key value offset (s.item rank key) (s.inFlight rank key) phase

theorem about_request {m : StoreMessage ι}
    (htag : m.tag = .RAYPLATFORM_MESSAGE_TAG_DOWNLOAD_OBJECT_PART) :
    m.about rank key = (decide (m.source = rank) && decide (cString m.data = key)) := by
  rw [StoreMessage.about, htag]

theorem about_reply {m : StoreMessage ι}
    (htag : m.tag = .RAYPLATFORM_MESSAGE_TAG_DOWNLOAD_OBJECT_PART_REPLY) :
    m.about rank key = (decide (m.destination = rank) && decide (cString m.data = key)) := by
  rw [StoreMessage.about, htag]

theorem cString_messageHeader (key : List UInt8) (valueLength offset : Nat) (rest : List UInt8) :
    cString (messageHeader key valueLength offset ++ rest) = cString key := by
  rw [messageHeader, List.append_assoc, List.append_assoc]
  exact cString_append key _

theorem mem_inFlight {i : Nat} {m : StoreMessage ι} (hi : s.messages[i]? = some m)
    (habout : m.about rank key = true) : m ∈ s.inFlight rank key :=
  List.mem_filter.mpr ⟨List.mem_of_getElem? hi, habout⟩

/-! ## The steps of a transfer -/

/-- A call to `test` of the rank that pulls. -/
theorem Transfers.test (h : s.Transfers rank key value offset phase) {key' : List UInt8}
    (hkey : cString key' = key) (hint : value.length < 2 ^ 31) {source : ι}
    {memory : Nat → UInt8} (hexec : s.test rank key' source memory = some s') :
    s'.Transfers rank key value offset (tested phase) ∧
      s'.log = s.log ++ [.tested rank key (decide (phase = .done))] ∧
      ∀ m ∈ s'.inFlight rank key, m ∈ s.inFlight rank key ∨ m.destination = source := by
  obtain ⟨pulled, hpull, rfl⟩ := Option.map_eq_some_iff.mp hexec
  obtain ⟨-, hpulls⟩ := KeyValueStore.pulls_of_some hpull
  subst hkey
  -- without a message the network is as it was
  have hnone : (s.messages ++ []).filter (StoreMessage.about · rank (cString key')) =
      s.inFlight rank (cString key') := by
    rw [List.append_nil]
    rfl
  unfold Transfers at h ⊢
  cases hpulls with
  | @start item hitem hfresh hsent =>
      rw [StoreNetwork.item, hitem] at h
      obtain ⟨rfl, hempty, rfl⟩ := h.absent_of_none
      refine ⟨⟨item, ?_, hfresh value, hsent, hnone.trans hempty⟩, rfl, fun m hm => .inl ?_⟩
      · simp [StoreNetwork.item]
      · exact hnone ▸ hm
  | @ready item hitem hready =>
      rw [StoreNetwork.item, hitem] at h
      rcases h.of_some with ⟨rfl, hcomplete, hempty⟩ | ⟨hdown, -⟩
      · refine ⟨⟨item, ?_, hcomplete, hnone.trans hempty⟩, rfl, fun m hm => .inl ?_⟩
        · simp [StoreNetwork.item, hitem]
        · exact hnone ▸ hm
      · exact absurd (hready.symm.trans hdown.notReady) (by simp)
  | @request item rest hitem hready hsent =>
      rw [StoreNetwork.item, hitem] at h
      rcases h.of_some with ⟨rfl, hcomplete, -⟩ | ⟨hdown, ⟨rfl, -, hempty⟩ | ⟨-, hwait⟩⟩
      · exact absurd (hready.symm.trans hcomplete.ready) (by simp)
      · let m : StoreMessage ι :=
          { tag := .RAYPLATFORM_MESSAGE_TAG_DOWNLOAD_OBJECT_PART
            source := rank
            destination := source
            data := messageHeader key' item.valueSize item.downloadedSize ++ rest }
        have habout : m.about rank (cString key') = true := by
          rw [about_request rfl, cString_messageHeader]
          simp [m]
        have hone : (s.messages ++ [m]).filter (StoreMessage.about · rank (cString key')) =
            [m] := by
          rw [List.filter_append, List.filter_singleton, habout]
          exact congrArg (· ++ [m]) hempty
        have hdata : IsRequest m (cString key') offset := by
          refine ⟨rfl, item.valueSize, rest, ?_, ?_⟩
          · rcases Nat.eq_zero_or_pos offset with hzero | hpos
            · rw [(hdown.fresh hzero).2]
              omega
            · rw [(hdown.begun hpos).2.1]
              omega
          · rw [KeyValueStore.messageHeader_cString, ← hdown.downloaded]
        refine ⟨⟨item.sendMessage, ?_, ?_, rfl, m, hone, hdata⟩, rfl, fun m' hm' => .inr ?_⟩
        · simp [StoreNetwork.item]
        · exact ⟨rfl, hdown.downloaded, hdown.fresh, hdown.begun⟩
        · have hmem : m' ∈ [m] := hone ▸ hm'
          rw [List.mem_singleton.mp hmem]
      · exact absurd (hsent.symm.trans hwait) (by simp)
  | @wait item hitem hready hsent =>
      rw [StoreNetwork.item, hitem] at h
      rcases h.of_some with ⟨rfl, hcomplete, -⟩ | ⟨hdown, ⟨rfl, hidle, -⟩ | ⟨hphase, -⟩⟩
      · exact absurd (hready.symm.trans hcomplete.ready) (by simp)
      · exact absurd (hsent.symm.trans hidle) (by simp)
      · have hsame : tested phase = phase := by
          rcases hphase with rfl | rfl <;> rfl
        have hnot : decide (phase = .done) = false := by
          rcases hphase with rfl | rfl <;> rfl
        rw [hsame, hnot]
        refine ⟨?_, rfl, fun m hm => .inl ?_⟩
        · rw [← hitem] at h
          show InPhase _ _ _ _ ((s.messages ++ []).filter
            (StoreMessage.about · rank (cString key'))) phase
          simp only [StoreNetwork.item, Function.update_self, hnone]
          exact h
        · exact hnone ▸ hm

/-- A transfer that has begun goes on with any value that starts with the same bytes. -/
theorem Transfers.rebase (h : s.Transfers rank key value offset .requested)
    {other : List UInt8} (hsame : 0 < offset → other.length = value.length ∧
      other.take offset = value.take offset) : s.Transfers rank key other offset .requested := by
  obtain ⟨item, hitem, hdown, hsent, m, hone, hrequest⟩ := h
  refine ⟨item, hitem, ⟨hdown.notReady, hdown.downloaded, hdown.fresh, fun hpos => ?_⟩, hsent, m,
    hone, hrequest⟩
  obtain ⟨hlt, hsize, buffer, hbuffer, hlength, htake⟩ := hdown.begun hpos
  obtain ⟨heq, hfirst⟩ := hsame hpos
  exact ⟨heq ▸ hlt, hsize.trans heq.symm, buffer, hbuffer, hlength.trans heq.symm,
    htake.trans hfirst.symm⟩

/-- The request of a transfer reaches a rank with the value. -/
theorem Transfers.serve (h : s.Transfers rank key value offset .requested) (hkey : IsKey key)
    (hint : value.length < 2 ^ 31) {i : Nat} {m : StoreMessage ι} (hi : s.messages[i]? = some m)
    (habout : m.about rank key = true) (hserves : (s.stores m.destination).Serves key value)
    (hoffset : offset ≤ value.length) (memory : Nat → UInt8) :
    ∃ s', s.exec (.deliver i memory) = some s' ∧ s'.Transfers rank key value offset .replied ∧
      s'.log = s.log ++
        [.served rank ⟨key, offset, min (partSize key) (value.length - offset)⟩] := by
  obtain ⟨item, hitem, hdown, hsent, m', hone, hrequest⟩ := h
  obtain ⟨rfl, hempty⟩ := filter_eraseIdx_of_single hi habout hone
  obtain ⟨valueLength, rest, hvalueLength, hdata⟩ := hrequest.data
  obtain ⟨padding, hreply⟩ := KeyValueStore.call_DOWNLOAD_OBJECT_PART_spec hkey hdata hvalueLength
    hserves (by omega) hoffset memory
  rw [about_request hrequest.tag, Bool.and_eq_true, decide_eq_true_eq] at habout
  let reply : StoreMessage ι :=
    { tag := .RAYPLATFORM_MESSAGE_TAG_DOWNLOAD_OBJECT_PART_REPLY
      source := m.destination
      destination := m.source
      data := messageHeader key value.length offset ++ part key value offset ++ padding }
  have hexec : s.exec (.deliver i memory) =
      some { s with
        messages := s.messages.eraseIdx i ++ [reply]
        log := s.log ++ [.served m.source
          ⟨key, offset, min (partSize key) (value.length - offset)⟩] } := by
    simp [StoreNetwork.exec, hi, StoreNetwork.handle, hrequest.tag, hreply, reply]
  refine ⟨_, hexec, ⟨item, hitem, hdown, hsent, reply, ?_, rfl, ⟨padding, rfl⟩, hoffset⟩, ?_⟩
  · show (s.messages.eraseIdx i ++ [reply]).filter (StoreMessage.about · rank key) = [reply]
    have hreplies : reply.about rank key = true := by
      rw [about_reply rfl]
      simp only [reply, List.append_assoc, cString_messageHeader, hkey.noNul]
      simp [habout.1]
    rw [List.filter_append, hempty, List.filter_singleton, hreplies]
    rfl
  · rw [habout.1]

/-- The phase after the bytes from an offset on. -/
def afterPart (key value : List UInt8) (offset : Nat) : TransferPhase :=
  if offset + min (partSize key) (value.length - offset) = value.length then .done else .idle

theorem afterPart_ne (key value : List UInt8) (offset : Nat) :
    afterPart key value offset ≠ .requested ∧ afterPart key value offset ≠ .replied := by
  unfold afterPart
  split <;> exact ⟨TransferPhase.noConfusion, TransferPhase.noConfusion⟩

/-- The reply of a transfer reaches the rank that pulls. -/
theorem Transfers.receive (h : s.Transfers rank key value offset .replied) (hkey : IsKey key)
    (hmax : value.length ≤ 33554432) {i : Nat} {m : StoreMessage ι} (hi : s.messages[i]? = some m)
    (habout : m.about rank key = true) (memory : Nat → UInt8) :
    ∃ s', s.exec (.deliver i memory) = some s' ∧
      s'.Transfers rank key value (offset + min (partSize key) (value.length - offset))
        (afterPart key value offset) ∧
      s'.log = s.log ++
        [.received rank ⟨key, offset, min (partSize key) (value.length - offset)⟩] := by
  obtain ⟨item, hitem, hdown, hsent, m', hone, hrep⟩ := h
  obtain ⟨rfl, hempty⟩ := filter_eraseIdx_of_single hi habout hone
  obtain ⟨padding, hdata⟩ := hrep.data
  rw [about_reply hrep.tag, Bool.and_eq_true, decide_eq_true_eq] at habout
  obtain ⟨next, hcall, hidle, hadvanced⟩ :=
    KeyValueStore.call_DOWNLOAD_OBJECT_PART_REPLY_spec hkey hdata hitem hdown hmax
      hrep.offset_le memory
  have hexec : s.exec (.deliver i memory) =
      some { s with
        stores := Function.update s.stores rank ((s.stores rank).set key next)
        messages := s.messages.eraseIdx i
        log := s.log ++ [.received rank
          ⟨key, offset, min (partSize key) (value.length - offset)⟩] } := by
    simp [StoreNetwork.exec, hi, StoreNetwork.handle, hrep.tag, habout.1, hcall]
  refine ⟨_, hexec, ?_, rfl⟩
  have hnext : (Function.update s.stores rank ((s.stores rank).set key next) rank).items key =
      some next := by simp
  unfold afterPart
  unfold KeyValueStore.Advanced at hadvanced
  split at hadvanced
  · next hend =>
      rw [if_pos hend]
      exact ⟨next, hnext, hadvanced, hempty⟩
  · next hmore =>
      rw [if_neg hmore]
      exact ⟨next, hnext, hadvanced, hidle, hempty⟩

/-- A value that no chunk of memory can hold is never begun. -/
theorem Transfers.too_large (h : s.Transfers rank key value 0 .replied) (hkey : IsKey key)
    (hint : value.length < 2 ^ 31) (hlarge : 33554432 < value.length) {i : Nat}
    {m : StoreMessage ι} (hi : s.messages[i]? = some m) (habout : m.about rank key = true)
    (memory : Nat → UInt8) : s.exec (.deliver i memory) = none := by
  obtain ⟨item, hitem, -, -, m', hone, hrep⟩ := h
  obtain ⟨rfl, -⟩ := filter_eraseIdx_of_single hi habout hone
  obtain ⟨padding, hdata⟩ := hrep.data
  rw [about_reply hrep.tag, Bool.and_eq_true, decide_eq_true_eq] at habout
  have hcall := KeyValueStore.call_DOWNLOAD_OBJECT_PART_REPLY_too_large hkey hdata hitem hint
    hlarge memory
  simp [StoreNetwork.exec, hi, StoreNetwork.handle, hrep.tag, habout.1, hcall]

/-! ## The other steps -/

/-- A step that is not one of the transfer of a key to a rank. -/
def Foreign (s : StoreNetwork ι) (rank : ι) (key : List UInt8) : StoreStep ι → Prop
  | .test r k _ _ => r ≠ rank ∨ cString k ≠ key
  | .deliver i _ => ∀ m, s.messages[i]? = some m → m.about rank key = false
  | .insertLocalKey r k _ => r ≠ rank ∨ cString k ≠ key
  | .removeLocalKey r k => r ≠ rank ∨ k ≠ key

/-- What a transfer depends on. -/
structure SameTransfer (s s' : StoreNetwork ι) (rank : ι) (key : List UInt8) : Prop where
  item : s'.item rank key = s.item rank key
  inFlight : s'.inFlight rank key = s.inFlight rank key
  served : s'.servedParts rank key = s.servedParts rank key
  received : s'.receivedParts rank key = s.receivedParts rank key

theorem SameTransfer.transfers (h : SameTransfer s s' rank key)
    (htransfers : s.Transfers rank key value offset phase) :
    s'.Transfers rank key value offset phase := by
  unfold Transfers
  rw [h.item, h.inFlight]
  exact htransfers

omit [DecidableEq ι] in
theorem parts_append (f : StoreEvent ι → Option (Nat × Nat)) (log : List (StoreEvent ι))
    (e : StoreEvent ι) : (log ++ [e]).filterMap f = log.filterMap f ++ (f e).toList := by
  rw [List.filterMap_append]
  cases he : f e <;> simp [he]

omit [DecidableEq ι] in
theorem parts_inserted (f : StoreEvent ι → Option (Nat × Nat)) (log : List (StoreEvent ι))
    (hf : ∀ r k v, f (.inserted r k v) = none) (result : Bool) (r : ι) (k v : List UInt8) :
    (if result then log ++ [.inserted r k v] else log).filterMap f = log.filterMap f := by
  cases result with
  | false => rfl
  | true =>
      rw [if_pos rfl, parts_append, hf]
      exact List.append_nil _

theorem item_update (stores : ι → KeyValueStore) (r : ι) (store : KeyValueStore)
    (hsame : r = rank → store.items key = (stores rank).items key) :
    (Function.update stores r store rank).items key = (stores rank).items key := by
  by_cases hr : rank = r
  · subst hr
    rw [Function.update_self]
    exact hsame rfl
  · rw [Function.update_of_ne hr]

theorem sameTransfer_test {r : ι} {k : List UInt8} (hforeign : r ≠ rank ∨ cString k ≠ key)
    {source : ι} {memory : Nat → UInt8} (hexec : s.test r k source memory = some s') :
    SameTransfer s s' rank key := by
  obtain ⟨pulled, hpull, rfl⟩ := Option.map_eq_some_iff.mp hexec
  obtain ⟨-, hpulls⟩ := KeyValueStore.pulls_of_some hpull
  have hitem : r = rank → pulled.store.items key = (s.stores rank).items key := by
    rintro rfl
    have hne : key ≠ cString k := fun heq => hforeign.elim (absurd rfl) fun h => h heq.symm
    cases hpulls with
    | start => exact KeyValueStore.items_set_of_ne hne _
    | ready => rfl
    | request => exact KeyValueStore.items_set_of_ne hne _
    | wait => rfl
  have hsent : ∀ m ∈ pulled.sent, m.about rank key = false := by
    intro m hm
    cases hpulls with
    | @request item rest _ _ _ =>
        cases hm
        rw [about_request rfl, cString_messageHeader]
        rcases hforeign with hr | hk
        · simp [hr]
        · simp [hk]
    | start => cases hm
    | ready => cases hm
    | wait => cases hm
  refine ⟨item_update _ _ _ hitem, ?_, ?_, ?_⟩
  · show (s.messages ++ pulled.sent.toList).filter (StoreMessage.about · rank key) = _
    rw [List.filter_append]
    cases hpulled : pulled.sent with
    | none => simp [inFlight]
    | some m => simp [inFlight, hsent m (by rw [hpulled]; rfl)]
  · exact (parts_append _ s.log _).trans (List.append_nil _)
  · exact (parts_append _ s.log _).trans (List.append_nil _)

theorem sameTransfer_deliver {i : Nat} {memory : Nat → UInt8}
    (hforeign : ∀ m, s.messages[i]? = some m → m.about rank key = false)
    (hexec : s.exec (.deliver i memory) = some s') : SameTransfer s s' rank key := by
  unfold StoreNetwork.exec at hexec
  simp only at hexec
  split at hexec
  · next m hi =>
      have habout := hforeign m hi
      have herase : (s.messages.eraseIdx i).filter (StoreMessage.about · rank key) =
          s.inFlight rank key := filter_eraseIdx_of_not hi habout
      unfold StoreNetwork.handle at hexec
      split at hexec
      · next htag =>
          obtain ⟨answer, hanswer, rfl⟩ := Option.map_eq_some_iff.mp hexec
          have hanswers := KeyValueStore.call_DOWNLOAD_OBJECT_PART_answers hanswer
          rw [about_request htag] at habout
          refine ⟨rfl, ?_, (parts_append _ s.log _).trans ?_,
            (parts_append _ s.log _).trans (List.append_nil _)⟩
          · show (s.messages.eraseIdx i ++ [answer.1]).filter (StoreMessage.about · rank key) = _
            rw [List.filter_append, herase, List.filter_singleton, about_reply hanswers.tag,
              hanswers.destination, hanswers.key, habout]
            exact List.append_nil _
          · have hnot : ¬ (m.source = rank ∧ answer.2.key = key) := by
              rw [hanswers.copied]
              simpa using habout
            show s.log.filterMap _ ++ (if _ then _ else none : Option _).toList = _
            rw [if_neg hnot]
            exact List.append_nil _
      · next htag =>
          obtain ⟨result, hresult, rfl⟩ := Option.map_eq_some_iff.mp hexec
          obtain ⟨⟨item, hstore⟩, hkey⟩ :=
            KeyValueStore.call_DOWNLOAD_OBJECT_PART_REPLY_frame hresult
          rw [about_reply htag] at habout
          have hnot : ¬ (m.destination = rank ∧ cString m.data = key) := by simpa using habout
          refine ⟨item_update _ _ _ fun hr => ?_, herase,
            (parts_append _ s.log _).trans (List.append_nil _), (parts_append _ s.log _).trans ?_⟩
          · rw [hstore, hr]
            exact KeyValueStore.items_set_of_ne (fun heq => hnot ⟨hr, heq.symm⟩) _
          · show s.log.filterMap _ ++ (if _ then _ else none : Option _).toList = _
            rw [hkey, if_neg hnot]
            exact List.append_nil _
  · cases hexec

omit [DecidableEq ι] in
theorem getStringKey_eq {k keyObject : List UInt8}
    (h : KeyValueStore.getStringKey k = some keyObject) : keyObject = cString k := by
  unfold KeyValueStore.getStringKey at h
  split at h
  · cases h
  · cases h
    rfl

theorem items_insertLocalKey {store : KeyValueStore} {k : List UInt8} (hne : cString k ≠ key)
    (v : Option (List UInt8)) (n : Nat) :
    (store.insertLocalKey k v n).1.items key = store.items key := by
  unfold KeyValueStore.insertLocalKey
  split
  · rfl
  · next keyObject hstring =>
      have hkey := getStringKey_eq hstring
      split
      · rfl
      · exact KeyValueStore.items_set_of_ne (fun heq => hne (hkey.symm.trans heq.symm)) _

theorem items_removeLocalKey {store : KeyValueStore} {k : List UInt8} (hne : k ≠ key) :
    (store.removeLocalKey k).items key = store.items key := by
  unfold KeyValueStore.removeLocalKey
  split
  · rfl
  · exact Function.update_of_ne hne.symm _ _

/-- Every other step leaves the transfer alone. -/
theorem sameTransfer {step : StoreStep ι} (hforeign : s.Foreign rank key step)
    (hexec : s.exec step = some s') : SameTransfer s s' rank key := by
  cases step with
  | test r k source memory => exact sameTransfer_test hforeign hexec
  | deliver i memory => exact sameTransfer_deliver hforeign hexec
  | insertLocalKey r k v =>
      cases hexec
      refine ⟨item_update _ _ _ fun hr => ?_, rfl, ?_, ?_⟩
      · subst hr
        exact items_insertLocalKey (hforeign.resolve_left (absurd rfl)) _ _
      · exact parts_inserted _ _ (fun r k v => rfl) _ _ _ _
      · exact parts_inserted _ _ (fun r k v => rfl) _ _ _ _
  | removeLocalKey r k =>
      cases hexec
      refine ⟨item_update _ _ _ fun hr => ?_, rfl, rfl, rfl⟩
      subst hr
      exact items_removeLocalKey (hforeign.resolve_left (absurd rfl))

/-! ## Insertions and removals -/

/-- An insertion of the key of a transfer does nothing, or makes the item. -/
theorem Transfers.insertLocalKey (h : s.Transfers rank key value offset phase) {k : List UInt8}
    (hk : cString k = key) {v : Option (List UInt8)}
    (hexec : s.exec (.insertLocalKey rank k v) = some s') :
    (s'.Transfers rank key value offset phase ∧ s'.log = s.log) ∨
      (phase = .absent ∧ s'.Transfers rank key (v.getD []) 0 .done ∧
        s'.log = s.log ++ [.inserted rank key (v.getD [])]) := by
  cases hexec
  subst hk
  have hitem : ∀ store : KeyValueStore, (Function.update s.stores rank store rank).items
      (cString k) = store.items (cString k) := fun store => by rw [Function.update_self]
  cases hcases : (s.stores rank).items (cString k) with
  | some item =>
      have hkeep : (s.stores rank).insertLocalKey k v (v.getD []).length =
          (s.stores rank, false) := by
        unfold KeyValueStore.insertLocalKey
        split
        · rfl
        · next keyObject hstring =>
            rw [getStringKey_eq hstring, hcases]
      refine .inl ⟨?_, by rw [hkeep]; rfl⟩
      unfold Transfers StoreNetwork.item at h ⊢
      simp only [hitem, hkeep]
      exact h
  | none =>
      unfold Transfers at h
      rw [StoreNetwork.item, hcases] at h
      obtain ⟨rfl, hempty, rfl⟩ := h.absent_of_none
      by_cases hlength : k.length + 1 > 256
      · have hkeep : (s.stores rank).insertLocalKey k v (v.getD []).length =
            (s.stores rank, false) := by
          rw [KeyValueStore.insertLocalKey, KeyValueStore.getStringKey, if_pos hlength]
        refine .inl ⟨⟨?_, hempty, rfl⟩, by rw [hkeep]; rfl⟩
        simp only [StoreNetwork.item, hitem, hkeep]
        exact hcases
      · have hinsert : (s.stores rank).insertLocalKey k v (v.getD []).length =
            ((s.stores rank).set (cString k) (.constructor v (v.getD []).length), true) := by
          rw [KeyValueStore.insertLocalKey, KeyValueStore.getStringKey, if_neg hlength]
          simp only [hcases]
        refine .inr ⟨rfl, ⟨.constructor v (v.getD []).length, ?_, ⟨rfl, rfl, ?_⟩, hempty⟩,
          by rw [hinsert]; rfl⟩
        · simp only [StoreNetwork.item, hitem, hinsert, KeyValueStore.items_set]
        · cases v with
          | none => exact .inr ⟨rfl, rfl⟩
          | some v => exact .inl rfl

/-- A removal while no message of the transfer is in flight. -/
theorem Transfers.removeLocalKey (hempty : s.inFlight rank key = [])
    (hexec : s.exec (.removeLocalKey rank key) = some s') (value : List UInt8) :
    s'.Transfers rank key value 0 .absent ∧ s'.log = s.log := by
  cases hexec
  refine ⟨⟨?_, hempty, rfl⟩, rfl⟩
  show (Function.update s.stores rank _ rank).items key = none
  rw [Function.update_self, KeyValueStore.removeLocalKey]
  cases hcases : (s.stores rank).items key with
  | none => exact hcases
  | some item => exact Function.update_self _ _ _

end StoreNetwork

end RayPlatform
