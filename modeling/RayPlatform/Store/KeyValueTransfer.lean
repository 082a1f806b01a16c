import RayPlatform.Store.KeyValueNetwork

/-!
# A value is transferred exactly

A rank pulls a key from a rank where it is ready and stays so, while any other keys are
pulled, inserted and removed anywhere. The network simulates `Lib.transferSystem` for the
key: `Follows` relates the two, and what is proved about transfers in chunks holds of the
requests, the replies and the item (`keyValueStore_transfersExactly`).
-/

namespace RayPlatform

open Lib (Transfer TransferPhase transferSystem roundTrips chunkList)
open KeyValueStore (Complete)

variable {ι : Type} [DecidableEq ι]

namespace StoreNetwork

/-- The key is pulled from one rank, and stays there. -/
def Undisturbed (puller source : ι) (key : List UInt8) (_ : StoreNetwork ι) : StoreStep ι → Prop
  | .test rank k origin _ => rank = puller → cString k = key → origin = source
  | .deliver _ _ => True
  | .insertLocalKey rank k _ => rank = puller → cString k ≠ key
  | .removeLocalKey rank k => rank = puller ∨ rank = source → k ≠ key

instance (puller source : ι) (key : List UInt8) (s : StoreNetwork ι) (step : StoreStep ι) :
    Decidable (Undisturbed puller source key s step) :=
  match step with
  | .test _ _ _ _ => inferInstanceAs (Decidable (_ → _ → _))
  | .deliver _ _ => isTrue trivial
  | .insertLocalKey _ _ _ => inferInstanceAs (Decidable (_ → ¬ _))
  | .removeLocalKey _ _ => inferInstanceAs (Decidable (_ ∨ _ → ¬ _))

/-- The network as a transfer in chunks. -/
structure Follows (puller source : ι) (key value : List UInt8) (s : StoreNetwork ι)
    (t : Transfer UInt8) : Prop where
  reachable : (transferSystem (partSize key) value).Reachable t
  transfers : s.Transfers puller key value t.received.length t.phase
  origin : s.Transfers source key value 0 .done
  requests : ∀ m ∈ s.inFlight puller key,
    m.tag = .RAYPLATFORM_MESSAGE_TAG_DOWNLOAD_OBJECT_PART → m.destination = source
  received : s.receivedParts puller key = t.chunks
  served : s.servedParts puller key = t.chunks ++ if t.phase = .replied then
    [(t.received.length, min (partSize key) (value.length - t.received.length))] else []

variable {puller source : ι} {key value : List UInt8} {s s' : StoreNetwork ι}
  {t : Transfer UInt8}

theorem Follows.sound (h : Follows puller source key value s t) (hkey : IsKey key) :
    t.Sound (partSize key) value :=
  (Lib.transferSystem_inductive hkey.partSize_pos value).holds h.reachable

/-- The requests stay within the value. -/
theorem Follows.offset_le (h : Follows puller source key value s t) (hkey : IsKey key) :
    t.received.length ≤ value.length := by
  rw [(h.sound hkey).received, List.length_take]
  exact Nat.min_le_right _ _

/-- The rank with the value keeps it. -/
theorem origin_step (horigin : s.Transfers source key value 0 .done)
    (hmax : value.length ≤ 33554432) {step : StoreStep ι}
    (hguard : Undisturbed puller source key s step) (hexec : s.exec step = some s') :
    s'.Transfers source key value 0 .done := by
  by_cases hforeign : s.Foreign source key step
  · exact (sameTransfer hforeign hexec).transfers horigin
  · obtain ⟨item, hitem, hcomplete, hempty⟩ := horigin
    cases step with
    | test rank k origin memory =>
        simp only [Foreign, not_or, not_not] at hforeign
        obtain ⟨rfl, hk⟩ := hforeign
        have hdone : s.Transfers rank key value 0 .done := ⟨item, hitem, hcomplete, hempty⟩
        exact (hdone.test hk (by omega) hexec).1
    | deliver i memory =>
        refine absurd (fun m hi => ?_) hforeign
        cases habout : m.about source key with
        | false => rfl
        | true =>
            have hmem := mem_inFlight hi habout
            rw [hempty] at hmem
            cases hmem
    | insertLocalKey rank k v =>
        simp only [Foreign, not_or, not_not] at hforeign
        obtain ⟨rfl, hk⟩ := hforeign
        have hdone : s.Transfers rank key value 0 .done := ⟨item, hitem, hcomplete, hempty⟩
        rcases hdone.insertLocalKey hk hexec with ⟨hsame, -⟩ | ⟨hphase, -⟩
        · exact hsame
        · cases hphase
    | removeLocalKey rank k =>
        simp only [Foreign, not_or, not_not] at hforeign
        exact absurd hforeign.2 (hguard (.inr hforeign.1))

theorem Follows.foreign (h : Follows puller source key value s t)
    (hsame : SameTransfer s s' puller key) (horigin : s'.Transfers source key value 0 .done) :
    Follows puller source key value s' t :=
  { reachable := h.reachable
    transfers := hsame.transfers h.transfers
    origin := horigin
    requests := by
      rw [hsame.inFlight]
      exact h.requests
    received := hsame.received.trans h.received
    served := hsame.served.trans h.served }

theorem Follows.test (h : Follows puller source key value s t) (hmax : value.length ≤ 33554432)
    {k : List UInt8} (hk : cString k = key) {memory : Nat → UInt8}
    (hexec : s.test puller k source memory = some s')
    (horigin : s'.Transfers source key value 0 .done) :
    ∃ t', Follows puller source key value s' t' := by
  obtain ⟨htransfers, hlog, hflight⟩ := h.transfers.test hk (by omega) hexec
  have hrequests : ∀ m ∈ s'.inFlight puller key,
      m.tag = .RAYPLATFORM_MESSAGE_TAG_DOWNLOAD_OBJECT_PART → m.destination = source :=
    fun m hm htag => (hflight m hm).elim (fun hold => h.requests m hold htag) id
  have hreceived : s'.receivedParts puller key = t.chunks := by
    rw [receivedParts, hlog, parts_append]
    exact (List.append_nil _).trans h.received
  have hserved : s'.servedParts puller key = s.servedParts puller key := by
    rw [servedParts, hlog, parts_append]
    exact List.append_nil _
  have hkeep : tested t.phase = t.phase → ∃ t', Follows puller source key value s' t' := by
    intro hsame
    rw [hsame] at htransfers
    exact ⟨t, h.reachable, htransfers, horigin, hrequests, hreceived, hserved.trans h.served⟩
  have hnext : ∀ t' : Transfer UInt8, (∃ e, Transfer.Step (partSize key) value t e t') →
      t'.phase = tested t.phase → t'.phase ≠ .replied → t.phase ≠ .replied →
      t'.received = t.received → t'.chunks = t.chunks →
      ∃ t', Follows puller source key value s' t' := by
    rintro t' ⟨e, hstep⟩ hphase hnot' hnot hbytes hchunks
    refine ⟨t', .step h.reachable hstep, ?_, horigin, hrequests, ?_, ?_⟩
    · rw [hphase, hbytes]
      exact htransfers
    · rw [hreceived, hchunks]
    · rw [hserved, h.served, if_neg hnot, if_neg hnot', hchunks]
  cases hphase : t.phase with
  | absent =>
      exact hnext { t with phase := .idle } ⟨_, .start hphase⟩ (by rw [hphase]; rfl)
        TransferPhase.noConfusion (by rw [hphase]; exact TransferPhase.noConfusion) rfl rfl
  | idle =>
      exact hnext { t with phase := .requested } ⟨_, .request hphase⟩ (by rw [hphase]; rfl)
        TransferPhase.noConfusion (by rw [hphase]; exact TransferPhase.noConfusion) rfl rfl
  | requested => exact hkeep (by rw [hphase]; rfl)
  | replied => exact hkeep (by rw [hphase]; rfl)
  | done => exact hkeep (by rw [hphase]; rfl)

/-- A message of the transfer can be handled, and is a step of the transfer. -/
theorem Follows.deliver (h : Follows puller source key value s t) (hkey : IsKey key)
    (hmax : value.length ≤ 33554432) {i : Nat} {m : StoreMessage ι} (hi : s.messages[i]? = some m)
    (habout : m.about puller key = true) (memory : Nat → UInt8) :
    ∃ s', s.exec (.deliver i memory) = some s' ∧
      (s'.Transfers source key value 0 .done → ∃ t', Follows puller source key value s' t') := by
  have htransfers := h.transfers
  have hmem := mem_inFlight hi habout
  obtain ⟨-, ⟨hphase, hrequest⟩ | ⟨hphase, -⟩⟩ := InPhase.of_mem htransfers hmem
  · rw [hphase] at htransfers
    obtain ⟨origin, horigin, hcomplete, -⟩ := h.origin
    have hserves : (s.stores m.destination).Serves key value := by
      rw [h.requests m hmem hrequest.tag]
      exact hcomplete.serves horigin
    obtain ⟨s', hexec, hreplied, hlog⟩ := htransfers.serve hkey (by omega) hi habout hserves
      (h.offset_le hkey) memory
    refine ⟨s', hexec, fun horigin' => ⟨{ t with phase := .replied }, ?_⟩⟩
    refine ⟨.step h.reachable (.serve hphase), hreplied, horigin', ?_, ?_, ?_⟩
    · intro m' hm' htag'
      obtain ⟨-, ⟨hcases, -⟩ | ⟨-, hreply⟩⟩ := InPhase.of_mem hreplied hm'
      · cases hcases
      · rw [hreply.tag] at htag'
        cases htag'
    · rw [receivedParts, hlog, parts_append]
      exact (List.append_nil _).trans h.received
    · have hserved := h.served
      rw [hphase, if_neg TransferPhase.noConfusion, List.append_nil] at hserved
      rw [servedParts, hlog, parts_append]
      show s.servedParts puller key ++ (if _ then _ else none : Option _).toList = _
      rw [if_pos ⟨rfl, rfl⟩, hserved]
      rfl
  · rw [hphase] at htransfers
    obtain ⟨s', hexec, hadvanced, hlog⟩ := htransfers.receive hkey hmax hi habout memory
    have hlength : (t.receive (partSize key) value).received.length =
        t.received.length + min (partSize key) (value.length - t.received.length) := by
      simp [Transfer.receive]
    refine ⟨s', hexec, fun horigin' => ⟨t.receive (partSize key) value, ?_⟩⟩
    refine ⟨.step h.reachable (.receive hphase), ?_, horigin', ?_, ?_, ?_⟩
    · rw [hlength]
      exact hadvanced
    · intro m' hm'
      obtain ⟨-, ⟨hcases, -⟩ | ⟨hcases, -⟩⟩ := InPhase.of_mem hadvanced hm'
      · exact absurd hcases (afterPart_ne key value _).1
      · exact absurd hcases (afterPart_ne key value _).2
    · rw [receivedParts, hlog, parts_append]
      show s.receivedParts puller key ++ (if _ then _ else none : Option _).toList = _
      rw [if_pos ⟨rfl, rfl⟩, h.received]
      rfl
    · have hserved := h.served
      have hnot : (t.receive (partSize key) value).phase ≠ .replied := by
        unfold Transfer.receive
        simp only
        split <;> exact TransferPhase.noConfusion
      rw [hphase, if_pos rfl] at hserved
      rw [if_neg hnot, List.append_nil, servedParts, hlog, parts_append]
      exact (List.append_nil _).trans hserved

/-- Each step is a step of the transfer or leaves it alone. -/
theorem Follows.step (h : Follows puller source key value s t) (hkey : IsKey key)
    (hmax : value.length ≤ 33554432) {step : StoreStep ι}
    (hguard : Undisturbed puller source key s step) (hexec : s.exec step = some s') :
    ∃ t', Follows puller source key value s' t' := by
  have horigin := origin_step h.origin hmax hguard hexec
  by_cases hforeign : s.Foreign puller key step
  · exact ⟨t, h.foreign (sameTransfer hforeign hexec) horigin⟩
  · cases step with
    | test rank k origin memory =>
        simp only [Foreign, not_or, not_not] at hforeign
        obtain ⟨rfl, hk⟩ := hforeign
        obtain rfl := hguard rfl hk
        exact h.test hmax hk hexec horigin
    | deliver i memory =>
        simp only [Foreign, not_forall, Bool.not_eq_false] at hforeign
        obtain ⟨m, hi, habout⟩ := hforeign
        obtain ⟨next, hnext, hfollows⟩ := h.deliver hkey hmax hi habout memory
        rw [hexec] at hnext
        cases hnext
        exact hfollows horigin
    | insertLocalKey rank k v =>
        simp only [Foreign, not_or, not_not] at hforeign
        exact absurd hforeign.2 (hguard hforeign.1)
    | removeLocalKey rank k =>
        simp only [Foreign, not_or, not_not] at hforeign
        exact absurd hforeign.2 (hguard (.inl hforeign.1))

/-! ## The transfer of a key -/

/-- A key is transferred in parts that follow each other, one request at a time. -/
structure TransfersExactly (puller source : ι) (key value : List UInt8) (s : StoreNetwork ι) :
    Prop where
  /-- each header is loaded as it was dumped -/
  headers : ∀ m ∈ s.inFlight puller key, ∃ valueLength offset,
    loadMessageHeader m.data = some ⟨key, valueLength, offset, key.length + 9⟩ ∧
    m.data.take (key.length + 9) = messageHeader key valueLength offset
  outstanding : (s.inFlight puller key).length ≤ 1
  /-- no pointer is null and every copy is within its buffers -/
  handled : ∀ i m memory, s.messages[i]? = some m → m.about puller key = true →
    (s.exec (.deliver i memory)).isSome = true
  /-- the rank that pulls writes the parts that were sent to it -/
  sameParts : s.receivedParts puller key <+: s.servedParts puller key ∧
    (s.servedParts puller key).length ≤ (s.receivedParts puller key).length + 1
  parts : s.servedParts puller key =
    chunkList (partSize key) value.length (s.servedParts puller key).length
  fits : ∀ part ∈ s.servedParts puller key,
    key.length + 9 + part.2 ≤ MAXIMUM_MESSAGE_SIZE_IN_BYTES ∧ part.1 + part.2 ≤ value.length
  /-- `test` is true after the round trips of all the parts and not before -/
  test : ∀ memory, ∃ next, s.exec (.test puller key source memory) = some next ∧
    next.log = s.log ++ [.tested puller key (decide ((s.receivedParts puller key).length =
      roundTrips (partSize key) value.length))]
  /-- then the local value is the remote one -/
  value : (s.receivedParts puller key).length = roundTrips (partSize key) value.length →
    ∃ bytes, (s.stores puller).getLocalKey key = some (bytes, value.length) ∧
      bytes.getD [] = value

theorem Follows.done_iff (h : Follows puller source key value s t) (hkey : IsKey key) :
    t.phase = .done ↔
      (s.receivedParts puller key).length = roundTrips (partSize key) value.length := by
  have hsound := h.sound hkey
  rw [h.received]
  refine ⟨fun hdone => (hsound.done hdone).1, fun hlength => ?_⟩
  by_contra hmore
  have hlt := hsound.more hmore
  omega

/-- The parts that were sent: those received, and the one on its way. -/
theorem Follows.servedParts_eq (h : Follows puller source key value s t) (hkey : IsKey key) :
    s.servedParts puller key =
      chunkList (partSize key) value.length (s.servedParts puller key).length := by
  have hsound := h.sound hkey
  rw [h.served]
  split
  · next hreplied =>
      have hnot : t.phase ≠ .done := by
        rw [hreplied]
        exact TransferPhase.noConfusion
      have hoffset := hsound.offset hkey.partSize_pos hnot
      rw [List.length_append, List.length_singleton, chunkList, List.range_succ, List.map_append]
      conv_lhs => rw [hsound.chunks]
      rw [hoffset]
      rfl
  · rw [List.append_nil]
    exact hsound.chunks

/-- A part of the list is not empty but for an empty value, and never past the end. -/
theorem chunk_le {capacity length n : Nat} {part : Nat × Nat}
    (hpart : part ∈ chunkList capacity length n) (hn : n ≤ roundTrips capacity length)
    (hpos : 0 < capacity) : part.2 ≤ capacity ∧ part.1 + part.2 ≤ length := by
  obtain ⟨i, hi, rfl⟩ := List.mem_map.mp hpart
  have hlt := List.mem_range.mp hi
  have hcases := (Lib.lt_roundTrips hpos).mp (Nat.lt_of_lt_of_le hlt hn)
  simp only
  rcases hcases with rfl | hless
  · rw [Nat.zero_mul]
    omega
  · omega

theorem Follows.transfersExactly (h : Follows puller source key value s t) (hkey : IsKey key)
    (hmax : value.length ≤ 33554432) : TransfersExactly puller source key value s := by
  have hsound := h.sound hkey
  have hdone := h.done_iff hkey
  have htransfers := h.transfers
  have hparts := h.servedParts_eq hkey
  have hlength : (s.servedParts puller key).length ≤ (s.receivedParts puller key).length + 1 := by
    rw [h.served, h.received, List.length_append]
    split <;> simp
  have htrips : (s.servedParts puller key).length ≤ roundTrips (partSize key) value.length := by
    by_cases hreplied : t.phase = .replied
    · have hmore := hsound.more (by rw [hreplied]; exact TransferPhase.noConfusion)
      rw [h.received] at hlength
      omega
    · rw [h.served, if_neg hreplied, List.append_nil]
      by_cases hphase : t.phase = .done
      · exact Nat.le_of_eq (hsound.done hphase).1
      · exact Nat.le_of_lt (hsound.more hphase)
  refine ⟨?_, ?_, ?_, ⟨?_, hlength⟩, hparts, ?_, ?_, ?_⟩
  · intro m hm
    have hload : ∀ valueLength offset rest, valueLength < 2 ^ 32 → offset < 2 ^ 32 →
        m.data = messageHeader key valueLength offset ++ rest →
        loadMessageHeader m.data = some ⟨key, valueLength, offset, key.length + 9⟩ ∧
          m.data.take (key.length + 9) = messageHeader key valueLength offset := by
      intro valueLength offset rest hvalueLength hoffset hdata
      have hloaded := loadMessageHeader_messageHeader key hvalueLength hoffset rest
      have hheader := length_messageHeader key valueLength offset
      rw [hkey.noNul] at hloaded hheader
      rw [hdata]
      exact ⟨hloaded, by rw [← hheader, List.take_left]⟩
    have hoffset := h.offset_le hkey
    obtain ⟨-, ⟨-, hrequest⟩ | ⟨-, hreply⟩⟩ := InPhase.of_mem htransfers hm
    · obtain ⟨valueLength, rest, hvalueLength, hdata⟩ := hrequest.data
      exact ⟨_, _, hload _ _ _ hvalueLength (by omega) hdata⟩
    · obtain ⟨padding, hdata⟩ := hreply.data
      rw [List.append_assoc] at hdata
      exact ⟨_, _, hload _ _ _ (by omega) (by omega) hdata⟩
  · exact InPhase.length_le htransfers
  · intro i m memory hi habout
    obtain ⟨next, hexec, -⟩ := h.deliver hkey hmax hi habout memory
    rw [hexec]
    rfl
  · rw [h.served, h.received]
    exact List.prefix_append _ _
  · intro part hpart
    rw [hparts] at hpart
    obtain ⟨hle, hend⟩ := chunk_le hpart htrips hkey.partSize_pos
    have hlength := hkey.length_le
    have hmaximum : MAXIMUM_MESSAGE_SIZE_IN_BYTES = 4000 := rfl
    rw [partSize] at hle
    exact ⟨by omega, hend⟩
  · intro memory
    obtain ⟨pulled, hpull⟩ : ∃ pulled, (s.stores puller).pullRemoteKeyWithLength puller key source
        memory = some pulled := by
      obtain ⟨pulled, hpull, -⟩ :=
        KeyValueStore.pullRemoteKeyWithLength_pulls puller hkey.length_le source memory
      exact ⟨pulled, hpull⟩
    have hexec : s.exec (.test puller key source memory) = some
        { stores := Function.update s.stores puller pulled.store
          messages := s.messages ++ pulled.sent.toList
          log := s.log ++ [.tested puller (cString key) pulled.result] } := by
      simp [StoreNetwork.exec, StoreNetwork.test, hpull]
    obtain ⟨-, hlog, -⟩ := htransfers.test hkey.noNul (by omega) hexec
    refine ⟨_, hexec, hlog.trans ?_⟩
    simp only [hdone]
  · intro hall
    rw [← hdone] at hall
    rw [hall] at htransfers
    obtain ⟨item, hitem, hcomplete, -⟩ := htransfers
    exact hcomplete.getLocalKey hkey hitem

end StoreNetwork

end RayPlatform
