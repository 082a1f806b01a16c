import RayPlatform.Store.KeyValueNetwork

/-!
# A key that is removed while it is transferred

One rank pulls a key from another, and the key is removed and inserted again on both at any
time. Nothing in a message says which version of the value it is about, and the handlers do
not compare it with the item. `SameVersion` says when that does no harm: a rank does not
remove a key that it waits for, and a request for the rest of a value meets a value that
starts with the bytes the rank already has. In the runs that keep to it, no handler fails
and no value is made of two versions (`keyValueStore_survivesRemoval`).
-/

namespace RayPlatform

open Lib (TransferPhase)
open KeyValueStore (Complete)

variable {ι : Type} [DecidableEq ι]

/-- The size of a `memcpy` is between 0 and the bytes that remain in both buffers. -/
theorem memcpy_isSome_iff (destination source : List UInt8) (position sourcePosition : Nat)
    (size : Int) : (memcpy destination position source sourcePosition size).isSome = true ↔
      0 ≤ size ∧ size ≤ (source.length : Int) - sourcePosition ∧
        size ≤ (destination.length : Int) - position := by
  unfold memcpy
  by_cases hneg : size < 0
  · rw [if_pos hneg]
    simp only [Option.isSome_none, Bool.false_eq_true, false_iff]
    omega
  · rw [if_neg hneg, Lib.readAt]
    by_cases hread : sourcePosition + size.toNat ≤ source.length
    · have hlength : ((source.drop sourcePosition).take size.toNat).length = size.toNat := by
        rw [List.length_take, List.length_drop]
        omega
      rw [if_pos hread, Option.bind_some, Lib.writeAt, hlength]
      split
      · simp only [Option.isSome_some, true_iff]
        omega
      · simp only [Option.isSome_none, Bool.false_eq_true, false_iff]
        omega
    · rw [if_neg hread]
      simp only [Option.bind_none, Option.isSome_none, Bool.false_eq_true, false_iff]
      omega

theorem KeyValueStore.Complete.getD_value {item : KeyValueStoreItem} {value : List UInt8}
    (h : Complete item value) : item.value.getD [] = value := by
  rcases h.bytes with hbytes | ⟨hbytes, rfl⟩ <;> rw [hbytes] <;> rfl

namespace StoreNetwork

/-- The rank pulls the key from the server and the server from nobody. The length of a value
is an `int`. -/
def PulledFrom (puller server : ι) (key : List UInt8) (_ : StoreNetwork ι) : StoreStep ι → Prop
  | .test rank k source _ => cString k = key → rank ≠ server ∧ (rank = puller → source = server)
  | .deliver _ _ => True
  | .insertLocalKey _ _ value => (value.getD []).length < 2 ^ 31
  | .removeLocalKey _ _ => True

/-- The bytes that a rank has for a key. -/
def content (s : StoreNetwork ι) (rank : ι) (key : List UInt8) : List UInt8 :=
  ((s.item rank key).bind (·.value)).getD []

/-- What the server has when a request arrives is what the rank already has a part of, and the
rank removes the key only while no message of its transfer is in flight. -/
def SameVersion (puller : ι) (key : List UInt8) (s : StoreNetwork ι) : StoreStep ι → Prop
  | .deliver i _ => ∀ m ∈ s.messages[i]?,
      m.tag = .RAYPLATFORM_MESSAGE_TAG_DOWNLOAD_OBJECT_PART → m.about puller key = true →
      ∀ item ∈ s.item puller key, (s.content m.destination key).length ≤ 33554432 ∧
        (0 < item.downloadedSize → (s.content m.destination key).length = item.valueSize ∧
          (s.content m.destination key).take item.downloadedSize =
            (s.content puller key).take item.downloadedSize)
  | .removeLocalKey rank k => rank = puller → k = key → s.inFlight puller key = []
  | .test _ _ _ _ | .insertLocalKey _ _ _ => True

instance (puller server : ι) (key : List UInt8) (s : StoreNetwork ι) (step : StoreStep ι) :
    Decidable (PulledFrom puller server key s step) :=
  match step with
  | .test _ _ _ _ => inferInstanceAs (Decidable (_ → _ ≠ _ ∧ (_ → _)))
  | .insertLocalKey _ _ _ => inferInstanceAs (Decidable (_ < _))
  | .deliver _ _ | .removeLocalKey _ _ => isTrue trivial

instance (puller : ι) (key : List UInt8) (s : StoreNetwork ι) (step : StoreStep ι) :
    Decidable (SameVersion puller key s step) :=
  match step with
  | .deliver i _ => inferInstanceAs (Decidable (∀ m ∈ s.messages[i]?, _ → _ →
      ∀ item ∈ s.item puller key, _ ∧ (_ → _)))
  | .removeLocalKey _ _ => inferInstanceAs (Decidable (_ → _ → _))
  | .test _ _ _ _ | .insertLocalKey _ _ _ => isTrue trivial

/-- A value that was inserted on one of the two ranks, or the empty value of a key that was
not found. -/
structure IsVersion (puller server : ι) (key : List UInt8) (s : StoreNetwork ι)
    (value : List UInt8) : Prop where
  inserted : value = [] ∨ ∃ rank, (rank = puller ∨ rank = server) ∧
    .inserted rank key value ∈ s.log
  length_lt : value.length < 2 ^ 31

/-- What the two ranks do with the key when these deliveries happen. -/
structure SurvivesRemoval (puller server : ι) (key : List UInt8)
    (allowed : StoreNetwork ι → StoreStep ι → Prop) (s : StoreNetwork ι) : Prop where
  /-- no handler misses an item or copies bytes that are not in the buffers -/
  handled : ∀ i m memory, s.messages[i]? = some m → m.about puller key = true →
    allowed s (.deliver i memory) → (s.exec (.deliver i memory)).isSome = true
  /-- when `test` is true the local value is one version -/
  unmixed : ∀ k source memory pulled,
    (s.stores puller).pullRemoteKeyWithLength puller k source memory = some pulled →
    cString k = key → pulled.result = true →
    ∃ bytes value, (s.stores puller).getLocalKey key = some (bytes, value.length) ∧
      bytes.getD [] = value ∧ IsVersion puller server key s value

/-! ## The two ranks -/

variable {puller server : ι} {key value : List UInt8} {s s' : StoreNetwork ι}

/-- The transfer of some version. -/
def Pulling (puller server : ι) (key : List UInt8) (s : StoreNetwork ι) : Prop :=
  ∃ value offset phase, s.Transfers puller key value offset phase ∧
    IsVersion puller server key s value ∧ offset ≤ value.length ∧
    (phase = .replied ∨ 0 < offset → value.length ≤ 33554432)

/-- The server has a version, or nothing. -/
def Serving (puller server : ι) (key : List UInt8) (s : StoreNetwork ι) : Prop :=
  ∃ value phase, s.Transfers server key value 0 phase ∧
    (phase = .absent ∧ value = [] ∨ phase = .done) ∧ IsVersion puller server key s value

structure Surviving (puller server : ι) (key : List UInt8) (s : StoreNetwork ι) : Prop where
  pulling : Pulling puller server key s
  serving : Serving puller server key s
  requests : ∀ m ∈ s.inFlight puller key,
    m.tag = .RAYPLATFORM_MESSAGE_TAG_DOWNLOAD_OBJECT_PART → m.destination = server

/-- The record only grows. -/
theorem log_grows {step : StoreStep ι} (hexec : s.exec step = some s') : s.log <+: s'.log := by
  cases step with
  | test rank k source memory =>
      obtain ⟨pulled, -, rfl⟩ := Option.map_eq_some_iff.mp hexec
      exact List.prefix_append _ _
  | deliver i memory =>
      unfold StoreNetwork.exec at hexec
      simp only at hexec
      split at hexec
      · unfold StoreNetwork.handle at hexec
        split at hexec
        · obtain ⟨answer, -, rfl⟩ := Option.map_eq_some_iff.mp hexec
          exact List.prefix_append _ _
        · obtain ⟨result, -, rfl⟩ := Option.map_eq_some_iff.mp hexec
          exact List.prefix_append _ _
      · cases hexec
  | insertLocalKey rank k v =>
      cases hexec
      show s.log <+: if _ then _ else _
      split
      · exact List.prefix_append _ _
      · exact List.prefix_rfl
  | removeLocalKey rank k =>
      cases hexec
      exact List.prefix_rfl

theorem IsVersion.step (h : IsVersion puller server key s value) {step : StoreStep ι}
    (hexec : s.exec step = some s') : IsVersion puller server key s' value := by
  refine ⟨h.inserted.imp_right ?_, h.length_lt⟩
  rintro ⟨rank, hrank, hmem⟩
  exact ⟨rank, hrank, (log_grows hexec).subset hmem⟩

omit [DecidableEq ι] in
theorem isVersion_nil : IsVersion puller server key s [] :=
  ⟨.inl rfl, by simp⟩

omit [DecidableEq ι] in
/-- The value that an insertion leaves is a version. -/
theorem isVersion_inserted {rank : ι} (hrank : rank = puller ∨ rank = server)
    (hlength : value.length < 2 ^ 31)
    (hlog : s'.log = s.log ++ [.inserted rank key value]) : IsVersion puller server key s' value :=
  ⟨.inr ⟨rank, hrank, by rw [hlog]; exact List.mem_append_right _ (List.mem_singleton.mpr rfl)⟩,
    hlength⟩

theorem Serving.step (h : Serving puller server key s) {step : StoreStep ι}
    (hguard : PulledFrom puller server key s step) (hexec : s.exec step = some s') :
    Serving puller server key s' := by
  obtain ⟨value, phase, htransfers, hphase, hversion⟩ := h
  by_cases hforeign : s.Foreign server key step
  · exact ⟨value, phase, (sameTransfer hforeign hexec).transfers htransfers, hphase,
      hversion.step hexec⟩
  · cases step with
    | test rank k source memory =>
        simp only [Foreign, not_or, not_not] at hforeign
        exact absurd hforeign.1 (hguard hforeign.2).1
    | deliver i memory =>
        simp only [Foreign, not_forall, Bool.not_eq_false] at hforeign
        obtain ⟨m, hi, habout⟩ := hforeign
        -- no message of a transfer to the server is in flight
        obtain ⟨-, ⟨rfl, -⟩ | ⟨rfl, -⟩⟩ := InPhase.of_mem htransfers (mem_inFlight hi habout)
        · rcases hphase with ⟨hphase, -⟩ | hphase <;> cases hphase
        · rcases hphase with ⟨hphase, -⟩ | hphase <;> cases hphase
    | insertLocalKey rank k v =>
        simp only [Foreign, not_or, not_not] at hforeign
        obtain ⟨rfl, hk⟩ := hforeign
        rcases htransfers.insertLocalKey hk hexec with ⟨hsame, -⟩ | ⟨-, hdone, hlog⟩
        · exact ⟨value, phase, hsame, hphase, hversion.step hexec⟩
        · exact ⟨_, .done, hdone, .inr rfl, isVersion_inserted (.inr rfl) hguard hlog⟩
    | removeLocalKey rank k =>
        simp only [Foreign, not_or, not_not] at hforeign
        obtain ⟨rfl, rfl⟩ := hforeign
        have hempty : s.inFlight rank k = [] := by
          rcases hphase with ⟨rfl, -⟩ | rfl
          · exact htransfers.2.1
          · obtain ⟨_, _, _, hempty⟩ := htransfers
            exact hempty
        exact ⟨[], .absent, (Transfers.removeLocalKey hempty hexec []).1, .inl ⟨rfl, rfl⟩,
          isVersion_nil⟩

/-- The server answers with a version, which is its content. -/
theorem Serving.serves (h : Serving puller server key s) :
    (s.stores server).Serves key (s.content server key) ∧
      IsVersion puller server key s (s.content server key) := by
  obtain ⟨value, phase, htransfers, ⟨rfl, rfl⟩ | rfl, hversion⟩ := h
  · have hnone : (s.stores server).items key = none := htransfers.1
    have hcontent : s.content server key = [] := by
      rw [content, StoreNetwork.item, hnone]
      rfl
    rw [hcontent]
    refine ⟨?_, isVersion_nil⟩
    rw [KeyValueStore.Serves, hnone]
  · obtain ⟨item, hitem, hcomplete, -⟩ := htransfers
    have hcontent : s.content server key = value := by
      rw [content, hitem]
      exact hcomplete.getD_value
    rw [hcontent]
    exact ⟨hcomplete.serves hitem, hversion⟩

/-- A message of the transfer that arrives where it meets the same version is handled. -/
theorem Surviving.deliver (h : Surviving puller server key s) (hkey : IsKey key) {i : Nat}
    {m : StoreMessage ι} {memory : Nat → UInt8} (hi : s.messages[i]? = some m)
    (habout : m.about puller key = true)
    (hsame : SameVersion puller key s (.deliver i memory)) :
    ∃ s', s.exec (.deliver i memory) = some s' ∧ Pulling puller server key s' ∧
      ∀ m ∈ s'.inFlight puller key,
        m.tag ≠ .RAYPLATFORM_MESSAGE_TAG_DOWNLOAD_OBJECT_PART := by
  obtain ⟨value, offset, phase, htransfers, hversion, hoffset, hmax⟩ := h.pulling
  have hmem := mem_inFlight hi habout
  obtain ⟨-, ⟨rfl, hrequest⟩ | ⟨rfl, hreply⟩⟩ := InPhase.of_mem htransfers hmem
  · -- the transfer goes on with what the server has now
    have hdestination := h.requests m hmem hrequest.tag
    obtain ⟨hserves, hserved⟩ := h.serving.serves
    have ⟨item, hitem, hdown, _⟩ := htransfers
    obtain ⟨hlarge, hfirst⟩ := hsame m (by rw [hi]; rfl) hrequest.tag habout item hitem
    rw [hdestination] at hlarge hfirst
    rw [hdown.downloaded] at hfirst
    have hbegun : 0 < offset → (s.content server key).length = value.length ∧
        (s.content server key).take offset = value.take offset := by
      intro hpos
      obtain ⟨-, hsize, buffer, hbuffer, -, htake⟩ := hdown.begun hpos
      obtain ⟨hlength, hbytes⟩ := hfirst hpos
      have hcontent : s.content puller key = buffer := by
        rw [content, hitem]
        exact congrArg (Option.getD · []) hbuffer
      rw [hcontent] at hbytes
      exact ⟨hlength.trans hsize, hbytes.trans htake⟩
    have hle : offset ≤ (s.content server key).length := by
      rcases Nat.eq_zero_or_pos offset with hzero | hpos
      · omega
      · rw [(hbegun hpos).1]
        exact hoffset
    obtain ⟨s', hexec, hreplied, -⟩ := (htransfers.rebase hbegun).serve hkey hserved.length_lt hi
      habout (hdestination ▸ hserves) hle memory
    refine ⟨s', hexec, ⟨_, offset, _, hreplied, hserved.step hexec, hle, fun _ => hlarge⟩, ?_⟩
    intro m' hm'
    obtain ⟨-, ⟨hphase, -⟩ | ⟨-, hreply⟩⟩ := InPhase.of_mem hreplied hm'
    · cases hphase
    · rw [hreply.tag]
      exact StoreTag.noConfusion
  · obtain ⟨s', hexec, hadvanced, -⟩ :=
      htransfers.receive hkey (hmax (.inl rfl)) hi habout memory
    refine ⟨s', hexec, ⟨value, _, _, hadvanced, hversion.step hexec, by omega,
      fun _ => hmax (.inl rfl)⟩, ?_⟩
    intro m' hm'
    obtain ⟨hnot, hnot'⟩ := afterPart_ne key value offset
    obtain ⟨-, ⟨hphase, -⟩ | ⟨hphase, -⟩⟩ := InPhase.of_mem hadvanced hm'
    · exact absurd hphase hnot
    · exact absurd hphase hnot'

theorem Surviving.step (h : Surviving puller server key s) (hkey : IsKey key)
    {step : StoreStep ι} (hguard : PulledFrom puller server key s step)
    (hsame : SameVersion puller key s step) (hexec : s.exec step = some s') :
    Surviving puller server key s' := by
  have hserving := h.serving.step hguard hexec
  obtain ⟨value, offset, phase, htransfers, hversion, hoffset, hmax⟩ := h.pulling
  by_cases hforeign : s.Foreign puller key step
  · have hkeep := sameTransfer hforeign hexec
    refine ⟨⟨value, offset, phase, hkeep.transfers htransfers, hversion.step hexec, hoffset, hmax⟩,
      hserving, ?_⟩
    rw [hkeep.inFlight]
    exact h.requests
  · cases step with
    | test rank k source memory =>
        simp only [Foreign, not_or, not_not] at hforeign
        obtain ⟨rfl, hk⟩ := hforeign
        obtain ⟨htested, -, hflight⟩ := htransfers.test hk hversion.length_lt hexec
        refine ⟨⟨value, offset, _, htested, hversion.step hexec, hoffset, ?_⟩, hserving, ?_⟩
        · rintro (hreplied | hpos)
          · refine hmax (.inl ?_)
            cases phase with
            | replied => rfl
            | absent => cases hreplied
            | idle => cases hreplied
            | requested => cases hreplied
            | done => cases hreplied
          · exact hmax (.inr hpos)
        · intro m hm htag
          rcases hflight m hm with hold | hsource
          · exact h.requests m hold htag
          · exact hsource.trans ((hguard hk).2 rfl)
    | deliver i memory =>
        simp only [Foreign, not_forall, Bool.not_eq_false] at hforeign
        obtain ⟨m, hi, habout⟩ := hforeign
        obtain ⟨next, hnext, hpulling, hrequests⟩ := h.deliver hkey hi habout hsame
        rw [hexec] at hnext
        cases hnext
        exact ⟨hpulling, hserving, fun m hm htag => absurd htag (hrequests m hm)⟩
    | insertLocalKey rank k v =>
        simp only [Foreign, not_or, not_not] at hforeign
        obtain ⟨rfl, hk⟩ := hforeign
        have hrequests : ∀ m ∈ s'.inFlight rank key,
            m.tag = .RAYPLATFORM_MESSAGE_TAG_DOWNLOAD_OBJECT_PART → m.destination = server := by
          cases hexec
          exact h.requests
        rcases htransfers.insertLocalKey hk hexec with ⟨hkeep, -⟩ | ⟨-, hdone, hlog⟩
        · exact ⟨⟨value, offset, phase, hkeep, hversion.step hexec, hoffset, hmax⟩, hserving,
            hrequests⟩
        · refine ⟨⟨_, 0, .done, hdone, isVersion_inserted (.inl rfl) hguard hlog, Nat.zero_le _, ?_⟩,
            hserving, hrequests⟩
          rintro (hphase | hpos)
          · cases hphase
          · exact absurd hpos (Nat.lt_irrefl 0)
    | removeLocalKey rank k =>
        simp only [Foreign, not_or, not_not] at hforeign
        obtain ⟨rfl, rfl⟩ := hforeign
        have hempty := hsame rfl rfl
        have habsent := (Transfers.removeLocalKey hempty hexec []).1
        refine ⟨⟨[], 0, .absent, habsent, isVersion_nil, Nat.zero_le _, ?_⟩, hserving, ?_⟩
        · exact fun _ => Nat.zero_le _
        · intro m hm
          have hnone : s'.inFlight rank k = [] := habsent.2.1
          rw [hnone] at hm
          cases hm

theorem Surviving.survivesRemoval (h : Surviving puller server key s) (hkey : IsKey key) :
    SurvivesRemoval puller server key (SameVersion puller key) s := by
  refine ⟨?_, ?_⟩
  · intro i m memory hi habout hsame
    obtain ⟨next, hexec, -⟩ := h.deliver hkey hi habout hsame
    rw [hexec]
    rfl
  · intro k source memory pulled hpull hk hresult
    obtain ⟨value, offset, phase, htransfers, hversion, -⟩ := h.pulling
    obtain ⟨-, hpulls⟩ := KeyValueStore.pulls_of_some hpull
    subst hk
    cases hpulls with
    | @ready item hitem hready =>
        unfold Transfers StoreNetwork.item at htransfers
        rw [hitem] at htransfers
        rcases htransfers.of_some with ⟨-, hcomplete, -⟩ | ⟨hdown, -⟩
        · obtain ⟨bytes, hlocal, hbytes⟩ := hcomplete.getLocalKey hkey hitem
          exact ⟨bytes, value, hlocal, hbytes, hversion⟩
        · rw [hdown.notReady] at hready
          cases hready
    | start => cases hresult
    | request => cases hresult
    | wait => cases hresult

end StoreNetwork

open StoreNetwork in
/-- Every run in which the key is removed and inserted on the two ranks, and no message meets
another version of the value. -/
theorem keyValueStore_survivesRemoval {stores : ι → KeyValueStore} {puller server : ι}
    {key : List UInt8} (hkey : IsKey key) (hpuller : (stores puller).items key = none)
    (hserver : (stores server).items key = none) {s : StoreNetwork ι}
    (hs : (((storeSystem stores).restrict (PulledFrom puller server key)).restrict
      (SameVersion puller key)).Reachable s) :
    SurvivesRemoval puller server key (SameVersion puller key) s := by
  have hinv : (((storeSystem stores).restrict (PulledFrom puller server key)).restrict
      (SameVersion puller key)).Inductive (Surviving puller server key) := by
    refine ⟨fun s hinit => ?_, fun s step s' h hstep => ?_⟩
    · obtain rfl : s = _ := hinit
      exact
        { pulling := ⟨[], 0, .absent, ⟨hpuller, rfl, rfl⟩, isVersion_nil, Nat.zero_le _,
            fun _ => Nat.zero_le _⟩
          serving := ⟨[], .absent, ⟨hserver, rfl, rfl⟩, .inl ⟨rfl, rfl⟩, isVersion_nil⟩
          requests := fun m hm => nomatch hm }
    · exact h.step hkey hstep.2.1 hstep.1 hstep.2.2
  exact (hinv.holds hs).survivesRemoval hkey

open StoreNetwork in
/-- The server replaces the value before the request arrives; the rank removes what it got and
pulls again. -/
theorem keyValueStore_survivesRemoval_replaced : ∃ s : StoreNetwork (Fin 2),
    (s.stores 1).getLocalKey [65] = some (some [8, 9], 2) ∧
      SurvivesRemoval 1 0 [65] (SameVersion 1 [65]) s := by
  let guard (s : StoreNetwork (Fin 2)) (step : StoreStep (Fin 2)) : Prop :=
    SameVersion 1 [65] s step ∧ PulledFrom 1 0 [65] s step
  let exec := Lib.TransitionSystem.guarded guard (StoreNetwork.exec (ι := Fin 2))
  let memory : Nat → UInt8 := fun _ => 0
  let pull : List (StoreStep (Fin 2)) := [.test 1 [65] 0 memory, .test 1 [65] 0 memory]
  let reply : List (StoreStep (Fin 2)) := [.deliver 0 memory, .deliver 0 memory]
  let steps : List (StoreStep (Fin 2)) :=
    .insertLocalKey 0 [65] (some [7]) :: pull ++
      [.removeLocalKey 0 [65], .insertLocalKey 0 [65] (some [8, 9])] ++ reply ++
      .removeLocalKey 1 [65] :: pull ++ reply
  have hrun : (Lib.TransitionSystem.runAll exec
      { stores := fun _ => .empty, messages := [], log := [] } steps).map
        (fun s => (s.stores 1).getLocalKey [65]) = some (some (some [8, 9], 2)) := by
    decide +kernel
  obtain ⟨last, hlast, hvalue⟩ := Option.map_eq_some_iff.mp hrun
  have hreach : ((storeSystem fun _ => .empty).restrict guard).Reachable last :=
    .of_guarded (.runAll (.init rfl) hlast)
  have hboth : (((storeSystem fun _ => .empty).restrict (PulledFrom 1 0 [65])).restrict
      (SameVersion 1 [65])).Reachable last :=
    hreach.restrict_restrict
  exact ⟨last, hvalue, keyValueStore_survivesRemoval ⟨by decide, by decide⟩ rfl rfl hboth⟩

/-- The first and the last byte of a value of 5000 bytes. -/
def endBytes (value : List UInt8) : Option UInt8 × Option UInt8 :=
  (value[0]?, value[4999]?)

/-- An insertion of a value with these bytes at its ends. -/
def StoreEvent.inserts (ends : Option UInt8 × Option UInt8) : StoreEvent ι → Bool
  | .inserted _ _ value => decide (endBytes value = ends)
  | _ => false

open StoreNetwork in
/-- A reply that comes when the item was removed, a request whose offset is beyond the new
value, and a value of 5000 bytes whose last part is of another version than the first. -/
theorem keyValueStore_removal_disturbs :
    (∃ s : StoreNetwork (Fin 2),
      ((storeSystem fun _ => .empty).restrict (PulledFrom 1 0 [65])).Reachable s ∧
        s.item 1 [65] = none ∧ ¬ SurvivesRemoval 1 0 [65] (fun _ _ => True) s) ∧
    (∃ s : StoreNetwork (Fin 2),
      ((storeSystem fun _ => .empty).restrict (PulledFrom 1 0 [65])).Reachable s ∧
        s.content 0 [65] = [7] ∧ ¬ SurvivesRemoval 1 0 [65] (fun _ _ => True) s) ∧
    ∃ s : StoreNetwork (Fin 2),
      ((storeSystem fun _ => .empty).restrict (PulledFrom 1 0 [65])).Reachable s ∧
        ((s.stores 1).getLocalKey [65]).map (fun found => endBytes (found.1.getD [])) =
          some (some 1, some 2) ∧
        ¬ SurvivesRemoval 1 0 [65] (fun _ _ => True) s := by
  let exec := Lib.TransitionSystem.guarded (PulledFrom 1 0 [65]) (StoreNetwork.exec (ι := Fin 2))
  let start : StoreNetwork (Fin 2) := { stores := fun _ => .empty, messages := [], log := [] }
  let memory : Nat → UInt8 := fun _ => 0
  let test : StoreStep (Fin 2) := .test 1 [65] 0 memory
  let deliver : StoreStep (Fin 2) := .deliver 0 memory
  let replace (value : List UInt8) : List (StoreStep (Fin 2)) :=
    [.removeLocalKey 0 [65], .insertLocalKey 0 [65] (some value)]
  -- a message of the transfer that no handler takes
  have hstuck : ∀ s : StoreNetwork (Fin 2), s.messages[0]?.map (·.about 1 [65]) = some true →
      (s.exec deliver).isSome = false → ¬ SurvivesRemoval 1 0 [65] (fun _ _ => True) s := by
    intro s hmessage hexec hsurvives
    obtain ⟨m, hi, habout⟩ := Option.map_eq_some_iff.mp hmessage
    have hhandled := hsurvives.handled 0 m memory hi habout trivial
    rw [hexec] at hhandled
    cases hhandled
  refine ⟨?_, ?_, ?_⟩
  · have hrun : (Lib.TransitionSystem.runAll exec start
        [.insertLocalKey 0 [65] (some [7]), test, test, deliver, .removeLocalKey 1 [65]]).map
          (fun s => (s.item 1 [65], s.messages[0]?.map (·.about 1 [65]),
            (s.exec deliver).isSome)) = some (none, some true, false) := by decide +kernel
    obtain ⟨last, hlast, hlost⟩ := Option.map_eq_some_iff.mp hrun
    simp only [Prod.mk.injEq] at hlost
    obtain ⟨hitem, hmessage, hexec⟩ := hlost
    exact ⟨last, .of_guarded (.runAll (.init rfl) hlast), hitem, hstuck last hmessage hexec⟩
  · have hrun : (Lib.TransitionSystem.runAll exec start
        (.insertLocalKey 0 [65] (some (List.replicate 5000 1)) ::
          [test, test, deliver, deliver, test] ++ replace [7])).map
          (fun s => (s.content 0 [65], s.messages[0]?.map (·.about 1 [65]),
            (s.exec deliver).isSome)) = some ([7], some true, false) := by decide +kernel
    obtain ⟨last, hlast, hlost⟩ := Option.map_eq_some_iff.mp hrun
    simp only [Prod.mk.injEq] at hlost
    obtain ⟨hcontent, hmessage, hexec⟩ := hlost
    exact ⟨last, .of_guarded (.runAll (.init rfl) hlast), hcontent, hstuck last hmessage hexec⟩
  · have hrun : (Lib.TransitionSystem.runAll exec start
        (.insertLocalKey 0 [65] (some (List.replicate 5000 1)) :: [test, test, deliver, deliver] ++
          replace (List.replicate 5000 2) ++ [test, deliver, deliver])).map
          (fun s => (((s.stores 1).getLocalKey [65]).map fun found => endBytes (found.1.getD []),
            ((s.stores 1).pullRemoteKeyWithLength (1 : Fin 2) [65] 0 memory).map (·.result),
            s.log.any (StoreEvent.inserts (some 1, some 2)))) =
          some (some (some 1, some 2), some true, false) := by decide +kernel
    obtain ⟨last, hlast, hmixed⟩ := Option.map_eq_some_iff.mp hrun
    simp only [Prod.mk.injEq] at hmixed
    obtain ⟨hends, htest, hlog⟩ := hmixed
    obtain ⟨pulled, hpull, htrue⟩ := Option.map_eq_some_iff.mp htest
    refine ⟨last, .of_guarded (.runAll (.init rfl) hlast), hends, fun hsurvives => ?_⟩
    obtain ⟨bytes, value, hlocal, rfl, hversion⟩ :=
      hsurvives.unmixed [65] 0 memory pulled hpull (by decide) htrue
    rw [hlocal] at hends
    injection hends with hends
    have hnone : ∀ rank, .inserted rank [65] (bytes.getD []) ∈ last.log → False := by
      intro rank hmem
      have hinserts : last.log.any (StoreEvent.inserts (some 1, some 2)) = true :=
        List.any_eq_true.mpr ⟨_, hmem, decide_eq_true hends⟩
      rw [hlog] at hinserts
      cases hinserts
    rcases hversion.inserted with hempty | ⟨rank, -, hmem⟩
    · have hempties : endBytes [] = (some 1, some 2) := hempty ▸ hends
      exact absurd hempties (by decide)
    · exact hnone rank hmem

end RayPlatform
