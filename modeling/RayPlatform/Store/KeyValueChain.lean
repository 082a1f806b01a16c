import RayPlatform.Store.KeyValueNetwork

/-!
# Pulls of a key from rank to rank

One rank inserts a key and any rank pulls it from any rank, which may itself be
downloading it. The handler of a request takes the value and the length of the item
without asking whether it is ready. In the runs where each request meets a ready item,
all ranks agree with the origin (`keyValueStore_pullsAgree`).
-/

namespace RayPlatform

open Lib (TransferPhase)

variable {ι : Type} [DecidableEq ι]

namespace StoreNetwork

/-- One rank inserts the key, with one value, and nothing removes it. -/
def OnlyPulled (origin : ι) (key value : List UInt8) (_ : StoreNetwork ι) : StoreStep ι → Prop
  | .test _ _ _ _ | .deliver _ _ => True
  | .insertLocalKey rank k v => cString k = key → rank = origin ∧ v.getD [] = value
  | .removeLocalKey _ k => k ≠ key

/-- A request for the key is delivered where the item of the key is ready. -/
def MeetsReady (key : List UInt8) (s : StoreNetwork ι) : StoreStep ι → Prop
  | .deliver i _ => ∀ m ∈ s.messages[i]?,
      m.tag = .RAYPLATFORM_MESSAGE_TAG_DOWNLOAD_OBJECT_PART → cString m.data = key →
      (s.item m.destination key).any (·.ready) = true
  | _ => True

instance (origin : ι) (key value : List UInt8) (s : StoreNetwork ι) (step : StoreStep ι) :
    Decidable (OnlyPulled origin key value s step) :=
  match step with
  | .test _ _ _ _ | .deliver _ _ => isTrue trivial
  | .insertLocalKey _ _ _ => inferInstanceAs (Decidable (_ → _ ∧ _))
  | .removeLocalKey _ _ => inferInstanceAs (Decidable (_ ≠ _))

instance (key : List UInt8) (s : StoreNetwork ι) (step : StoreStep ι) :
    Decidable (MeetsReady key s step) :=
  match step with
  | .deliver i _ => inferInstanceAs (Decidable (∀ m ∈ s.messages[i]?, _ → _ → _))
  | .test _ _ _ _ | .insertLocalKey _ _ _ | .removeLocalKey _ _ => isTrue trivial

/-- The ranks that have the key agree, and so do the replies on their way. -/
structure PullsAgree (key value : List UInt8) (s : StoreNetwork ι) : Prop where
  /-- when `test` is true the local value is complete and the one that was inserted -/
  tested : ∀ rank k source memory pulled,
    (s.stores rank).pullRemoteKeyWithLength rank k source memory = some pulled →
    cString k = key → pulled.result = true →
    ∃ bytes, (s.stores rank).getLocalKey key = some (bytes, value.length) ∧
      bytes.getD [] = value
  /-- a reply has the length and the bytes of a ready item -/
  replies : ∀ m ∈ s.messages, m.tag = .RAYPLATFORM_MESSAGE_TAG_DOWNLOAD_OBJECT_PART_REPLY →
    cString m.data = key → ∃ offset, IsReply m key value offset

/-- The transfer of the key to each rank, whichever ranks it comes from. -/
def AllTransfer (key value : List UInt8) (s : StoreNetwork ι) : Prop :=
  ∀ rank, ∃ offset phase, s.Transfers rank key value offset phase ∧ offset ≤ value.length ∧
    (0 < offset → value.length ≤ 33554432)

variable {origin : ι} {key value : List UInt8} {s s' : StoreNetwork ι}

theorem AllTransfer.serves (h : AllTransfer key value s) {rank : ι}
    (hready : (s.item rank key).any (·.ready) = true) : (s.stores rank).Serves key value := by
  obtain ⟨offset, phase, htransfers, -⟩ := h rank
  unfold Transfers at htransfers
  cases hitem : s.item rank key with
  | none =>
      rw [hitem] at hready
      cases hready
  | some item =>
      rw [hitem] at hready htransfers
      rcases htransfers.of_some with ⟨-, hcomplete, -⟩ | ⟨hdown, -⟩
      · exact hcomplete.serves hitem
      · have hnot : item.ready = true := hready
        rw [hdown.notReady] at hnot
        cases hnot

theorem AllTransfer.deliver (h : AllTransfer key value s) (hkey : IsKey key)
    (hint : value.length < 2 ^ 31) {rank : ι} {i : Nat} {memory : Nat → UInt8}
    (hmeets : MeetsReady key s (.deliver i memory)) {m : StoreMessage ι}
    (hi : s.messages[i]? = some m) (habout : m.about rank key = true)
    (hexec : s.exec (.deliver i memory) = some s') :
    ∃ offset phase, s'.Transfers rank key value offset phase ∧ offset ≤ value.length ∧
      (0 < offset → value.length ≤ 33554432) := by
  obtain ⟨offset, phase, htransfers, hoffset, hbegun⟩ := h rank
  obtain ⟨-, ⟨rfl, hrequest⟩ | ⟨rfl, -⟩⟩ := InPhase.of_mem htransfers (mem_inFlight hi habout)
  · have hready := hmeets m (by rw [hi]; rfl) hrequest.tag (by
      rw [about_request hrequest.tag] at habout
      simp only [Bool.and_eq_true, decide_eq_true_eq] at habout
      exact habout.2)
    obtain ⟨next, hnext, hreplied, -⟩ := htransfers.serve hkey hint hi habout (h.serves hready)
      hoffset memory
    rw [hexec] at hnext
    cases hnext
    exact ⟨_, _, hreplied, hoffset, hbegun⟩
  · by_cases hmax : value.length ≤ 33554432
    · obtain ⟨next, hnext, hadvanced, -⟩ := htransfers.receive hkey hmax hi habout memory
      rw [hexec] at hnext
      cases hnext
      exact ⟨_, _, hadvanced, by omega, fun _ => hmax⟩
    · have hzero : offset = 0 := by
        by_contra hne
        exact hmax (hbegun (by omega))
      subst hzero
      rw [htransfers.too_large hkey hint (by omega) hi habout memory] at hexec
      cases hexec

theorem AllTransfer.step (h : AllTransfer key value s) (hkey : IsKey key)
    (hint : value.length < 2 ^ 31) {step : StoreStep ι}
    (hpulled : OnlyPulled origin key value s step) (hmeets : MeetsReady key s step)
    (hexec : s.exec step = some s') : AllTransfer key value s' := by
  intro rank
  by_cases hforeign : s.Foreign rank key step
  · obtain ⟨offset, phase, htransfers, hoffset⟩ := h rank
    exact ⟨offset, phase, (sameTransfer hforeign hexec).transfers htransfers, hoffset⟩
  · cases step with
    | test r k source memory =>
        simp only [Foreign, not_or, not_not] at hforeign
        obtain ⟨rfl, hk⟩ := hforeign
        obtain ⟨offset, phase, htransfers, hoffset⟩ := h r
        exact ⟨offset, _, (htransfers.test hk hint hexec).1, hoffset⟩
    | deliver i memory =>
        simp only [Foreign, not_forall, Bool.not_eq_false] at hforeign
        obtain ⟨m, hi, habout⟩ := hforeign
        exact h.deliver hkey hint hmeets hi habout hexec
    | insertLocalKey r k v =>
        simp only [Foreign, not_or, not_not] at hforeign
        obtain ⟨rfl, hk⟩ := hforeign
        obtain ⟨offset, phase, htransfers, hoffset⟩ := h r
        rcases htransfers.insertLocalKey hk hexec with ⟨hsame, -⟩ | ⟨-, hdone, -⟩
        · exact ⟨offset, phase, hsame, hoffset⟩
        · rw [(hpulled hk).2] at hdone
          exact ⟨0, .done, hdone, Nat.zero_le _, fun hpos => absurd hpos (Nat.lt_irrefl 0)⟩
    | removeLocalKey r k =>
        simp only [Foreign, not_or, not_not] at hforeign
        exact absurd hforeign.2 hpulled

theorem AllTransfer.pullsAgree (h : AllTransfer key value s) (hkey : IsKey key) :
    PullsAgree key value s := by
  refine ⟨?_, ?_⟩
  · intro rank k source memory pulled hpull hk hresult
    obtain ⟨-, hpulls⟩ := KeyValueStore.pulls_of_some hpull
    subst hk
    cases hpulls with
    | @ready item hitem hready =>
        obtain ⟨offset, phase, htransfers, -⟩ := h rank
        unfold Transfers StoreNetwork.item at htransfers
        rw [hitem] at htransfers
        rcases htransfers.of_some with ⟨-, hcomplete, -⟩ | ⟨hdown, -⟩
        · exact hcomplete.getLocalKey hkey hitem
        · rw [hdown.notReady] at hready
          cases hready
    | start => cases hresult
    | request => cases hresult
    | wait => cases hresult
  · intro m hm htag hk
    obtain ⟨offset, phase, htransfers, -⟩ := h m.destination
    have hmem : m ∈ s.inFlight m.destination key := by
      refine List.mem_filter.mpr ⟨hm, ?_⟩
      rw [about_reply htag]
      simp [hk]
    obtain ⟨-, ⟨-, hrequest⟩ | ⟨-, hreply⟩⟩ := InPhase.of_mem htransfers hmem
    · rw [hrequest.tag] at htag
      cases htag
    · exact ⟨offset, hreply⟩

end StoreNetwork

open StoreNetwork in
/-- In the runs where each request meets a ready item, whatever the chain of ranks, `test`
is true only on the value of the origin. -/
theorem keyValueStore_pullsAgree {stores : ι → KeyValueStore} {origin : ι}
    {key value : List UInt8} (hkey : IsKey key) (hint : value.length < 2 ^ 31)
    (habsent : ∀ rank, (stores rank).items key = none) {s : StoreNetwork ι}
    (hs : (((storeSystem stores).restrict (OnlyPulled origin key value)).restrict
      (MeetsReady key)).Reachable s) : PullsAgree key value s := by
  have hinv : (((storeSystem stores).restrict (OnlyPulled origin key value)).restrict
      (MeetsReady key)).Inductive (AllTransfer key value) := by
    refine ⟨fun s hinit => ?_, fun s step s' h hstep => ?_⟩
    · obtain rfl : s = _ := hinit
      exact fun rank => ⟨0, .absent, ⟨habsent rank, rfl, rfl⟩, Nat.zero_le _,
        fun hpos => absurd hpos (Nat.lt_irrefl 0)⟩
    · exact h.step hkey hint hstep.2.1 hstep.1 hstep.2.2
  exact (hinv.holds hs).pullsAgree hkey

/-- The memory that the runs below allocate. -/
def noMemory : Nat → UInt8 :=
  fun _ => 0

open StoreNetwork in
/-- Rank 2 pulls from rank 1 once rank 1 has pulled from rank 0. -/
theorem keyValueStore_pullsAgree_chain : ∃ s : StoreNetwork (Fin 3),
    (s.stores 2).getLocalKey [65] = some (some [7], 1) ∧ PullsAgree [65] [7] s := by
  let guard (s : StoreNetwork (Fin 3)) (step : StoreStep (Fin 3)) : Prop :=
    MeetsReady [65] s step ∧ OnlyPulled 0 [65] [7] s step
  let exec := Lib.TransitionSystem.guarded guard (StoreNetwork.exec (ι := Fin 3))
  let pull (rank source : Fin 3) : List (StoreStep (Fin 3)) :=
    [.test rank [65] source noMemory, .test rank [65] source noMemory, .deliver 0 noMemory,
      .deliver 0 noMemory]
  let steps := .insertLocalKey 0 [65] (some [7]) :: pull 1 0 ++ pull 2 1
  have hrun : (Lib.TransitionSystem.runAll exec
      { stores := fun _ => .empty, messages := [], log := [] } steps).map
        (fun s => (s.stores 2).getLocalKey [65]) = some (some (some [7], 1)) := by decide +kernel
  obtain ⟨last, hlast, hvalue⟩ := Option.map_eq_some_iff.mp hrun
  have hreach : ((storeSystem fun _ => .empty).restrict guard).Reachable last :=
    .of_guarded (.runAll (.init rfl) hlast)
  have hboth : (((storeSystem fun _ => .empty).restrict (OnlyPulled 0 [65] [7])).restrict
      (MeetsReady [65])).Reachable last :=
    hreach.restrict_restrict
  exact ⟨last, hvalue, keyValueStore_pullsAgree ⟨by decide, by decide⟩ (by decide)
    (fun _ => rfl) hboth⟩

open StoreNetwork in
/-- Rank 1 has begun a download from rank 0; rank 2 asks rank 1, is told that the value is
empty, and takes it as complete. -/
theorem keyValueStore_pulls_unready : ∃ s : StoreNetwork (Fin 3),
    ((storeSystem fun _ => .empty).restrict (OnlyPulled 0 [65] [7])).Reachable s ∧
      ¬ PullsAgree [65] [7] s := by
  let exec := Lib.TransitionSystem.guarded (OnlyPulled 0 [65] [7]) (StoreNetwork.exec (ι := Fin 3))
  let steps : List (StoreStep (Fin 3)) := [.insertLocalKey 0 [65] (some [7]),
    .test 1 [65] 0 noMemory, .test 2 [65] 1 noMemory, .test 2 [65] 1 noMemory,
    .deliver 0 noMemory, .deliver 0 noMemory]
  have hrun : (Lib.TransitionSystem.runAll exec
      { stores := fun _ => .empty, messages := [], log := [] } steps).map (fun s =>
        (((s.stores 2).pullRemoteKeyWithLength (2 : Fin 3) [65] 1 noMemory).map (·.result),
          (s.stores 2).getLocalKey [65])) = some (some true, some (none, 0)) := by decide +kernel
  obtain ⟨last, hlast, hresult⟩ := Option.map_eq_some_iff.mp hrun
  injection hresult with htest hlocal
  obtain ⟨pulled, hpull, htrue⟩ := Option.map_eq_some_iff.mp htest
  refine ⟨last, .of_guarded (.runAll (.init rfl) hlast), fun hagree => ?_⟩
  obtain ⟨bytes, hvalue, -⟩ := hagree.tested 2 [65] 1 noMemory pulled hpull (by decide) htrue
  rw [hlocal] at hvalue
  cases hvalue

end RayPlatform
