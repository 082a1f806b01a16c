import RayPlatform.Communication.OutboxRing

/-!
# Outbox buffers are not reused while MPI reads them

As long as every tick allocates less than what is available, the slots handed out
in the tick are at the end of the scan of the ring, so `allocate` meets a fresh
slot first (`Allocating.allocate`). A slot becomes dirty when its message is sent
and available again only when `MPI_Test` reports that the send has completed.
-/

namespace RayPlatform

open RingAllocator
open Lib (TransitionSystem)
open Lib.CyclicScan (selected_nodup)

def outboxSystem (memory chunks size : Nat) : TransitionSystem OutboxState OutboxStep :=
  .ofExec (OutboxState.constructor memory chunks size) OutboxState.exec

/-- Fewer buffers have been allocated in the tick than there are available buffers. -/
def EnoughBuffers (s : OutboxState) : OutboxStep → Prop
  | .allocate | .reallocate => (s.ring.count : Int) < s.ring.availableBuffers
  | _ => True

/-- A call to `allocate` returns a buffer that MPI does not read and that was not
handed out in the tick. -/
def SafeStep (s : OutboxState) : OutboxStep → Prop
  | .allocate | .reallocate =>
      s.ring.allocate.2 ∉ s.outstanding.map Prod.snd ∧ s.ring.allocate.2 ∉ s.handed
  | _ => True

/-! ## The invariant -/

/-- Every outstanding send reads a dirty buffer whose entry holds its request. -/
def Protected (r : RingAllocator) (outstanding : List (Nat × Nat)) : Prop :=
  ∀ send ∈ outstanding, ∃ slot < r.chunks, send.2 = r.address slot ∧
    r.isAvailable slot = false ∧ (r.dirtyBuffer slot).messageRequest = some send.1

/-- The scan of the ring ends with the slots handed out in the tick. -/
def Allocating (r : RingAllocator) (handed : List Nat) : Prop :=
  ∃ rest used, r.upcoming = rest ++ used ∧ handed = (used.map r.address).reverse ∧
    used.length = r.count

/-- The messages to send are in distinct available buffers. -/
def Queued (r : RingAllocator) (outbox : List (Option Nat)) : Prop :=
  ∃ slots : List Nat, slots.Nodup ∧ (∀ slot ∈ slots, slot < r.chunks ∧ r.isAvailable slot = true) ∧
    outbox = slots.map fun slot => some (r.address slot)

namespace OutboxState

def PhaseInv (s : OutboxState) : Prop :=
  match s.phase with
  | .application => Allocating s.ring s.handed
  | .reallocating i =>
      Allocating s.ring s.handed ∧ i ≤ s.outbox.length ∧ i ≤ s.handed.length ∧
        s.outbox.take i = ((s.handed.take i).map some).reverse
  | .sweeping _ => s.ring.dirtyBuffers ≠ none ∧ Queued s.ring s.outbox
  | .sending i => s.ring.dirtyBuffers ≠ none ∧ Queued s.ring (s.outbox.drop i)

structure Inv (chunks : Nat) (s : OutboxState) : Prop where
  wf : Wf s.ring
  chunks : s.ring.chunks = chunks
  slots : s.ring.dirtyBuffers ≠ none → s.ring.dirtyBufferSlots = s.ring.chunks
  sends : Protected s.ring s.outstanding
  handed : s.handed.Nodup
  phase : s.PhaseInv

end OutboxState

/-! ## Allocation -/

variable {r : RingAllocator} {handed : List Nat} {outstanding : List (Nat × Nat)}

/-- `allocate` takes the first slot of the scan, which is not among the last ones. -/
theorem Allocating.allocate (h : Allocating r handed) (hwf : Wf r)
    (henough : (r.count : Int) < r.availableBuffers) :
    Allocating r.allocate.1 (r.allocate.2 :: handed) ∧ r.allocate.2 ∉ handed ∧
      ∃ slot < r.chunks, r.allocate.2 = r.address slot ∧ r.isAvailable slot = true := by
  obtain ⟨rest, used, hscan, rfl, hcount⟩ := h
  obtain ⟨slot, tail, hbefore, hafter, haddress⟩ := hwf.allocate_upcoming (by omega)
  have hlength := hwf.length_upcoming
  rw [hscan, List.length_append] at hlength
  cases rest with
  | nil =>
      -- every available slot has been handed out
      simp only [List.length_nil] at hlength
      omega
  | cons first rest =>
      rw [hscan, List.cons_append] at hbefore
      injection hbefore with hfirst htail
      subst hfirst htail
      have hnodup : r.upcoming.Nodup := selected_nodup
      rw [hscan, List.cons_append, List.nodup_cons] at hnodup
      have hmem : first ∈ r.upcoming := by
        rw [hscan]
        exact List.mem_cons_self
      obtain ⟨hlt, havailable⟩ := (hwf.mem_upcoming first).mp hmem
      refine ⟨⟨rest, used ++ [first], ?_, ?_, ?_⟩, ?_, first, hlt, haddress, havailable⟩
      · rw [hafter, List.append_assoc]
      · rw [List.map_append, List.reverse_append, haddress]
        rfl
      · show (used ++ [first]).length = r.count + 1
        rw [List.length_append, hcount]
        rfl
      · intro hin
        rw [haddress, List.mem_reverse, List.mem_map] at hin
        obtain ⟨other, hother, heq⟩ := hin
        rw [hwf.address_injective heq] at hother
        exact hnodup.1 (List.mem_append_right _ hother)

/-- No outstanding send reads an available buffer. -/
theorem Protected.not_mem (h : Protected r outstanding) (hwf : Wf r) {slot : Nat}
    (havailable : r.isAvailable slot = true) :
    r.address slot ∉ outstanding.map Prod.snd := by
  intro hin
  obtain ⟨send, hsend, heq⟩ := List.mem_map.mp hin
  obtain ⟨busy, _, haddress, hdirty, _⟩ := h send hsend
  have hslot : busy = slot := hwf.address_injective (haddress.symm.trans heq)
  rw [hslot, havailable] at hdirty
  exact absurd hdirty (by simp)

theorem Allocating.nodup (h : Allocating r handed) (hwf : Wf r) : handed.Nodup := by
  obtain ⟨rest, used, hscan, rfl, _⟩ := h
  have hnodup : r.upcoming.Nodup := selected_nodup
  rw [hscan, List.nodup_append] at hnodup
  rw [List.nodup_reverse]
  exact hnodup.2.1.map fun i j hij => hwf.address_injective hij

/-- The slots handed out are available until they are sent. -/
theorem Allocating.queued (h : Allocating r handed) (hwf : Wf r) {n : Nat} :
    Queued r ((handed.take n).map some).reverse := by
  obtain ⟨rest, used, hscan, rfl, _⟩ := h
  have hnodup : r.upcoming.Nodup := selected_nodup
  rw [hscan, List.nodup_append] at hnodup
  have hsub : ∀ slot ∈ (used.reverse.take n).reverse, slot ∈ used := by
    intro slot hslot
    rw [List.mem_reverse] at hslot
    exact List.mem_reverse.mp (List.mem_of_mem_take hslot)
  refine ⟨(used.reverse.take n).reverse, ?_, fun slot hslot => ?_, ?_⟩
  · rw [List.nodup_reverse]
    exact (List.nodup_reverse.mpr hnodup.2.1).sublist (List.take_sublist ..)
  · apply (hwf.mem_upcoming slot).mp
    rw [hscan]
    exact List.mem_append_right _ (hsub slot hslot)
  · simp [List.map_take, List.map_reverse, Function.comp_def]

/-! ## Sending -/

/-- What the sends of a step need to know of a ring that changed at one slot. -/
theorem Protected.of_others (h : Protected r outstanding) {r' : RingAllocator} {slot : Nat}
    (haddress : r'.address = r.address) (hchunks : r'.chunks = r.chunks)
    (havailable : ∀ j, j ≠ slot → r'.isAvailable j = r.isAvailable j)
    (hothers : ∀ j, j ≠ slot → r'.dirtyBuffer j = r.dirtyBuffer j)
    (hslot : ∀ send ∈ outstanding, send.2 ≠ r.address slot) : Protected r' outstanding := by
  intro send hsend
  obtain ⟨busy, hlt, hbuffer, hdirty, hrequest⟩ := h send hsend
  have hne : busy ≠ slot := by
    rintro rfl
    exact hslot send hsend hbuffer
  refine ⟨busy, by omega, ?_, ?_, ?_⟩
  · rw [haddress]
    exact hbuffer
  · rw [havailable busy hne]
    exact hdirty
  · rw [hothers busy hne]
    exact hrequest

/-- The ring after the send of an available buffer. -/
theorem isendRing_spec (hwf : Wf r) (hinit : r.dirtyBuffers ≠ none) {slot : Nat}
    (hslot : slot < r.chunks) (havailable : r.isAvailable slot = true) (request : Nat) :
    RegisterSpec r (OutboxState.isendRing r (r.address slot) request) slot ∧
      ((OutboxState.isendRing r (r.address slot) request).dirtyBuffer slot).messageRequest =
        some request := by
  have hfree : ¬ r.isRegistered slot = true := by
    rw [hwf.registered_iff hslot, havailable]
    simp
  have hregister := hwf.registerBuffer hinit hslot havailable
  have hring : OutboxState.isendRing r (r.address slot) request =
      (r.registerBuffer (r.address slot)).setRequest slot (some request) := by
    rw [OutboxState.isendRing, hwf.handle_address]
    simp only [if_neg hfree]
  rw [hring]
  exact hregister.setRequest (some request)

/-- The messages after the first one stay in available buffers. -/
theorem Queued.isend {buffer : Option Nat} {outbox : List (Option Nat)}
    (h : Queued r (buffer :: outbox)) :
    ∃ slot < r.chunks, buffer = some (r.address slot) ∧ r.isAvailable slot = true ∧
      ∀ r', RegisterSpec r r' slot → Queued r' outbox := by
  obtain ⟨slots, hnodup, hall, heq⟩ := h
  cases slots with
  | nil => simp at heq
  | cons slot slots =>
      injection heq with hbuffer houtbox
      rw [List.nodup_cons] at hnodup
      have hslot := hall slot List.mem_cons_self
      refine ⟨slot, hslot.1, hbuffer, hslot.2, fun r' hspec => ?_⟩
      refine ⟨slots, hnodup.2, fun j hj => ?_, ?_⟩
      · have hne : j ≠ slot := fun hjs => hnodup.1 (hjs ▸ hj)
        rw [hspec.chunks, hspec.available, Function.update_of_ne hne]
        exact hall j (List.mem_cons_of_mem _ hj)
      · rw [hspec.address]
        exact houtbox

/-! ## Sweeping -/

/-- Salvaging a buffer whose send has completed. -/
theorem Protected.salvage (h : Protected r outstanding) (hwf : Wf r) {r' : RingAllocator}
    {slot : Nat} (hspec : SalvageSpec r r' slot)
    (hdone : ∀ request, (r.dirtyBuffer slot).messageRequest = some request →
      request ∉ outstanding.map Prod.fst) : Protected r' outstanding := by
  refine h.of_others hspec.address hspec.chunks (fun j hj => ?_) hspec.others ?_
  · rw [hspec.available, Function.update_of_ne hj]
  · intro send hsend heq
    obtain ⟨busy, _, hbuffer, _, hrequest⟩ := h send hsend
    rw [hwf.address_injective (hbuffer.symm.trans heq)] at hrequest
    exact hdone send.1 hrequest (List.mem_map_of_mem hsend)

theorem Queued.salvage {outbox : List (Option Nat)} (h : Queued r outbox) {r' : RingAllocator}
    {slot : Nat} (hspec : SalvageSpec r r' slot) : Queued r' outbox := by
  obtain ⟨slots, hnodup, hall, rfl⟩ := h
  refine ⟨slots, hnodup, fun j hj => ⟨?_, ?_⟩, ?_⟩
  · rw [hspec.chunks]
    exact (hall j hj).1
  · rw [hspec.available]
    by_cases hjs : j = slot
    · rw [hjs, Function.update_self]
    · rw [Function.update_of_ne hjs]
      exact (hall j hj).2
  · rw [hspec.address]

namespace OutboxState

variable {chunks : Nat} {s s' : OutboxState}

/-! ## One lemma per step -/

theorem constructor_inv {memory size : Nat} (hmemory : 0 < memory) (hchunks : 0 < chunks)
    (hsize : 0 < size) : Inv chunks (constructor memory chunks size) := by
  refine ⟨constructor_wf hmemory hchunks hsize, rfl, fun hinit => absurd rfl hinit, ?_, ?_, ?_⟩
  · intro send hsend
    simp [constructor] at hsend
  · simp [constructor]
  · exact ⟨_, [], (List.append_nil _).symm, rfl, rfl⟩

/-- Before anything is handed out, the whole scan is left. -/
theorem Inv.nextTick (h : Inv chunks s) : Inv chunks s.nextTick :=
  ⟨h.wf.resetCount, h.chunks, h.slots, h.sends, List.nodup_nil,
    _, [], (List.append_nil _).symm, rfl, rfl⟩

theorem Inv.allocating (h : Inv chunks s)
    (hphase : s.phase = .application ∨ ∃ i, s.phase = .reallocating i) :
    Allocating s.ring s.handed := by
  have hinv := h.phase
  unfold PhaseInv at hinv
  rcases hphase with hphase | ⟨i, hphase⟩
  · rw [hphase] at hinv
    exact hinv
  · rw [hphase] at hinv
    exact hinv.1

theorem Inv.allocated (h : Inv chunks s)
    (hphase : s.phase = .application ∨ ∃ i, s.phase = .reallocating i)
    (henough : (s.ring.count : Int) < s.ring.availableBuffers) :
    Allocating s.allocated.ring s.allocated.handed ∧ s.allocated.handed.Nodup ∧
      SafeStep s .allocate := by
  obtain ⟨hnext, hfresh, slot, _, haddress, havailable⟩ :=
    (h.allocating hphase).allocate h.wf henough
  refine ⟨hnext, List.nodup_cons.mpr ⟨hfresh, h.handed⟩, ?_, hfresh⟩
  rw [haddress]
  exact h.sends.not_mem h.wf havailable

theorem Inv.allocate_step (h : Inv chunks s) (henough : EnoughBuffers s .allocate)
    (hstep : s.exec .allocate = some s') : Inv chunks s' := by
  simp only [exec] at hstep
  split at hstep
  · rename_i hphase
    cases hstep
    obtain ⟨hscan, hnodup, _⟩ := h.allocated (.inl hphase) henough
    refine ⟨h.wf.allocate, h.chunks, h.slots, h.sends, hnodup, ?_⟩
    unfold PhaseInv
    rw [show s.allocated.phase = .application from hphase]
    exact hscan
  · cases hstep

theorem Inv.push_step (h : Inv chunks s) {buffer : Option Nat}
    (hstep : s.exec (.push buffer) = some s') : Inv chunks s' := by
  simp only [exec] at hstep
  split at hstep
  · rename_i hphase
    cases hstep
    refine ⟨h.wf, h.chunks, h.slots, h.sends, h.handed, ?_⟩
    have hscan := h.allocating (.inl hphase)
    unfold PhaseInv
    simp only [hphase]
    exact hscan
  · cases hstep

theorem Inv.sendMessages_step (h : Inv chunks s)
    (hstep : s.exec .sendMessages = some s') : Inv chunks s' := by
  simp only [exec] at hstep
  split at hstep
  · rename_i hphase
    split at hstep
    · cases hstep
      exact h.nextTick
    · cases hstep
      refine ⟨h.wf, h.chunks, h.slots, h.sends, h.handed, ?_⟩
      exact ⟨h.allocating (.inl hphase), Nat.zero_le _, Nat.zero_le _, rfl⟩
  · cases hstep

theorem Inv.reallocate_step (h : Inv chunks s) (henough : EnoughBuffers s .reallocate)
    (hstep : s.exec .reallocate = some s') : Inv chunks s' := by
  simp only [exec] at hstep
  split at hstep
  · rename_i i hphase
    split at hstep
    · rename_i hlt
      cases hstep
      obtain ⟨hscan, hnodup, _⟩ := h.allocated (.inr ⟨i, hphase⟩) henough
      have hinv := h.phase
      unfold PhaseInv at hinv
      rw [hphase] at hinv
      obtain ⟨_, _, hle, htake⟩ := hinv
      refine ⟨h.wf.allocate, h.chunks, h.slots, h.sends, hnodup, hscan, ?_, ?_, ?_⟩
      · show i + 1 ≤ (s.outbox.set i (some s.ring.allocate.2)).length
        rw [List.length_set]
        exact hlt
      · show i + 1 ≤ s.handed.length + 1
        omega
      · show (s.outbox.set i (some s.ring.allocate.2)).take (i + 1) =
          (((s.ring.allocate.2 :: s.handed).take (i + 1)).map some).reverse
        have hset : (s.outbox.set i (some s.ring.allocate.2)).take (i + 1) =
            s.outbox.take i ++ [some s.ring.allocate.2] := by
          rw [List.take_add_one, List.getElem?_set_self hlt, List.take_set_of_le (Nat.le_refl i)]
          rfl
        rw [hset, htake, List.take_succ_cons, List.map_cons, List.reverse_cons]
    · cases hstep
  · cases hstep

/-- At the end of the reallocations every message has its own buffer. -/
theorem Inv.queued (h : Inv chunks s) (hphase : s.phase = .reallocating s.outbox.length) :
    Queued s.ring s.outbox := by
  have hinv := h.phase
  unfold PhaseInv at hinv
  rw [hphase] at hinv
  obtain ⟨hscan, _, _, htake⟩ := hinv
  rw [List.take_length] at htake
  rw [htake]
  exact hscan.queued h.wf

/-- Creating the table changes neither the states nor the addresses. -/
theorem Inv.initializeDirtyBuffers (h : Inv chunks s) (hnull : s.ring.dirtyBuffers = none) :
    Protected s.ring.initializeDirtyBuffers s.outstanding := by
  intro send hsend
  obtain ⟨slot, _, _, _, hrequest⟩ := h.sends send hsend
  -- no entry of a missing table holds a request
  rw [dirtyBuffer, hnull] at hrequest
  simp at hrequest

theorem Inv.cleanDirtyBuffers_step (h : Inv chunks s)
    (hstep : s.exec .cleanDirtyBuffers = some s') : Inv chunks s' := by
  simp only [exec] at hstep
  split at hstep
  · rename_i i hphase
    split at hstep
    · rename_i hready
      cases hstep
      obtain ⟨rfl, _⟩ := hready
      have hqueued := h.queued hphase
      by_cases hnull : s.ring.dirtyBuffers = none
      · rw [if_pos (by rw [hnull]; rfl)]
        have hinit : s.ring.initializeDirtyBuffers.dirtyBuffers ≠ none := by
          simp [RingAllocator.initializeDirtyBuffers]
        refine ⟨h.wf.initializeDirtyBuffers hnull, h.chunks, fun _ => rfl,
          h.initializeDirtyBuffers hnull, h.handed, ?_⟩
        unfold PhaseInv
        simp only
        cases s.ring.initializeDirtyBuffers.mustSweep
        · exact ⟨hinit, hqueued⟩
        · exact ⟨hinit, hqueued⟩
      · rw [if_neg (by simpa using hnull)]
        refine ⟨h.wf, h.chunks, h.slots, h.sends, h.handed, ?_⟩
        unfold PhaseInv
        simp only
        cases s.ring.mustSweep
        · exact ⟨hnull, hqueued⟩
        · exact ⟨hnull, hqueued⟩
    · cases hstep
  · cases hstep

theorem Inv.checkDirtyBuffer_step (h : Inv chunks s) {flag : Bool}
    (hstep : s.exec (.checkDirtyBuffer flag) = some s') : Inv chunks s' := by
  simp only [exec] at hstep
  split at hstep
  · rename_i i hphase
    split at hstep
    · rename_i hguard
      cases hstep
      obtain ⟨hslots, _, htest⟩ := hguard
      have hinv := h.phase
      unfold PhaseInv at hinv
      rw [hphase] at hinv
      obtain ⟨hinit, hqueued⟩ := hinv
      have hlt : i < s.ring.chunks := by
        rw [← h.slots hinit]
        exact hslots
      by_cases hkeep : s.ring.isAvailable i = true ∨ flag = false
      · rw [h.wf.checkDirtyBuffer_keep hlt hkeep]
        exact ⟨h.wf, h.chunks, h.slots, h.sends, h.handed, hinit, hqueued⟩
      · rw [not_or, Bool.not_eq_true, Bool.not_eq_false] at hkeep
        obtain ⟨hdirty, rfl⟩ := hkeep
        have hspec := h.wf.salvage hinit hlt hdirty
        refine ⟨hspec.wf, hspec.chunks.trans h.chunks, fun _ => ?_, ?_, h.handed,
          hspec.initialized, hqueued.salvage hspec⟩
        · show (s.ring.checkDirtyBuffer i true).dirtyBufferSlots = _
          rw [hspec.slots, hspec.chunks]
          exact h.slots hinit
        · refine h.sends.salvage h.wf hspec fun request hrequest hin => ?_
          -- `MPI_Test` does not report done before the send has completed
          simp [mayTest, hrequest] at htest
          obtain ⟨send, hsend, rfl⟩ := List.mem_map.mp hin
          exact htest send.2 hsend
    · cases hstep
  · cases hstep

theorem Inv.endSweep_step (h : Inv chunks s) (hstep : s.exec .endSweep = some s') :
    Inv chunks s' := by
  simp only [exec] at hstep
  split at hstep
  · rename_i i hphase
    split at hstep
    · cases hstep
      have hinv := h.phase
      unfold PhaseInv at hinv
      rw [hphase] at hinv
      exact ⟨h.wf, h.chunks, h.slots, h.sends, h.handed, hinv⟩
    · cases hstep
  · cases hstep

theorem Inv.isend_step (h : Inv chunks s) (hstep : s.exec .isend = some s') :
    Inv chunks s' := by
  simp only [exec] at hstep
  split at hstep
  · rename_i i hphase
    have hinv := h.phase
    unfold PhaseInv at hinv
    rw [hphase] at hinv
    obtain ⟨hinit, hqueued⟩ := hinv
    cases hentry : s.outbox[i]? with
    | none =>
        rw [hentry] at hstep
        cases hstep
    | some entry =>
        obtain ⟨hlt, hget⟩ := List.getElem?_eq_some_iff.mp hentry
        rw [List.drop_eq_getElem_cons hlt, hget] at hqueued
        obtain ⟨slot, hslot, rfl, havailable, hrest⟩ := hqueued.isend
        rw [hentry] at hstep
        cases hstep
        obtain ⟨hspec, hrequest⟩ := isendRing_spec h.wf hinit hslot havailable s.requests
        refine ⟨hspec.wf, hspec.chunks.trans h.chunks, fun _ => ?_, ?_, h.handed,
          hspec.initialized, hrest _ hspec⟩
        · show (isendRing s.ring (s.ring.address slot) s.requests).dirtyBufferSlots = _
          rw [hspec.slots, hspec.chunks]
          exact h.slots hinit
        · intro send hsend
          rcases List.mem_cons.mp hsend with rfl | hold
          · refine ⟨slot, ?_, ?_, ?_, hrequest⟩
            · rw [hspec.chunks]
              exact hslot
            · rw [hspec.address]
            · rw [hspec.available, Function.update_self]
          · refine h.sends.of_others hspec.address hspec.chunks (fun j hj => ?_) hspec.others ?_
              send hold
            · rw [hspec.available, Function.update_of_ne hj]
            · intro other hother heq
              exact h.sends.not_mem h.wf havailable (heq ▸ List.mem_map_of_mem hother)
  · cases hstep

theorem Inv.endTick_step (h : Inv chunks s) (hstep : s.exec .endTick = some s') :
    Inv chunks s' := by
  simp only [exec] at hstep
  split at hstep
  · split at hstep
    · cases hstep
      exact h.nextTick
    · cases hstep
  · cases hstep

theorem Inv.complete_step (h : Inv chunks s) {request : Nat}
    (hstep : s.exec (.complete request) = some s') : Inv chunks s' := by
  simp only [exec, Option.some.injEq] at hstep
  subst hstep
  exact ⟨h.wf, h.chunks, h.slots, fun send hsend => h.sends send (List.mem_of_mem_filter hsend),
    h.handed, h.phase⟩

end OutboxState

/-! ## Runs -/

variable {memory chunks size : Nat}

theorem outboxSystem_inductive (hmemory : 0 < memory) (hchunks : 0 < chunks) (hsize : 0 < size) :
    ((outboxSystem memory chunks size).restrict EnoughBuffers).Inductive
      (OutboxState.Inv chunks) := by
  refine ⟨fun s hs => ?_, fun s step s' h hstep => ?_⟩
  · rw [show s = OutboxState.constructor memory chunks size from hs]
    exact OutboxState.constructor_inv hmemory hchunks hsize
  · obtain ⟨henough, hexec⟩ := hstep
    cases step with
    | allocate => exact h.allocate_step henough hexec
    | push buffer => exact h.push_step hexec
    | sendMessages => exact h.sendMessages_step hexec
    | reallocate => exact h.reallocate_step henough hexec
    | cleanDirtyBuffers => exact h.cleanDirtyBuffers_step hexec
    | checkDirtyBuffer flag => exact h.checkDirtyBuffer_step hexec
    | endSweep => exact h.endSweep_step hexec
    | isend => exact h.isend_step hexec
    | endTick => exact h.endTick_step hexec
    | complete request => exact h.complete_step hexec

/-- A step that is possible and finds enough buffers is safe. -/
theorem OutboxState.Inv.safeStep {s s' : OutboxState} {step : OutboxStep}
    (h : s.Inv chunks) (henough : EnoughBuffers s step) (hstep : s.exec step = some s') :
    SafeStep s step := by
  cases step with
  | allocate =>
      simp only [OutboxState.exec] at hstep
      split at hstep
      · rename_i hphase
        exact (h.allocated (.inl hphase) henough).2.2
      · cases hstep
  | reallocate =>
      simp only [OutboxState.exec] at hstep
      split at hstep
      · rename_i i hphase
        exact (h.allocated (.inr ⟨i, hphase⟩) henough).2.2
      · cases hstep
  | _ => trivial

/-- What holds between two steps. -/
structure OutboxSafe (chunks : Nat) (s : OutboxState) : Prop where
  counts : s.ring.availableBuffers + s.ring.numberOfDirtyBuffers = chunks
  dirty_iff : ∀ slot < chunks, s.ring.bufferStates slot = .dirty ↔
    (s.ring.dirtyBuffer slot).buffer = some (s.ring.address slot)
  /-- the calls to `allocate` of a tick return different buffers -/
  handed : s.handed.Nodup

theorem OutboxState.Inv.safe {s : OutboxState} (h : s.Inv chunks) : OutboxSafe chunks s := by
  have htotal := h.wf.total
  rw [h.chunks] at htotal
  refine ⟨htotal, fun slot hslot => ?_, h.handed⟩
  rw [h.wf.entries slot (h.chunks ▸ hslot)]
  unfold isAvailable
  cases s.ring.bufferStates slot with
  | available => simp
  | dirty => simp

/-- One tick that sends `n` messages without a buffer, none of which completes,
and a tick that sends two. -/
def depletion (n : Nat) : List OutboxStep :=
  List.replicate n (.push none) ++ [.sendMessages] ++ List.replicate n .reallocate ++
    [.cleanDirtyBuffers] ++ List.replicate n .isend ++
    [.endTick, .push none, .push none, .sendMessages, .reallocate, .reallocate]

end RayPlatform
