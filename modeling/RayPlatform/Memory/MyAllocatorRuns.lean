import RayPlatform.Memory.MyAllocator

/-!
# Clients of MyAllocator

The runs of a client that allocates sizes that fit a chunk, frees its blocks with the
sizes it requested, writes to its blocks, and resets or clears the pool.

* `PoolClient.Inv` — live blocks and freed ones are apart, below the frontier, and the
  store is a free list for each size;
* `Inv.allocate`, `Inv.free`, `Inv.write` — one lemma for each call;
* `allocatorSystem_separate` — what holds in every reachable state.
-/

namespace RayPlatform

open Lib (TransitionSystem)
open Lib.FreeList

/-- An allocator and the blocks that its client holds. -/
structure PoolClient where
  allocator : MyAllocator
  live : List (Address × Nat)

inductive PoolCall
  | allocate (s : Nat)
  | free (block : Address × Nat)
  /-- write to the memory of the live blocks -/
  | write (next : Address → Option Address)
  | reset
  | clear

namespace PoolClient

/-- A call to `allocate`: the block returned is live. -/
def allocate (c : PoolClient) (s : Nat) : PoolClient :=
  let r := c.allocator.allocate s
  { allocator := r.1
    live := match r.2 with
      | some p => (p, s) :: c.live
      | none => c.live }

/-- The links that no live block touches are as they were. -/
def MayWrite (c : PoolClient) (next : Address → Option Address) : Prop :=
  ∀ p, (∀ b ∈ c.live, Apart b (p, ReusableMemoryStore.sizeofElement)) →
    next p = c.allocator.next p

end PoolClient

/-- The runs of a client of a pool of chunks of `chunkSize` bytes. -/
def allocatorSystem (chunkSize : Nat) : TransitionSystem PoolClient PoolCall :=
  { init := fun c => ∃ currentPosition currentChunkId next,
      c = ⟨.constructor chunkSize currentPosition currentChunkId next, []⟩
    step := fun c call c' =>
      match call with
      | .allocate s => 1 ≤ s ∧ rounded s ≤ chunkSize ∧ c' = c.allocate s
      | .free b => b ∈ c.live ∧ c' = ⟨c.allocator.free b.1 b.2, c.live.erase b⟩
      | .write next => c.MayWrite next ∧
          c' = { c with allocator := { c.allocator with next := next } }
      | .reset => c' = ⟨c.allocator.reset, []⟩
      | .clear => c' = ⟨c.allocator.clear, []⟩ }

/-! ## The invariant -/

/-- A block that has been cut from a chunk, at a multiple of 8, below the frontier. -/
structure MyAllocator.Carved (a : MyAllocator) (b : Address × Nat) : Prop where
  aligned : b.1.offset % 8 = 0
  inside : b.1.offset + rounded b.2 ≤ a.chunkSize
  chunk : b.1.chunk < a.chunks
  frontier : b.1.chunk < a.currentChunkId ∨
    b.1.chunk = a.currentChunkId ∧ b.1.offset + rounded b.2 ≤ a.currentPosition

/-- The frontier does not move back. -/
theorem MyAllocator.Carved.mono {a a' : MyAllocator} {b : Address × Nat} (h : a.Carved b)
    (hsize : a'.chunkSize = a.chunkSize) (hchunks : a.chunks ≤ a'.chunks)
    (hfrontier : a.currentChunkId < a'.currentChunkId ∨
      a.currentChunkId = a'.currentChunkId ∧ a.currentPosition ≤ a'.currentPosition) :
    a'.Carved b := by
  obtain ⟨haligned, hinside, hchunk, hbehind⟩ := h
  exact ⟨haligned, hsize ▸ hinside, by omega, by omega⟩

/-- Blocks are where they are, whatever happens to the store. -/
theorem MyAllocator.Carved.same {a a' : MyAllocator} {b : Address × Nat} (h : a.Carved b)
    (hsize : a'.chunkSize = a.chunkSize) (hchunks : a'.chunks = a.chunks)
    (hid : a'.currentChunkId = a.currentChunkId)
    (hposition : a'.currentPosition = a.currentPosition) : a'.Carved b :=
  h.mono hsize (by omega) (by omega)

namespace PoolClient

/-- The blocks of the pool: those of the client, and the freed ones of the store. -/
structure Inv (chunkSize : Nat) (c : PoolClient) (freed : List (Address × Nat)) : Prop where
  size : c.allocator.chunkSize = chunkSize
  apart : ((c.live ++ freed).map extent).Pairwise Apart
  carved : ∀ b ∈ c.live ++ freed, c.allocator.Carved b
  requested : ∀ b ∈ c.live, 1 ≤ b.2
  large : ∀ b ∈ freed, ReusableMemoryStore.sizeofElement ≤ b.2
  bins : ∀ k, Chain c.allocator.next (c.allocator.store.toReuse k) (binned k freed)
  current : c.allocator.chunks ≠ 0 → c.allocator.currentChunkId < c.allocator.chunks ∧
    c.allocator.currentPosition ≤ chunkSize ∧ c.allocator.currentPosition % 8 = 0

variable {chunkSize : Nat} {c : PoolClient} {freed : List (Address × Nat)}

/-- An empty store over no blocks. -/
theorem inv_empty {a : MyAllocator} (hsize : a.chunkSize = chunkSize)
    (hstore : a.store = .reset)
    (hcurrent : a.chunks ≠ 0 → a.currentChunkId < a.chunks ∧
      a.currentPosition ≤ chunkSize ∧ a.currentPosition % 8 = 0) : Inv chunkSize ⟨a, []⟩ [] := by
  refine ⟨hsize, List.Pairwise.nil, fun b hb => absurd hb List.not_mem_nil,
    fun b hb => absurd hb List.not_mem_nil, fun b hb => absurd hb List.not_mem_nil,
    fun k => ?_, hcurrent⟩
  rw [hstore]
  rfl

/-- The freed blocks are apart from the live ones. -/
theorem Inv.apart_freed (h : Inv chunkSize c freed) {b f : Address × Nat} (hb : b ∈ c.live)
    (hf : f ∈ freed) : Apart (extent b) (extent f) := by
  have happart := h.apart
  rw [List.map_append, List.pairwise_append] at happart
  exact happart.2.2 _ (List.mem_map_of_mem hb) _ (List.mem_map_of_mem hf)

/-- The blocks of a list that is the same but for the order. -/
theorem apart_of_perm {blocks blocks' : List (Address × Nat)}
    (h : (blocks.map extent).Pairwise Apart)
    (hperm : (blocks.map extent).Perm (blocks'.map extent)) :
    (blocks'.map extent).Pairwise Apart :=
  (hperm.pairwise_iff fun hab => hab.symm).mp h

/-! ## Allocating -/

/-- A block of the store becomes live. -/
theorem Inv.reuse (h : Inv chunkSize c freed) {s r : Nat} {p : Address}
    (hfound : c.allocator.store.toReuse s = some p) (hsize : rounded s = rounded r) (hr : 1 ≤ r) :
    Inv chunkSize ⟨{ c.allocator with
      store := (c.allocator.store.reuseAddress c.allocator.next s).1 }, (p, r) :: c.live⟩
      (freed.erase (p, s)) := by
  have hbin := h.bins s
  rw [hfound] at hbin
  obtain ⟨rest, hrest, hchain⟩ : ∃ rest, binned s freed = p :: rest ∧
      Chain c.allocator.next (c.allocator.next p) rest := by
    cases hlist : binned s freed with
    | nil =>
        rw [hlist] at hbin
        cases hbin
    | cons node rest =>
        rw [hlist] at hbin
        obtain ⟨hnode, hchain⟩ := hbin
        obtain rfl := Option.some.inj hnode
        exact ⟨rest, rfl, hchain⟩
  have hmem : (p, s) ∈ freed := mem_binned.mp (hrest ▸ List.mem_cons_self)
  have hperm : (c.live ++ freed).Perm ((p, s) :: (c.live ++ freed.erase (p, s))) :=
    ((List.perm_cons_erase hmem).append_left c.live).trans List.perm_middle
  have hextent : extent (p, s) = extent (p, r) := by
    rw [extent, extent, hsize]
  refine ⟨h.size, ?_, ?_, ?_, ?_, fun k => ?_, h.current⟩
  · refine apart_of_perm h.apart ?_
    rw [List.cons_append, List.map_cons, ← hextent]
    exact hperm.map extent
  · intro b hb
    rcases List.mem_cons.mp (List.cons_append ▸ hb) with rfl | hb
    · obtain ⟨haligned, hinside, hchunk, hfrontier⟩ :=
        h.carved (p, s) (List.mem_append_right _ hmem)
      simp only [hsize] at hinside hfrontier
      exact ⟨haligned, hinside, hchunk, hfrontier⟩
    · exact (h.carved b (hperm.mem_iff.mpr (List.mem_cons_of_mem _ hb))).same rfl rfl rfl rfl
  · intro b hb
    rcases List.mem_cons.mp hb with rfl | hb
    · exact hr
    · exact h.requested b hb
  · exact fun b hb => h.large b (List.mem_of_mem_erase hb)
  · show Chain c.allocator.next (Function.update c.allocator.store.toReuse s
      ((c.allocator.store.toReuse s).bind c.allocator.next) k) _
    by_cases hk : k = s
    · rw [hk, Function.update_self, hfound, binned_erase_self hrest]
      exact hchain
    · rw [Function.update_of_ne hk, binned_erase_of_ne p (Ne.symm hk)]
      exact h.bins k

/-- A block is cut from the current chunk. -/
theorem Inv.carve (h : Inv chunkSize c freed) (hchunks : c.allocator.chunks ≠ 0) {s r : Nat}
    (hsize : s = rounded r) (hr : 1 ≤ r) (hleft : c.allocator.currentPosition + s ≤ chunkSize) :
    Inv chunkSize ⟨{ c.allocator with currentPosition := c.allocator.currentPosition + s },
      (⟨c.allocator.currentChunkId, c.allocator.currentPosition⟩, r) :: c.live⟩ freed := by
  obtain ⟨hid, hposition, haligned⟩ := h.current hchunks
  have hmod := rounded_mod r
  have hsame := h.size
  refine ⟨h.size, ?_, ?_, ?_, h.large, h.bins, fun _ => ⟨hid, hleft, ?_⟩⟩
  · rw [List.cons_append, List.map_cons, List.pairwise_cons]
    refine ⟨fun e he => ?_, h.apart⟩
    obtain ⟨b, hb, rfl⟩ := List.mem_map.mp he
    have hfrontier := (h.carved b hb).frontier
    unfold Apart extent
    simp only
    omega
  · intro b hb
    rcases List.mem_cons.mp (List.cons_append ▸ hb) with rfl | hb
    · refine ⟨haligned, ?_, hid, .inr ⟨rfl, ?_⟩⟩
      · show c.allocator.currentPosition + rounded r ≤ c.allocator.chunkSize
        omega
      · show c.allocator.currentPosition + rounded r ≤ c.allocator.currentPosition + s
        omega
    · exact (h.carved b hb).mono rfl (Nat.le_refl _) (.inr ⟨rfl, Nat.le_add_right _ _⟩)
  · intro b hb
    rcases List.mem_cons.mp hb with rfl | hb
    · exact hr
    · exact h.requested b hb
  · show (c.allocator.currentPosition + s) % 8 = 0
    omega

/-- The first chunk: there was no block. -/
theorem Inv.addChunk (h : Inv chunkSize c freed) (hchunks : c.allocator.chunks = 0) :
    Inv chunkSize ⟨c.allocator.addChunk, c.live⟩ freed := by
  refine ⟨h.size, h.apart, fun b hb => ?_, h.requested, h.large, h.bins, fun _ => ?_⟩
  · have := (h.carved b hb).chunk
    omega
  · show 0 < c.allocator.chunks + 1 ∧ 0 ≤ chunkSize ∧ 0 % 8 = 0
    omega

theorem Inv.renewChunk (h : Inv chunkSize c freed) (hchunks : c.allocator.chunks ≠ 0) :
    Inv chunkSize ⟨c.allocator.renewChunk, c.live⟩ freed := by
  obtain ⟨hid, -, -⟩ := h.current hchunks
  have hmore : c.allocator.currentChunkId + 1 < c.allocator.renewChunk.chunks ∧
      c.allocator.chunks ≤ c.allocator.renewChunk.chunks := by
    simp only [MyAllocator.renewChunk]
    split <;> omega
  refine ⟨h.size, h.apart, fun b hb => ?_, h.requested, h.large, h.bins, fun _ => ?_⟩
  · exact (h.carved b hb).mono rfl hmore.2 (.inl (Nat.lt_succ_self _))
  · exact ⟨hmore.1, Nat.zero_le _, rfl⟩

/-- A block of the requested size, also when the request is asked again with its rounded
size. -/
theorem Inv.allocate_some (h : Inv chunkSize c freed) {s r : Nat} (hsize : rounded s = rounded r)
    (hr : 1 ≤ r) (hfit : rounded r ≤ chunkSize) :
    ∃ a p freed', c.allocator.allocate s = (a, some p) ∧
      Inv chunkSize ⟨a, (p, r) :: c.live⟩ freed' := by
  induction hposition : c.allocator.currentPosition using Nat.strongRecOn
    generalizing c s with
  | ind position ih =>
      rw [MyAllocator.allocate]
      cases hfound : c.allocator.store.toReuse s with
      | some p =>
          rw [if_pos (by simp [ReusableMemoryStore.hasAddressesToReuse, hfound])]
          exact ⟨_, p, _, by simp only [ReusableMemoryStore.reuseAddress, hfound],
            h.reuse hfound hsize hr⟩
      | none =>
          rw [if_neg (by simp [ReusableMemoryStore.hasAddressesToReuse, hfound])]
          -- the pool with its first chunk
          obtain ⟨hinv, hchunks, hle⟩ : Inv chunkSize
              ⟨if c.allocator.chunks = 0 then c.allocator.addChunk else c.allocator, c.live⟩ freed ∧
              (if c.allocator.chunks = 0 then c.allocator.addChunk else c.allocator).chunks ≠ 0 ∧
              (if c.allocator.chunks = 0 then c.allocator.addChunk
                else c.allocator).currentPosition ≤ position := by
            split
            · rename_i hnone
              exact ⟨h.addChunk hnone, Nat.succ_ne_zero _, Nat.zero_le _⟩
            · rename_i hsome
              exact ⟨h, hsome, Nat.le_of_eq hposition⟩
          generalize (if c.allocator.chunks = 0 then c.allocator.addChunk else c.allocator) = a
            at hinv hchunks hle ⊢
          have hchunkSize : a.chunkSize = chunkSize := hinv.size
          simp only
          rw [hsize, if_neg (by omega)]
          by_cases hleft : (a.chunkSize : Int) - a.currentPosition < rounded r
          · rw [if_pos hleft]
            exact ih 0 (by omega) (hinv.renewChunk hchunks) (rounded_rounded r) rfl
          · rw [if_neg hleft]
            exact ⟨_, _, freed, rfl, hinv.carve hchunks rfl hr (by
              show a.currentPosition + rounded r ≤ chunkSize
              omega)⟩

/-! ## Freeing and writing -/

theorem Inv.ne_of_freed (h : Inv chunkSize c freed) {b : Address × Nat} (hb : b ∈ c.live)
    {p : Address} {k : Nat} (hp : (p, k) ∈ freed) : p ≠ b.1 := by
  have hlive := le_rounded b.2
  have hpos := h.requested b hb
  have hlarge : 8 ≤ k := h.large (p, k) hp
  have hk := le_rounded k
  have hfreed : 0 < rounded k := by omega
  have hblock : 0 < rounded b.2 := by omega
  exact ((h.apart_freed hb hp).ne hblock hfreed).symm

/-- A block that is too small for a link is lost to the pool. -/
theorem Inv.drop (h : Inv chunkSize c freed) (b : Address × Nat) :
    Inv chunkSize ⟨c.allocator, c.live.erase b⟩ freed := by
  have hsub : (c.live.erase b ++ freed).Sublist (c.live ++ freed) :=
    List.erase_sublist.append_right freed
  refine ⟨h.size, h.apart.sublist (hsub.map extent), fun f hf => ?_, fun f hf => ?_, h.large,
    h.bins, h.current⟩
  · exact (h.carved f (hsub.subset hf)).same rfl rfl rfl rfl
  · exact h.requested f (List.mem_of_mem_erase hf)

/-- A live block becomes the first one of its size in the store. -/
theorem Inv.push (h : Inv chunkSize c freed) {b : Address × Nat} (hb : b ∈ c.live)
    (hlarge : ReusableMemoryStore.sizeofElement ≤ b.2) :
    Inv chunkSize ⟨{ c.allocator with
      store := { toReuse := Function.update c.allocator.store.toReuse b.2 (some b.1) }
      next := Function.update c.allocator.next b.1 (c.allocator.store.toReuse b.2) },
      c.live.erase b⟩ (b :: freed) := by
  have hperm : (c.live ++ freed).Perm (c.live.erase b ++ b :: freed) :=
    ((List.perm_cons_erase hb).append_right freed).trans List.perm_middle.symm
  refine ⟨h.size, apart_of_perm h.apart (hperm.map extent), fun f hf => ?_, fun f hf => ?_,
    fun f hf => ?_, fun k => ?_, h.current⟩
  · exact (h.carved f (hperm.mem_iff.mpr hf)).same rfl rfl rfl rfl
  · exact h.requested f (List.mem_of_mem_erase hf)
  · rcases List.mem_cons.mp hf with rfl | hf
    · exact hlarge
    · exact h.large f hf
  · show Chain (Function.update c.allocator.next b.1 (c.allocator.store.toReuse b.2))
      (Function.update c.allocator.store.toReuse b.2 (some b.1) k) _
    by_cases hk : b.2 = k
    · subst hk
      rw [Function.update_self, binned_cons_self b.1 b.2 freed]
      exact (h.bins b.2).push fun hnode => h.ne_of_freed hb (mem_binned.mp hnode) rfl
    · rw [Function.update_of_ne (Ne.symm hk), binned_cons_of_ne b.1 hk freed]
      refine (h.bins k).congr fun node hnode => Function.update_of_ne ?_ _ _
      exact h.ne_of_freed hb (mem_binned.mp hnode)

theorem Inv.free (h : Inv chunkSize c freed) {b : Address × Nat} (hb : b ∈ c.live) :
    ∃ freed', Inv chunkSize ⟨c.allocator.free b.1 b.2, c.live.erase b⟩ freed' := by
  by_cases hsmall : b.2 < ReusableMemoryStore.sizeofElement
  · refine ⟨freed, ?_⟩
    rw [MyAllocator.free, ReusableMemoryStore.addAddressToReuse, if_pos hsmall]
    exact h.drop b
  · refine ⟨b :: freed, ?_⟩
    rw [MyAllocator.free, ReusableMemoryStore.addAddressToReuse, if_neg hsmall]
    exact h.push hb (Nat.le_of_not_lt hsmall)

/-- What the client writes in its blocks leaves the links of the freed ones. -/
theorem Inv.write (h : Inv chunkSize c freed) {next : Address → Option Address}
    (hwrite : c.MayWrite next) :
    Inv chunkSize { c with allocator := { c.allocator with next := next } } freed := by
  refine ⟨h.size, h.apart, fun b hb => ?_, h.requested, h.large, fun k => ?_, h.current⟩
  · exact (h.carved b hb).same rfl rfl rfl rfl
  · refine (h.bins k).congr fun node hnode => hwrite node fun b hb => ?_
    have hfreed := mem_binned.mp hnode
    have hlarge : ReusableMemoryStore.sizeofElement ≤ k := h.large _ hfreed
    exact (h.apart_freed hb hfreed).mono (le_rounded b.2) (Nat.le_trans hlarge (le_rounded k))

/-! ## Runs -/

theorem inv_inductive (chunkSize : Nat) :
    (allocatorSystem chunkSize).Inductive fun c => ∃ freed, Inv chunkSize c freed := by
  refine ⟨?_, ?_⟩
  · rintro c ⟨currentPosition, currentChunkId, next, rfl⟩
    exact ⟨[], inv_empty rfl rfl fun hchunks => absurd rfl hchunks⟩
  · rintro c call c' ⟨freed, h⟩ hstep
    cases call with
    | allocate s =>
        obtain ⟨hs, hfit, rfl⟩ := hstep
        obtain ⟨a, p, freed', hcall, hinv⟩ := h.allocate_some rfl hs hfit
        refine ⟨freed', ?_⟩
        rw [PoolClient.allocate, hcall]
        exact hinv
    | free b =>
        obtain ⟨hb, rfl⟩ := hstep
        exact h.free hb
    | write next =>
        obtain ⟨hwrite, rfl⟩ := hstep
        exact ⟨freed, h.write hwrite⟩
    | reset =>
        obtain rfl := hstep
        refine ⟨[], inv_empty h.size rfl fun hchunks => ?_⟩
        exact ⟨Nat.pos_of_ne_zero hchunks, Nat.zero_le _, rfl⟩
    | clear =>
        obtain rfl := hstep
        exact ⟨[], inv_empty h.size rfl fun hchunks => absurd rfl hchunks⟩

/-- What a client relies on. -/
structure Separate (chunkSize : Nat) (c : PoolClient) : Prop where
  /-- the live blocks, with the sizes they were requested with, have no byte in common -/
  disjoint : c.live.Pairwise Apart
  /-- each is in one chunk -/
  inside : ∀ b ∈ c.live, b.1.chunk < c.allocator.chunks ∧ b.1.offset + b.2 ≤ chunkSize
  aligned : ∀ b ∈ c.live, b.1.offset % 8 = 0
  /-- a request that fits is served -/
  served : ∀ s, 1 ≤ s → rounded s ≤ chunkSize → (c.allocator.allocate s).2.isSome

theorem Inv.separate (h : Inv chunkSize c freed) : Separate chunkSize c := by
  refine ⟨?_, fun b hb => ?_, fun b hb => ?_, fun s hs hfit => ?_⟩
  · have happart := h.apart
    rw [List.map_append, List.pairwise_append, List.pairwise_map] at happart
    exact happart.1.imp fun hab => hab.mono (le_rounded _) (le_rounded _)
  · have hcarved := h.carved b (List.mem_append_left _ hb)
    have hinside := hcarved.inside
    have hsize := h.size
    have hle := le_rounded b.2
    exact ⟨hcarved.chunk, by omega⟩
  · exact (h.carved b (List.mem_append_left _ hb)).aligned
  · obtain ⟨a, p, freed', hcall, -⟩ := h.allocate_some rfl hs hfit
    rw [hcall]
    rfl

/-- In every run the live blocks are apart, inside their chunks and aligned, the recycled
ones too. -/
theorem allocatorSystem_separate (chunkSize : Nat) (c : PoolClient)
    (hreach : (allocatorSystem chunkSize).Reachable c) : Separate chunkSize c := by
  obtain ⟨freed, h⟩ := (inv_inductive chunkSize).holds hreach
  exact h.separate

theorem allocatorSystem_separate_recycled :
    let start : PoolClient := ⟨.constructor 64 0 0 fun _ => none, []⟩
    let two := (start.allocate 8).allocate 5
    let one : PoolClient := ⟨two.allocator.free ⟨0, 0⟩ 8, two.live.erase (⟨0, 0⟩, 8)⟩
    Separate 64 (one.allocate 8) := by
  intro start two one
  have hstart : (allocatorSystem 64).Reachable start :=
    .init ⟨0, 0, fun _ => none, rfl⟩
  have hfirst : (allocatorSystem 64).Reachable (start.allocate 8) :=
    .step (l := .allocate 8) hstart ⟨by decide, by decide, rfl⟩
  have hsecond : (allocatorSystem 64).Reachable two :=
    .step (l := .allocate 5) hfirst ⟨by decide, by decide, rfl⟩
  have hmem : ((⟨0, 0⟩, 8) : Address × Nat) ∈ two.live := by
    simp [two, start, PoolClient.allocate, MyAllocator.allocate, MyAllocator.constructor,
      MyAllocator.addChunk, ReusableMemoryStore.hasAddressesToReuse, ReusableMemoryStore.reset,
      rounded, roundNumber]
  have hfree : (allocatorSystem 64).Reachable one :=
    .step (l := .free (⟨0, 0⟩, 8)) hsecond ⟨hmem, rfl⟩
  exact allocatorSystem_separate 64 _
    (.step (l := .allocate 8) hfree ⟨by decide, by decide, rfl⟩)

end PoolClient

end RayPlatform
