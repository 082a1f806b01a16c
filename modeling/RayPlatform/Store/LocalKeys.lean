import Mathlib.Data.List.Pairwise
import RayPlatform.Memory.MyAllocatorRuns
import RayPlatform.Store.KeyValueStoreHandlers

/-!
# The local keys of KeyValueStore

`insertLocalKey`, `getLocalKey` and `removeLocalKey` against a map from strings. The first
two see a key up to its first NUL, the third sees all of it.

* `mapCall` — what a map does;
* `localSystem` — the runs of a caller whose values are in blocks of the pool;
* `agrees_iff` — a call does what the map does exactly when its key is a C string, or when
  it does not matter;
* `localSystem_mapLike` — the runs all of whose keys are so.
-/

namespace RayPlatform

open Lib (TransitionSystem)

/-- A value is inserted with its length. -/
inductive KeyCall
  | insertLocalKey (key value : List UInt8)
  | getLocalKey (key : List UInt8)
  | removeLocalKey (key : List UInt8)

def KeyCall.key : KeyCall → List UInt8
  | .insertLocalKey key _ => key
  | .getLocalKey key => key
  | .removeLocalKey key => key

inductive KeyAnswer
  | done (ok : Bool)
  /-- the value and its length, where the key is found -/
  | found (value : Option (Option (List UInt8) × Nat))

/-- A call, with what it returns. -/
def KeyValueStore.call (store : KeyValueStore) : KeyCall → KeyValueStore × KeyAnswer
  | .insertLocalKey key value =>
      let r := store.insertLocalKey key (some value) value.length
      (r.1, .done r.2)
  | .getLocalKey key => (store, .found (store.getLocalKey key))
  | .removeLocalKey key => (store.removeLocalKey key, .done true)

/-- The same call on a map. -/
def mapCall (map : List UInt8 → Option (List UInt8)) :
    KeyCall → (List UInt8 → Option (List UInt8)) × KeyAnswer
  | .insertLocalKey key value =>
      match map key with
      | some _ => (map, .done false)
      | none => (Function.update map key (some value), .done true)
  | .getLocalKey key => (map, .found ((map key).map fun value => (some value, value.length)))
  | .removeLocalKey key => (Function.update map key none, .done true)

/-- The items of the store are those of the map. -/
def KeyValueStore.Represents (store : KeyValueStore) (map : List UInt8 → Option (List UInt8)) :
    Prop :=
  ∀ key, store.items key = (map key).map fun value => .constructor (some value) value.length

/-! ## One call -/

/-- A call answers as the map does, and leaves what the map leaves. -/
def Agrees (store : KeyValueStore) (map : List UInt8 → Option (List UInt8)) (call : KeyCall) :
    Prop :=
  (store.call call).2 = (mapCall map call).2 ∧ (store.call call).1.Represents (mapCall map call).1

/-- The key has no NUL, or a value is looked up where there is none. -/
def KeyCall.Meets (store : KeyValueStore) : KeyCall → Prop
  | .insertLocalKey key _ => 0 ∉ key
  | .getLocalKey key => 0 ∉ key ∨ store.items (cString key) = none
  | .removeLocalKey _ => True

theorem cString_eq_self {key : List UInt8} (h : 0 ∉ key) : cString key = key := by
  refine List.takeWhile_eq_self_iff.mpr fun byte hbyte => ?_
  rw [bne_iff_ne]
  rintro rfl
  exact h hbyte

theorem zero_notMem_cString (key : List UInt8) : 0 ∉ cString key :=
  fun h => cString_ne_zero h rfl

theorem getStringKey_of_le {key : List UInt8} (h : key.length ≤ 255) :
    KeyValueStore.getStringKey key = some (cString key) :=
  if_neg (by omega)

variable {store : KeyValueStore} {map : List UInt8 → Option (List UInt8)} {key : List UInt8}

theorem KeyValueStore.Represents.insertLocalKey (h : store.Represents map)
    (hlength : key.length ≤ 255) (value : List UInt8) :
    store.insertLocalKey key (some value) value.length =
      match map (cString key) with
      | some _ => (store, false)
      | none => (store.set (cString key) (.constructor (some value) value.length), true) := by
  simp only [KeyValueStore.insertLocalKey, getStringKey_of_le hlength, h (cString key)]
  cases map (cString key) <;> rfl

theorem KeyValueStore.Represents.getLocalKey (h : store.Represents map)
    (hlength : key.length ≤ 255) :
    store.getLocalKey key =
      (map (cString key)).map fun value => (some value, value.length) := by
  simp only [KeyValueStore.getLocalKey, getStringKey_of_le hlength, h (cString key)]
  cases map (cString key) <;> rfl

theorem items_removeLocalKey_eq (store : KeyValueStore) (key : List UInt8) :
    (store.removeLocalKey key).items = Function.update store.items key none := by
  unfold KeyValueStore.removeLocalKey
  split
  · next hitem => rw [← hitem, Function.update_eq_self]
  · rfl

theorem KeyValueStore.Represents.update (h : store.Represents map) (key value : List UInt8) :
    (store.set key (.constructor (some value) value.length)).Represents
      (Function.update map key (some value)) := by
  intro other
  show Function.update store.items key _ other = _
  by_cases hne : other = key
  · rw [hne, Function.update_self, Function.update_self]
    rfl
  · rw [Function.update_of_ne hne, Function.update_of_ne hne]
    exact h other

theorem KeyValueStore.Represents.erase (h : store.Represents map) (key : List UInt8) :
    (store.removeLocalKey key).Represents (Function.update map key none) := by
  intro other
  rw [items_removeLocalKey_eq]
  by_cases hne : other = key
  · rw [hne, Function.update_self, Function.update_self]
    rfl
  · rw [Function.update_of_ne hne, Function.update_of_ne hne]
    exact h other

/-- With keys that are C strings in the map, a call does what the map does if and only if it
meets the condition. -/
theorem agrees_iff (h : store.Represents map) (hclean : ∀ key, 0 ∈ key → map key = none)
    {call : KeyCall} (hlength : call.key.length ≤ 255) :
    Agrees store map call ↔ call.Meets store := by
  cases call with
  | insertLocalKey key value =>
      replace hlength : key.length ≤ 255 := hlength
      constructor
      · -- the map has the key afterwards, the store can only have what is before the NUL
        rintro ⟨-, hrepresents⟩ hnul
        have hne : key ≠ cString key := fun heq => zero_notMem_cString key (heq ▸ hnul)
        have hnow := hrepresents key
        rw [KeyValueStore.call, h.insertLocalKey hlength] at hnow
        have hsame : store.items key = none := by
          rw [h key, hclean key hnul]
          rfl
        have hitems : ∀ item, (store.set (cString key) item).items key = none := fun item =>
          (Function.update_of_ne hne _ _).trans hsame
        simp only [mapCall, hclean key hnul, Function.update_self] at hnow
        cases hfound : map (cString key) with
        | none =>
            simp only [hfound, hitems] at hnow
            cases hnow
        | some other =>
            simp only [hfound, hsame] at hnow
            cases hnow
      · intro hmeets
        rw [Agrees, KeyValueStore.call, h.insertLocalKey hlength, cString_eq_self hmeets, mapCall]
        cases map key with
        | none => exact ⟨rfl, h.update key value⟩
        | some other => exact ⟨rfl, h⟩
  | getLocalKey key =>
      replace hlength : key.length ≤ 255 := hlength
      rw [Agrees, KeyValueStore.call, h.getLocalKey hlength, mapCall, KeyCall.Meets]
      by_cases hnul : 0 ∈ key
      · rw [hclean key hnul, h (cString key)]
        cases map (cString key) with
        | none => simp [h]
        | some other => simp [hnul]
      · simp [cString_eq_self hnul, hnul, h]
  | removeLocalKey key =>
      exact ⟨fun _ => trivial, fun _ => ⟨rfl, h.erase key⟩⟩

/-- Keys that agree up to a NUL are one key for the store, which then cannot be removed. -/
theorem localKeys_merged :
    let store := (KeyValueStore.empty.insertLocalKey [97, 0, 98] (some [1]) 1).1
    store.getLocalKey [97, 0, 99] = some (some [1], 1) ∧
      (store.removeLocalKey [97, 0, 98]).getLocalKey [97, 0, 98] = some (some [1], 1) :=
  ⟨rfl, rfl⟩

/-! ## Runs -/

/-- A store, the map that it should be, and the memory of the values. -/
structure LocalClient where
  store : KeyValueStore
  map : List UInt8 → Option (List UInt8)
  pool : PoolClient
  /-- where the value of an item is -/
  block : List UInt8 → Address

inductive LocalStep
  | allocateMemory (bytes : Nat)
  /-- write to the memory of the values -/
  | write (next : Address → Option Address)
  /-- a call, with the address of the value that is inserted -/
  | call (call : KeyCall) (address : Address)

namespace LocalClient

/-- The pool after `removeLocalKey`, which frees the value that it finds. -/
def freeValue (c : LocalClient) (key : List UInt8) : PoolClient :=
  match c.store.items key with
  | none => c.pool
  | some item =>
      { allocator := c.pool.allocator.free (c.block key) item.valueSize
        live := c.pool.live.erase (c.block key, item.valueSize) }

def call (c : LocalClient) (call : KeyCall) (address : Address) : LocalClient :=
  { store := (c.store.call call).1
    map := (mapCall c.map call).1
    pool := match call with
      | .removeLocalKey key => c.freeValue key
      | _ => c.pool
    block := match call with
      | .insertLocalKey key value =>
          if (c.store.insertLocalKey key (some value) value.length).2 then
            Function.update c.block (cString key) address
          else c.block
      | _ => c.block }

/-- Keys have at most 255 bytes; a value is inserted in a block of its size that is not the
one of another value. -/
def Permitted (c : LocalClient) (call : KeyCall) (address : Address) : Prop :=
  call.key.length ≤ 255 ∧
    match call with
    | .insertLocalKey _ value => (address, value.length) ∈ c.pool.live ∧
        ∀ key, c.store.items key ≠ none → c.block key ≠ address
    | _ => True

end LocalClient

/-- The runs of a caller of the local keys of a rank. -/
def localSystem : TransitionSystem LocalClient LocalStep :=
  { init := fun c => ∃ pool block, (allocatorSystem 33554432).init pool ∧
      c = ⟨.empty, fun _ => none, pool, block⟩
    step := fun c step c' =>
      match step with
      | .allocateMemory bytes => 1 ≤ bytes ∧ rounded bytes ≤ 33554432 ∧
          c' = { c with pool := c.pool.allocate bytes }
      | .write next => c.pool.MayWrite next ∧
          c' = { c with pool := { c.pool with
            allocator := { c.pool.allocator with next := next } } }
      | .call call address => c.Permitted call address ∧ c' = c.call call address }

/-- The steps whose key meets the condition. -/
def MeetsKeys (c : LocalClient) : LocalStep → Prop
  | .call call _ => call.Meets c.store
  | _ => True

/-- The store is the map, for the calls that meet the condition and for no others, and the
values of different keys have no byte in common. -/
structure MapLike (c : LocalClient) : Prop where
  calls : ∀ call : KeyCall, call.key.length ≤ 255 →
    (Agrees c.store c.map call ↔ call.Meets c.store)
  live : ∀ key value, c.map key = some value → (c.block key, value.length) ∈ c.pool.live
  apart : ∀ key key' value value', c.map key = some value → c.map key' = some value' →
    key ≠ key' → Apart (c.block key, value.length) (c.block key', value'.length)

namespace LocalClient

structure Inv (c : LocalClient) : Prop where
  represents : c.store.Represents c.map
  clean : ∀ key, 0 ∈ key → c.map key = none
  pool : (allocatorSystem 33554432).Reachable c.pool
  live : ∀ key value, c.map key = some value → (c.block key, value.length) ∈ c.pool.live
  distinct : ∀ key key', c.map key ≠ none → c.map key' ≠ none → key ≠ key' →
    c.block key ≠ c.block key'

variable {c : LocalClient}

/-- More live blocks in the pool. -/
theorem Inv.mono (h : Inv c) {pool : PoolClient} (hpool : (allocatorSystem 33554432).Reachable pool)
    (hlive : ∀ b ∈ c.pool.live, b ∈ pool.live) : Inv { c with pool := pool } :=
  ⟨h.represents, h.clean, hpool, fun key value hkey => hlive _ (h.live key value hkey),
    h.distinct⟩

theorem mem_live_allocate {pool : PoolClient} {b : Address × Nat} (hb : b ∈ pool.live)
    (bytes : Nat) : b ∈ (pool.allocate bytes).live := by
  simp only [PoolClient.allocate]
  split
  · exact List.mem_cons_of_mem _ hb
  · exact hb

/-- A new key, with a value in a block that no other value has. -/
theorem Inv.insertNew (h : Inv c) {key value : List UInt8} {address : Address} (hkey : 0 ∉ key)
    (hblock : (address, value.length) ∈ c.pool.live)
    (hfree : ∀ other, c.map other ≠ none → c.block other ≠ address) :
    Inv { c with
      store := c.store.set key (.constructor (some value) value.length)
      map := Function.update c.map key (some value)
      block := Function.update c.block key address } := by
  refine ⟨h.represents.update key value, fun other hother => ?_, h.pool,
    fun other v hother => ?_, fun other other' hother hother' hdiff => ?_⟩
  · have hne : other ≠ key := by
      rintro rfl
      exact hkey hother
    exact (Function.update_of_ne hne _ _).trans (h.clean other hother)
  · simp only at hother ⊢
    by_cases hsame : other = key
    · rw [hsame, Function.update_self] at hother
      rw [hsame, Function.update_self, ← Option.some.inj hother]
      exact hblock
    · rw [Function.update_of_ne hsame] at hother ⊢
      exact h.live other v hother
  · simp only at hother hother' ⊢
    by_cases hsame : other = key
    · have hsame' : other' ≠ key := fun heq => hdiff (hsame.trans heq.symm)
      rw [Function.update_of_ne hsame'] at hother'
      rw [hsame, Function.update_self, Function.update_of_ne hsame']
      exact (hfree other' hother').symm
    · rw [Function.update_of_ne hsame] at hother
      rw [Function.update_of_ne hsame]
      by_cases hsame' : other' = key
      · rw [hsame', Function.update_self]
        exact hfree other hother
      · rw [Function.update_of_ne hsame'] at hother' ⊢
        exact h.distinct other other' hother hother' hdiff

theorem Inv.insertLocalKey (h : Inv c) {key value : List UInt8} {address : Address}
    (hkey : 0 ∉ key) (hpermitted : c.Permitted (.insertLocalKey key value) address) :
    Inv (c.call (.insertLocalKey key value) address) := by
  obtain ⟨hlength, hblock, hfree⟩ := hpermitted
  replace hlength : key.length ≤ 255 := hlength
  have hinsert := h.represents.insertLocalKey hlength value
  rw [cString_eq_self hkey] at hinsert
  simp only [LocalClient.call, KeyValueStore.call, mapCall, hinsert, cString_eq_self hkey]
  cases hfound : c.map key with
  | some other => exact h
  | none =>
      refine h.insertNew hkey hblock fun other hother => hfree other ?_
      rw [h.represents other]
      simpa using hother

theorem Inv.removeLocalKey (h : Inv c) (key : List UInt8) (address : Address) :
    Inv (c.call (.removeLocalKey key) address) := by
  have hrest : ∀ other, Function.update c.map key none other ≠ none →
      other ≠ key ∧ c.map other ≠ none := by
    intro other hother
    by_cases hsame : other = key
    · rw [hsame, Function.update_self] at hother
      exact absurd rfl hother
    · rw [Function.update_of_ne hsame] at hother
      exact ⟨hsame, hother⟩
  have hpool : (allocatorSystem 33554432).Reachable (c.freeValue key) ∧
      ∀ other v, other ≠ key → c.map other = some v →
        (c.block other, v.length) ∈ (c.freeValue key).live := by
    unfold freeValue
    rw [h.represents key]
    cases hfound : c.map key with
    | none => exact ⟨h.pool, fun other v _ hother => h.live other v hother⟩
    | some value =>
        refine ⟨.step (l := .free (c.block key, value.length)) h.pool
          ⟨h.live key value hfound, rfl⟩, fun other v hne hother => ?_⟩
        refine (List.mem_erase_of_ne fun heq => ?_).mpr (h.live other v hother)
        exact h.distinct other key (by simp [hother]) (by simp [hfound]) hne
          (congrArg Prod.fst heq)
  refine ⟨h.represents.erase key, fun other hother => ?_, hpool.1, fun other v hother => ?_,
    fun other other' hother hother' hdiff => ?_⟩
  · show Function.update c.map key none other = none
    by_cases hsame : other = key
    · rw [hsame, Function.update_self]
    · rw [Function.update_of_ne hsame]
      exact h.clean other hother
  · have hother' : Function.update c.map key none other = some v := hother
    obtain ⟨hne, -⟩ := hrest other (by simp [hother'])
    rw [Function.update_of_ne hne] at hother'
    exact hpool.2 other v hne hother'
  · exact h.distinct other other' (hrest other hother).2 (hrest other' hother').2 hdiff

theorem inv_inductive : (localSystem.restrict MeetsKeys).Inductive Inv := by
  refine ⟨?_, ?_⟩
  · rintro c ⟨pool, block, hpool, rfl⟩
    refine ⟨fun _ => rfl, fun _ _ => rfl, .init hpool, fun key value hkey => ?_,
      fun key key' hkey => absurd rfl hkey⟩
    cases hkey
  · rintro c step c' h ⟨hmeets, hstep⟩
    cases step with
    | allocateMemory bytes =>
        obtain ⟨hbytes, hfit, rfl⟩ := hstep
        exact h.mono (.step (l := .allocate bytes) h.pool ⟨hbytes, hfit, rfl⟩)
          fun b hb => mem_live_allocate hb bytes
    | write next =>
        obtain ⟨hwrite, rfl⟩ := hstep
        exact h.mono (.step (l := .write next) h.pool ⟨hwrite, rfl⟩) fun b hb => hb
    | call call address =>
        obtain ⟨hpermitted, rfl⟩ := hstep
        cases call with
        | insertLocalKey key value => exact h.insertLocalKey hmeets hpermitted
        | getLocalKey key => exact h
        | removeLocalKey key => exact h.removeLocalKey key address

/-- Blocks of a reachable pool that are at different addresses are apart. -/
theorem apart_of_live {pool : PoolClient} (hpool : (allocatorSystem 33554432).Reachable pool)
    {b b' : Address × Nat} (hb : b ∈ pool.live) (hb' : b' ∈ pool.live) (hne : b.1 ≠ b'.1) :
    Apart b b' := by
  obtain ⟨freed, hinv⟩ := (PoolClient.inv_inductive 33554432).holds hpool
  have hsymm : Std.Symm Apart := ⟨fun _ _ hab => hab.symm⟩
  exact hinv.separate.disjoint.forall hb hb' fun heq => hne (congrArg Prod.fst heq)

end LocalClient

/-- In every run whose keys meet the condition, the local keys are a map, as long as the keys
go on to meet it. -/
theorem localSystem_mapLike (c : LocalClient)
    (hreach : (localSystem.restrict MeetsKeys).Reachable c) : MapLike c := by
  have h := LocalClient.inv_inductive.holds hreach
  refine ⟨fun call hlength => agrees_iff h.represents h.clean hlength, h.live, ?_⟩
  intro key key' value value' hkey hkey' hne
  exact LocalClient.apart_of_live h.pool (h.live key value hkey) (h.live key' value' hkey')
    (h.distinct key key' (by simp [hkey]) (by simp [hkey']) hne)

theorem localSystem_mapLike_inserted :
    let start : LocalClient := ⟨.empty, fun _ => none,
      ⟨.constructor 33554432 0 0 fun _ => none, []⟩, fun _ => ⟨0, 0⟩⟩
    let allocated : LocalClient := { start with pool := start.pool.allocate 8 }
    MapLike (allocated.call (.insertLocalKey [97] [1, 2, 3, 4, 5, 6, 7, 8]) ⟨0, 0⟩) := by
  intro start allocated
  have hstart : (localSystem.restrict MeetsKeys).Reachable start :=
    .init ⟨_, _, ⟨0, 0, fun _ => none, rfl⟩, rfl⟩
  have hallocated : (localSystem.restrict MeetsKeys).Reachable allocated :=
    .step (l := .allocateMemory 8) hstart ⟨trivial, by decide, by decide, rfl⟩
  have hmem : ((⟨0, 0⟩, 8) : Address × Nat) ∈ allocated.pool.live := by
    simp [allocated, start, PoolClient.allocate, MyAllocator.allocate, MyAllocator.constructor,
      MyAllocator.addChunk, ReusableMemoryStore.hasAddressesToReuse, ReusableMemoryStore.reset,
      rounded]
  have hkey : (0 : UInt8) ∉ ([97] : List UInt8) := by decide
  exact localSystem_mapLike _
    (.step (l := .call (.insertLocalKey [97] [1, 2, 3, 4, 5, 6, 7, 8]) ⟨0, 0⟩) hallocated
      ⟨hkey, ⟨by decide, hmem, fun key hstored => absurd rfl hstored⟩, rfl⟩)

end RayPlatform
