import Mathlib.Data.Finset.Card
import RayPlatform.Lib.TransitionSystem
import RayPlatform.Structures.SplayTreeSplay

/-!
# SplayTree is a finite map

Each operation of the tree against a map from keys to nodes with their values: the
results are those of the map, and the nodes of the tree are its entries
(`Represents.exec`). A run may use any addresses that the nodes of the tree do not have.
-/

namespace RayPlatform

open Lib (LinkedTree)
open SplayTree (Entry Ordered)

variable {ι κ ν : Type} [DecidableEq ι] [LinearOrder κ]

inductive SplayOperation (ι κ ν : Type)
  /-- the allocator gives an address, where the memory holds a value -/
  | insert (key : κ) (address : ι) (value : ν)
  | remove (key : κ)
  | find (key : κ) (frozen : Bool)
  /-- the client writes to the value of a node -/
  | setValue (address : ι) (value : ν)

inductive SplayResult (ι : Type)
  | inserted (node : ι) (inserted : Bool)
  | removed (removed : Bool)
  | found (node : Option ι)
  | written
  deriving DecidableEq

def SplayTree.exec (tree : SplayTree ι κ ν) (fuel : Nat) :
    SplayOperation ι κ ν → Option (SplayTree ι κ ν × SplayResult ι)
  | .insert key address value =>
      (tree.insert fuel key address value).map fun (tree, node, inserted) =>
        (tree, .inserted node inserted)
  | .remove key => (tree.remove fuel key).map fun (tree, removed) => (tree, .removed removed)
  | .find key frozen => (tree.find fuel key frozen).map fun (tree, node) => (tree, .found node)
  | .setValue address value => some (tree.setValue address value, .written)

/-! ## The map -/

/-- What the tree is for: each key that is present has a node and a value. -/
abbrev NodeMap (ι κ ν : Type) := κ → Option (ι × ν)

namespace NodeMap

/-- The allocator gives memory that no node has, and clients write to nodes. -/
def Allowed (m : NodeMap ι κ ν) : SplayOperation ι κ ν → Prop
  | .insert key address _ => m key = none → ∀ k v, m k ≠ some (address, v)
  | .remove _ | .find _ _ => True
  | .setValue address _ => ∃ k v, m k = some (address, v)

def result (m : NodeMap ι κ ν) : SplayOperation ι κ ν → SplayResult ι
  | .insert key address _ =>
      match m key with
      | some (node, _) => .inserted node false
      | none => .inserted address true
  | .remove key => .removed (m key).isSome
  | .find key _ => .found ((m key).map Prod.fst)
  | .setValue _ _ => .written

def after (m : NodeMap ι κ ν) : SplayOperation ι κ ν → NodeMap ι κ ν
  | .insert key address value =>
      match m key with
      | some _ => m
      | none => Function.update m key (some (address, value))
  | .remove key => Function.update m key none
  | .find _ _ => m
  | .setValue address value => fun k =>
      (m k).map fun e => if e.1 = address then (address, value) else e

end NodeMap

namespace SplayTree

/-- The nodes of the tree are the entries of the map. -/
def Entries (m : NodeMap ι κ ν) (list : List (Entry ι κ ν)) : Prop :=
  ∀ k a v, m k = some (a, v) ↔ (a, (k, v)) ∈ list

structure Represents (tree : SplayTree ι κ ν) (m : NodeMap ι κ ν)
    (t : LinkedTree ι (κ × ν)) : Prop extends Holds tree t where
  size : tree.size = t.toList.length
  entries : Entries m t.toList

variable {tree : SplayTree ι κ ν} {m : NodeMap ι κ ν} {t : LinkedTree ι (κ × ν)}
  {list : List (Entry ι κ ν)} {key : κ}

omit [DecidableEq ι] [LinearOrder κ] in
theorem Entries.eq_none (h : Entries m list) (hkey : ∀ e ∈ list, Entry.key e ≠ key) :
    m key = none := by
  cases hm : m key with
  | none => rfl
  | some e => exact absurd rfl (hkey _ ((h key e.1 e.2).mp hm))

omit [DecidableEq ι] in
/-- The root after `splay` decides whether the key is present. -/
theorem Entries.root {a : ι} {item : κ × ν} {left right : LinkedTree ι (κ × ν)}
    (h : Entries m (LinkedTree.node a item left right).toList)
    (hleft : ∀ e ∈ left.toList, Entry.key e < key)
    (hright : ∀ e ∈ right.toList, key < Entry.key e) :
    m key = if item.1 = key then some (a, item.2) else none := by
  split
  · next heq =>
      subst heq
      exact (h item.1 a item.2).mpr (by simp [LinkedTree.toList])
  · next hne =>
      refine h.eq_none fun e he => ?_
      simp only [LinkedTree.toList, List.mem_append, List.mem_cons] at he
      rcases he with he | rfl | he
      · exact ne_of_lt (hleft e he)
      · exact hne
      · exact ne_of_gt (hright e he)

omit [DecidableEq ι] [LinearOrder κ] in
/-- A new node has an address of its own. -/
theorem Entries.fresh (h : Entries m list) {address : ι} (hfresh : ∀ k v, m k ≠ some (address, v)) :
    address ∉ list.map Prod.fst := by
  intro hmem
  obtain ⟨⟨a, k, v⟩, he, rfl⟩ := List.mem_map.mp hmem
  exact hfresh k v ((h k a v).mpr he)

/-! ## find -/

omit [DecidableEq ι] in
theorem findBinary_spec {memory : ι → SplayNode ι κ ν} (hstored : t.Stored (cells memory))
    (horder : Ordered t.toList) {fuel : Nat} (hfuel : t.toList.length ≤ fuel) (key : κ) :
    ∃ node, findBinary memory key fuel t.pointer = some node ∧
      (∀ a, node = some a → ∃ v, (a, (key, v)) ∈ t.toList) ∧
      (node = none → ∀ e ∈ t.toList, Entry.key e ≠ key) := by
  induction t generalizing fuel with
  | nil =>
      refine ⟨none, by cases fuel <;> rfl, fun a ha => (by cases ha), fun _ e he => ?_⟩
      cases he
  | node a item left right ihleft ihright =>
      obtain ⟨hcell, hleft, hright⟩ := hstored
      obtain ⟨⟨hordered, hordered'⟩, ⟨hbefore, hafter⟩, -⟩ := ordered_node.mp horder
      have hkey : (memory a).key = item.1 := congrArg (·.item.1) hcell
      have hlinkLeft : (memory a).left = left.pointer := congrArg Lib.Cell.left hcell
      have hlinkRight : (memory a).right = right.pointer := congrArg Lib.Cell.right hcell
      simp only [LinkedTree.toList, List.length_append, List.length_cons] at hfuel
      obtain ⟨fuel, rfl⟩ : ∃ n, fuel = n + 1 := ⟨fuel - 1, by omega⟩
      simp only [LinkedTree.pointer, findBinary, hkey, LinkedTree.toList, List.mem_append,
        List.mem_cons]
      rcases lt_trichotomy key item.1 with hlt | rfl | hgt
      · rw [if_neg (ne_of_gt hlt), if_pos hlt, hlinkLeft]
        obtain ⟨node, hfind, hsome, hnone⟩ :=
          ihleft hleft hordered (show left.toList.length ≤ fuel by omega)
        refine ⟨node, hfind, fun b hb => (hsome b hb).imp fun _ => .inl, fun hb e he => ?_⟩
        rcases he with he | rfl | he
        · exact hnone hb e he
        · exact ne_of_gt hlt
        · exact ne_of_gt (lt_trans hlt (hafter e he))
      · rw [if_pos rfl]
        refine ⟨some a, rfl, fun b hb => ?_, fun hb => by cases hb⟩
        cases hb
        exact ⟨item.2, .inr (.inl rfl)⟩
      · rw [if_neg (ne_of_lt hgt), if_neg (not_lt_of_gt hgt), hlinkRight]
        obtain ⟨node, hfind, hsome, hnone⟩ :=
          ihright hright hordered' (show right.toList.length ≤ fuel by omega)
        refine ⟨node, hfind, fun b hb => (hsome b hb).imp fun _ h => .inr (.inr h),
          fun hb e he => ?_⟩
        rcases he with he | rfl | he
        · exact ne_of_lt (lt_trans (hbefore e he) hgt)
        · exact ne_of_lt hgt
        · exact hnone hb e he

theorem Represents.splay (h : Represents tree m t) (hroot : tree.root ≠ none) {fuel : Nat}
    (hfuel : t.toList.length ≤ fuel) (key : κ) :
    ∃ tree' a item left right, tree.splay fuel key = some tree' ∧
      Represents tree' m (.node a item left right) ∧
      (LinkedTree.node a item left right).toList = t.toList ∧
      ((∀ e ∈ left.toList, Entry.key e < key) ∧ ∀ e ∈ right.toList, key < Entry.key e) ∧
      m key = if item.1 = key then some (a, item.2) else none := by
  obtain ⟨tree', a, item, left, right, hsplay, hholds, hlist, hbefore, hafter, hsize, -⟩ :=
    h.toHolds.splay hroot hfuel key
  have hentries : Entries m (LinkedTree.node a item left right).toList := by
    rw [hlist]
    exact h.entries
  exact ⟨tree', a, item, left, right, hsplay,
    ⟨hholds, by rw [hsize, h.size, hlist], hentries⟩, hlist, ⟨hbefore, hafter⟩,
    hentries.root hbefore hafter⟩

omit [DecidableEq ι] in
/-- What is at the root. -/
theorem Holds.read {a : ι} {item : κ × ν} {left right : LinkedTree ι (κ × ν)}
    (h : Holds tree (.node a item left right)) :
    tree.root = some a ∧ (tree.memory a).key = item.1 ∧ (tree.memory a).left = left.pointer ∧
      (tree.memory a).right = right.pointer :=
  ⟨h.root.symm, congrArg (·.item.1) h.stored.1, congrArg Lib.Cell.left h.stored.1,
    congrArg Lib.Cell.right h.stored.1⟩

omit [DecidableEq ι] in
theorem Represents.empty (h : Represents tree m t) (hroot : tree.root = none) :
    t = .nil ∧ ∀ k, m k = none := by
  have hnil : t = .nil := LinkedTree.pointer_eq_none.mp (h.root.trans hroot)
  subst hnil
  exact ⟨rfl, fun k => h.entries.eq_none fun e he => nomatch he⟩

/-- With frozen or without, the node of the key is found. -/
theorem Represents.find (h : Represents tree m t) {fuel : Nat} (hfuel : t.toList.length ≤ fuel)
    (key : κ) (frozen : Bool) :
    ∃ tree' t', tree.find fuel key frozen = some (tree', (m key).map Prod.fst) ∧
      Represents tree' m t' := by
  unfold SplayTree.find
  cases frozen with
  | true =>
      obtain ⟨node, hfind, hsome, hnone⟩ := findBinary_spec h.stored h.ordered hfuel key
      refine ⟨tree, t, ?_, h⟩
      rw [if_pos rfl, ← h.root, hfind, Option.map_some]
      cases node with
      | none => rw [h.entries.eq_none (hnone rfl), Option.map_none]
      | some a =>
          obtain ⟨v, hv⟩ := hsome a rfl
          rw [(h.entries key a v).mpr hv, Option.map_some]
  | false =>
      rw [if_neg (by decide)]
      cases hroot : tree.root with
      | none =>
          refine ⟨tree, t, ?_, h⟩
          rw [(h.empty hroot).2 key]
          rfl
      | some root =>
          obtain ⟨tree', a, item, left, right, hsplay, hrep, -, -, hkey⟩ :=
            h.splay (by rw [hroot]; exact Option.some_ne_none _) hfuel key
          obtain ⟨hroot', hread, -⟩ := hrep.read
          refine ⟨tree', _, ?_, hrep⟩
          simp only [hsplay, hroot', hread, Option.bind_eq_bind, Option.bind_some, hkey]
          by_cases heq : item.1 = key
          · simp [heq]
          · simp [heq]

/-! ## insert -/

omit [DecidableEq ι] in
/-- A node is added between the keys before and after it. -/
theorem Entries.insert {before after : List (Entry ι κ ν)} {address : ι} {value : ν}
    (h : Entries m (before ++ after)) (habsent : m key = none) :
    Entries (Function.update m key (some (address, value)))
      (before ++ (address, (key, value)) :: after) := by
  intro k a v
  by_cases hk : k = key
  · subst hk
    have hnot : ∀ a v, (a, (k, v)) ∉ before ++ after := fun a v hmem => by
      rw [← h k a v, habsent] at hmem
      cases hmem
    simp only [Function.update_self, Option.some.injEq, Prod.mk.injEq, List.mem_append,
      List.mem_cons] at hnot ⊢
    constructor
    · rintro ⟨rfl, rfl⟩
      exact .inr (.inl ⟨rfl, trivial, rfl⟩)
    · rintro (hmem | ⟨rfl, -, rfl⟩ | hmem)
      · exact absurd (.inl hmem) (hnot a v)
      · exact ⟨rfl, rfl⟩
      · exact absurd (.inr hmem) (hnot a v)
  · rw [Function.update_of_ne hk, h k a v]
    simp only [List.mem_append, List.mem_cons, Prod.mk.injEq]
    tauto

omit [DecidableEq ι] in
/-- Below a new node, a memory has the two parts of the tree it was put into. -/
theorem Represents.insertNode {address a : ι} {value : ν} {item : κ × ν} {size : Nat}
    {left right left' right' : LinkedTree ι (κ × ν)} {memory : ι → SplayNode ι κ ν}
    (h : Represents tree m (.node a item left right)) (habsent : m key = none)
    (hfresh : address ∉ (LinkedTree.node a item left right).addresses)
    (hsize : size = (LinkedTree.node a item left right).toList.length)
    (hcell : cells memory address = ⟨(key, value), left'.pointer, right'.pointer⟩)
    (hleft : left'.Stored (cells memory)) (hright : right'.Stored (cells memory))
    (hparts : left'.toList ++ right'.toList = (LinkedTree.node a item left right).toList)
    (hbefore : ∀ e ∈ left'.toList, Entry.key e < key)
    (hafter : ∀ e ∈ right'.toList, key < Entry.key e) :
    Represents ⟨memory, some address, size + 1⟩
      (Function.update m key (some (address, value)))
      (.node address (key, value) left' right') := by
  have horder := h.ordered
  rw [← hparts] at horder
  have hkeys := horder.keys
  have hnodup := horder.addresses
  rw [List.pairwise_append] at hkeys
  rw [List.map_append, List.nodup_append] at hnodup
  rw [LinkedTree.addresses, ← hparts, List.map_append, List.mem_append, not_or] at hfresh
  refine ⟨⟨⟨hcell, hleft, hright⟩, rfl, ordered_node.mpr ⟨⟨⟨hkeys.1, hnodup.1⟩, hkeys.2.1,
    hnodup.2.1⟩, ⟨hbefore, hafter⟩, hfresh.1, hfresh.2, fun b hb hmem => ?_⟩⟩, ?_, ?_⟩
  · exact hnodup.2.2 b hb b hmem rfl
  · rw [hsize, ← hparts, LinkedTree.toList]
    simp only [List.length_append, List.length_cons]
    omega
  · exact Entries.insert (by rw [hparts]; exact h.entries) habsent

section

variable {tree' : SplayTree ι κ ν} {a root address : ι} {item : κ × ν}
  {left right : LinkedTree ι (κ × ν)} {fuel : Nat}

/-- A new node above a root whose key is smaller. -/
theorem Represents.insertAfter (hroot : tree.root = some root)
    (hsplay : tree.splay fuel key = some tree')
    (h : Represents tree' m (.node a item left right)) (habsent : m key = none)
    (hfree : address ∉ (LinkedTree.node a item left right).addresses) (hgt : item.1 < key)
    (hbefore : ∀ e ∈ left.toList, Entry.key e < key)
    (hafter : ∀ e ∈ right.toList, key < Entry.key e) (value : ν) :
    ∃ tree'', tree.insert fuel key address value = some (tree'', address, true) ∧
      Represents tree'' (Function.update m key (some (address, value)))
        (.node address (key, value) (.node a item left .nil) right) := by
  obtain ⟨hroot', hread, hreadLeft, hreadRight⟩ := h.read
  obtain ⟨-, -, hout, hout', -⟩ := ordered_node.mp h.ordered
  obtain ⟨hcell, hleft, hright⟩ := h.stored
  have hfree' : address ∉ left.addresses ∧ address ≠ a ∧ address ∉ right.addresses := by
    simpa using hfree
  have hne := hfree'.2.1
  let start := Function.update tree'.memory address ⟨key, value, none, none⟩
  have hstart : start a = tree'.memory a := Function.update_of_ne hne.symm _ _
  let memory := setRight (setLeft (setRight start address (start a).right) address (some a)) a none
  have hkeep : ∀ b, b ≠ address → b ≠ a → cells memory b = cells tree'.memory b :=
    fun b hb hb' => cells_congr (by simp [memory, setLeft, setRight, start, hb, hb'])
  have hnew : cells memory address = ⟨(key, value), some a, right.pointer⟩ := by
    simp [memory, cells, setLeft, setRight, start, hne, hne.symm, hreadRight]
  have hmoved : cells memory a = ⟨item, left.pointer, none⟩ := by
    have hright' : cells memory a = Lib.Side.left.setHole (cells tree'.memory a) none := by
      simp [memory, cells, setLeft, setRight, start, hne.symm, Lib.Side.setHole]
    rw [hright', hcell]
    rfl
  refine ⟨⟨memory, some address, tree'.size + 1⟩, ?_,
    h.insertNode habsent hfree h.size hnew ⟨hmoved, ?_, trivial⟩ ?_ ?_ ?_ hafter⟩
  · unfold SplayTree.insert
    simp only [hroot, hsplay, hroot', hread, Option.bind_eq_bind, Option.bind_some,
      if_neg (ne_of_lt hgt)]
    rw [if_neg (by rw [show (Function.update tree'.memory address _ a).key = _ from
      (congrArg SplayNode.key hstart).trans hread]; exact not_lt_of_gt hgt)]
  · exact hleft.congr fun b hb => hkeep b (fun h => hfree'.1 (h ▸ hb)) fun h => hout (h ▸ hb)
  · exact hright.congr fun b hb => hkeep b (fun h => hfree'.2.2 (h ▸ hb)) fun h => hout' (h ▸ hb)
  · simp [LinkedTree.toList]
  · intro e he
    simp only [LinkedTree.toList, List.mem_append, List.mem_singleton] at he
    rcases he with he | rfl
    · exact hbefore e he
    · exact hgt

/-- A new node above a root whose key is larger. -/
theorem Represents.insertBefore (hroot : tree.root = some root)
    (hsplay : tree.splay fuel key = some tree')
    (h : Represents tree' m (.node a item left right)) (habsent : m key = none)
    (hfree : address ∉ (LinkedTree.node a item left right).addresses) (hlt : key < item.1)
    (hbefore : ∀ e ∈ left.toList, Entry.key e < key)
    (hafter : ∀ e ∈ right.toList, key < Entry.key e) (value : ν) :
    ∃ tree'', tree.insert fuel key address value = some (tree'', address, true) ∧
      Represents tree'' (Function.update m key (some (address, value)))
        (.node address (key, value) left (.node a item .nil right)) := by
  obtain ⟨hroot', hread, hreadLeft, hreadRight⟩ := h.read
  obtain ⟨-, -, hout, hout', -⟩ := ordered_node.mp h.ordered
  obtain ⟨hcell, hleft, hright⟩ := h.stored
  have hfree' : address ∉ left.addresses ∧ address ≠ a ∧ address ∉ right.addresses := by
    simpa using hfree
  have hne := hfree'.2.1
  let start := Function.update tree'.memory address ⟨key, value, none, none⟩
  have hstart : start a = tree'.memory a := Function.update_of_ne hne.symm _ _
  let memory := setLeft (setRight (setLeft start address (start a).left) address (some a)) a none
  have hkeep : ∀ b, b ≠ address → b ≠ a → cells memory b = cells tree'.memory b :=
    fun b hb hb' => cells_congr (by simp [memory, setLeft, setRight, start, hb, hb'])
  have hnew : cells memory address = ⟨(key, value), left.pointer, some a⟩ := by
    simp [memory, cells, setLeft, setRight, start, hne, hne.symm, hreadLeft]
  have hmoved : cells memory a = ⟨item, none, right.pointer⟩ := by
    have hleft' : cells memory a = Lib.Side.right.setHole (cells tree'.memory a) none := by
      simp [memory, cells, setLeft, setRight, start, hne.symm, Lib.Side.setHole]
    rw [hleft', hcell]
    rfl
  refine ⟨⟨memory, some address, tree'.size + 1⟩, ?_,
    h.insertNode habsent hfree h.size hnew ?_ ⟨hmoved, trivial, ?_⟩ ?_ hbefore ?_⟩
  · unfold SplayTree.insert
    simp only [hroot, hsplay, hroot', hread, Option.bind_eq_bind, Option.bind_some,
      if_neg (ne_of_gt hlt)]
    rw [if_pos (by rw [show (Function.update tree'.memory address _ a).key = _ from
      (congrArg SplayNode.key hstart).trans hread]; exact hlt)]
  · exact hleft.congr fun b hb => hkeep b (fun h => hfree'.1 (h ▸ hb)) fun h => hout (h ▸ hb)
  · exact hright.congr fun b hb => hkeep b (fun h => hfree'.2.2 (h ▸ hb)) fun h => hout' (h ▸ hb)
  · simp [LinkedTree.toList]
  · intro e he
    simp only [LinkedTree.toList, List.nil_append, List.mem_cons] at he
    rcases he with rfl | he
    · exact hlt
    · exact hafter e he

end

/-- The first node. -/
theorem Represents.insertFirst (h : Represents tree m t) (hroot : tree.root = none) (fuel : Nat)
    (key : κ) (address : ι) (value : ν) :
    ∃ tree', tree.insert fuel key address value = some (tree', address, true) ∧
      Represents tree' (Function.update m key (some (address, value)))
        (.node address (key, value) .nil .nil) := by
  obtain ⟨rfl, hnone⟩ := h.empty hroot
  unfold SplayTree.insert
  rw [hroot]
  refine ⟨_, rfl, ⟨⟨?_, trivial, trivial⟩, rfl, ordered_node.mpr ?_⟩, ?_, ?_⟩
  · simp [cells, LinkedTree.pointer]
  · exact ⟨⟨⟨.nil, .nil⟩, .nil, .nil⟩,
      ⟨fun e he => absurd he List.not_mem_nil, fun e he => absurd he List.not_mem_nil⟩,
      by simp, by simp, fun b hb => absurd hb List.not_mem_nil⟩
  · rw [h.size]
    rfl
  · exact Entries.insert (show Entries m ([] ++ []) from h.entries) (hnone key)

/-- A key that is absent gets the new node, and a present one keeps its own. -/
theorem Represents.insert (h : Represents tree m t) {fuel : Nat} (hfuel : t.toList.length ≤ fuel)
    {address : ι} (hfresh : m key = none → ∀ k v, m k ≠ some (address, v)) (value : ν) :
    ∃ tree' t' node inserted, tree.insert fuel key address value = some (tree', node, inserted) ∧
      SplayResult.inserted node inserted = m.result (.insert key address value) ∧
      Represents tree' (m.after (.insert key address value)) t' := by
  unfold NodeMap.result NodeMap.after
  cases hroot : tree.root with
  | none =>
      obtain ⟨tree', hinsert, hrep⟩ := h.insertFirst hroot fuel key address value
      simp only [(h.empty hroot).2 key]
      exact ⟨tree', _, _, _, hinsert, rfl, hrep⟩
  | some root =>
      obtain ⟨tree', a, item, left, right, hsplay, hrep, -, ⟨hbefore, hafter⟩, hkey⟩ :=
        h.splay (by rw [hroot]; exact Option.some_ne_none _) hfuel key
      by_cases heq : item.1 = key
      · obtain ⟨hroot', hread, -⟩ := hrep.read
        rw [if_pos heq] at hkey
        unfold SplayTree.insert
        simp only [hroot, hsplay, hroot', hread, Option.bind_eq_bind, Option.bind_some, if_pos heq,
          hkey]
        exact ⟨_, _, _, _, rfl, rfl, hrep⟩
      · rw [if_neg heq] at hkey
        have hfree := hrep.entries.fresh (hfresh hkey)
        simp only [hkey]
        rcases lt_or_gt_of_ne heq with hgt | hlt
        · obtain ⟨tree'', hinsert, hrep'⟩ :=
            hrep.insertAfter hroot hsplay hkey hfree hgt hbefore hafter value
          exact ⟨tree'', _, _, _, hinsert, rfl, hrep'⟩
        · obtain ⟨tree'', hinsert, hrep'⟩ :=
            hrep.insertBefore hroot hsplay hkey hfree hlt hbefore hafter value
          exact ⟨tree'', _, _, _, hinsert, rfl, hrep'⟩

/-! ## remove -/

omit [DecidableEq ι] in
theorem maxNode_spec {memory : ι → SplayNode ι κ ν} (hstored : t.Stored (cells memory))
    (horder : Ordered t.toList) {fuel : Nat} (hfuel : t.toList.length ≤ fuel) {p : ι}
    (hp : t.pointer = some p) :
    ∃ b, maxNode memory fuel p = some b ∧ ∀ e ∈ t.toList, Entry.key e ≤ (memory b).key := by
  induction t generalizing fuel p with
  | nil => cases hp
  | node a item left right ihleft ihright =>
      cases hp
      obtain ⟨hcell, hleft, hright⟩ := hstored
      obtain ⟨⟨hordered, hordered'⟩, ⟨hbefore, hafter⟩, -⟩ := ordered_node.mp horder
      have hkey : (memory a).key = item.1 := congrArg (·.item.1) hcell
      have hlink : (memory a).right = right.pointer := congrArg Lib.Cell.right hcell
      simp only [LinkedTree.toList, List.length_append, List.length_cons] at hfuel
      obtain ⟨fuel, rfl⟩ : ∃ n, fuel = n + 1 := ⟨fuel - 1, by omega⟩
      simp only [maxNode, hlink, LinkedTree.toList, List.mem_append, List.mem_cons]
      cases right with
      | nil =>
          refine ⟨a, rfl, fun e he => ?_⟩
          rw [hkey]
          rcases he with he | rfl | he
          · exact le_of_lt (hbefore e he)
          · exact le_refl _
          · cases he
      | node c item' inner outer =>
          obtain ⟨b, hmax, hle⟩ := ihright hright hordered'
            (show (LinkedTree.node c item' inner outer).toList.length ≤ fuel by omega) rfl
          refine ⟨b, hmax, fun e he => ?_⟩
          have hmem : (c, item') ∈ (LinkedTree.node c item' inner outer).toList := by
            simp [LinkedTree.toList]
          have hlast : item.1 < (memory b).key := lt_of_lt_of_le (hafter _ hmem) (hle _ hmem)
          rcases he with he | rfl | he
          · exact le_of_lt (lt_trans (hbefore e he) hlast)
          · exact le_of_lt hlast
          · exact hle e he

omit [DecidableEq ι] in
theorem Entries.remove {before after : List (Entry ι κ ν)} {a : ι} {v : ν}
    (h : Entries m (before ++ (a, (key, v)) :: after)) (hbefore : ∀ e ∈ before, Entry.key e < key)
    (hafter : ∀ e ∈ after, key < Entry.key e) :
    Entries (Function.update m key none) (before ++ after) := by
  intro k b w
  by_cases hk : k = key
  · subst hk
    rw [Function.update_self]
    refine ⟨fun hnone => (nomatch hnone), fun hmem => ?_⟩
    rcases List.mem_append.mp hmem with hmem | hmem
    · exact absurd (hbefore _ hmem) (lt_irrefl _)
    · exact absurd (hafter _ hmem) (lt_irrefl _)
  · rw [Function.update_of_ne hk, h k b w]
    simp [hk]

omit [DecidableEq ι] in
theorem Ordered.sublist {list' : List (Entry ι κ ν)} (h : Ordered list)
    (hsub : list'.Sublist list) : Ordered list' :=
  ⟨h.keys.sublist hsub, h.addresses.sublist (hsub.map _)⟩

/-- The subtrees of a root that is removed are joined: the last node of the left one has no
right child once it is its root. -/
theorem Holds.join {a : ι} {item : κ × ν} {left right : LinkedTree ι (κ × ν)}
    (h : Holds tree (.node a item left right)) {p : ι} (hp : left.pointer = some p) {fuel : Nat}
    (hfuel : left.toList.length ≤ fuel) :
    ∃ (last root : ι) (tree' : SplayTree ι κ ν) (t' : LinkedTree ι (κ × ν)),
      maxNode tree.memory fuel p = some last ∧
      SplayTree.splay { tree with root := some p } fuel (tree.memory last).key = some tree' ∧
      tree'.root = some root ∧ tree'.size = tree.size ∧
      t'.Stored (cells (setRight tree'.memory root right.pointer)) ∧ t'.pointer = some root ∧
      t'.toList = left.toList ++ right.toList := by
  obtain ⟨⟨hordered, -⟩, -, hout, hout', hapart⟩ := ordered_node.mp h.ordered
  obtain ⟨-, hleft, hright⟩ := h.stored
  obtain ⟨last, hmax, hle⟩ := maxNode_spec hleft hordered hfuel hp
  have hholds : Holds { tree with root := some p } left := ⟨hleft, hp, hordered⟩
  obtain ⟨tree', root, item', inner, outer, hsplay, hsplayed, hlist, -, hafter, hsize, hframe⟩ :=
    hholds.splay (Option.some_ne_none p) hfuel (tree.memory last).key
  -- nothing is after the last node
  have hnone : outer = .nil := by
    cases outer with
    | nil => rfl
    | node b item'' l r =>
        have hmem : (b, item'') ∈ (LinkedTree.node b item'' l r).toList := by
          simp [LinkedTree.toList]
        have hmem' : (b, item'') ∈ left.toList := by
          rw [← hlist, LinkedTree.toList]
          exact List.mem_append_right _ (List.mem_cons_of_mem _ hmem)
        exact absurd (hafter _ hmem) (not_lt_of_ge (hle _ hmem'))
  subst hnone
  obtain ⟨hcell, hinner, -⟩ := hsplayed.stored
  obtain ⟨-, -, hroot, -⟩ := ordered_node.mp hsplayed.ordered
  have hmem : root ∈ left.addresses := by
    rw [LinkedTree.addresses, ← hlist]
    simp [LinkedTree.toList]
  have hright' : right.Stored (cells tree'.memory) := hright.congr fun b hb =>
    cells_congr (hframe b fun hmem => hapart b hmem hb)
  refine ⟨last, root, tree', .node root item' inner right, hmax, hsplay, hsplayed.read.1, hsize,
    ?_, rfl, ?_⟩
  · rw [cells_setRight]
    refine ⟨?_, hinner.update hroot _, hright'.update (hapart root hmem) _⟩
    rw [Function.update_self, hcell]
    rfl
  · rw [← hlist]
    simp [LinkedTree.toList]

theorem Represents.remove (h : Represents tree m t) {fuel : Nat} (hfuel : t.toList.length ≤ fuel)
    (key : κ) :
    ∃ tree' t', tree.remove fuel key = some (tree', (m key).isSome) ∧
      Represents tree' (Function.update m key none) t' := by
  have hkeep : m key = none → Function.update m key none = m := fun hnone => by
    rw [← hnone]
    exact Function.update_eq_self key m
  unfold SplayTree.remove
  cases hroot : tree.root with
  | none =>
      have hnone := (h.empty hroot).2 key
      refine ⟨tree, t, ?_, ?_⟩
      · rw [hnone]
        rfl
      · rw [hkeep hnone]
        exact h
  | some root =>
      obtain ⟨tree', a, item, left, right, hsplay, hrep, hlist, ⟨hbefore, hafter⟩, hkey⟩ :=
        h.splay (by rw [hroot]; exact Option.some_ne_none _) hfuel key
      obtain ⟨hroot', hread, hreadLeft, hreadRight⟩ := hrep.read
      simp only [hsplay, hroot', hread, Option.bind_eq_bind, Option.bind_some]
      by_cases heq : item.1 = key
      · subst heq
        rw [if_pos rfl] at hkey
        rw [if_neg (by simp), hreadLeft, hreadRight, hkey]
        have hentries : Entries (Function.update m item.1 none) (left.toList ++ right.toList) :=
          Entries.remove hrep.entries hbefore hafter
        have hsub : (left.toList ++ right.toList).Sublist
            (LinkedTree.node a item left right).toList :=
          (List.Sublist.refl _).append (List.sublist_cons_self _ _)
        have hsize : tree'.size - 1 = (left.toList ++ right.toList).length := by
          rw [hrep.size, LinkedTree.toList]
          simp
        cases hleft : left.pointer with
        | none =>
            obtain rfl := LinkedTree.pointer_eq_none.mp hleft
            exact ⟨_, right, rfl, ⟨⟨hrep.stored.2.2, rfl, hrep.ordered.sublist hsub⟩, hsize,
              hentries⟩⟩
        | some p =>
            have hfuel' : left.toList.length ≤ fuel := by
              rw [← hlist, LinkedTree.toList, List.length_append] at hfuel
              omega
            obtain ⟨last, root, tree'', t', hmax, hsplay', hroot'', hsize', hstored, hpointer,
              hjoined⟩ := hrep.toHolds.join hleft hfuel'
            simp only [hmax, hsplay', hroot'', Option.bind_some]
            refine ⟨_, t', rfl, ⟨⟨hstored, ?_, ?_⟩, ?_, ?_⟩⟩
            · exact hpointer
            · rw [hjoined]
              exact hrep.ordered.sublist hsub
            · rw [hjoined, ← hsize, ← hsize']
            · rw [hjoined]
              exact hentries
      · rw [if_neg heq] at hkey
        rw [if_pos heq, hkey, hkeep hkey]
        exact ⟨tree', _, rfl, hrep⟩

/-! ## Writes to values -/

omit [LinearOrder κ] in
theorem cells_setValue (tree : SplayTree ι κ ν) (address : ι) (value : ν) :
    cells (tree.setValue address value).memory = fun a =>
      { cells tree.memory a with
        item := if a = address then ((cells tree.memory a).item.1, value)
          else (cells tree.memory a).item } := by
  funext a
  by_cases ha : a = address
  · subst ha
    simp [cells, setValue]
  · simp [cells, setValue, ha]

theorem Represents.setValue (h : Represents tree m t) (address : ι) (value : ν) :
    ∃ t', Represents (tree.setValue address value) (m.after (.setValue address value)) t' := by
  let f (a : ι) (item : κ × ν) : κ × ν := if a = address then (item.1, value) else item
  have hlist := LinkedTree.toList_mapItems f t
  have hkey : ∀ e : Entry ι κ ν, Entry.key (e.1, f e.1 e.2) = e.key := fun e => by
    simp only [Entry.key, f]
    split <;> rfl
  refine ⟨t.mapItems f, ⟨⟨?_, ?_, ⟨?_, ?_⟩⟩, ?_, ?_⟩⟩
  · rw [cells_setValue]
    exact h.stored.mapItems f
  · rw [LinkedTree.pointer_mapItems]
    exact h.root
  · rw [hlist, List.pairwise_map]
    refine h.ordered.keys.imp fun hlt => ?_
    rw [hkey, hkey]
    exact hlt
  · rw [hlist, List.map_map]
    exact h.ordered.addresses
  · rw [hlist, List.length_map]
    exact h.size
  · intro k a v
    rw [hlist]
    simp only [NodeMap.after, List.mem_map, Option.map_eq_some_iff]
    constructor
    · rintro ⟨⟨b, w⟩, hm, heq⟩
      refine ⟨(b, (k, w)), (h.entries k b w).mp hm, ?_⟩
      simp only [f]
      split at heq
      · next hb =>
          cases heq
          obtain rfl : b = address := hb
          rw [if_pos rfl]
      · next hb =>
          cases heq
          rw [if_neg hb]
    · rintro ⟨⟨b, k', w⟩, hmem, heq⟩
      simp only [f, Prod.mk.injEq] at heq
      obtain ⟨rfl, heq⟩ := heq
      split at heq
      · next hb =>
          cases heq
          exact ⟨(b, w), (h.entries k b w).mpr hmem, by rw [if_pos hb, hb]⟩
      · next hb =>
          cases heq
          exact ⟨(b, v), (h.entries k b v).mpr hmem, by rw [if_neg hb]⟩

/-- Every operation returns what the map has, and leaves the nodes of the map after it. -/
theorem Represents.exec (h : Represents tree m t) {operation : SplayOperation ι κ ν}
    (hallowed : m.Allowed operation) {fuel : Nat} (hfuel : tree.size ≤ fuel) :
    ∃ tree' t', tree.exec fuel operation = some (tree', m.result operation) ∧
      Represents tree' (m.after operation) t' := by
  rw [h.size] at hfuel
  cases operation with
  | insert key address value =>
      obtain ⟨tree', t', node, inserted, hinsert, hresult, hrep⟩ := h.insert hfuel hallowed value
      refine ⟨tree', t', ?_, hrep⟩
      rw [SplayTree.exec, hinsert, Option.map_some, ← hresult]
  | remove key =>
      obtain ⟨tree', t', hremove, hrep⟩ := h.remove hfuel key
      refine ⟨tree', t', ?_, hrep⟩
      rw [SplayTree.exec, hremove]
      rfl
  | find key frozen =>
      obtain ⟨tree', t', hfind, hrep⟩ := h.find hfuel key frozen
      refine ⟨tree', t', ?_, hrep⟩
      rw [SplayTree.exec, hfind]
      rfl
  | setValue address value =>
      obtain ⟨t', hrep⟩ := h.setValue address value
      exact ⟨_, t', rfl, hrep⟩

end SplayTree

/-! ## Runs -/

/-- A tree and the map of what was done to it. -/
structure SplayRun (ι κ ν : Type) where
  tree : SplayTree ι κ ν
  map : NodeMap ι κ ν

/-- The loops of an operation have fuel for the nodes of the tree. -/
def splaySystem (memory : ι → SplayNode ι κ ν) :
    Lib.TransitionSystem (SplayRun ι κ ν) (Nat × SplayOperation ι κ ν) :=
  { init := fun s => s = { tree := .constructor memory, map := fun _ => none }
    step := fun s l s' => s.map.Allowed l.2 ∧ s.tree.size ≤ l.1 ∧
      (s.tree.exec l.1 l.2).map Prod.fst = some s'.tree ∧ s'.map = s.map.after l.2 }

namespace SplayRun

structure RefinesMap (s : SplayRun ι κ ν) : Prop where
  /-- a search tree whose nodes are the entries of the map, each key once -/
  searchTree : ∃ t : LinkedTree ι (κ × ν), t.Stored (SplayTree.cells s.tree.memory) ∧
    t.pointer = s.tree.root ∧ Ordered t.toList ∧ SplayTree.Entries s.map t.toList
  size : ∃ keys : Finset κ, (∀ key, key ∈ keys ↔ (s.map key).isSome = true) ∧
    s.tree.size = keys.card
  /-- every operation ends, with the result of the map -/
  returns : ∀ operation, s.map.Allowed operation → ∀ fuel, s.tree.size ≤ fuel →
    ∃ tree', s.tree.exec fuel operation = some (tree', s.map.result operation)

theorem refinesMap_of_represents {s : SplayRun ι κ ν} {t : LinkedTree ι (κ × ν)}
    (h : s.tree.Represents s.map t) : s.RefinesMap := by
  refine ⟨⟨t, h.stored, h.root, h.ordered, h.entries⟩, ?_, ?_⟩
  · have hnodup : (t.toList.map Entry.key).Nodup :=
      (List.pairwise_map.mpr h.ordered.keys).imp ne_of_lt
    refine ⟨(t.toList.map Entry.key).toFinset, fun key => ?_, ?_⟩
    · rw [List.mem_toFinset, List.mem_map, Option.isSome_iff_exists]
      constructor
      · rintro ⟨e, he, rfl⟩
        exact ⟨_, (h.entries e.2.1 e.1 e.2.2).mpr he⟩
      · rintro ⟨e, he⟩
        exact ⟨_, (h.entries key e.1 e.2).mp he, rfl⟩
    · rw [h.size, List.toFinset_card_of_nodup hnodup, List.length_map]
  · intro operation hallowed fuel hfuel
    obtain ⟨tree', -, hexec, -⟩ := h.exec hallowed hfuel
    exact ⟨tree', hexec⟩

end SplayRun

/-- In every run the nodes of the tree are the entries of the map. -/
theorem splaySystem_inductive (memory : ι → SplayNode ι κ ν) :
    (splaySystem memory).Inductive fun s => ∃ t, s.tree.Represents s.map t := by
  refine ⟨fun s hinit => ?_, fun s l s' h hstep => ?_⟩
  · obtain rfl : s = _ := hinit
    refine ⟨.nil, ⟨⟨trivial, rfl, ⟨.nil, .nil⟩⟩, rfl, fun k a v => ?_⟩⟩
    exact iff_of_false (fun h => nomatch h) (fun h => nomatch h)
  · obtain ⟨t, hrep⟩ := h
    obtain ⟨hallowed, hfuel, hexec, hmap⟩ := hstep
    obtain ⟨tree', t', hexec', hrep'⟩ := hrep.exec hallowed hfuel
    rw [hexec', Option.map_some] at hexec
    rw [← hmap] at hrep'
    exact ⟨t', Option.some.inj hexec ▸ hrep'⟩

/-- Any sequence of operations on any totally ordered keys, and any memory. -/
theorem splayTree_refinesMap {memory : ι → SplayNode ι κ ν} {s : SplayRun ι κ ν}
    (hs : (splaySystem memory).Reachable s) : s.RefinesMap := by
  obtain ⟨t, hrep⟩ := (splaySystem_inductive memory).holds hs
  exact SplayRun.refinesMap_of_represents hrep

/-- Two keys are inserted and one is removed; the other is found where it was put. -/
theorem splayTree_refinesMap_two : ∃ s : SplayRun Nat Nat Nat,
    (s.tree.exec 2 (.find 1 false)).map Prod.snd = some (.found (some 11)) ∧ s.RefinesMap := by
  let memory : Nat → SplayNode Nat Nat Nat := fun _ => ⟨0, 0, none, none⟩
  let next (s : SplayRun Nat Nat Nat) (operation : SplayOperation Nat Nat Nat) :
      SplayRun Nat Nat Nat :=
    { tree := ((s.tree.exec 2 operation).map Prod.fst).getD s.tree
      map := s.map.after operation }
  have hnext : ∀ s operation, (s.tree.exec 2 operation).isSome = true →
      (s.tree.exec 2 operation).map Prod.fst = some (next s operation).tree := by
    intro s operation hsome
    obtain ⟨result, hexec⟩ := Option.isSome_iff_exists.mp hsome
    simp [next, hexec]
  let start : SplayRun Nat Nat Nat := { tree := .constructor memory, map := fun _ => none }
  let first := next start (.insert 2 10 0)
  let second := next first (.insert 1 11 0)
  let last := next second (.remove 2)
  have hfirst : (splaySystem memory).Reachable first :=
    .step (.init rfl) (l := (2, .insert 2 10 0))
      ⟨fun _ k v => nofun, by decide, hnext _ _ (by decide +kernel), rfl⟩
  have hsecond : (splaySystem memory).Reachable second := by
    refine .step hfirst (l := (2, .insert 1 11 0))
      ⟨fun _ k v => ?_, by decide +kernel, hnext _ _ (by decide +kernel), rfl⟩
    show (Function.update (fun _ => none) 2 (some (10, 0)) : NodeMap Nat Nat Nat) k ≠ some (11, v)
    by_cases hk : k = 2 <;> simp [hk]
  have hlast : (splaySystem memory).Reachable last :=
    .step hsecond (l := (2, .remove 2))
      ⟨trivial, by decide +kernel, hnext _ _ (by decide +kernel), rfl⟩
  exact ⟨last, by decide +kernel, splayTree_refinesMap hlast⟩

end RayPlatform
