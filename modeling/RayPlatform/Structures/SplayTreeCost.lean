import RayPlatform.Lib.TopDownSplay
import RayPlatform.Structures.SplayTreeMap

/-!
# What the operations of SplayTree cost

The loop of `splay` computes the top-down splay of the tree that the memory has, and runs
at most once for each node on the way to the key (`Torn.loop_topDown`). With the potential of
the tree, that bounds the loops of any sequence of operations (`splayTree_amortized`): a node
that is far from the root is brought up when it is asked for.

A search with `frozen` does not move nodes; it pays for the whole way each time.
-/

namespace RayPlatform

open Lib (Frame LinkedTree Side plug)

variable {ι κ ν : Type} [DecidableEq ι] [LinearOrder κ]

namespace SplayTree

/-- On which side of a key the node of an item is. -/
def sideOf (key : κ) (item : κ × ν) : Option Side :=
  if key < item.1 then some .right else if item.1 < key then some .left else none

section Sides

variable {key : κ}

theorem sideOf_of_lt (item : κ × ν) (h : key < item.1) : sideOf key item = some .right :=
  if_pos h

theorem sideOf_of_gt (item : κ × ν) (h : item.1 < key) : sideOf key item = some .left :=
  (if_neg (not_lt_of_gt h)).trans (if_pos h)

theorem sideOf_of_eq {item : κ × ν} (h : item.1 = key) : sideOf key item = none := by
  rw [sideOf, h, if_neg (lt_irrefl _), if_neg (lt_irrefl _)]

theorem sideOf_ne_right {item : κ × ν} (h : ¬key < item.1) : sideOf key item ≠ some .right := by
  unfold sideOf
  rw [if_neg h]
  split <;> simp

theorem sideOf_ne_left {item : κ × ν} (h : ¬item.1 < key) : sideOf key item ≠ some .left := by
  unfold sideOf
  rw [if_neg h]
  split <;> simp

end Sides

/-! ## The loop -/

section Loop

variable {key : κ} {memory : ι → SplayNode ι κ ν} {list : List (Entry ι κ ν)}
  {s : Splaying ι κ ν} {t result : LinkedTree ι (κ × ν)} {ls rs : List (Frame ι (κ × ν))}
  {a b : ι} {item item' : κ × ν} {left right kept : LinkedTree ι (κ × ν)}

/-- The pieces after the loop are those of a tree, whose children hang on the spines of the
pieces before it. -/
def Splayed (key : κ) (memory : ι → SplayNode ι κ ν) (list : List (Entry ι κ ν))
    (s : Splaying ι κ ν) (ls rs : List (Frame ι (κ × ν))) (result : LinkedTree ι (κ × ν)) : Prop :=
  ∃ a item left right ls' rs' left' right',
    Torn key memory list s (.node a item left right) ls' rs' ∧
      ((∀ e ∈ left.toList, Entry.key e < key) ∧ ∀ e ∈ right.toList, key < Entry.key e) ∧
      result = .node a item left' right' ∧ plug .left ls' left = plug .left ls left' ∧
      plug .right rs' right = plug .right rs right'

omit [DecidableEq ι] in
theorem Torn.splayed (h : Torn key memory list s (.node a item left right) ls rs)
    (hbefore : ∀ e ∈ left.toList, Entry.key e < key)
    (hafter : ∀ e ∈ right.toList, key < Entry.key e) :
    Splayed key memory list s ls rs (.node a item left right) :=
  ⟨a, item, left, right, ls, rs, left, right, h, ⟨hbefore, hafter⟩, rfl, rfl, rfl⟩

omit [DecidableEq ι] in
/-- A node that was linked to the right spine hangs on the right of the root. -/
theorem Splayed.hang_right (h : Splayed key memory list s ls (⟨b, item', kept⟩ :: rs) result) :
    Splayed key memory list s ls rs (result.hang .right b item' kept) := by
  obtain ⟨a, item, left, right, ls', rs', left', right', htorn, hparted, rfl, hls, hrs⟩ := h
  exact ⟨a, item, left, right, ls', rs', left', .node b item' right' kept, htorn, hparted, rfl,
    hls, hrs⟩

omit [DecidableEq ι] in
theorem Splayed.hang_left (h : Splayed key memory list s (⟨b, item', kept⟩ :: ls) rs result) :
    Splayed key memory list s ls rs (result.hang .left b item' kept) := by
  obtain ⟨a, item, left, right, ls', rs', left', right', htorn, hparted, rfl, hls, hrs⟩ := h
  exact ⟨a, item, left, right, ls', rs', .node b item' kept left', right', htorn, hparted, rfl,
    hls, hrs⟩

omit [DecidableEq ι] in
theorem Torn.splayed_left (h : Torn key memory list s (.node a item .nil right) ls rs)
    (horder : Ordered list) (hkey : key < item.1) :
    Splayed key memory list s ls rs (.node a item .nil right) := by
  obtain ⟨-, hright⟩ := horder.middle h.parts
  exact h.splayed (fun e he => nomatch he) fun e he => lt_trans hkey (hright e he)

omit [DecidableEq ι] in
theorem Torn.splayed_right (h : Torn key memory list s (.node a item left .nil) ls rs)
    (horder : Ordered list) (hkey : item.1 < key) :
    Splayed key memory list s ls rs (.node a item left .nil) := by
  obtain ⟨hleft, -⟩ := horder.middle h.parts
  exact h.splayed (fun e he => lt_trans (hleft e he) hkey) fun e he => nomatch he

/-- The loop runs at most once for each node on the way to the key. -/
theorem Torn.loop_topDown (h : Torn key memory list s t ls rs) (horder : Ordered list)
    {fuel : Nat} (hfuel : t.visited (sideOf key) ≤ fuel) :
    ∃ s', s.loop key fuel = some s' ∧
      Splayed key memory list s' ls rs (t.topDown (sideOf key)) := by
  induction fuel generalizing s t ls rs with
  | zero =>
      obtain ⟨item, left, right, rfl⟩ := LinkedTree.exists_node h.pointer
      simp only [LinkedTree.visited] at hfuel
      split at hfuel <;> omega
  | succ fuel ih =>
      obtain ⟨item, left, right, rfl⟩ := LinkedTree.exists_node h.pointer
      obtain ⟨-, hkey, hleft, hright⟩ := h.read
      unfold Splaying.loop
      rcases lt_trichotomy key item.1 with hlt | heq | hgt
      · have hside := sideOf_of_lt item hlt
        rw [hkey, if_pos hlt, hleft]
        rw [show (LinkedTree.node s.t item left right).visited (sideOf key) = _ from
          LinkedTree.visited_side .right hside] at hfuel
        cases left with
        | nil =>
            rw [show (LinkedTree.node s.t item .nil right).topDown (sideOf key) = _ from
              LinkedTree.topDown_side_nil .right hside]
            exact ⟨s, rfl, h.splayed_left horder hlt⟩
        | node b item' outer inner =>
            have hkey' : (s.memory b).key = item'.1 := congrArg (·.item.1) h.stored.2.1.1
            simp only [LinkedTree.pointer, hkey']
            by_cases hzig : key < item'.1
            · have hside' := sideOf_of_lt item' hzig
              rw [show (LinkedTree.node b item' outer inner).visited (sideOf key) = _ from
                LinkedTree.visited_side .right hside'] at hfuel
              rw [if_pos hzig, show (LinkedTree.node s.t item (.node b item' outer inner)
                right).topDown (sideOf key) = _ from
                LinkedTree.topDown_same .right hside hside']
              have hrotated := h.rotateWithLeft horder
              obtain ⟨ht, -, houter, -⟩ := hrotated.read
              rw [ht, houter]
              cases outer with
              | nil => exact ⟨_, rfl, hrotated.splayed_left horder hzig⟩
              | node c item'' outer' inner' =>
                  obtain ⟨s', hlink, htorn⟩ := hrotated.linkRight horder hzig rfl
                  obtain ⟨s'', hloop, hsplayed⟩ := ih htorn (by omega)
                  exact ⟨s'', by simp only [LinkedTree.pointer, hlink, Option.bind_some, hloop],
                    hsplayed.hang_right⟩
            · rw [if_neg hzig, show (LinkedTree.node s.t item (.node b item' outer inner)
                right).topDown (sideOf key) = _ from
                LinkedTree.topDown_turn .right hside (sideOf_ne_right hzig) outer inner]
              obtain ⟨s', hlink, htorn⟩ := h.linkRight horder hlt rfl
              obtain ⟨s'', hloop, hsplayed⟩ := ih htorn (by omega)
              exact ⟨s'', by rw [hlink, Option.bind_some, hloop], hsplayed.hang_right⟩
      · -- the key is here
        obtain ⟨hbefore, hafter⟩ := horder.middle h.parts
        rw [hkey, if_neg (by rw [heq]; exact lt_irrefl _), if_neg (by rw [heq]; exact lt_irrefl _),
          LinkedTree.topDown_here (sideOf_of_eq heq.symm)]
        exact ⟨s, rfl, h.splayed (heq ▸ hbefore) (heq ▸ hafter)⟩
      · have hside := sideOf_of_gt item hgt
        rw [hkey, if_neg (not_lt_of_gt hgt), if_pos hgt, hright]
        rw [show (LinkedTree.node s.t item left right).visited (sideOf key) = _ from
          LinkedTree.visited_side .left hside] at hfuel
        cases right with
        | nil =>
            rw [show (LinkedTree.node s.t item left .nil).topDown (sideOf key) = _ from
              LinkedTree.topDown_side_nil .left hside]
            exact ⟨s, rfl, h.splayed_right horder hgt⟩
        | node b item' inner outer =>
            have hkey' : (s.memory b).key = item'.1 := congrArg (·.item.1) h.stored.2.2.1
            simp only [LinkedTree.pointer, hkey']
            by_cases hzag : item'.1 < key
            · have hside' := sideOf_of_gt item' hzag
              rw [show (LinkedTree.node b item' inner outer).visited (sideOf key) = _ from
                LinkedTree.visited_side .left hside'] at hfuel
              rw [if_pos hzag, show (LinkedTree.node s.t item left
                (.node b item' inner outer)).topDown (sideOf key) = _ from
                LinkedTree.topDown_same .left hside hside']
              have hrotated := h.rotateWithRight horder
              obtain ⟨ht, -, -, houter⟩ := hrotated.read
              rw [ht, houter]
              cases outer with
              | nil => exact ⟨_, rfl, hrotated.splayed_right horder hzag⟩
              | node c item'' inner' outer' =>
                  obtain ⟨s', hlink, htorn⟩ := hrotated.linkLeft horder hzag rfl
                  obtain ⟨s'', hloop, hsplayed⟩ := ih htorn (by omega)
                  exact ⟨s'', by simp only [LinkedTree.pointer, hlink, Option.bind_some, hloop],
                    hsplayed.hang_left⟩
            · rw [if_neg hzag, show (LinkedTree.node s.t item left
                (.node b item' inner outer)).topDown (sideOf key) = _ from
                LinkedTree.topDown_turn .left hside (sideOf_ne_left hzag) inner outer]
              obtain ⟨s', hlink, htorn⟩ := h.linkLeft horder hgt rfl
              obtain ⟨s'', hloop, hsplayed⟩ := ih htorn (by omega)
              exact ⟨s'', by rw [hlink, Option.bind_some, hloop], hsplayed.hang_left⟩

end Loop

variable {tree : SplayTree ι κ ν} {m : NodeMap ι κ ν} {t : LinkedTree ι (κ × ν)} {key : κ}

/-- `splay` makes the top-down splay of the tree. -/
theorem Holds.splay_topDown (h : Holds tree t) (hroot : tree.root ≠ none) {fuel : Nat}
    (hfuel : t.visited (sideOf key) ≤ fuel) :
    ∃ tree' a item left right, tree.splay fuel key = some tree' ∧
      Holds tree' (.node a item left right) ∧
      t.topDown (sideOf key) = .node a item left right ∧
      (LinkedTree.node a item left right).toList = t.toList ∧
      ((∀ e ∈ left.toList, Entry.key e < key) ∧ ∀ e ∈ right.toList, key < Entry.key e) ∧
      tree'.size = tree.size ∧ ∀ b, b ∉ t.addresses → tree'.memory b = tree.memory b := by
  obtain ⟨root, hsome⟩ := Option.ne_none_iff_exists'.mp hroot
  obtain ⟨s, hloop, a, item, left, right, ls, rs, left', right', htorn, ⟨hbefore, hafter⟩,
    hresult, hleft, hright⟩ := (h.torn hsome key).loop_topDown h.ordered hfuel
  obtain ⟨tree', hsplay, hholds, hlist, hsize, hframe⟩ := h.splay_of_loop hsome hloop htorn
  obtain rfl : plug .left ls left = left' := hleft
  obtain rfl : plug .right rs right = right' := hright
  refine ⟨tree', a, item, _, _, hsplay, hholds, hresult, hlist, ⟨?_, ?_⟩, hsize, hframe⟩
  · intro e he
    rw [Lib.toList_plug_left, List.mem_append] at he
    exact he.elim (htorn.below e) (hbefore e)
  · intro e he
    rw [Lib.toList_plug_right, List.mem_append] at he
    exact he.elim (hafter e) (htorn.above e)

theorem Represents.splay_topDown (h : Represents tree m t) (hroot : tree.root ≠ none) {fuel : Nat}
    (hfuel : t.visited (sideOf key) ≤ fuel) :
    ∃ tree' a item left right, tree.splay fuel key = some tree' ∧
      Represents tree' m (.node a item left right) ∧
      t.topDown (sideOf key) = .node a item left right ∧
      (LinkedTree.node a item left right).toList = t.toList ∧
      ((∀ e ∈ left.toList, Entry.key e < key) ∧ ∀ e ∈ right.toList, key < Entry.key e) ∧
      m key = if item.1 = key then some (a, item.2) else none := by
  obtain ⟨tree', a, item, left, right, hsplay, hholds, hresult, hlist, hparted, hsize, -⟩ :=
    h.toHolds.splay_topDown hroot hfuel
  have hentries : Entries m (LinkedTree.node a item left right).toList := by
    rw [hlist]
    exact h.entries
  exact ⟨tree', a, item, left, right, hsplay, ⟨hholds, by rw [hsize, h.size, hlist], hentries⟩,
    hresult, hlist, hparted, hentries.root hparted.1 hparted.2⟩

/-! ## The operations -/

/-- An operation ends, and the potential pays for its loops beyond the budget. -/
def Paid (tree : SplayTree ι κ ν) (m : NodeMap ι κ ν) (t : LinkedTree ι (κ × ν))
    (operation : SplayOperation ι κ ν) (budget : ℝ) : Prop :=
  ∃ (fuel : Nat) (tree' : SplayTree ι κ ν) (t' : LinkedTree ι (κ × ν)),
    tree.exec fuel operation = some (tree', m.result operation) ∧
      Represents tree' (m.after operation) t' ∧
      t'.toList.length ≤ t.toList.length + 1 ∧
      fuel + t'.potential ≤ t.potential + budget

omit [DecidableEq ι] [LinearOrder κ] in
/-- No tree with one more node has a larger rank. -/
theorem rank_le_logb (t t' : LinkedTree ι (κ × ν)) (h : t'.toList.length ≤ t.toList.length + 1) :
    t'.rank ≤ Real.logb 2 (t.toList.length + 2) := by
  refine Real.logb_le_logb_of_le one_lt_two (by positivity) ?_
  have : (t'.toList.length : ℝ) ≤ t.toList.length + 1 := by exact_mod_cast h
  linarith

theorem Represents.find_paid (h : Represents tree m t) (key : κ) :
    Paid tree m t (.find key false) (6 * Real.logb 2 (t.toList.length + 2) + 2) := by
  have hrank := rank_le_logb t t (Nat.le_succ _)
  have hnonneg := t.rank_nonneg
  cases hroot : tree.root with
  | none =>
      refine ⟨0, tree, t, ?_, h, Nat.le_succ _, by push_cast; linarith⟩
      rw [NodeMap.result, (h.empty hroot).2 key]
      simp [SplayTree.exec, SplayTree.find, hroot]
  | some root =>
      obtain ⟨tree', a, item, left, right, hsplay, hrep, hresult, hlist, -, hkey⟩ :=
        h.splay_topDown (by rw [hroot]; exact Option.some_ne_none _) (le_refl (t.visited (sideOf key)))
      obtain ⟨hroot', hread, -⟩ := hrep.read
      have hcost := t.visited_add_potential_le (sideOf key)
      rw [hresult] at hcost
      refine ⟨t.visited (sideOf key), tree', _, ?_, hrep, by rw [hlist]; exact Nat.le_succ _,
        by linarith⟩
      rw [NodeMap.result, SplayTree.exec, SplayTree.find]
      simp only [hroot, hsplay, hroot', hread, Option.bind_eq_bind, Option.bind_some, hkey]
      by_cases heq : item.1 = key
      · simp [heq]
      · simp [heq]

theorem Represents.insert_paid (h : Represents tree m t) {address : ι}
    (hfresh : m key = none → ∀ k v, m k ≠ some (address, v)) (value : ν) :
    Paid tree m t (.insert key address value) (6 * Real.logb 2 (t.toList.length + 2) + 2) := by
  have hrank := rank_le_logb t t (Nat.le_succ _)
  have hnonneg := t.rank_nonneg
  cases hroot : tree.root with
  | none =>
      obtain ⟨tree', hinsert, hrep⟩ := h.insertFirst hroot 0 key address value
      obtain ⟨rfl, hnone⟩ := h.empty hroot
      refine ⟨0, tree', _, ?_, by rw [NodeMap.after, hnone key]; exact hrep, by simp [LinkedTree.toList], ?_⟩
      · rw [SplayTree.exec, hinsert, NodeMap.result, hnone key]
        rfl
      · have := rank_le_logb .nil (.node address (key, value) .nil .nil)
          (by simp [LinkedTree.toList])
        simp only [LinkedTree.potential, Nat.cast_zero]
        linarith
  | some root =>
      obtain ⟨tree', a, item, left, right, hsplay, hrep, hresult, hlist, ⟨hbefore, hafter⟩, hkey⟩ :=
        h.splay_topDown (by rw [hroot]; exact Option.some_ne_none _) (le_refl (t.visited (sideOf key)))
      have hcost := t.visited_add_potential_le (sideOf key)
      rw [hresult] at hcost
      by_cases heq : item.1 = key
      · obtain ⟨hroot', hread, -⟩ := hrep.read
        rw [if_pos heq] at hkey
        refine ⟨t.visited (sideOf key), tree', _, ?_, by rw [NodeMap.after, hkey]; exact hrep,
          by rw [hlist]; exact Nat.le_succ _, by linarith⟩
        rw [SplayTree.exec, SplayTree.insert, NodeMap.result, hkey]
        simp only [hroot, hsplay, hroot', hread, Option.bind_eq_bind, Option.bind_some, if_pos heq,
          Option.map_some]
      · rw [if_neg heq] at hkey
        have hfree := hrep.entries.fresh (hfresh hkey)
        have hlength := congrArg List.length hlist
        rw [LinkedTree.length_toList_node] at hlength
        rcases lt_or_gt_of_ne heq with hgt | hlt
        · obtain ⟨tree'', hinsert, hrep'⟩ :=
            hrep.insertAfter hroot hsplay hkey hfree hgt hbefore hafter value
          refine ⟨t.visited (sideOf key), tree'', _, ?_, by rw [NodeMap.after, hkey]; exact hrep',
            by simp [LinkedTree.toList]; omega, ?_⟩
          · rw [SplayTree.exec, hinsert, NodeMap.result, hkey]
            rfl
          · have hsplit := LinkedTree.potential_split_left a address item (key, value) left right
            have hnew := rank_le_logb t
              (.node address (key, value) (.node a item left .nil) right)
              (by simp [LinkedTree.toList]; omega)
            linarith
        · obtain ⟨tree'', hinsert, hrep'⟩ :=
            hrep.insertBefore hroot hsplay hkey hfree hlt hbefore hafter value
          refine ⟨t.visited (sideOf key), tree'', _, ?_, by rw [NodeMap.after, hkey]; exact hrep',
            by simp [LinkedTree.toList]; omega, ?_⟩
          · rw [SplayTree.exec, hinsert, NodeMap.result, hkey]
            rfl
          · have hsplit := LinkedTree.potential_split_right a address item (key, value) left right
            have hnew := rank_le_logb t
              (.node address (key, value) left (.node a item .nil right))
              (by simp [LinkedTree.toList]; omega)
            linarith

omit [DecidableEq ι] in
/-- The walk to the last node is the way of a search for its key. -/
theorem maxNode_visited (horder : Ordered t.toList) {p : ι} (hp : t.pointer = some p) :
    ∃ last : κ, (∀ e ∈ t.toList, Entry.key e ≤ last) ∧
      ∀ memory : ι → SplayNode ι κ ν, t.Stored (cells memory) →
        ∀ fuel, t.visited (sideOf last) ≤ fuel →
          ∃ b, maxNode memory fuel p = some b ∧ (memory b).key = last := by
  induction t generalizing p with
  | nil => cases hp
  | node a item left right ihleft ihright =>
      cases hp
      obtain ⟨⟨-, hordered⟩, ⟨hbefore, hafter⟩, -⟩ := ordered_node.mp horder
      simp only [LinkedTree.toList, List.mem_append, List.mem_cons]
      cases right with
      | nil =>
          refine ⟨item.1, fun e he => ?_, fun memory hstored fuel hfuel => ?_⟩
          · rcases he with he | rfl | he
            · exact le_of_lt (hbefore e he)
            · exact le_refl _
            · cases he
          · have hlink : (memory a).right = none := congrArg Lib.Cell.right hstored.1
            simp only [LinkedTree.visited, sideOf_of_eq] at hfuel
            obtain ⟨fuel, rfl⟩ : ∃ n, fuel = n + 1 := ⟨fuel - 1, by omega⟩
            refine ⟨a, ?_, congrArg (·.item.1) hstored.1⟩
            simp only [maxNode, hlink]
      | node c item' inner outer =>
          obtain ⟨last, hle, hmax⟩ := ihright hordered rfl
          have hmem : (c, item') ∈ (LinkedTree.node c item' inner outer).toList := by
            simp [LinkedTree.toList]
          have hlast : item.1 < last := lt_of_lt_of_le (hafter _ hmem) (hle _ hmem)
          refine ⟨last, fun e he => ?_, fun memory hstored fuel hfuel => ?_⟩
          · rcases he with he | rfl | he
            · exact le_of_lt (lt_trans (hbefore e he) hlast)
            · exact le_of_lt hlast
            · exact hle e he
          · have hlink : (memory a).right = some c := congrArg Lib.Cell.right hstored.1
            rw [show (LinkedTree.node a item left (.node c item' inner outer)).visited
              (sideOf last) = _ from
              LinkedTree.visited_side .left (sideOf_of_gt item hlast)] at hfuel
            obtain ⟨fuel, rfl⟩ : ∃ n, fuel = n + 1 := ⟨fuel - 1, by omega⟩
            simp only [maxNode, hlink]
            exact hmax memory hstored.2.2 fuel (by omega)

/-- The subtrees of a root that is removed are joined; the left one pays for the walk and for
the second `splay`. -/
theorem Holds.join_paid {a : ι} {item : κ × ν} {left right : LinkedTree ι (κ × ν)}
    (h : Holds tree (.node a item left right)) {p : ι} (hp : left.pointer = some p) :
    ∃ (fuel : Nat) (t' : LinkedTree ι (κ × ν)),
      t'.toList = left.toList ++ right.toList ∧
      fuel + t'.potential ≤ left.potential + right.potential + 3 * left.rank + t'.rank + 1 ∧
      ∀ tree : SplayTree ι κ ν, Holds tree (.node a item left right) → ∀ more, fuel ≤ more →
        ∃ (last root : ι) (tree' : SplayTree ι κ ν), maxNode tree.memory more p = some last ∧
          SplayTree.splay { tree with root := some p } more (tree.memory last).key = some tree' ∧
          tree'.root = some root ∧ tree'.size = tree.size ∧
          t'.Stored (cells (setRight tree'.memory root right.pointer)) ∧ t'.pointer = some root := by
  obtain ⟨⟨hordered, -⟩, -, -, -, hapart⟩ := ordered_node.mp h.ordered
  obtain ⟨last, hle, hmax⟩ := maxNode_visited hordered hp
  have hholds : ∀ tree : SplayTree ι κ ν, Holds tree (.node a item left right) →
      Holds { tree with root := some p } left := fun tree h => ⟨h.stored.2.1, hp, hordered⟩
  have hcost := left.visited_add_potential_le (sideOf last)
  obtain ⟨-, root, item', inner, outer, -, -, hresult, hlist, ⟨-, hafter⟩, -⟩ :=
    (hholds tree h).splay_topDown (Option.some_ne_none p) (le_refl (left.visited (sideOf last)))
  -- nothing is after the last node
  have hnone : outer = .nil := by
    cases outer with
    | nil => rfl
    | node b item'' l r =>
        have hmem : (b, item'') ∈ (LinkedTree.node b item'' l r).toList := by
          simp [LinkedTree.toList]
        have hmem' : (b, item'') ∈ left.toList := by
          rw [← hlist, LinkedTree.toList]
          exact List.mem_append_right _ (List.mem_cons_of_mem _ hmem)
        exact absurd (hafter _ hmem) (not_lt_of_ge (hle _ hmem'))
  subst hnone
  refine ⟨left.visited (sideOf last), .node root item' inner right, ?_, ?_,
    fun tree h more hmore => ?_⟩
  · rw [← hlist]
    simp [LinkedTree.toList]
  · rw [hresult] at hcost
    have hnonneg := (LinkedTree.node root item' inner .nil).rank_nonneg
    simp only [LinkedTree.potential] at hcost ⊢
    linarith
  · obtain ⟨b, hwalk, hkey⟩ := hmax tree.memory h.stored.2.1 more hmore
    obtain ⟨tree', root', item'', inner', outer', hsplay, hsplayed, hresult', -, -, hsize, hframe⟩ :=
      (hholds tree h).splay_topDown (Option.some_ne_none p) hmore
    rw [hresult] at hresult'
    obtain ⟨rfl, rfl, rfl, rfl⟩ := LinkedTree.node.inj hresult'
    obtain ⟨hcell, hinner, -⟩ := hsplayed.stored
    obtain ⟨-, -, hroot, -⟩ := ordered_node.mp hsplayed.ordered
    have hmem : root ∈ left.addresses := by
      rw [LinkedTree.addresses, ← hlist]
      simp [LinkedTree.toList]
    have hright : right.Stored (cells tree'.memory) := h.stored.2.2.congr fun c hc =>
      cells_congr (hframe c fun hmem => hapart c hmem hc)
    refine ⟨b, root, tree', hwalk, by rw [hkey]; exact hsplay, hsplayed.read.1, hsize, ?_, rfl⟩
    rw [cells_setRight]
    refine ⟨?_, hinner.update hroot _, hright.update (hapart root hmem) _⟩
    rw [Function.update_self, hcell]
    rfl

theorem Represents.remove_paid (h : Represents tree m t) (key : κ) :
    Paid tree m t (.remove key) (6 * Real.logb 2 (t.toList.length + 2) + 2) := by
  have hrank := rank_le_logb t t (Nat.le_succ _)
  have hnonneg := t.rank_nonneg
  have hkeep : m key = none → Function.update m key none = m := fun hnone => by
    rw [← hnone]
    exact Function.update_eq_self key m
  cases hroot : tree.root with
  | none =>
      have hnone := (h.empty hroot).2 key
      refine ⟨0, tree, t, ?_, by rw [NodeMap.after, hkeep hnone]; exact h, Nat.le_succ _,
        by push_cast; linarith⟩
      rw [NodeMap.result, SplayTree.exec, SplayTree.remove, hroot, hnone]
      rfl
  | some root =>
      obtain ⟨tree', a, item, left, right, hsplay, hrep, hresult, hlist, ⟨hbefore, hafter⟩, hkey⟩ :=
        h.splay_topDown (by rw [hroot]; exact Option.some_ne_none _) (le_refl (t.visited (sideOf key)))
      obtain ⟨hroot', hread, hreadLeft, hreadRight⟩ := hrep.read
      have hcost := t.visited_add_potential_le (sideOf key)
      rw [hresult] at hcost
      by_cases heq : item.1 = key
      · subst heq
        rw [if_pos rfl] at hkey
        have hentries : Entries (Function.update m item.1 none) (left.toList ++ right.toList) :=
          Entries.remove hrep.entries hbefore hafter
        have hsub : (left.toList ++ right.toList).Sublist
            (LinkedTree.node a item left right).toList :=
          (List.Sublist.refl _).append (List.sublist_cons_self _ _)
        have hlength := congrArg List.length hlist
        rw [LinkedTree.length_toList_node] at hlength
        have hsize : tree'.size - 1 = (left.toList ++ right.toList).length := by
          rw [hrep.size, LinkedTree.toList]
          simp
        have hpotential : (LinkedTree.node a item left right).potential =
            t.rank + left.potential + right.potential := by
          rw [LinkedTree.potential, LinkedTree.rank, LinkedTree.rank, hlist]
        cases hleft : left.pointer with
        | none =>
            obtain rfl := LinkedTree.pointer_eq_none.mp hleft
            refine ⟨t.visited (sideOf item.1), ⟨tree'.memory, right.pointer, tree'.size - 1⟩,
              right, ?_, ⟨⟨hrep.stored.2.2, rfl, hrep.ordered.sublist hsub⟩, hsize, hentries⟩,
              by omega, ?_⟩
            · rw [SplayTree.exec, SplayTree.remove, NodeMap.result]
              simp only [hroot, hsplay, hroot', hread, hreadLeft, hreadRight, hkey,
                Option.bind_eq_bind, Option.bind_some]
              simp [LinkedTree.pointer]
            · rw [hpotential] at hcost
              simp only [LinkedTree.potential] at hcost
              linarith
        | some p =>
            obtain ⟨fuel, t', hjoined, hpaid, hjoin⟩ := hrep.toHolds.join_paid hleft
            obtain ⟨tree', a', item', left', right', hsplay, hrep, hresult', -⟩ :=
              h.splay_topDown (by rw [hroot]; exact Option.some_ne_none _)
                (Nat.le_add_right (t.visited (sideOf item.1)) fuel)
            rw [hresult] at hresult'
            obtain ⟨rfl, rfl, rfl, rfl⟩ := LinkedTree.node.inj hresult'
            obtain ⟨hroot', hread, hreadLeft, hreadRight⟩ := hrep.read
            obtain ⟨last, root', tree'', hmax, hsplay', hroot'', hsize', hstored, hpointer⟩ :=
              hjoin tree' hrep.toHolds _ (Nat.le_add_left fuel (t.visited (sideOf item.1)))
            refine ⟨t.visited (sideOf item.1) + fuel,
              ⟨setRight tree''.memory root' right.pointer, tree''.root, tree''.size - 1⟩, t', ?_,
              ⟨⟨hstored, ?_, ?_⟩, ?_, ?_⟩, by rw [hjoined, List.length_append]; omega, ?_⟩
            · rw [SplayTree.exec, SplayTree.remove, NodeMap.result]
              simp only [hroot, hsplay, hroot', hread, hreadLeft, hreadRight, hkey, hleft,
                Option.bind_eq_bind, Option.bind_some]
              simp [hmax, hsplay', hroot'']
            · rw [hpointer, hroot'']
            · rw [hjoined]
              exact hrep.ordered.sublist hsub
            · rw [hjoined, hsize', hrep.size]
              simp [LinkedTree.toList]
            · rw [hjoined]
              exact hentries
            · have hrank' : t'.rank ≤ t.rank := LinkedTree.rank_le (by
                rw [hjoined, List.length_append]
                omega)
              have hleftRank : left.rank ≤ t.rank := LinkedTree.rank_le (by omega)
              push_cast
              linarith
      · rw [if_neg heq] at hkey
        refine ⟨t.visited (sideOf key), tree', _, ?_,
          by rw [NodeMap.after, hkeep hkey]; exact hrep, by rw [hlist]; exact Nat.le_succ _,
          by linarith⟩
        rw [SplayTree.exec, SplayTree.remove, NodeMap.result, hkey]
        simp only [hroot, hsplay, hroot', hread, Option.bind_eq_bind, Option.bind_some]
        simp [heq]

/-- A write to a value moves no node. -/
theorem Represents.setValue_paid (h : Represents tree m t) (address : ι) (value : ν) :
    Paid tree m t (.setValue address value) (6 * Real.logb 2 (t.toList.length + 2) + 2) := by
  obtain ⟨t', hrep⟩ := h.setValue address value
  have hstored := h.stored.mapItems fun a item => if a = address then (item.1, value) else item
  have hpointer : t'.pointer = t.pointer := hrep.root.trans h.root.symm
  have ht' := Lib.LinkedTree.Stored.unique hrep.stored
    (by rw [cells_setValue]; exact hstored) (by rw [hpointer, LinkedTree.pointer_mapItems])
  have hpotential : t'.potential = t.potential := by
    rw [ht']
    exact LinkedTree.potential_mapItems _ t
  have hrank := rank_le_logb t t (Nat.le_succ _)
  have hnonneg := t.rank_nonneg
  refine ⟨0, _, t', rfl, hrep, ?_, ?_⟩
  · rw [ht', LinkedTree.toList_mapItems, List.length_map]
    exact Nat.le_succ _
  rw [hpotential]
  push_cast
  linarith

/-- An operation that splays, or that has no loop. -/
theorem Represents.paid (h : Represents tree m t) {operation : SplayOperation ι κ ν}
    (hallowed : m.Allowed operation) (hfrozen : ∀ key, operation ≠ .find key true) :
    Paid tree m t operation (6 * Real.logb 2 (t.toList.length + 2) + 2) := by
  cases operation with
  | insert key address value => exact h.insert_paid hallowed value
  | remove key => exact h.remove_paid key
  | find key frozen =>
      cases frozen with
      | true => exact absurd rfl (hfrozen key)
      | false => exact h.find_paid key
  | setValue address value => exact h.setValue_paid address value

end SplayTree

/-! ## Runs -/

namespace NodeMap

/-- Each operation of a sequence is allowed where it stands. -/
def AllAllowed (m : NodeMap ι κ ν) : List (SplayOperation ι κ ν) → Prop
  | [] => True
  | operation :: rest => m.Allowed operation ∧ (m.after operation).AllAllowed rest

def results (m : NodeMap ι κ ν) : List (SplayOperation ι κ ν) → List (SplayResult ι)
  | [] => []
  | operation :: rest => m.result operation :: (m.after operation).results rest

end NodeMap

namespace SplayTree

/-- Operations in sequence, each with fuel of its own. -/
def execAll (tree : SplayTree ι κ ν) :
    List (Nat × SplayOperation ι κ ν) → Option (SplayTree ι κ ν × List (SplayResult ι))
  | [] => some (tree, [])
  | (fuel, operation) :: rest => do
      let (tree, result) ← tree.exec fuel operation
      let (tree, results) ← tree.execAll rest
      some (tree, result :: results)

variable {tree : SplayTree ι κ ν} {m : NodeMap ι κ ν} {t : LinkedTree ι (κ × ν)}

/-- Along a sequence the potential pays for all loops. -/
theorem Represents.execAll_paid {operations : List (SplayOperation ι κ ν)}
    (h : Represents tree m t) (hallowed : m.AllAllowed operations)
    (hfrozen : ∀ key, .find key true ∉ operations) {bound : ℕ}
    (hbound : t.toList.length + operations.length ≤ bound) :
    ∃ fuels : List Nat, fuels.length = operations.length ∧
      (∃ tree', tree.execAll (fuels.zip operations) = some (tree', m.results operations)) ∧
      (fuels.sum : ℝ) ≤
        operations.length * (6 * Real.logb 2 (bound + 1) + 2) + t.potential := by
  induction operations generalizing tree m t with
  | nil => exact ⟨[], rfl, ⟨tree, rfl⟩, by simpa using t.potential_nonneg⟩
  | cons operation rest ih =>
      obtain ⟨fuel, tree', t', hexec, hrep, hlength, hcost⟩ := h.paid hallowed.1 fun key hkey =>
        hfrozen key (hkey ▸ List.mem_cons_self)
      rw [List.length_cons] at hbound ⊢
      obtain ⟨fuels, hfuels, ⟨tree'', hrest⟩, hsum⟩ := ih hrep hallowed.2
        (fun key hkey => hfrozen key (List.mem_cons_of_mem _ hkey)) (by omega)
      refine ⟨fuel :: fuels, by simp [hfuels], ⟨tree'', ?_⟩, ?_⟩
      · simp [execAll, hexec, hrest, NodeMap.results]
      · have hlog : Real.logb 2 (t.toList.length + 2) ≤ Real.logb 2 (bound + 1) := by
          refine Real.logb_le_logb_of_le one_lt_two (by positivity) ?_
          have : (t.toList.length : ℝ) + 1 ≤ bound := by exact_mod_cast (by omega)
          linarith
        rw [List.sum_cons, Nat.cast_add, Nat.cast_succ]
        linarith

end SplayTree

end RayPlatform
