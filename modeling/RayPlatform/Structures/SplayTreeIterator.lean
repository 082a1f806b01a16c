import RayPlatform.Structures.SplayTreeMap

/-!
# SplayTreeIterator

The iterator keeps the nodes whose subtrees it has not visited on a `MyStack` of fixed
size. While it goes down right links, the left children that it passes wait on the stack.

* `MyStack.push` on a full stack writes behind the array, which is `none` here;
* `PathTo` — a path from the root, and the left children that wait at its end;
* `iterate_spec` — the iteration visits all trees on the stack, or a push fails;
* `Represents.enumerates_iff_peak`, `Represents.bounded_iff` — an iteration lists the nodes of
  the tree exactly when fewer than `MAX_STACK_SIZE` left children wait at each node.

What the iterator prints when an assertion fails, with its identifier and rank, is left out;
`m_processed` and `m_treeSize` are only read there.
-/

namespace RayPlatform

/-- `_MAX_STACK_SIZE` -/
def MAX_STACK_SIZE : Nat := 1024

/-- The last element comes first. -/
structure MyStack (α : Type) where
  items : List α
  fits : items.length ≤ MAX_STACK_SIZE

namespace MyStack

variable {α : Type} (s : MyStack α)

def constructor : MyStack α :=
  { items := [], fits := Nat.zero_le _ }

def size : Nat :=
  s.items.length

/-- The element that was pushed last, of a stack that is not empty. -/
def top : Option α :=
  s.items.head?

def pop : MyStack α :=
  { items := s.items.tail
    fits := Nat.le_trans (by simp) s.fits }

def push (a : α) : Option (MyStack α) :=
  if h : s.items.length < MAX_STACK_SIZE then some { items := a :: s.items, fits := h } else none

end MyStack

structure SplayTreeIterator (ι : Type) where
  stack : MyStack ι
  processed : Nat
  treeSize : Nat

namespace SplayTreeIterator

variable {ι κ ν : Type}

def pushChild (stack : MyStack ι) : Option ι → Option (MyStack ι)
  | none => some stack
  | some child => stack.push child

def constructor (tree : SplayTree ι κ ν) : Option (SplayTreeIterator ι) :=
  (pushChild .constructor tree.root).map fun stack =>
    { stack := stack, processed := 0, treeSize := tree.size }

def hasNext (it : SplayTreeIterator ι) : Bool :=
  decide (it.stack.size > 0)

/-- The node, `NULL` at the end, and the iterator after the call. -/
def next (memory : ι → SplayNode ι κ ν) (it : SplayTreeIterator ι) :
    Option (Option ι × SplayTreeIterator ι) :=
  if it.hasNext then do
    let c ← it.stack.top
    let stack ← pushChild it.stack.pop (memory c).left
    let stack ← pushChild stack (memory c).right
    some (some c, { it with stack := stack, processed := it.processed + 1 })
  else some (none, it)

/-- `while(iterator.hasNext()) nodes.push_back(iterator.next());` -/
def iterate (memory : ι → SplayNode ι κ ν) :
    Nat → SplayTreeIterator ι → Option (List (Option ι) × SplayTreeIterator ι)
  | 0, _ => none
  | fuel + 1, it =>
      if it.hasNext then do
        let (node, it) ← it.next memory
        let (nodes, it) ← iterate memory fuel it
        some (node :: nodes, it)
      else some ([], it)

end SplayTreeIterator

/-! ## The trees on the stack -/

namespace SplayTree

open Lib (LinkedTree)

variable {ι κ ν : Type}

/-- A path of links from `p` to a node. `waiting` counts the nodes with a left child whose
right link it takes. -/
inductive PathTo (memory : ι → SplayNode ι κ ν) : Option ι → ι → Nat → Prop
  | here (a : ι) : PathTo memory (some a) a 0
  | left {a b : ι} {waiting : Nat} (h : PathTo memory (memory a).left b waiting) :
      PathTo memory (some a) b waiting
  | right {a b : ι} {waiting : Nat} (h : PathTo memory (memory a).right b waiting) :
      PathTo memory (some a) b (waiting + if (memory a).left.isSome then 1 else 0)

/-- The nodes in the order of the iterator. -/
def visits : LinkedTree ι (κ × ν) → List ι
  | .nil => []
  | .node address _ left right => address :: (visits right ++ visits left)

/-- The elements that the stack needs for a tree, its root included. -/
def peak : LinkedTree ι (κ × ν) → Nat
  | .nil => 0
  | .node _ _ left right =>
      max 1 (max ((if left.pointer.isSome then 1 else 0) + peak right) (peak left))

theorem visits_perm (t : LinkedTree ι (κ × ν)) : (visits t).Perm t.addresses := by
  induction t with
  | nil => exact .refl _
  | node a item left right ihleft ihright =>
      rw [visits, LinkedTree.addresses_node]
      have hswap : (visits right ++ visits left).Perm (left.addresses ++ right.addresses) :=
        (ihright.append ihleft).trans List.perm_append_comm
      exact (hswap.cons a).trans List.perm_middle.symm

/-- The nodes of a tree are those that paths lead to. -/
theorem mem_addresses_iff {memory : ι → SplayNode ι κ ν} {t : LinkedTree ι (κ × ν)}
    (h : t.Stored (cells memory)) (b : ι) :
    b ∈ t.addresses ↔ ∃ waiting, PathTo memory t.pointer b waiting := by
  induction t with
  | nil => exact iff_of_false (by simp) (by rintro ⟨_, ⟨⟩⟩)
  | node a item left right ihleft ihright =>
      obtain ⟨hcell, hleft, hright⟩ := h
      have hlink : (memory a).left = left.pointer := congrArg Lib.Cell.left hcell
      have hlink' : (memory a).right = right.pointer := congrArg Lib.Cell.right hcell
      rw [LinkedTree.addresses_node, List.mem_append, List.mem_cons, ihleft hleft, ihright hright,
        ← hlink, ← hlink']
      constructor
      · rintro (⟨waiting, hpath⟩ | rfl | ⟨waiting, hpath⟩)
        · exact ⟨_, .left hpath⟩
        · exact ⟨_, .here _⟩
        · exact ⟨_, .right hpath⟩
      · rintro ⟨waiting, hpath⟩
        cases hpath with
        | here => exact .inr (.inl rfl)
        | left hpath => exact .inl ⟨_, hpath⟩
        | right hpath => exact .inr (.inr ⟨_, hpath⟩)

/-- The stack needs one more element than left children wait at any node. -/
theorem pathTo_bounded_iff {memory : ι → SplayNode ι κ ν} {t : LinkedTree ι (κ × ν)}
    (h : t.Stored (cells memory)) (start bound : Nat) :
    (∀ b waiting, PathTo memory t.pointer b waiting → start + waiting < bound) ↔
      t.pointer = none ∨ start + peak t ≤ bound := by
  induction t generalizing start with
  | nil => exact iff_of_true (fun _ _ hpath => by cases hpath) (.inl rfl)
  | node a item left right ihleft ihright =>
      obtain ⟨hcell, hleft, hright⟩ := h
      have hlink : (memory a).left = left.pointer := congrArg Lib.Cell.left hcell
      have hlink' : (memory a).right = right.pointer := congrArg Lib.Cell.right hcell
      have hone : (if left.pointer.isSome then 1 else 0) ≤ 1 := by split <;> omega
      have hsplit : (∀ b waiting, PathTo memory (LinkedTree.node a item left right).pointer b waiting →
          start + waiting < bound) ↔ start < bound ∧
          (∀ b waiting, PathTo memory left.pointer b waiting → start + waiting < bound) ∧
          ∀ b waiting, PathTo memory right.pointer b waiting →
            start + (if left.pointer.isSome then 1 else 0) + waiting < bound := by
        constructor
        · intro hall
          refine ⟨hall a 0 (.here a), fun b waiting hpath => hall b waiting ?_,
            fun b waiting hpath => ?_⟩
          · exact .left (hlink ▸ hpath)
          · have hstep := hall b _ (.right (hlink' ▸ hpath))
            rw [hlink] at hstep
            omega
        · rintro ⟨hhere, hbefore, hafter⟩ b waiting hpath
          cases hpath with
          | here => exact hhere
          | left hpath => exact hbefore b waiting (hlink ▸ hpath)
          | right hpath =>
              have hstep := hafter b _ (hlink' ▸ hpath)
              rw [hlink]
              omega
      rw [hsplit, ihleft hleft, ihright hright, peak]
      have hnil : ∀ t : LinkedTree ι (κ × ν), t.pointer = none → peak t = 0 := by
        intro t ht
        rw [LinkedTree.pointer_eq_none.mp ht, peak]
      have hnone : (LinkedTree.node a item left right).pointer ≠ none := Option.some_ne_none _
      constructor
      · rintro ⟨hhere, hbefore, hafter⟩
        right
        have h₁ : start + peak left ≤ bound := by
          rcases hbefore with hbefore | hbefore
          · rw [hnil _ hbefore]
            omega
          · exact hbefore
        have h₂ : start + (if left.pointer.isSome then 1 else 0) + peak right ≤ bound := by
          rcases hafter with hafter | hafter
          · rw [hnil _ hafter]
            omega
          · exact hafter
        omega
      · rintro (hcontra | hle)
        · exact absurd hcontra hnone
        · exact ⟨by omega, .inr (by omega), .inr (by omega)⟩

/-- The trees with one more, if it has a node. -/
def pushTree (t : LinkedTree ι (κ × ν)) (trees : List (LinkedTree ι (κ × ν))) :
    List (LinkedTree ι (κ × ν)) :=
  match t with
  | .nil => trees
  | .node address item left right => .node address item left right :: trees

/-- Each tree has the room that it needs above the trees that wait below it. -/
def Fits : List (LinkedTree ι (κ × ν)) → Prop
  | [] => True
  | t :: trees => trees.length + peak t ≤ MAX_STACK_SIZE ∧ Fits trees

theorem length_pushTree (t : LinkedTree ι (κ × ν)) (trees : List (LinkedTree ι (κ × ν))) :
    (pushTree t trees).length = trees.length + if t.pointer.isSome then 1 else 0 := by
  cases t <;> rfl

theorem flatMap_pushTree (t : LinkedTree ι (κ × ν)) (trees : List (LinkedTree ι (κ × ν))) :
    (pushTree t trees).flatMap visits = visits t ++ trees.flatMap visits := by
  cases t <;> rfl

theorem fits_pushTree {t : LinkedTree ι (κ × ν)} {trees : List (LinkedTree ι (κ × ν))}
    (hle : trees.length ≤ MAX_STACK_SIZE) :
    Fits (pushTree t trees) ↔ trees.length + peak t ≤ MAX_STACK_SIZE ∧ Fits trees := by
  cases t with
  | nil => exact ⟨fun h => ⟨hle, h⟩, And.right⟩
  | node => exact Iff.rfl

/-- A tree fits when its children fit in its place. -/
theorem fits_node {a : ι} {item : κ × ν} {left right : LinkedTree ι (κ × ν)}
    {trees : List (LinkedTree ι (κ × ν))} (hlt : trees.length < MAX_STACK_SIZE) :
    Fits (.node a item left right :: trees) ↔ Fits (pushTree right (pushTree left trees)) := by
  have hlength := length_pushTree left trees
  have hone : (if left.pointer.isSome then 1 else 0) ≤ 1 := by split <;> omega
  rw [fits_pushTree (by omega), fits_pushTree (Nat.le_of_lt hlt), hlength, Fits, peak]
  constructor
  · rintro ⟨hpeak, hfits⟩
    exact ⟨by omega, by omega, hfits⟩
  · rintro ⟨hright, hleft, hfits⟩
    exact ⟨by omega, hfits⟩

end SplayTree

namespace SplayTreeIterator

open Lib (LinkedTree)
open SplayTree

variable {ι κ ν : Type} {memory : ι → SplayNode ι κ ν} {trees : List (LinkedTree ι (κ × ν))}

/-- The stack has the roots of the trees. -/
structure OnStack (memory : ι → SplayNode ι κ ν) (stack : MyStack ι)
    (trees : List (LinkedTree ι (κ × ν))) : Prop where
  roots : trees.map LinkedTree.pointer = stack.items.map some
  stored : ∀ t ∈ trees, t.Stored (cells memory)

theorem OnStack.length {stack : MyStack ι} (h : OnStack memory stack trees) :
    trees.length = stack.items.length := by
  have hlength := congrArg List.length h.roots
  rwa [List.length_map, List.length_map] at hlength

/-- A child is pushed, unless the stack is full. -/
theorem OnStack.pushChild {stack : MyStack ι} (h : OnStack memory stack trees)
    {t : LinkedTree ι (κ × ν)} (ht : t.Stored (cells memory)) :
    (∃ stack', SplayTreeIterator.pushChild stack t.pointer = some stack' ∧
        OnStack memory stack' (pushTree t trees)) ∨
      SplayTreeIterator.pushChild stack t.pointer = none ∧
        MAX_STACK_SIZE < (pushTree t trees).length := by
  cases t with
  | nil => exact .inl ⟨stack, rfl, h⟩
  | node a item left right =>
      have hlength := h.length
      by_cases hroom : stack.items.length < MAX_STACK_SIZE
      · refine .inl ⟨⟨a :: stack.items, hroom⟩, dif_pos hroom, ?_, ?_⟩
        · rw [pushTree, List.map_cons, h.roots]
          rfl
        · intro t' ht'
          rcases List.mem_cons.mp ht' with rfl | ht'
          · exact ht
          · exact h.stored t' ht'
      · refine .inr ⟨dif_neg hroom, ?_⟩
        rw [pushTree, List.length_cons]
        omega

/-- The root on top is visited and its children take its place. -/
theorem next_node {it : SplayTreeIterator ι} {a : ι} {item : κ × ν}
    {left right : LinkedTree ι (κ × ν)}
    (h : OnStack memory it.stack (.node a item left right :: trees)) :
    it.hasNext = true ∧ trees.length < MAX_STACK_SIZE ∧
      ((∃ it', it.next memory = some (some a, it') ∧ it'.processed = it.processed + 1 ∧
          OnStack memory it'.stack (pushTree right (pushTree left trees))) ∨
        it.next memory = none ∧ ¬ Fits (pushTree right (pushTree left trees))) := by
  obtain ⟨hcell, hleft, hright⟩ := h.stored _ List.mem_cons_self
  have hlink : (memory a).left = left.pointer := congrArg Lib.Cell.left hcell
  have hlink' : (memory a).right = right.pointer := congrArg Lib.Cell.right hcell
  have hlength := h.length
  have hroots := h.roots
  obtain ⟨⟨items, hfits⟩, processed, treeSize⟩ := it
  cases items with
  | nil => cases hroots
  | cons top rest =>
      rw [List.map_cons, List.map_cons] at hroots
      obtain ⟨htop, hrest⟩ := List.cons.inj hroots
      obtain rfl : a = top := Option.some.inj htop
      simp only [List.length_cons] at hlength hfits
      have hnext : hasNext ⟨⟨a :: rest, hfits⟩, processed, treeSize⟩ = true :=
        decide_eq_true (Nat.succ_pos _)
      have hpop : OnStack memory ⟨rest, Nat.le_of_succ_le hfits⟩ trees :=
        ⟨hrest, fun t ht => h.stored t (List.mem_cons_of_mem _ ht)⟩
      have hstep : next memory ⟨⟨a :: rest, hfits⟩, processed, treeSize⟩ =
          (SplayTreeIterator.pushChild ⟨rest, Nat.le_of_succ_le hfits⟩ left.pointer).bind fun stack =>
            (SplayTreeIterator.pushChild stack right.pointer).bind fun stack =>
              some (some a, ⟨stack, processed + 1, treeSize⟩) := by
        rw [next, if_pos hnext, ← hlink, ← hlink']
        rfl
      refine ⟨hnext, by omega, ?_⟩
      rw [hstep]
      rcases hpop.pushChild hleft with ⟨stack₁, hpush₁, hstack₁⟩ | ⟨-, hfull⟩
      · rw [hpush₁, Option.bind_some]
        rcases hstack₁.pushChild hright with ⟨stack₂, hpush₂, hstack₂⟩ | ⟨hpush₂, hfull⟩
        · rw [hpush₂]
          exact .inl ⟨_, rfl, rfl, hstack₂⟩
        · rw [hpush₂]
          refine .inr ⟨rfl, fun hfit => ?_⟩
          -- the right child has a node, which needs room
          cases right with
          | nil =>
              rw [pushTree] at hfull
              have hle := hstack₁.length ▸ stack₁.fits
              omega
          | node b item' left' right' =>
              have hpos : 1 ≤ peak (LinkedTree.node b item' left' right') := Nat.le_max_left _ _
              have hneed := hfit.1
              rw [pushTree, List.length_cons] at hfull
              omega
      · exfalso
        rw [length_pushTree] at hfull
        have hone : (if left.pointer.isSome then 1 else 0) ≤ 1 := by split <;> omega
        omega

/-- The iteration ends with the nodes of all trees, or at a push on the full stack. -/
theorem iterate_spec {it : SplayTreeIterator ι} (h : OnStack memory it.stack trees) (fuel : Nat) :
    (Fits trees → (trees.flatMap visits).length < fuel →
      ∃ it', iterate memory fuel it = some ((trees.flatMap visits).map some, it') ∧
        it'.hasNext = false ∧ it'.processed = it.processed + (trees.flatMap visits).length) ∧
    (¬ Fits trees → iterate memory fuel it = none) := by
  induction fuel generalizing it trees with
  | zero => exact ⟨fun _ hlt => absurd hlt (Nat.not_lt_zero _), fun _ => rfl⟩
  | succ fuel ih =>
      cases trees with
      | nil =>
          have hitems : it.stack.items = [] := List.map_eq_nil_iff.mp h.roots.symm
          have hdone : it.hasNext = false := by
            rw [hasNext, MyStack.size, hitems]
            rfl
          refine ⟨fun _ _ => ⟨it, ?_, hdone, rfl⟩, fun hnot => absurd trivial hnot⟩
          rw [iterate, hdone]
          rfl
      | cons t trees =>
          cases t with
          | nil =>
              have hroots := h.roots
              cases hitems : it.stack.items with
              | nil =>
                  rw [hitems] at hroots
                  cases hroots
              | cons top rest =>
                  rw [hitems] at hroots
                  cases hroots
          | node a item left right =>
              obtain ⟨hnext, hlt, hstep⟩ := next_node h
              have hvisits : (LinkedTree.node a item left right :: trees).flatMap visits =
                  a :: (pushTree right (pushTree left trees)).flatMap visits := by
                rw [flatMap_pushTree, flatMap_pushTree, List.flatMap_cons, visits]
                simp
              rw [fits_node hlt, hvisits, iterate, if_pos hnext]
              rcases hstep with ⟨it', hstep, hprocessed, hstack⟩ | ⟨hstep, hnot⟩
              · obtain ⟨hdone, hfail⟩ := ih hstack
                rw [hstep]
                refine ⟨fun hfits hlt => ?_, fun hnot => ?_⟩
                · rw [List.length_cons] at hlt
                  obtain ⟨it'', hiterate, hend, hcount⟩ := hdone hfits (by omega)
                  refine ⟨it'', ?_, hend, ?_⟩
                  · simp only [Option.bind_eq_bind, Option.bind_some, hiterate, List.map_cons]
                  · rw [hcount, hprocessed, List.length_cons]
                    omega
                · simp only [Option.bind_eq_bind, Option.bind_some, hfail hnot, Option.bind_none]
              · rw [hstep]
                exact ⟨fun hfits => absurd hfits hnot, fun _ => rfl⟩

/-- An iteration starts with the tree on the stack. -/
theorem constructor_onStack {tree : SplayTree ι κ ν} {t : LinkedTree ι (κ × ν)}
    (hstored : t.Stored (cells tree.memory)) (hroot : t.pointer = tree.root) :
    ∃ it, constructor tree = some it ∧ it.processed = 0 ∧
      OnStack tree.memory it.stack (pushTree t []) := by
  have hempty : OnStack tree.memory MyStack.constructor ([] : List (LinkedTree ι (κ × ν))) :=
    ⟨rfl, fun t ht => (nomatch ht)⟩
  rcases hempty.pushChild hstored with ⟨stack, hpush, hstack⟩ | ⟨-, hfull⟩
  · refine ⟨⟨stack, 0, tree.size⟩, ?_, rfl, hstack⟩
    rw [constructor, ← hroot, hpush]
    rfl
  · rw [length_pushTree] at hfull
    have hone : (if t.pointer.isSome then 1 else 0) ≤ 1 := by split <;> omega
    unfold MAX_STACK_SIZE at hfull
    simp only [List.length_nil] at hfull
    omega

end SplayTreeIterator

/-! ## The nodes of the tree -/

/-- An iteration ends, and returns each node of the tree once. -/
def SplayTree.Enumerates {ι κ ν : Type} (tree : SplayTree ι κ ν) : Prop :=
  ∃ (it : SplayTreeIterator ι) (nodes : List ι), SplayTreeIterator.constructor tree = some it ∧
    (∀ fuel, tree.size < fuel → ∃ it',
      SplayTreeIterator.iterate tree.memory fuel it = some (nodes.map some, it') ∧
        it'.hasNext = false ∧ it'.processed = tree.size) ∧
    nodes.length = tree.size ∧ nodes.Nodup ∧
    ∀ a, a ∈ nodes ↔ ∃ waiting, PathTo tree.memory tree.root a waiting

open SplayTree SplayTreeIterator in
/-- The tree is enumerated when the stack has room for it. -/
theorem SplayTree.Represents.enumerates_iff_peak {ι κ ν : Type} [DecidableEq ι] [LinearOrder κ]
    {tree : SplayTree ι κ ν} {m : NodeMap ι κ ν} {t : Lib.LinkedTree ι (κ × ν)}
    (h : tree.Represents m t) : tree.Enumerates ↔ peak t ≤ MAX_STACK_SIZE := by
  obtain ⟨it, hconstructor, hzero, hstack⟩ := constructor_onStack h.stored h.root
  have hperm := visits_perm t
  have hlength : (visits t).length = tree.size := by
    rw [hperm.length_eq, h.size, Lib.LinkedTree.addresses, List.length_map]
  have hvisits : (pushTree t []).flatMap visits = visits t := by
    rw [flatMap_pushTree, List.flatMap_nil, List.append_nil]
  have hfits : Fits (pushTree t []) ↔ peak t ≤ MAX_STACK_SIZE := by
    rw [fits_pushTree (Nat.zero_le _), List.length_nil, Nat.zero_add]
    exact and_iff_left trivial
  have hiterate := fun fuel => iterate_spec hstack fuel
  simp only [hvisits, hzero, hlength, Nat.zero_add] at hiterate
  rw [← hfits]
  constructor
  · rintro ⟨it₁, nodes, hconstructor₁, hall, -⟩
    rw [hconstructor] at hconstructor₁
    cases hconstructor₁
    obtain ⟨it', hsome, -⟩ := hall (tree.size + 1) (Nat.lt_succ_self _)
    by_contra hnot
    rw [(hiterate (tree.size + 1)).2 hnot] at hsome
    cases hsome
  · intro hfit
    refine ⟨it, visits t, hconstructor, fun fuel hlt => (hiterate fuel).1 hfit hlt, hlength,
      hperm.nodup_iff.mpr h.ordered.addresses, fun a => ?_⟩
    rw [hperm.mem_iff, mem_addresses_iff h.stored, h.root]

open SplayTree in
theorem SplayTree.Represents.bounded_iff {ι κ ν : Type} [DecidableEq ι] [LinearOrder κ]
    {tree : SplayTree ι κ ν} {m : NodeMap ι κ ν} {t : Lib.LinkedTree ι (κ × ν)}
    (h : tree.Represents m t) :
    (∀ a waiting, PathTo tree.memory tree.root a waiting → waiting < MAX_STACK_SIZE) ↔
      peak t ≤ MAX_STACK_SIZE := by
  have hbound := pathTo_bounded_iff h.stored 0 MAX_STACK_SIZE
  simp only [Nat.zero_add] at hbound
  rw [← h.root, hbound]
  refine ⟨fun hcases => ?_, .inr⟩
  rcases hcases with hnil | hpeak
  · rw [Lib.LinkedTree.pointer_eq_none.mp hnil]
    exact Nat.zero_le _
  · exact hpeak

end RayPlatform
