import Mathlib.Logic.Function.Basic
import Mathlib.Order.Lattice

/-!
# SplayTree

A binary search tree that brings the node it is asked for to the root. `splay` works from
the top down: it takes the tree apart along the path to the key, hangs the pieces on a
`header` on the stack, and puts them together again below the node where the path ends.

* Nodes are at addresses of a memory, a pointer is `none` when it is `NULL`. The address that
  the allocator gives to `insert` and what that memory holds are arguments.
* The loops take fuel; `none` as a result is a null pointer that is dereferenced, or a loop
  that has not ended.
* `m_size` counts nodes of the memory, which 64 bits can.
-/

namespace RayPlatform

structure SplayNode (ι κ ν : Type) where
  key : κ
  value : ν
  left : Option ι
  right : Option ι

structure SplayTree (ι κ ν : Type) where
  memory : ι → SplayNode ι κ ν
  root : Option ι
  size : Nat

namespace SplayTree

variable {ι κ ν : Type} [DecidableEq ι] [LinearOrder κ]

/-- What is at one end of a link: the local variable `header` or a node. -/
inductive Place (ι : Type)
  | header
  | node (address : ι)

/-- The variables of `splay`. -/
structure Splaying (ι κ ν : Type) where
  memory : ι → SplayNode ι κ ν
  headerLeft : Option ι
  headerRight : Option ι
  l : Place ι
  r : Place ι
  t : ι

def setLeft (memory : ι → SplayNode ι κ ν) (address : ι) (child : Option ι) :
    ι → SplayNode ι κ ν :=
  Function.update memory address { memory address with left := child }

def setRight (memory : ι → SplayNode ι κ ν) (address : ι) (child : Option ι) :
    ι → SplayNode ι κ ν :=
  Function.update memory address { memory address with right := child }

namespace Splaying

variable (s : Splaying ι κ ν)

def setLeft (p : Place ι) (child : Option ι) : Splaying ι κ ν :=
  match p with
  | .header => { s with headerLeft := child }
  | .node address => { s with memory := SplayTree.setLeft s.memory address child }

def setRight (p : Place ι) (child : Option ι) : Splaying ι κ ν :=
  match p with
  | .header => { s with headerRight := child }
  | .node address => { s with memory := SplayTree.setRight s.memory address child }

/-- `t` goes under its left child `y`, which takes its place. -/
def rotateWithLeft (y : ι) : Splaying ι κ ν :=
  let s := s.setLeft (.node s.t) (s.memory y).right
  let s := s.setRight (.node y) (some s.t)
  { s with t := y }

/-- `t` goes under its right child `y`, which takes its place. -/
def rotateWithRight (y : ι) : Splaying ι κ ν :=
  let s := s.setRight (.node s.t) (s.memory y).left
  let s := s.setLeft (.node y) (some s.t)
  { s with t := y }

/-- `r->m_left = t; r = t; t = t->m_left;` -/
def linkRight : Option (Splaying ι κ ν) :=
  let s := s.setLeft s.r (some s.t)
  (s.memory s.t).left.map fun child => { s with r := .node s.t, t := child }

/-- `l->m_right = t; l = t; t = t->m_right;` -/
def linkLeft : Option (Splaying ι κ ν) :=
  let s := s.setRight s.l (some s.t)
  (s.memory s.t).right.map fun child => { s with l := .node s.t, t := child }

/-- The loop of `splay`. -/
def loop (key : κ) : Nat → Splaying ι κ ν → Option (Splaying ι κ ν)
  | 0, _ => none
  | fuel + 1, s =>
      if key < (s.memory s.t).key then
        match (s.memory s.t).left with
        | none => some s
        | some y =>
            if key < (s.memory y).key then
              let s := s.rotateWithLeft y
              match (s.memory s.t).left with
              | none => some s
              | some _ => s.linkRight.bind (loop key fuel)
            else s.linkRight.bind (loop key fuel)
      else if (s.memory s.t).key < key then
        match (s.memory s.t).right with
        | none => some s
        | some y =>
            if (s.memory y).key < key then
              let s := s.rotateWithRight y
              match (s.memory s.t).right with
              | none => some s
              | some _ => s.linkLeft.bind (loop key fuel)
            else s.linkLeft.bind (loop key fuel)
      else some s

/-- The pieces are put under `t`. -/
def assemble : Splaying ι κ ν :=
  let s := s.setRight s.l (s.memory s.t).left
  let s := s.setLeft s.r (s.memory s.t).right
  let s := s.setLeft (.node s.t) s.headerRight
  s.setRight (.node s.t) s.headerLeft

end Splaying

variable (tree : SplayTree ι κ ν)

def constructor (memory : ι → SplayNode ι κ ν) : SplayTree ι κ ν :=
  { memory := memory, root := none, size := 0 }

def splay (fuel : Nat) (key : κ) : Option (SplayTree ι κ ν) :=
  tree.root.bind fun root =>
    let start : Splaying ι κ ν :=
      { memory := tree.memory, headerLeft := none, headerRight := none, l := .header,
        r := .header, t := root }
    (start.loop key fuel).map fun s =>
      let s := s.assemble
      { tree with memory := s.memory, root := some s.t }

/-- The maximum node below a node. -/
def maxNode (memory : ι → SplayNode ι κ ν) : Nat → ι → Option ι
  | 0, _ => none
  | fuel + 1, node =>
      match (memory node).right with
      | none => some node
      | some right => maxNode memory fuel right

/-- What becomes of the memory of the node is up to the allocator. -/
def remove (fuel : Nat) (key : κ) : Option (SplayTree ι κ ν × Bool) :=
  match tree.root with
  | none => some (tree, false)
  | some _ => do
      let tree ← tree.splay fuel key
      let root ← tree.root
      if (tree.memory root).key ≠ key then
        some (tree, false)
      else
        let rightSubTree := (tree.memory root).right
        match (tree.memory root).left with
        | some leftSubTree =>
            let maxNodeInLeftTree ← maxNode tree.memory fuel leftSubTree
            -- make it the root of the left subtree
            let tree ← { tree with root := some leftSubTree }.splay fuel
              (tree.memory maxNodeInLeftTree).key
            let root ← tree.root
            some ({ tree with
              memory := setRight tree.memory root rightSubTree
              size := tree.size - 1 }, true)
        | none => some ({ tree with root := rightSubTree, size := tree.size - 1 }, true)

/-- The allocator gives `address`; `init` does not write the value. -/
def insert (fuel : Nat) (key : κ) (address : ι) (value : ν) :
    Option (SplayTree ι κ ν × ι × Bool) :=
  match tree.root with
  | none =>
      some ({ tree with
        memory := Function.update tree.memory address ⟨key, value, none, none⟩
        root := some address
        size := tree.size + 1 }, address, true)
  | some _ => do
      let tree ← tree.splay fuel key
      let root ← tree.root
      if (tree.memory root).key = key then
        some (tree, root, false)
      else
        let n : ι → SplayNode ι κ ν := Function.update tree.memory address ⟨key, value, none, none⟩
        let memory :=
          if key < (n root).key then
            let n := setLeft n address (n root).left
            let n := setRight n address (some root)
            setLeft n root none
          else
            let n := setRight n address (n root).right
            let n := setLeft n address (some root)
            setRight n root none
        some ({ memory := memory, root := some address, size := tree.size + 1 }, address, true)

def findBinary (memory : ι → SplayNode ι κ ν) (key : κ) : Nat → Option ι → Option (Option ι)
  | _, none => some none
  | 0, some _ => none
  | fuel + 1, some t =>
      if (memory t).key = key then some (some t)
      else if key < (memory t).key then findBinary memory key fuel (memory t).left
      else findBinary memory key fuel (memory t).right

def find (fuel : Nat) (key : κ) (frozen : Bool) : Option (SplayTree ι κ ν × Option ι) :=
  if frozen then (findBinary tree.memory key fuel tree.root).map fun node => (tree, node)
  else
    match tree.root with
    | none => some (tree, none)
    | some _ => do
        let tree ← tree.splay fuel key
        let root ← tree.root
        if (tree.memory root).key ≠ key then some (tree, none) else some (tree, some root)

/-- `setValue` on a node. -/
def setValue (address : ι) (value : ν) : SplayTree ι κ ν :=
  { tree with
    memory := Function.update tree.memory address { tree.memory address with value := value } }

end SplayTree

end RayPlatform
