import RayPlatform.Lib.LinkedTree
import RayPlatform.Structures.SplayTree

/-!
# What splay does to the memory

While `splay` runs the nodes of the tree are in three pieces: what is left of the tree below
`t`, and the spines that hang on the header (`Torn`). Rotations and links move nodes between
them and keep their order; the loop ends where the nodes before `t` have smaller keys and
those after it larger keys than the one asked for (`Torn.loop`), and `assemble` makes one
tree of the pieces (`Torn.assemble`).
-/

namespace RayPlatform.SplayTree

open Lib (Cell Frame Hangs LinkedTree Side plug spineList)

variable {ι κ ν : Type} [DecidableEq ι]

/-- The memory of the nodes, with the key and the value as the item. -/
def cells (memory : ι → SplayNode ι κ ν) (a : ι) : Cell ι (κ × ν) :=
  ⟨((memory a).key, (memory a).value), (memory a).left, (memory a).right⟩

theorem cells_setLeft (memory : ι → SplayNode ι κ ν) (a : ι) (child : Option ι) :
    cells (setLeft memory a child) =
      Function.update (cells memory) a (Side.right.setHole (cells memory a) child) := by
  funext b
  by_cases hb : b = a
  · subst hb
    simp [cells, setLeft, Side.setHole]
  · simp [cells, setLeft, hb]

theorem cells_setRight (memory : ι → SplayNode ι κ ν) (a : ι) (child : Option ι) :
    cells (setRight memory a child) =
      Function.update (cells memory) a (Side.left.setHole (cells memory a) child) := by
  funext b
  by_cases hb : b = a
  · subst hb
    simp [cells, setRight, Side.setHole]
  · simp [cells, setRight, hb]

omit [DecidableEq ι] in
theorem cells_congr {memory memory' : ι → SplayNode ι κ ν} {a : ι} (h : memory' a = memory a) :
    cells memory' a = cells memory a := by
  rw [cells, h]
  rfl

/-- The last node of a spine, where the next link is written. -/
def place : List (Frame ι (κ × ν)) → Place ι
  | [] => .header
  | f :: _ => .node f.address

abbrev Entry (ι κ ν : Type) := ι × (κ × ν)

def Entry.key (e : Entry ι κ ν) : κ :=
  e.2.1

/-! ## Where the writes go -/

section Writes

variable {s : Splaying ι κ ν} {spine : List (Frame ι (κ × ν))} {hole child : Option ι}

/-- A link is written at the end of the right spine. -/
theorem hangs_setLeft (h : Hangs .right (cells s.memory) s.headerLeft spine hole)
    (hnodup : ((spineList .right spine).map Prod.fst).Nodup) :
    Hangs .right (cells (s.setLeft (place spine) child).memory)
      (s.setLeft (place spine) child).headerLeft spine child := by
  cases spine with
  | nil => rfl
  | cons f rest =>
      show Hangs .right (cells (setLeft s.memory f.address child)) s.headerLeft (f :: rest) child
      rw [cells_setLeft]
      exact h.setHole hnodup

theorem hangs_setRight (h : Hangs .left (cells s.memory) s.headerRight spine hole)
    (hnodup : ((spineList .left spine).map Prod.fst).Nodup) :
    Hangs .left (cells (s.setRight (place spine) child).memory)
      (s.setRight (place spine) child).headerRight spine child := by
  cases spine with
  | nil => rfl
  | cons f rest =>
      show Hangs .left (cells (setRight s.memory f.address child)) s.headerRight (f :: rest) child
      rw [cells_setRight]
      exact h.setHole hnodup

omit [DecidableEq ι] in
theorem mem_spineList (side : Side) (f : Frame ι (κ × ν)) (rest : List (Frame ι (κ × ν))) :
    f.address ∈ (spineList side (f :: rest)).map Prod.fst := by
  rw [(Lib.spineList_perm side f rest).mem_iff]
  exact List.mem_cons_self

/-- Such a write leaves all other nodes and the other side of the header alone. -/
theorem setLeft_frame {b : ι} (side : Side) (hb : b ∉ (spineList side spine).map Prod.fst) :
    (s.setLeft (place spine) child).memory b = s.memory b := by
  cases spine with
  | nil => rfl
  | cons f rest =>
      refine Function.update_of_ne ?_ _ _
      rintro rfl
      exact hb (mem_spineList side f rest)

theorem setRight_frame {b : ι} (side : Side) (hb : b ∉ (spineList side spine).map Prod.fst) :
    (s.setRight (place spine) child).memory b = s.memory b := by
  cases spine with
  | nil => rfl
  | cons f rest =>
      refine Function.update_of_ne ?_ _ _
      rintro rfl
      exact hb (mem_spineList side f rest)

variable (s)

@[simp] theorem setLeft_headerRight (p : Place ι) (child : Option ι) :
    (s.setLeft p child).headerRight = s.headerRight := by
  cases p <;> rfl

@[simp] theorem setRight_headerLeft (p : Place ι) (child : Option ι) :
    (s.setRight p child).headerLeft = s.headerLeft := by
  cases p <;> rfl

@[simp] theorem setLeft_l (p : Place ι) (child : Option ι) : (s.setLeft p child).l = s.l := by
  cases p <;> rfl

@[simp] theorem setLeft_t (p : Place ι) (child : Option ι) : (s.setLeft p child).t = s.t := by
  cases p <;> rfl

@[simp] theorem setRight_r (p : Place ι) (child : Option ι) : (s.setRight p child).r = s.r := by
  cases p <;> rfl

@[simp] theorem setRight_t (p : Place ι) (child : Option ι) : (s.setRight p child).t = s.t := by
  cases p <;> rfl

end Writes

/-! ## The pieces -/

variable [LinearOrder κ]

/-- The nodes of a search tree in order, each at an address of its own. -/
structure Ordered (list : List (Entry ι κ ν)) : Prop where
  keys : list.Pairwise fun e e' => e.key < e'.key
  addresses : (list.map Prod.fst).Nodup

/-- The tree in pieces. -/
structure Torn (key : κ) (memory : ι → SplayNode ι κ ν) (list : List (Entry ι κ ν))
    (s : Splaying ι κ ν) (t : LinkedTree ι (κ × ν)) (ls rs : List (Frame ι (κ × ν))) : Prop where
  stored : t.Stored (cells s.memory)
  pointer : t.pointer = some s.t
  left : ∃ hole, Hangs .left (cells s.memory) s.headerRight ls hole
  right : ∃ hole, Hangs .right (cells s.memory) s.headerLeft rs hole
  l : s.l = place ls
  r : s.r = place rs
  /-- no node is lost, and their order stays -/
  parts : spineList .left ls ++ t.toList ++ spineList .right rs = list
  below : ∀ e ∈ spineList .left ls, Entry.key e < key
  above : ∀ e ∈ spineList .right rs, key < Entry.key e
  frame : ∀ b, b ∉ list.map Prod.fst → s.memory b = memory b

section Pieces

variable {list : List (Entry ι κ ν)} {ls rs : List (Frame ι (κ × ν))}
  {t left right : LinkedTree ι (κ × ν)} {a : ι} {item : κ × ν}

/-- The addresses of the pieces. -/
structure Apart (t : LinkedTree ι (κ × ν)) (ls rs : List (Frame ι (κ × ν))) : Prop where
  left : ((spineList .left ls).map Prod.fst).Nodup
  tree : t.addresses.Nodup
  right : ((spineList .right rs).map Prod.fst).Nodup
  not_left : ∀ b ∈ t.addresses, b ∉ (spineList .left ls).map Prod.fst
  not_right : ∀ b ∈ t.addresses, b ∉ (spineList .right rs).map Prod.fst
  spines : ∀ b ∈ (spineList .left ls).map Prod.fst, b ∉ (spineList .right rs).map Prod.fst

omit [DecidableEq ι] [LinearOrder κ] in
theorem apart_of_nodup
    (h : ((spineList .left ls ++ t.toList ++ spineList .right rs).map Prod.fst).Nodup) :
    Apart t ls rs := by
  rw [List.map_append, List.map_append, List.nodup_append, List.nodup_append] at h
  obtain ⟨⟨hleft, htree, hnotleft⟩, hright, hnotright⟩ := h
  refine ⟨hleft, htree, hright, fun b hb hmem => ?_, fun b hb hmem => ?_, fun b hb hmem => ?_⟩
  · exact hnotleft b hmem b hb rfl
  · exact hnotright b (List.mem_append_right _ hb) b hmem rfl
  · exact hnotright b (List.mem_append_left _ hb) b hmem rfl

omit [DecidableEq ι] in
/-- A search tree, by its root and its subtrees. -/
theorem ordered_node : Ordered (LinkedTree.node a item left right).toList ↔
    (Ordered left.toList ∧ Ordered right.toList) ∧
      ((∀ e ∈ left.toList, Entry.key e < item.1) ∧ ∀ e ∈ right.toList, item.1 < Entry.key e) ∧
      (a ∉ left.addresses ∧ a ∉ right.addresses ∧ ∀ b ∈ left.addresses, b ∉ right.addresses) := by
  refine ⟨fun h => ?_, fun ⟨hboth, ⟨hbefore, hafter⟩, hroot, hroot', hapart⟩ => ⟨?_, ?_⟩⟩
  · have hkeys := h.keys
    have hnodup := h.addresses
    rw [LinkedTree.toList, List.pairwise_append, List.pairwise_cons] at hkeys
    rw [LinkedTree.toList, List.map_append, List.map_cons, List.nodup_append,
      List.nodup_cons] at hnodup
    obtain ⟨hleft, ⟨hafter, hright⟩, hcross⟩ := hkeys
    obtain ⟨hleft', ⟨hroot', hright'⟩, hcross'⟩ := hnodup
    refine ⟨⟨⟨hleft, hleft'⟩, hright, hright'⟩,
      ⟨fun e he => hcross e he _ List.mem_cons_self, hafter⟩, fun hmem => ?_, hroot',
      fun b hb hmem => ?_⟩
    · exact hcross' a hmem a List.mem_cons_self rfl
    · exact hcross' b hb b (List.mem_cons_of_mem _ hmem) rfl
  · rw [LinkedTree.toList, List.pairwise_append, List.pairwise_cons]
    refine ⟨hboth.1.keys, ⟨hafter, hboth.2.keys⟩, fun e he e' he' => ?_⟩
    rcases List.mem_cons.mp he' with rfl | he'
    · exact hbefore e he
    · exact lt_trans (hbefore e he) (hafter e' he')
  · rw [LinkedTree.toList, List.map_append, List.map_cons, List.nodup_append, List.nodup_cons]
    refine ⟨hboth.1.addresses, ⟨hroot', hboth.2.addresses⟩, fun b hb b' hb' => ?_⟩
    rintro rfl
    rcases List.mem_cons.mp hb' with rfl | hb'
    · exact hroot hb
    · exact hapart b hb hb'

omit [DecidableEq ι] in
/-- Around the root of the piece in the middle. -/
theorem Ordered.middle (h : Ordered list)
    (hparts : spineList .left ls ++ (LinkedTree.node a item left right).toList ++
      spineList .right rs = list) :
    (∀ e ∈ left.toList, Entry.key e < item.1) ∧ ∀ e ∈ right.toList, item.1 < Entry.key e := by
  have hkeys := h.keys
  have hnodup := h.addresses
  rw [← hparts, List.pairwise_append, List.pairwise_append] at hkeys
  rw [← hparts] at hnodup
  exact (ordered_node.mp ⟨hkeys.1.2.1, (apart_of_nodup hnodup).tree⟩).2.1

/-- `linkRight` moves the root and what is right of it to the right spine. -/
theorem Torn.linkRight {key : κ} {memory : ι → SplayNode ι κ ν} {s : Splaying ι κ ν}
    (h : Torn key memory list s (.node a item left right) ls rs) (horder : Ordered list)
    (hkey : key < item.1) {child : ι} (hchild : left.pointer = some child) :
    ∃ s', s.linkRight = some s' ∧ Torn key memory list s' left ls (⟨a, item, right⟩ :: rs) := by
  have hapart := apart_of_nodup (h.parts ▸ horder.addresses)
  obtain ⟨-, hright⟩ := horder.middle h.parts
  obtain ⟨hcell, hstored, hstoredRight⟩ := h.stored
  obtain ⟨hole, hhangs⟩ := h.right
  obtain rfl : s.t = a := (Option.some.inj h.pointer).symm
  -- the nodes that are not in the right spine stay as they are
  let next := s.setLeft s.r (some s.t)
  have hkeep : ∀ b, b ∉ (spineList .right rs).map Prod.fst → next.memory b = s.memory b := by
    intro b hb
    show (s.setLeft s.r (some s.t)).memory b = _
    rw [h.r]
    exact setLeft_frame .right hb
  have hmiddle : ∀ b ∈ (LinkedTree.node s.t item left right).addresses,
      cells next.memory b = cells s.memory b :=
    fun b hb => cells_congr (hkeep b (hapart.not_right b hb))
  simp only [LinkedTree.addresses_node, List.mem_append, List.mem_cons] at hmiddle
  have hroot : cells next.memory s.t = ⟨item, left.pointer, right.pointer⟩ := by
    rw [hmiddle s.t (.inr (.inl rfl)), hcell]
  have hspine : Hangs .right (cells next.memory) next.headerLeft rs (some s.t) := by
    show Hangs .right (cells (s.setLeft s.r (some s.t)).memory)
      (s.setLeft s.r (some s.t)).headerLeft rs (some s.t)
    rw [h.r]
    exact hangs_setLeft hhangs hapart.right
  refine ⟨{ next with r := .node s.t, t := child }, ?_, ?_⟩
  · have hleft : (next.memory s.t).left = some child := by
      rw [← hchild]
      exact congrArg Cell.left hroot
    show ((next.memory next.t).left.map _ : Option (Splaying ι κ ν)) = _
    rw [show next.t = s.t from setLeft_t s _ _, hleft]
    rfl
  · exact
      { stored := hstored.congr fun b hb => hmiddle b (.inl hb)
        pointer := hchild
        left := by
          obtain ⟨leftHole, hleft⟩ := h.left
          refine ⟨leftHole, ?_⟩
          show Hangs .left (cells next.memory) (s.setLeft s.r (some s.t)).headerRight ls leftHole
          rw [setLeft_headerRight]
          exact hleft.congr fun b hb => cells_congr (hkeep b (hapart.spines b hb))
        right := ⟨left.pointer, Hangs.push (f := ⟨s.t, item, right⟩) hspine hroot
          (hstoredRight.congr fun b hb => hmiddle b (.inr (.inr hb)))⟩
        l := (setLeft_l s _ _).trans h.l
        r := rfl
        parts := by
          rw [← h.parts]
          simp [spineList, LinkedTree.toList]
        below := h.below
        above := by
          intro e he
          simp only [spineList, List.cons_append, List.mem_cons, List.mem_append] at he
          rcases he with rfl | he | he
          · exact hkey
          · exact lt_trans hkey (hright e he)
          · exact h.above e he
        frame := by
          intro b hb
          refine (hkeep b fun hmem => hb ?_).trans (h.frame b hb)
          rw [← h.parts, List.map_append]
          exact List.mem_append_right _ hmem }

/-- `linkLeft` moves the root and what is left of it to the left spine. -/
theorem Torn.linkLeft {key : κ} {memory : ι → SplayNode ι κ ν} {s : Splaying ι κ ν}
    (h : Torn key memory list s (.node a item left right) ls rs) (horder : Ordered list)
    (hkey : item.1 < key) {child : ι} (hchild : right.pointer = some child) :
    ∃ s', s.linkLeft = some s' ∧ Torn key memory list s' right (⟨a, item, left⟩ :: ls) rs := by
  have hapart := apart_of_nodup (h.parts ▸ horder.addresses)
  obtain ⟨hleft, -⟩ := horder.middle h.parts
  obtain ⟨hcell, hstoredLeft, hstored⟩ := h.stored
  obtain ⟨hole, hhangs⟩ := h.left
  obtain rfl : s.t = a := (Option.some.inj h.pointer).symm
  -- the nodes that are not in the left spine stay as they are
  let next := s.setRight s.l (some s.t)
  have hkeep : ∀ b, b ∉ (spineList .left ls).map Prod.fst → next.memory b = s.memory b := by
    intro b hb
    show (s.setRight s.l (some s.t)).memory b = _
    rw [h.l]
    exact setRight_frame .left hb
  have hmiddle : ∀ b ∈ (LinkedTree.node s.t item left right).addresses,
      cells next.memory b = cells s.memory b :=
    fun b hb => cells_congr (hkeep b (hapart.not_left b hb))
  simp only [LinkedTree.addresses_node, List.mem_append, List.mem_cons] at hmiddle
  have hroot : cells next.memory s.t = ⟨item, left.pointer, right.pointer⟩ := by
    rw [hmiddle s.t (.inr (.inl rfl)), hcell]
  have hspine : Hangs .left (cells next.memory) next.headerRight ls (some s.t) := by
    show Hangs .left (cells (s.setRight s.l (some s.t)).memory)
      (s.setRight s.l (some s.t)).headerRight ls (some s.t)
    rw [h.l]
    exact hangs_setRight hhangs hapart.left
  refine ⟨{ next with l := .node s.t, t := child }, ?_, ?_⟩
  · have hright : (next.memory s.t).right = some child := by
      rw [← hchild]
      exact congrArg Cell.right hroot
    show ((next.memory next.t).right.map _ : Option (Splaying ι κ ν)) = _
    rw [show next.t = s.t from setRight_t s _ _, hright]
    rfl
  · exact
      { stored := hstored.congr fun b hb => hmiddle b (.inr (.inr hb))
        pointer := hchild
        left := ⟨right.pointer, Hangs.push (f := ⟨s.t, item, left⟩) hspine hroot
          (hstoredLeft.congr fun b hb => hmiddle b (.inl hb))⟩
        right := by
          obtain ⟨rightHole, hright⟩ := h.right
          refine ⟨rightHole, ?_⟩
          show Hangs .right (cells next.memory) (s.setRight s.l (some s.t)).headerLeft rs rightHole
          rw [setRight_headerLeft]
          exact hright.congr fun b hb => cells_congr (hkeep b fun hmem => hapart.spines b hmem hb)
        l := rfl
        r := (setRight_r s _ _).trans h.r
        parts := by
          rw [← h.parts]
          simp [spineList, LinkedTree.toList]
        below := by
          intro e he
          simp only [spineList, List.mem_append, List.mem_singleton] at he
          rcases he with he | he | rfl
          · exact h.below e he
          · exact lt_trans (hleft e he) hkey
          · exact hkey
        above := h.above
        frame := by
          intro b hb
          refine (hkeep b fun hmem => hb ?_).trans (h.frame b hb)
          rw [← h.parts, List.map_append, List.map_append]
          exact List.mem_append_left _ (List.mem_append_left _ hmem) }

omit [DecidableEq ι] in
/-- Writes to nodes of the piece in the middle that keep its nodes in order. -/
theorem Torn.rebuild {key : κ} {memory memory' : ι → SplayNode ι κ ν} {s : Splaying ι κ ν}
    (h : Torn key memory list s t ls rs) (horder : Ordered list) {t' : LinkedTree ι (κ × ν)}
    {root : ι} (hstored : t'.Stored (cells memory')) (hpointer : t'.pointer = some root)
    (hlist : t'.toList = t.toList)
    (hkeep : ∀ b, b ∉ t.addresses → memory' b = s.memory b) :
    Torn key memory list { s with memory := memory', t := root } t' ls rs := by
  have hapart := apart_of_nodup (h.parts ▸ horder.addresses)
  obtain ⟨leftHole, hleft⟩ := h.left
  obtain ⟨rightHole, hright⟩ := h.right
  exact
    { stored := hstored
      pointer := hpointer
      left := ⟨leftHole, hleft.congr fun b hb =>
        cells_congr (hkeep b fun hmem => hapart.not_left b hmem hb)⟩
      right := ⟨rightHole, hright.congr fun b hb =>
        cells_congr (hkeep b fun hmem => hapart.not_right b hmem hb)⟩
      l := h.l
      r := h.r
      parts := hlist ▸ h.parts
      below := h.below
      above := h.above
      frame := by
        intro b hb
        refine (hkeep b fun hmem => hb ?_).trans (h.frame b hb)
        rw [← h.parts, List.map_append, List.map_append]
        exact List.mem_append_left _ (List.mem_append_right _ hmem) }

theorem Torn.rotateWithLeft {key : κ} {memory : ι → SplayNode ι κ ν} {s : Splaying ι κ ν} {b : ι}
    {item' : κ × ν} {inner : LinkedTree ι (κ × ν)}
    (h : Torn key memory list s (.node a item (.node b item' left inner) right) ls rs)
    (horder : Ordered list) :
    Torn key memory list (s.rotateWithLeft b) (.node b item' left (.node a item inner right))
      ls rs := by
  have hnodup := (apart_of_nodup (h.parts ▸ horder.addresses)).tree
  obtain ⟨hcell, ⟨hcell', hleft, hinner⟩, hright⟩ := h.stored
  obtain rfl : s.t = a := (Option.some.inj h.pointer).symm
  simp only [LinkedTree.addresses_node, List.nodup_append, List.nodup_cons, List.mem_append,
    List.mem_cons] at hnodup
  have hne : s.t ≠ b := by grind
  have hlink : (s.memory b).right = inner.pointer := congrArg Cell.right hcell'
  let memory' := setRight (setLeft s.memory s.t (s.memory b).right) b (some s.t)
  have hkeep : ∀ c, c ≠ s.t → c ≠ b → memory' c = s.memory c := fun c ht hb =>
    (Function.update_of_ne hb _ _).trans (Function.update_of_ne ht _ _)
  have hcells : ∀ c, c ≠ s.t → c ≠ b → cells memory' c = cells s.memory c :=
    fun c ht hb => cells_congr (hkeep c ht hb)
  show Torn key memory list { s with memory := memory', t := b } _ ls rs
  refine Torn.rebuild h horder ⟨?_, ?_, ?_, ?_, ?_⟩ rfl ?_ ?_
  · rw [cells_setRight, Function.update_self, cells_setLeft, Function.update_of_ne hne.symm, hcell']
    rfl
  · exact hleft.congr fun c hc => hcells c (by grind) (by grind)
  · rw [cells_setRight, Function.update_of_ne hne, cells_setLeft, Function.update_self, hcell, hlink]
    rfl
  · exact hinner.congr fun c hc => hcells c (by grind) (by grind)
  · exact hright.congr fun c hc => hcells c (by grind) (by grind)
  · simp [LinkedTree.toList]
  · intro c hc
    simp only [LinkedTree.addresses_node, List.mem_append, List.mem_cons, not_or] at hc
    exact hkeep c hc.2.1 hc.1.2.1

theorem Torn.rotateWithRight {key : κ} {memory : ι → SplayNode ι κ ν} {s : Splaying ι κ ν} {b : ι}
    {item' : κ × ν} {inner : LinkedTree ι (κ × ν)}
    (h : Torn key memory list s (.node a item left (.node b item' inner right)) ls rs)
    (horder : Ordered list) :
    Torn key memory list (s.rotateWithRight b) (.node b item' (.node a item left inner) right)
      ls rs := by
  have hnodup := (apart_of_nodup (h.parts ▸ horder.addresses)).tree
  obtain ⟨hcell, hleft, hcell', hinner, hright⟩ := h.stored
  obtain rfl : s.t = a := (Option.some.inj h.pointer).symm
  simp only [LinkedTree.addresses_node, List.nodup_append, List.nodup_cons, List.mem_append,
    List.mem_cons] at hnodup
  have hne : s.t ≠ b := by grind
  have hlink : (s.memory b).left = inner.pointer := congrArg Cell.left hcell'
  let memory' := setLeft (setRight s.memory s.t (s.memory b).left) b (some s.t)
  have hkeep : ∀ c, c ≠ s.t → c ≠ b → memory' c = s.memory c := fun c ht hb =>
    (Function.update_of_ne hb _ _).trans (Function.update_of_ne ht _ _)
  have hcells : ∀ c, c ≠ s.t → c ≠ b → cells memory' c = cells s.memory c :=
    fun c ht hb => cells_congr (hkeep c ht hb)
  show Torn key memory list { s with memory := memory', t := b } _ ls rs
  refine Torn.rebuild h horder ⟨?_, ⟨?_, ?_, ?_⟩, ?_⟩ rfl ?_ ?_
  · rw [cells_setLeft, Function.update_self, cells_setRight, Function.update_of_ne hne.symm, hcell']
    rfl
  · rw [cells_setLeft, Function.update_of_ne hne, cells_setRight, Function.update_self, hcell, hlink]
    rfl
  · exact hleft.congr fun c hc => hcells c (by grind) (by grind)
  · exact hinner.congr fun c hc => hcells c (by grind) (by grind)
  · exact hright.congr fun c hc => hcells c (by grind) (by grind)
  · simp [LinkedTree.toList]
  · intro c hc
    simp only [LinkedTree.addresses_node, List.mem_append, List.mem_cons, not_or] at hc
    exact hkeep c hc.2.1 hc.2.2.2.1

end Pieces

/-! ## The loop -/

section Loop

variable {key : κ} {memory : ι → SplayNode ι κ ν} {list : List (Entry ι κ ν)}
  {s : Splaying ι κ ν} {t : LinkedTree ι (κ × ν)} {ls rs : List (Frame ι (κ × ν))}

/-- Where the loop ends: the key is at `t`, or between what is before and after it. -/
def Parted (key : κ) (memory : ι → SplayNode ι κ ν) (list : List (Entry ι κ ν))
    (s : Splaying ι κ ν) : Prop :=
  ∃ a item left right ls rs, Torn key memory list s (.node a item left right) ls rs ∧
    (∀ e ∈ left.toList, Entry.key e < key) ∧ ∀ e ∈ right.toList, key < Entry.key e

omit [DecidableEq ι] in
/-- There is nothing more on the left. -/
theorem Torn.parted_left {a : ι} {item : κ × ν} {right : LinkedTree ι (κ × ν)}
    (h : Torn key memory list s (.node a item .nil right) ls rs) (horder : Ordered list)
    (hkey : key < item.1) : Parted key memory list s := by
  obtain ⟨-, hright⟩ := horder.middle h.parts
  refine ⟨a, item, .nil, right, ls, rs, h, fun e he => ?_, fun e he => lt_trans hkey (hright e he)⟩
  cases he

omit [DecidableEq ι] in
theorem Torn.parted_right {a : ι} {item : κ × ν} {left : LinkedTree ι (κ × ν)}
    (h : Torn key memory list s (.node a item left .nil) ls rs) (horder : Ordered list)
    (hkey : item.1 < key) : Parted key memory list s := by
  obtain ⟨hleft, -⟩ := horder.middle h.parts
  refine ⟨a, item, left, .nil, ls, rs, h, fun e he => lt_trans (hleft e he) hkey, fun e he => ?_⟩
  cases he

omit [DecidableEq ι] in
/-- What the code reads at `t`. -/
theorem Torn.read {a : ι} {item : κ × ν} {left right : LinkedTree ι (κ × ν)}
    (h : Torn key memory list s (.node a item left right) ls rs) :
    s.t = a ∧ (s.memory a).key = item.1 ∧ (s.memory a).left = left.pointer ∧
      (s.memory a).right = right.pointer :=
  ⟨(Option.some.inj h.pointer).symm, congrArg (·.item.1) h.stored.1,
    congrArg Cell.left h.stored.1, congrArg Cell.right h.stored.1⟩

/-- Two links to the right: a rotation, and the new root goes to the left spine. -/
theorem Torn.loop_right_right {a b c : ι} {item item' : κ × ν}
    {left inner outer : LinkedTree ι (κ × ν)}
    (h : Torn key memory list s (.node a item left (.node b item' inner outer)) ls rs)
    (horder : Ordered list) (hgt : item.1 < key) (hzag : item'.1 < key)
    (houter : outer.pointer = some c) (fuel : Nat) :
    ∃ s', s.loop key (fuel + 1) = s'.loop key fuel ∧
      Torn key memory list s' outer (⟨b, item', .node a item left inner⟩ :: ls) rs := by
  obtain ⟨-, hkey, -, hright⟩ := h.read
  have hkey' : (s.memory b).key = item'.1 := congrArg (·.item.1) h.stored.2.2.1
  have hrotated := h.rotateWithRight horder
  obtain ⟨ht, -, -, hright'⟩ := hrotated.read
  obtain ⟨s', hlink, htorn⟩ := hrotated.linkLeft horder hzag houter
  have hroot := h.read.1
  rw [houter] at hright'
  refine ⟨s', ?_, htorn⟩
  rw [Splaying.loop, hroot, hkey, if_neg (not_lt_of_gt hgt), if_pos hgt, hright]
  simp only [LinkedTree.pointer, hkey', if_pos hzag, ht, hright', hlink, Option.bind_some]

/-- With fuel for the nodes below `t` the loop ends. -/
theorem Torn.loop (h : Torn key memory list s t ls rs) (horder : Ordered list) {fuel : Nat}
    (hfuel : t.toList.length ≤ fuel) :
    ∃ s', s.loop key fuel = some s' ∧ Parted key memory list s' := by
  induction fuel generalizing s t ls rs with
  | zero =>
      obtain ⟨item, left, right, rfl⟩ := LinkedTree.exists_node h.pointer
      simp [LinkedTree.toList] at hfuel
  | succ fuel ih =>
      obtain ⟨item, left, right, rfl⟩ := LinkedTree.exists_node h.pointer
      obtain ⟨-, hkey, hleft, hright⟩ := h.read
      simp only [LinkedTree.toList, List.length_append, List.length_cons] at hfuel
      unfold Splaying.loop
      rcases lt_trichotomy key item.1 with hlt | heq | hgt
      · rw [hkey, if_pos hlt, hleft]
        -- to the left
        cases left with
        | nil => exact ⟨s, rfl, h.parted_left horder hlt⟩
        | node b item' outer inner =>
            simp only [LinkedTree.toList, List.length_append, List.length_cons] at hfuel
            have hkey' : (s.memory b).key = item'.1 := congrArg (·.item.1) h.stored.2.1.1
            simp only [LinkedTree.pointer, hkey']
            by_cases hzig : key < item'.1
            · rw [if_pos hzig]
              have hrotated := h.rotateWithLeft horder
              obtain ⟨ht, -, houter, -⟩ := hrotated.read
              rw [ht, houter]
              cases outer with
              | nil => exact ⟨_, rfl, hrotated.parted_left horder hzig⟩
              | node c item'' outer' inner' =>
                  obtain ⟨s', hlink, htorn⟩ := hrotated.linkRight horder hzig rfl
                  obtain ⟨s'', hloop, hparted⟩ := ih htorn (by
                    simp only [LinkedTree.toList, List.length_append, List.length_cons] at hfuel ⊢
                    omega)
                  exact ⟨s'', by simp only [LinkedTree.pointer, hlink, Option.bind_some, hloop],
                    hparted⟩
            · rw [if_neg hzig]
              obtain ⟨s', hlink, htorn⟩ := h.linkRight horder hlt rfl
              obtain ⟨s'', hloop, hparted⟩ := ih htorn (by
                simp only [LinkedTree.toList, List.length_append, List.length_cons]
                omega)
              exact ⟨s'', by rw [hlink, Option.bind_some, hloop], hparted⟩
      · -- the key is here
        obtain ⟨hbefore, hafter⟩ := horder.middle h.parts
        rw [hkey, if_neg (by rw [heq]; exact lt_irrefl _), if_neg (by rw [heq]; exact lt_irrefl _)]
        exact ⟨s, rfl, _, item, left, right, ls, rs, h, heq ▸ hbefore, heq ▸ hafter⟩
      · rw [hkey, if_neg (not_lt_of_gt hgt), if_pos hgt, hright]
        -- to the right
        cases right with
        | nil => exact ⟨s, rfl, h.parted_right horder hgt⟩
        | node b item' inner outer =>
            simp only [LinkedTree.toList, List.length_append, List.length_cons] at hfuel
            have hkey' : (s.memory b).key = item'.1 := congrArg (·.item.1) h.stored.2.2.1
            simp only [LinkedTree.pointer, hkey']
            by_cases hzag : item'.1 < key
            · rw [if_pos hzag]
              have hrotated := h.rotateWithRight horder
              obtain ⟨ht, -, -, houter⟩ := hrotated.read
              rw [ht, houter]
              cases outer with
              | nil => exact ⟨_, rfl, hrotated.parted_right horder hzag⟩
              | node c item'' inner' outer' =>
                  obtain ⟨s', hlink, htorn⟩ := hrotated.linkLeft horder hzag rfl
                  obtain ⟨s'', hloop, hparted⟩ := ih htorn (by
                    simp only [LinkedTree.toList, List.length_append, List.length_cons] at hfuel ⊢
                    omega)
                  exact ⟨s'', by simp only [LinkedTree.pointer, hlink, Option.bind_some, hloop],
                    hparted⟩
            · rw [if_neg hzag]
              obtain ⟨s', hlink, htorn⟩ := h.linkLeft horder hgt rfl
              obtain ⟨s'', hloop, hparted⟩ := ih htorn (by
                simp only [LinkedTree.toList, List.length_append, List.length_cons]
                omega)
              exact ⟨s'', by rw [hlink, Option.bind_some, hloop], hparted⟩

/-- The links at the ends of the spines are written first, then those of `t`. -/
theorem Torn.assemble {a : ι} {item : κ × ν} {left right : LinkedTree ι (κ × ν)}
    (h : Torn key memory list s (.node a item left right) ls rs) (horder : Ordered list) :
    (LinkedTree.node a item (plug .left ls left) (plug .right rs right)).Stored
        (cells s.assemble.memory) ∧
      s.assemble.t = a ∧
      ∀ b, b ∉ list.map Prod.fst → s.assemble.memory b = memory b := by
  have hapart := apart_of_nodup (h.parts ▸ horder.addresses)
  obtain ⟨ht, -, hlink, hlink'⟩ := h.read
  obtain ⟨hcell, hleft, hright⟩ := h.stored
  obtain ⟨hole, hspine⟩ := h.left
  obtain ⟨hole', hspine'⟩ := h.right
  subst ht
  have hnodup := hapart.tree
  have hroot := hapart.not_left s.t (by simp)
  have hroot' := hapart.not_right s.t (by simp)
  -- the end of the left spine
  let s₁ := s.setRight (place ls) left.pointer
  have hkeep₁ : ∀ b, b ∉ (spineList .left ls).map Prod.fst → s₁.memory b = s.memory b :=
    fun b hb => setRight_frame .left hb
  have hhangs₁ : Hangs .left (cells s₁.memory) s₁.headerRight ls left.pointer :=
    hangs_setRight hspine hapart.left
  have hother : Hangs .right (cells s₁.memory) s₁.headerLeft rs hole' := by
    show Hangs .right _ (s.setRight (place ls) left.pointer).headerLeft rs hole'
    rw [setRight_headerLeft]
    exact hspine'.congr fun b hb => cells_congr (hkeep₁ b fun hmem => hapart.spines b hmem hb)
  -- the end of the right spine
  let s₂ := s₁.setLeft (place rs) right.pointer
  have hkeep₂ : ∀ b, b ∉ (spineList .right rs).map Prod.fst → s₂.memory b = s₁.memory b :=
    fun b hb => setLeft_frame .right hb
  have hhangs₂ : Hangs .right (cells s₂.memory) s₂.headerLeft rs right.pointer :=
    hangs_setLeft hother hapart.right
  have hhangs : Hangs .left (cells s₂.memory) s₂.headerRight ls left.pointer := by
    show Hangs .left _ (s₁.setLeft (place rs) right.pointer).headerRight ls left.pointer
    rw [setLeft_headerRight]
    exact hhangs₁.congr fun b hb => cells_congr (hkeep₂ b (hapart.spines b hb))
  have hmiddle : ∀ b ∈ (LinkedTree.node s.t item left right).addresses,
      s₂.memory b = s.memory b := fun b hb =>
    (hkeep₂ b (hapart.not_right b hb)).trans (hkeep₁ b (hapart.not_left b hb))
  simp only [LinkedTree.addresses_node, List.mem_append, List.mem_cons] at hmiddle
  obtain ⟨hplug, htop⟩ := hhangs.stored_plug
    (hleft.congr fun b hb => cells_congr (hmiddle b (.inl hb)))
  obtain ⟨hplug', htop'⟩ := hhangs₂.stored_plug
    (hright.congr fun b hb => cells_congr (hmiddle b (.inr (.inr hb))))
  -- the links of the root
  have hassemble : s.assemble.memory =
      setRight (setLeft s₂.memory s.t s₂.headerRight) s.t s₂.headerLeft := by
    unfold Splaying.assemble
    simp only [h.l, h.r, setRight_r, setRight_t, setLeft_t, hlink, hkeep₁ s.t hroot, hlink', s₁, s₂]
    rfl
  simp only [LinkedTree.addresses_node, List.nodup_append, List.nodup_cons, List.mem_cons] at hnodup
  have hout : s.t ∉ (plug .left ls left).addresses := by
    rw [LinkedTree.addresses, Lib.toList_plug_left, List.map_append, List.mem_append, not_or]
    exact ⟨hroot, fun hmem => hnodup.2.2 s.t hmem s.t (.inl rfl) rfl⟩
  have hout' : s.t ∉ (plug .right rs right).addresses := by
    rw [LinkedTree.addresses, Lib.toList_plug_right, List.map_append, List.mem_append, not_or]
    exact ⟨hnodup.2.1.1, hroot'⟩
  refine ⟨?_, ?_, ?_⟩
  · rw [hassemble, cells_setRight, cells_setLeft]
    refine ⟨?_, (hplug.update hout _).update hout _, (hplug'.update hout' _).update hout' _⟩
    rw [Function.update_self, Function.update_self, htop, htop',
      show (cells s₂.memory s.t) = _ from (cells_congr (hmiddle s.t (.inr (.inl rfl)))).trans hcell]
    rfl
  · simp [Splaying.assemble]
  · intro b hb
    have hb' := hb
    rw [← h.parts, List.map_append, List.map_append, List.mem_append, List.mem_append, not_or,
      not_or] at hb'
    have hne : b ≠ s.t := by
      rintro rfl
      exact hb'.1.2 (by simp [LinkedTree.toList])
    rw [hassemble]
    exact (Function.update_of_ne hne _ _).trans ((Function.update_of_ne hne _ _).trans
      ((hkeep₂ b hb'.2).trans ((hkeep₁ b hb'.1.1).trans (h.frame b hb))))

end Loop

/-! ## splay -/

/-- The memory has a search tree. -/
structure Holds (tree : SplayTree ι κ ν) (t : LinkedTree ι (κ × ν)) : Prop where
  stored : t.Stored (cells tree.memory)
  root : t.pointer = tree.root
  ordered : Ordered t.toList

variable {tree : SplayTree ι κ ν} {t : LinkedTree ι (κ × ν)}

/-- The variables of `splay` before its loop. -/
def start (tree : SplayTree ι κ ν) (root : ι) : Splaying ι κ ν :=
  ⟨tree.memory, none, none, .header, .header, root⟩

omit [DecidableEq ι] in
/-- Before the loop the tree is in one piece. -/
theorem Holds.torn (h : Holds tree t) {root : ι} (hroot : tree.root = some root) (key : κ) :
    Torn key tree.memory t.toList (tree.start root) t [] [] :=
  { stored := h.stored
    pointer := h.root.trans hroot
    left := ⟨none, rfl⟩
    right := ⟨none, rfl⟩
    l := rfl
    r := rfl
    parts := by simp [spineList]
    below := fun e he => nomatch he
    above := fun e he => nomatch he
    frame := fun b _ => rfl }

/-- The tree that the pieces make after the loop. -/
theorem Holds.splay_of_loop (h : Holds tree t) {root : ι} (hroot : tree.root = some root)
    {fuel : Nat} {key : κ} {s : Splaying ι κ ν} {a : ι} {item : κ × ν}
    {left right : LinkedTree ι (κ × ν)} {ls rs : List (Frame ι (κ × ν))}
    (hloop : (tree.start root).loop key fuel = some s)
    (htorn : Torn key tree.memory t.toList s (.node a item left right) ls rs) :
    ∃ tree', tree.splay fuel key = some tree' ∧
      Holds tree' (.node a item (plug .left ls left) (plug .right rs right)) ∧
      (LinkedTree.node a item (plug .left ls left) (plug .right rs right)).toList = t.toList ∧
      tree'.size = tree.size ∧ ∀ b, b ∉ t.addresses → tree'.memory b = tree.memory b := by
  obtain ⟨hstored, ht, hframe⟩ := htorn.assemble h.ordered
  have hlist : (LinkedTree.node a item (plug .left ls left) (plug .right rs right)).toList =
      t.toList := by
    rw [← htorn.parts, LinkedTree.toList, LinkedTree.toList, Lib.toList_plug_left,
      Lib.toList_plug_right]
    simp
  refine ⟨{ tree with memory := s.assemble.memory, root := some s.assemble.t }, ?_,
    ⟨hstored, ?_, ?_⟩, hlist, rfl, hframe⟩
  · have hloop' : Splaying.loop key fuel ⟨tree.memory, none, none, .header, .header, root⟩ = some s :=
      hloop
    simp only [SplayTree.splay, hroot, Option.bind_some, hloop', Option.map_some]
  · rw [ht]
    rfl
  · rw [hlist]
    exact h.ordered

/-- `splay` keeps the nodes in order and writes to no other; the root parts them. -/
theorem Holds.splay (h : Holds tree t) (hroot : tree.root ≠ none) {fuel : Nat}
    (hfuel : t.toList.length ≤ fuel) (key : κ) :
    ∃ tree' a item left right, tree.splay fuel key = some tree' ∧
      Holds tree' (.node a item left right) ∧
      (LinkedTree.node a item left right).toList = t.toList ∧
      (∀ e ∈ left.toList, Entry.key e < key) ∧ (∀ e ∈ right.toList, key < Entry.key e) ∧
      tree'.size = tree.size ∧ ∀ b, b ∉ t.addresses → tree'.memory b = tree.memory b := by
  obtain ⟨root, hsome⟩ := Option.ne_none_iff_exists'.mp hroot
  obtain ⟨s, hloop, a, item, left, right, ls, rs, hparted, hbefore, hafter⟩ :=
    (h.torn hsome key).loop h.ordered hfuel
  obtain ⟨tree', hsplay, hholds, hlist, hsize, hframe⟩ := h.splay_of_loop hsome hloop hparted
  refine ⟨tree', a, item, _, _, hsplay, hholds, hlist, ?_, ?_, hsize, hframe⟩
  · intro e he
    rw [Lib.toList_plug_left, List.mem_append] at he
    exact he.elim (hparted.below e) (hbefore e)
  · intro e he
    rw [Lib.toList_plug_right, List.mem_append] at he
    exact he.elim (hafter e) (hparted.above e)

end RayPlatform.SplayTree
