import Mathlib.Data.List.Nodup
import Mathlib.Logic.Function.Basic
import Mathlib.Tactic.TypeStar

/-!
# Binary trees of linked nodes

A tree whose nodes are at addresses of a memory. `Stored` says that the memory has the
tree; it only depends on the addresses of the tree (`Stored.congr`).

A tree that is taken apart from its root leaves two spines: nodes that keep one child and
whose other link is a hole, each in the hole of the one before. `Hangs` says that the
memory has a spine, whatever is in its last hole; a link is written into the hole
(`Hangs.setHole`), a node is added there (`Hangs.push`), and a tree put into it makes a
tree again (`Hangs.stored_plug`).
-/

namespace RayPlatform.Lib

variable {ι α : Type*}

/-- A node as memory has it. -/
structure Cell (ι α : Type*) where
  item : α
  left : Option ι
  right : Option ι

inductive LinkedTree (ι α : Type*)
  | nil
  | node (address : ι) (item : α) (left right : LinkedTree ι α)

namespace LinkedTree

/-- The address of the root. -/
def pointer : LinkedTree ι α → Option ι
  | nil => none
  | node address _ _ _ => some address

/-- The nodes in order. -/
def toList : LinkedTree ι α → List (ι × α)
  | nil => []
  | node address item left right => left.toList ++ (address, item) :: right.toList

def addresses (t : LinkedTree ι α) : List ι :=
  t.toList.map Prod.fst

/-- The memory has the tree. -/
def Stored (m : ι → Cell ι α) : LinkedTree ι α → Prop
  | nil => True
  | node address item left right =>
      m address = ⟨item, left.pointer, right.pointer⟩ ∧ left.Stored m ∧ right.Stored m

variable {t left right : LinkedTree ι α} {m m' : ι → Cell ι α} {a b : ι} {item : α}

@[simp] theorem addresses_node : (node a item left right).addresses =
    left.addresses ++ a :: right.addresses := by
  simp [addresses, toList]

@[simp] theorem addresses_nil : (nil : LinkedTree ι α).addresses = [] :=
  rfl

/-- Only the nodes of a tree matter. -/
theorem Stored.congr (h : t.Stored m) (hsame : ∀ a ∈ t.addresses, m' a = m a) : t.Stored m' := by
  induction t with
  | nil => trivial
  | node a item left right ihleft ihright =>
      obtain ⟨hcell, hleft, hright⟩ := h
      simp only [addresses_node, List.mem_append, List.mem_cons] at hsame
      refine ⟨?_, ihleft hleft fun b hb => hsame b (.inl hb),
        ihright hright fun b hb => hsame b (.inr (.inr hb))⟩
      rw [hsame a (.inr (.inl rfl)), hcell]

/-- A write elsewhere. -/
theorem Stored.update [DecidableEq ι] (h : t.Stored m) (ha : a ∉ t.addresses) (c : Cell ι α) :
    t.Stored (Function.update m a c) := by
  refine h.congr fun b hb => Function.update_of_ne ?_ _ _
  rintro rfl
  exact ha hb

theorem pointer_eq_none : t.pointer = none ↔ t = nil := by
  cases t with
  | nil => exact iff_of_true rfl rfl
  | node => exact iff_of_false (by simp [pointer]) (by simp)

/-- A pointer that is not null leads to a node. -/
theorem exists_node (h : t.pointer = some a) : ∃ item left right, t = node a item left right := by
  cases t with
  | nil => cases h
  | node b item left right =>
      cases h
      exact ⟨item, left, right, rfl⟩

/-- A memory has at most one tree at a pointer. -/
theorem Stored.unique {t t' : LinkedTree ι α} (h : t.Stored m) (h' : t'.Stored m)
    (hpointer : t.pointer = t'.pointer) : t = t' := by
  induction t generalizing t' with
  | nil => exact (pointer_eq_none.mp hpointer.symm).symm
  | node a item left right ihleft ihright =>
      obtain ⟨item', left', right', rfl⟩ := exists_node hpointer.symm
      obtain ⟨hcell, hleft, hright⟩ := h
      obtain ⟨hcell', hleft', hright'⟩ := h'
      obtain ⟨hitem, hlink, hlink'⟩ := Cell.mk.inj (hcell.symm.trans hcell')
      rw [hitem, ihleft hleft hleft' hlink, ihright hright hright' hlink']

/-- The items are changed, each by its address. -/
def mapItems (f : ι → α → α) : LinkedTree ι α → LinkedTree ι α
  | nil => nil
  | node address item left right =>
      node address (f address item) (left.mapItems f) (right.mapItems f)

variable (f : ι → α → α)

@[simp] theorem pointer_mapItems (t : LinkedTree ι α) : (t.mapItems f).pointer = t.pointer := by
  cases t <;> rfl

theorem toList_mapItems (t : LinkedTree ι α) :
    (t.mapItems f).toList = t.toList.map fun e => (e.1, f e.1 e.2) := by
  induction t with
  | nil => rfl
  | node a item left right ihleft ihright => simp [mapItems, toList, ihleft, ihright]

theorem Stored.mapItems (h : t.Stored m) :
    (t.mapItems f).Stored fun a => { m a with item := f a (m a).item } := by
  induction t with
  | nil => trivial
  | node a item left right ihleft ihright =>
      obtain ⟨hcell, hleft, hright⟩ := h
      refine ⟨?_, ihleft hleft, ihright hright⟩
      simp only [hcell, pointer_mapItems]

end LinkedTree

/-! ## Spines -/

/-- A left spine keeps left children, a right spine right children. -/
inductive Side
  | left
  | right

namespace Side

/-- A node that keeps a child on a side. -/
def cell (side : Side) (item : α) (kept hole : Option ι) : Cell ι α :=
  match side with
  | left => ⟨item, kept, hole⟩
  | right => ⟨item, hole, kept⟩

def node (side : Side) (address : ι) (item : α) (kept inside : LinkedTree ι α) :
    LinkedTree ι α :=
  match side with
  | left => .node address item kept inside
  | right => .node address item inside kept

/-- The link of a node that is not the kept one is written. -/
def setHole (side : Side) (c : Cell ι α) (p : Option ι) : Cell ι α :=
  match side with
  | left => { c with right := p }
  | right => { c with left := p }

@[simp] theorem setHole_cell (side : Side) (item : α) (kept hole p : Option ι) :
    side.setHole (side.cell item kept hole) p = side.cell item kept p := by
  cases side <;> rfl

end Side

structure Frame (ι α : Type*) where
  address : ι
  item : α
  kept : LinkedTree ι α

/-- The nodes of a spine in order; the innermost frame comes first. -/
def spineList (side : Side) : List (Frame ι α) → List (ι × α)
  | [] => []
  | f :: rest =>
      match side with
      | .left => spineList side rest ++ (f.kept.toList ++ [(f.address, f.item)])
      | .right => (f.address, f.item) :: f.kept.toList ++ spineList side rest

/-- The tree with this tree in the hole. -/
def plug (side : Side) : List (Frame ι α) → LinkedTree ι α → LinkedTree ι α
  | [], t => t
  | f :: rest, t => plug side rest (side.node f.address f.item f.kept t)

/-- The memory has a spine, `top` is the link to it and `hole` is what is in the hole. -/
def Hangs (side : Side) (m : ι → Cell ι α) (top : Option ι) : List (Frame ι α) → Option ι → Prop
  | [], hole => top = hole
  | f :: rest, hole => m f.address = side.cell f.item f.kept.pointer hole ∧ f.kept.Stored m ∧
      Hangs side m top rest (some f.address)

variable {side : Side} {m m' : ι → Cell ι α} {top hole p : Option ι} {f : Frame ι α}
  {spine : List (Frame ι α)} {t : LinkedTree ι α} {a : ι}

theorem toList_plug_left : (plug .left spine t).toList = spineList .left spine ++ t.toList := by
  induction spine generalizing t with
  | nil => rfl
  | cons f rest ih =>
      rw [plug, ih]
      simp [spineList, Side.node, LinkedTree.toList]

theorem toList_plug_right : (plug .right spine t).toList = t.toList ++ spineList .right spine := by
  induction spine generalizing t with
  | nil => exact (List.append_nil _).symm
  | cons f rest ih =>
      rw [plug, ih]
      simp [spineList, Side.node, LinkedTree.toList]

/-- The addresses of a spine, in no order. -/
theorem spineList_perm (side : Side) (f : Frame ι α) (rest : List (Frame ι α)) :
    ((spineList side (f :: rest)).map Prod.fst).Perm
      (f.address :: f.kept.addresses ++ (spineList side rest).map Prod.fst) := by
  cases side with
  | left =>
      have hswap := (List.perm_append_comm :
        ((spineList .left rest).map Prod.fst ++ (f.kept.addresses ++ [f.address])).Perm _)
      refine (?_ : List.Perm _ _).trans (hswap.trans ?_)
      · simp [spineList, LinkedTree.addresses]
      · exact (List.perm_append_singleton f.address f.kept.addresses).append_right _
  | right => simp [spineList, LinkedTree.addresses]

/-- Only the nodes of a spine matter. -/
theorem Hangs.congr (h : Hangs side m top spine hole)
    (hsame : ∀ a ∈ (spineList side spine).map Prod.fst, m' a = m a) :
    Hangs side m' top spine hole := by
  induction spine generalizing hole with
  | nil => exact h
  | cons f rest ih =>
      obtain ⟨hcell, hkept, hrest⟩ := h
      have hmem : ∀ a, a = f.address ∨ a ∈ f.kept.addresses ∨
          a ∈ (spineList side rest).map Prod.fst → m' a = m a := by
        intro a ha
        apply hsame
        rw [(spineList_perm side f rest).mem_iff]
        simpa [or_assoc] using ha
      refine ⟨?_, hkept.congr fun a ha => hmem a (.inr (.inl ha)),
        ih hrest fun a ha => hmem a (.inr (.inr ha))⟩
      rw [hmem _ (.inl rfl), hcell]

theorem Hangs.update [DecidableEq ι] (h : Hangs side m top spine hole)
    (ha : a ∉ (spineList side spine).map Prod.fst) (c : Cell ι α) :
    Hangs side (Function.update m a c) top spine hole := by
  refine h.congr fun b hb => Function.update_of_ne ?_ _ _
  rintro rfl
  exact ha hb

/-- A link is written into the hole. -/
theorem Hangs.setHole [DecidableEq ι] (h : Hangs side m top (f :: spine) hole)
    (hnodup : ((spineList side (f :: spine)).map Prod.fst).Nodup) :
    Hangs side (Function.update m f.address (side.setHole (m f.address) p)) top (f :: spine) p := by
  obtain ⟨hcell, hkept, hrest⟩ := h
  rw [(spineList_perm side f spine).nodup_iff] at hnodup
  simp only [List.cons_append, List.nodup_cons, List.mem_append, not_or] at hnodup
  refine ⟨?_, hkept.update hnodup.1.1 _, hrest.update hnodup.1.2 _⟩
  rw [Function.update_self, hcell, Side.setHole_cell]

/-- A node in the hole is the next frame. -/
theorem Hangs.push (h : Hangs side m top spine (some f.address))
    (hcell : m f.address = side.cell f.item f.kept.pointer hole) (hkept : f.kept.Stored m) :
    Hangs side m top (f :: spine) hole :=
  ⟨hcell, hkept, h⟩

/-- A tree in the hole. -/
theorem Hangs.stored_plug (h : Hangs side m top spine t.pointer) (ht : t.Stored m) :
    (plug side spine t).Stored m ∧ (plug side spine t).pointer = top := by
  induction spine generalizing t with
  | nil => exact ⟨ht, Eq.symm h⟩
  | cons f rest ih =>
      obtain ⟨hcell, hkept, hrest⟩ := h
      rw [plug]
      cases side with
      | left => exact ih hrest ⟨hcell, hkept, ht⟩
      | right => exact ih hrest ⟨hcell, ht, hkept⟩

end RayPlatform.Lib
