import RayPlatform.Core.PluginRegistry
import RayPlatform.Lib.TransitionSystem

/-!
# Runs of the plugin registry

Calls by any plugins in any order, the refused ones too. `handed` is the history: the
handles of each kind that plugins got, with the plugin that got each.

* `KindInv` — the handles of a kind are counted from 0 on, and the map of symbols, the set
  of registered handles and the name table say the same;
* `allocateHandle_cases` — the three results of an allocation;
* `Refused` — what a validation refuses; such a call sets the fatal error only;
* `registrySystem_consistent` — what holds in every reachable state.
-/

namespace RayPlatform

open Lib (TransitionSystem)

/-! ## Names -/

theorem strcpy_apply (bytes : List UInt8) : ∀ (memory : Int → UInt8) (start a : Int),
    strcpy memory start bytes a =
      if start ≤ a ∧ a ≤ start + bytes.length then (bytes[(a - start).toNat]?).getD 0
      else memory a := by
  induction bytes with
  | nil =>
      intro memory start a
      rw [strcpy]
      by_cases ha : a = start
      · subst ha
        rw [Function.update_self, if_pos (by simp)]
        rfl
      · rw [Function.update_of_ne ha, if_neg (by simp; omega)]
  | cons byte bytes ih =>
      intro memory start a
      rw [strcpy, ih, List.length_cons]
      by_cases ha : a = start
      · subst ha
        rw [if_neg (by omega), Function.update_self, if_pos (by omega), Int.sub_self]
        rfl
      · by_cases hin : start + 1 ≤ a ∧ a ≤ start + 1 + bytes.length
        · have hindex : (a - start).toNat = (a - (start + 1)).toNat + 1 := by omega
          rw [if_pos hin, if_pos (by omega), hindex, List.getElem?_cons_succ]
        · rw [if_neg hin, Function.update_of_ne ha, if_neg (by omega)]

/-- A row that starts with a text and a 0 reads as the text. -/
theorem takeWhile_row {bytes : List UInt8} (htext : ∀ byte ∈ bytes, byte ≠ 0) {n : Nat}
    (hlt : bytes.length < n) {row : Nat → UInt8}
    (hrow : ∀ k ≤ bytes.length, row k = (bytes[k]?).getD 0) :
    ((List.range n).map row).takeWhile (· ≠ 0) = bytes := by
  obtain ⟨m, rfl⟩ : ∃ m, n = bytes.length + (m + 1) := ⟨n - bytes.length - 1, by omega⟩
  have hprefix : (List.range bytes.length).map row = bytes := by
    refine List.ext_getElem (by simp) fun k hk hk' => ?_
    rw [List.getElem_map, List.getElem_range, hrow k (Nat.le_of_lt hk'),
      List.getElem?_eq_getElem hk']
    rfl
  have hzero : row bytes.length = 0 := by
    rw [hrow _ (Nat.le_refl _), List.getElem?_eq_none (Nat.le_refl _)]
    rfl
  have hhead : (List.range (m + 1)).map (fun k => row (bytes.length + k)) =
      0 :: (List.range m).map fun k => row (bytes.length + (k + 1)) := by
    rw [List.range_succ_eq_map, List.map_cons, List.map_map, Nat.add_zero, hzero]
    rfl
  rw [List.range_add, List.map_append, List.map_map, hprefix]
  show (bytes ++ (List.range (m + 1)).map fun k => row (bytes.length + k)).takeWhile _ = bytes
  rw [hhead, List.takeWhile_append_of_pos (fun byte hbyte => decide_eq_true (htext byte hbyte))]
  simp

namespace HandleTable

variable {η : Type} {t : HandleTable η}

theorem nameOf_setName (handle : Int) (symbol : Symbol) :
    (t.setName handle symbol).nameOf handle = symbol.bytes := by
  refine takeWhile_row symbol.text symbol.fits fun k hk => ?_
  show strcpy t.names (handle * nameWidth) symbol.bytes _ = _
  rw [strcpy_apply, if_pos (by omega)]
  congr 2
  omega

/-- The rows of other handles stay. -/
theorem nameOf_setName_ne {handle other : Int} (symbol : Symbol) (h : other ≠ handle) :
    (t.setName handle symbol).nameOf other = t.nameOf other := by
  have hfits := symbol.fits
  unfold nameOf
  congr 1
  refine List.map_congr_left fun k hk => ?_
  have hk := List.mem_range.mp hk
  show strcpy t.names (handle * nameWidth) symbol.bytes _ = _
  unfold nameWidth at hfits hk ⊢
  rw [strcpy_apply, if_neg (by omega)]

end HandleTable

/-! ## The handles of a kind -/

/-- The handles that were given are those from 0 on, the symbols are symbols of handles that
were given, and their names are in the name table. -/
structure KindInv {η : Type} (maximum : Nat) (t : HandleTable η)
    (handed : List (PluginHandle × Int)) : Prop where
  length_le : handed.length ≤ maximum
  handles : ∀ h, h ∈ t.allocated ↔ 0 ≤ h ∧ h < handed.length
  given : ∀ h, h ∈ handed.map Prod.snd ↔ h ∈ t.allocated
  nodup : (handed.map Prod.snd).Nodup
  current : t.currentToAllocate = handed.length ∨
    0 ≤ t.currentToAllocate ∧ t.currentToAllocate + 1 = handed.length ∨
    handed.length = maximum ∧ maximum < t.currentToAllocate
  symbols : ∀ s h, t.symbols s = some h →
    h ∈ t.registeredSymbols ∧ h ∈ t.allocated ∧ t.nameOf h = s.bytes
  registered : ∀ h ∈ t.registeredSymbols, ∃ s, t.symbols s = some h

section

variable {η : Type} {maximum : Nat} {t : HandleTable η} {handed : List (PluginHandle × Int)}

theorem kindInv_constructor (maximum : Nat) : KindInv maximum (.constructor : HandleTable η) [] :=
  { length_le := Nat.zero_le _
    handles := fun h => ⟨fun hh => absurd hh (Finset.notMem_empty h), fun hh => by
      have hlt : h < (0 : Nat) := hh.2
      omega⟩
    given := fun h => ⟨fun hh => (nomatch hh), fun hh => absurd hh (Finset.notMem_empty h)⟩
    nodup := List.nodup_nil
    current := .inl rfl
    symbols := fun _ _ hs => (nomatch hs)
    registered := fun h hh => absurd hh (Finset.notMem_empty h) }

/-- The counter is at the next handle, one behind it, or beyond a table that is full. -/
theorem KindInv.skipAllocated (h : KindInv maximum t handed) :
    ∃ handle current, HandleTable.skipAllocated t.allocated (t.allocated.card + 2)
        t.currentToAllocate t.currentToAllocate = some (handle, current) ∧
      (handle = handed.length ∨ handed.length = maximum ∧ maximum < handle) ∧
      (current = handle ∨ current = handle + 1) := by
  have hout : ∀ a, a ∉ t.allocated ↔ a < 0 ∨ handed.length ≤ a := by
    intro a
    rw [h.handles]
    omega
  rcases h.current with hnext | ⟨hnonneg, hbehind⟩ | ⟨hfull, hbeyond⟩
  · refine ⟨_, _, ?_, .inl hnext, .inl rfl⟩
    rw [HandleTable.skipAllocated, if_neg ((hout _).mpr (by omega))]
  · -- the last handle is tried twice
    have hmem : t.currentToAllocate ∈ t.allocated := (h.handles _).mpr ⟨hnonneg, by omega⟩
    obtain ⟨n, hcard⟩ : ∃ n, t.allocated.card = n + 1 :=
      ⟨_, (Nat.succ_pred_eq_of_pos (Finset.card_pos.mpr ⟨_, hmem⟩)).symm⟩
    refine ⟨t.currentToAllocate + 1, t.currentToAllocate + 1 + 1, ?_, .inl hbehind, .inr rfl⟩
    rw [hcard, HandleTable.skipAllocated, if_pos hmem, HandleTable.skipAllocated, if_pos hmem,
      HandleTable.skipAllocated, if_neg ((hout _).mpr (by omega))]
  · refine ⟨_, _, ?_, .inr ⟨hfull, hbeyond⟩, .inl rfl⟩
    rw [HandleTable.skipAllocated, if_neg ((hout _).mpr (by omega))]

/-- The handle that follows is given to a plugin. -/
theorem KindInv.give (h : KindInv maximum t handed) (hroom : handed.length < maximum)
    (plugin : PluginHandle) {current : Int}
    (hcurrent : current = handed.length ∨ current = handed.length + 1) :
    KindInv maximum
      { t with
        currentToAllocate := current
        allocated := insert (handed.length : Int) t.allocated }
      ((plugin, (handed.length : Int)) :: handed) := by
  have hfresh : (handed.length : Int) ∉ handed.map Prod.snd := by
    rw [h.given, h.handles]
    omega
  refine ⟨hroom, fun a => ?_, fun a => ?_, List.nodup_cons.mpr ⟨hfresh, h.nodup⟩, ?_,
    fun s a ha => ?_, h.registered⟩
  · rw [List.length_cons, Finset.mem_insert, h.handles]
    omega
  · rw [List.map_cons, List.mem_cons, Finset.mem_insert, h.given]
  · rw [List.length_cons]
    dsimp only
    omega
  · obtain ⟨hregistered, hallocated, hname⟩ := h.symbols s a ha
    exact ⟨hregistered, Finset.mem_insert_of_mem hallocated, hname⟩

/-- An allocation that fails moves the counter of a full table. -/
theorem KindInv.exhaust (h : KindInv maximum t handed) (hfull : handed.length = maximum)
    {current : Int} (hcurrent : handed.length ≤ current) :
    KindInv maximum { t with currentToAllocate := current } handed :=
  { h with
    current := by
      dsimp only
      omega
    symbols := h.symbols
    registered := h.registered }

/-- A handle that was given gets a symbol that no handle has. -/
theorem KindInv.setName (h : KindInv maximum t handed) {handle : Int} {symbol : Symbol}
    (hmem : handle ∈ t.allocated) (hsymbol : t.symbols symbol = none)
    (hhandle : handle ∉ t.registeredSymbols) :
    KindInv maximum (t.setName handle symbol) handed := by
  refine ⟨h.length_le, h.handles, h.given, h.nodup, h.current, fun s a ha => ?_, fun a ha => ?_⟩
  · by_cases hs : s = symbol
    · subst hs
      have hself : (t.setName handle s).symbols s = some handle := Function.update_self _ _ _
      obtain rfl : handle = a := Option.some.inj (hself.symm.trans ha)
      exact ⟨Finset.mem_insert_self _ _, hmem, HandleTable.nameOf_setName handle s⟩
    · have hold : t.symbols s = some a := (Function.update_of_ne hs _ _).symm.trans ha
      obtain ⟨hregistered, hallocated, hname⟩ := h.symbols s a hold
      have hne : a ≠ handle := by
        rintro rfl
        exact hhandle hregistered
      exact ⟨Finset.mem_insert_of_mem hregistered, hallocated,
        (HandleTable.nameOf_setName_ne symbol hne).trans hname⟩
  · rcases Finset.mem_insert.mp ha with rfl | ha
    · exact ⟨symbol, Function.update_self _ _ _⟩
    · obtain ⟨s, hs⟩ := h.registered a ha
      have hne : s ≠ symbol := by
        rintro rfl
        rw [hsymbol] at hs
        cases hs
      exact ⟨s, (Function.update_of_ne hne _ _).trans hs⟩

/-- No two symbols name a handle. -/
theorem KindInv.symbols_injective (h : KindInv maximum t handed) {s s' : Symbol} {a : Int}
    (hs : t.symbols s = some a) (hs' : t.symbols s' = some a) : s = s' := by
  obtain ⟨-, -, hname⟩ := h.symbols s a hs
  obtain ⟨-, -, hname'⟩ := h.symbols s' a hs'
  exact Symbol.ext (hname.symm.trans hname')

end

/-! ## Runs -/

inductive RegistryCall (η : Type)
  | allocatePluginHandle (generated : List PluginHandle)
  | allocateHandle (kind : HandleKind) (plugin : PluginHandle)
  | setSymbol (kind : HandleKind) (plugin : PluginHandle) (handle : Int) (symbol : Symbol)
  | setObjectHandler (kind : HandleKind) (plugin : PluginHandle) (handle : Int) (object : Option η)
  | getFromSymbol (kind : HandleKind) (plugin : PluginHandle) (symbol : Symbol)

/-- A registry and the handles that it gave. -/
structure RegistryRun (η : Type) where
  registry : PluginRegistry η
  handed : HandleKind → List (PluginHandle × Int)

namespace RegistryRun

variable {η : Type}

def exec (s : RegistryRun η) : RegistryCall η → Option (RegistryRun η)
  | .allocatePluginHandle generated =>
      (s.registry.allocatePluginHandle generated).map fun (registry, _) =>
        { s with registry := registry }
  | .allocateHandle kind plugin =>
      (s.registry.allocateHandle kind plugin).map fun (registry, handle) =>
        if handle = INVALID_HANDLE then { s with registry := registry }
        else
          { registry := registry
            handed := Function.update s.handed kind ((plugin, handle) :: s.handed kind) }
  | .setSymbol kind plugin handle symbol =>
      some { s with registry := s.registry.setSymbol kind plugin handle symbol }
  | .setObjectHandler kind plugin handle object =>
      some { s with registry := s.registry.setObjectHandler kind plugin handle object }
  | .getFromSymbol kind plugin symbol =>
      some { s with registry := (s.registry.getFromSymbol kind plugin symbol).1 }

end RegistryRun

/-- The runs of a registry. -/
def registrySystem (η : Type) : TransitionSystem (RegistryRun η) (RegistryCall η) :=
  .ofExec ⟨.constructor, fun _ => []⟩ RegistryRun.exec

namespace PluginRegistry

variable {η : Type}

/-- A plugin owns a handle. -/
def Owns (r : PluginRegistry η) (kind : HandleKind) (plugin : PluginHandle) (handle : Int) : Prop :=
  ∃ p, r.plugins plugin = some p ∧ handle ∈ p.allocated kind

/-- What a validation refuses: an unknown plugin, a handle out of range or of another plugin,
a symbol that is taken or unknown, and a handle that has a symbol. -/
def Refused (r : PluginRegistry η) : RegistryCall η → Prop
  | .allocatePluginHandle _ => False
  | .allocateHandle _ plugin => r.plugins plugin = none
  | .setSymbol kind plugin handle symbol =>
      r.plugins plugin = none ∨ ¬ (0 ≤ handle ∧ handle < kind.maximum) ∨
        ¬ r.Owns kind plugin handle ∨ (r.tables kind).symbols symbol ≠ none ∨
        handle ∈ (r.tables kind).registeredSymbols
  | .setObjectHandler kind plugin handle _ =>
      r.plugins plugin = none ∨ ¬ (0 ≤ handle ∧ handle < kind.maximum) ∨
        ¬ r.Owns kind plugin handle
  | .getFromSymbol kind plugin symbol =>
      r.plugins plugin = none ∨ (r.tables kind).symbols symbol = none

/-! ## What the calls do -/

variable {r : PluginRegistry η} {kind : HandleKind} {plugin : PluginHandle} {handle : Int}

theorem validationPluginAllocated_eq_false_iff :
    r.validationPluginAllocated plugin = false ↔ r.plugins plugin = none := by
  rw [validationPluginAllocated, Option.isSome_eq_false_iff, Option.isNone_iff_eq_none]

theorem validationOwnership_iff :
    r.validationOwnership kind plugin handle = true ↔ r.Owns kind plugin handle := by
  rw [validationOwnership, Option.any_eq_true]
  exact exists_congr fun p => and_congr_right fun _ => decide_eq_true_iff

theorem validationOwnership_eq_false_iff :
    r.validationOwnership kind plugin handle = false ↔ ¬ r.Owns kind plugin handle := by
  rw [← validationOwnership_iff, Bool.not_eq_true]

/-- The call is refused, or does all it is for. -/
theorem setSymbol_cases (r : PluginRegistry η) (kind : HandleKind) (plugin : PluginHandle)
    (handle : Int) (symbol : Symbol) :
    r.Refused (.setSymbol kind plugin handle symbol) ∧
        r.setSymbol kind plugin handle symbol = r.setFatalError ∨
      ¬ r.Refused (.setSymbol kind plugin handle symbol) ∧
        r.setSymbol kind plugin handle symbol =
          (r.updateTable kind (.setName handle symbol)).updatePlugin plugin
            (.addRegisteredSymbol kind handle) := by
  rw [setSymbol]
  cases hplugin : r.validationPluginAllocated plugin with
  | false => exact .inl ⟨.inl (validationPluginAllocated_eq_false_iff.mp hplugin), rfl⟩
  | true =>
      cases hrange : validationRange kind handle with
      | false => exact .inl ⟨.inr (.inl (of_decide_eq_false hrange)), rfl⟩
      | true =>
          cases howner : r.validationOwnership kind plugin handle with
          | false =>
              exact .inl ⟨.inr (.inr (.inl (validationOwnership_eq_false_iff.mp howner))), rfl⟩
          | true =>
              cases htaken : r.validationSymbolAvailable kind symbol with
              | false =>
                  refine .inl ⟨.inr (.inr (.inr (.inl fun hnone => ?_))), rfl⟩
                  rw [validationSymbolAvailable, hnone] at htaken
                  cases htaken
              | true =>
                  cases hsymbol : r.validationSymbolNotRegistered kind handle with
                  | false =>
                      exact .inl ⟨.inr (.inr (.inr (.inr
                        (not_not.mp (of_decide_eq_false hsymbol))))), rfl⟩
                  | true =>
                      refine .inr ⟨?_, rfl⟩
                      rintro (hnone | hout | hforeign | hsome | hregistered)
                      · rw [validationPluginAllocated, hnone] at hplugin
                        cases hplugin
                      · exact hout (of_decide_eq_true hrange)
                      · exact hforeign (validationOwnership_iff.mp howner)
                      · exact hsome (Option.isNone_iff_eq_none.mp htaken)
                      · exact of_decide_eq_true hsymbol hregistered

theorem setObjectHandler_cases (r : PluginRegistry η) (kind : HandleKind) (plugin : PluginHandle)
    (handle : Int) (object : Option η) :
    r.Refused (.setObjectHandler kind plugin handle object) ∧
        r.setObjectHandler kind plugin handle object = r.setFatalError ∨
      ¬ r.Refused (.setObjectHandler kind plugin handle object) ∧
        r.setObjectHandler kind plugin handle object =
          (r.updateTable kind fun t =>
              { t with objects := Function.update t.objects handle object }).updatePlugin plugin
            (.addRegisteredHandler kind handle) := by
  rw [setObjectHandler]
  cases hplugin : r.validationPluginAllocated plugin with
  | false => exact .inl ⟨.inl (validationPluginAllocated_eq_false_iff.mp hplugin), rfl⟩
  | true =>
      cases hrange : validationRange kind handle with
      | false => exact .inl ⟨.inr (.inl (of_decide_eq_false hrange)), rfl⟩
      | true =>
          cases howner : r.validationOwnership kind plugin handle with
          | false => exact .inl ⟨.inr (.inr (validationOwnership_eq_false_iff.mp howner)), rfl⟩
          | true =>
              refine .inr ⟨?_, rfl⟩
              rintro (hnone | hout | hforeign)
              · rw [validationPluginAllocated, hnone] at hplugin
                cases hplugin
              · exact hout (of_decide_eq_true hrange)
              · exact hforeign (validationOwnership_iff.mp howner)

/-- A symbol resolves to its handle. -/
theorem getFromSymbol_cases (r : PluginRegistry η) (kind : HandleKind) (plugin : PluginHandle)
    (symbol : Symbol) :
    r.Refused (.getFromSymbol kind plugin symbol) ∧
        r.getFromSymbol kind plugin symbol = (r.setFatalError, INVALID_HANDLE) ∨
      ¬ r.Refused (.getFromSymbol kind plugin symbol) ∧
        ∃ handle, (r.tables kind).symbols symbol = some handle ∧
          r.getFromSymbol kind plugin symbol =
            (r.updatePlugin plugin (.addResolved kind handle), handle) := by
  rw [getFromSymbol]
  cases hplugin : r.validationPluginAllocated plugin with
  | false => exact .inl ⟨.inl (validationPluginAllocated_eq_false_iff.mp hplugin), rfl⟩
  | true =>
      rw [validationSymbolRegistered]
      cases hsymbol : (r.tables kind).symbols symbol with
      | none => exact .inl ⟨.inr hsymbol, rfl⟩
      | some handle =>
          refine .inr ⟨?_, handle, rfl, rfl⟩
          rintro (hnone | hnone)
          · rw [validationPluginAllocated, hnone] at hplugin
            cases hplugin
          · rw [hsymbol] at hnone
            cases hnone

theorem allocatePluginHandle_spec {generated : List PluginHandle}
    {r' : PluginRegistry η × PluginHandle} (h : r.allocatePluginHandle generated = some r') :
    r.plugins r'.2 = none ∧
      r'.1 = { r with plugins := Function.update r.plugins r'.2 (some .constructor) } := by
  induction generated with
  | nil => cases h
  | cons candidate generated ih =>
      rw [allocatePluginHandle] at h
      split at h
      · exact ih h
      · rename_i hnew
        cases h
        exact ⟨Option.not_isSome_iff_eq_none.mp hnew, rfl⟩

/-! ## Ownership -/

/-- Only the handles that a plugin allocated count. -/
theorem owns_updatePlugin (f : RegisteredPlugin → RegisteredPlugin)
    (hf : ∀ p, (f p).allocated = p.allocated) {k : HandleKind} {q : PluginHandle} {h : Int} :
    (r.updatePlugin plugin f).Owns k q h ↔ r.Owns k q h := by
  have hplugins : (r.updatePlugin plugin f).plugins =
      Function.update r.plugins plugin ((r.plugins plugin).map f) := rfl
  unfold Owns
  rw [hplugins]
  by_cases hq : q = plugin
  · subst hq
    rw [Function.update_self]
    constructor
    · rintro ⟨p', hp', hmem⟩
      obtain ⟨p, hp, rfl⟩ := Option.map_eq_some_iff.mp hp'
      exact ⟨p, hp, hf p ▸ hmem⟩
    · rintro ⟨p, hp, hmem⟩
      exact ⟨f p, Option.map_eq_some_iff.mpr ⟨p, hp, rfl⟩, (hf p).symm ▸ hmem⟩
  · rw [Function.update_of_ne hq]

theorem owns_addAllocated {p : RegisteredPlugin} (hp : r.plugins plugin = some p) {k : HandleKind}
    {q : PluginHandle} {h : Int} :
    (r.updatePlugin plugin (.addAllocated kind handle)).Owns k q h ↔
      r.Owns k q h ∨ q = plugin ∧ k = kind ∧ h = handle := by
  have hplugins : (r.updatePlugin plugin (.addAllocated kind handle)).plugins =
      Function.update r.plugins plugin (some (p.addAllocated kind handle)) := by
    show Function.update r.plugins plugin ((r.plugins plugin).map _) = _
    rw [hp]
    rfl
  have hallocated : ∀ k, (p.addAllocated kind handle).allocated k =
      if k = kind then insert handle (p.allocated k) else p.allocated k := by
    intro k
    show Function.update p.allocated kind _ k = _
    by_cases hk : k = kind
    · subst hk
      rw [Function.update_self, if_pos rfl]
    · rw [Function.update_of_ne hk, if_neg hk]
  unfold Owns
  rw [hplugins]
  by_cases hq : q = plugin
  · subst hq
    rw [Function.update_self, hp]
    simp only [Option.some.injEq, exists_eq_left', hallocated, true_and]
    by_cases hk : k = kind
    · rw [if_pos hk, Finset.mem_insert]
      exact ⟨fun hh => hh.symm.imp id fun hh => ⟨hk, hh⟩, fun hh => hh.symm.imp And.right id⟩
    · rw [if_neg hk]
      exact ⟨.inl, fun hh => hh.resolve_right fun hh => hk hh.1⟩
  · rw [Function.update_of_ne hq]
    exact ⟨.inl, fun hh => hh.resolve_right fun hh => hq hh.1⟩

/-- A plugin that is new owns nothing. -/
theorem owns_newPlugin (hnew : r.plugins plugin = none) {k : HandleKind} {q : PluginHandle}
    {h : Int} :
    Owns { r with plugins := Function.update r.plugins plugin (some .constructor) } k q h ↔
      r.Owns k q h := by
  unfold Owns
  dsimp only
  by_cases hq : q = plugin
  · subst hq
    rw [Function.update_self, hnew]
    constructor
    · rintro ⟨p, hp, hmem⟩
      cases hp
      exact absurd hmem (Finset.notMem_empty _)
    · rintro ⟨p, hp, -⟩
      cases hp
  · rw [Function.update_of_ne hq]

/-- The call is refused, gives the next handle, or finds the table full. -/
theorem allocateHandle_cases {handed : List (PluginHandle × Int)}
    (h : KindInv kind.maximum (r.tables kind) handed) (plugin : PluginHandle) :
    r.plugins plugin = none ∧
        r.allocateHandle kind plugin = some (r.setFatalError, INVALID_HANDLE) ∨
      (∃ p, r.plugins plugin = some p) ∧ ∃ current : Int,
        (handed.length < kind.maximum ∧
            (current = handed.length ∨ current = handed.length + 1) ∧
            r.allocateHandle kind plugin =
              some ((r.updateTable kind fun t =>
                  { t with
                    currentToAllocate := current
                    allocated := insert (handed.length : Int) t.allocated }).updatePlugin plugin
                (.addAllocated kind handed.length), (handed.length : Int))) ∨
          (handed.length = kind.maximum ∧ handed.length ≤ current ∧
            r.allocateHandle kind plugin =
              some ((r.updateTable kind fun t =>
                { t with currentToAllocate := current }).setFatalError, INVALID_HANDLE)) := by
  rw [allocateHandle, validationPluginAllocated]
  cases hplugin : r.plugins plugin with
  | none => exact .inl ⟨rfl, rfl⟩
  | some p =>
      obtain ⟨handle, current, hskip, hhandle, hcurrent⟩ := h.skipAllocated
      have hle := h.length_le
      refine .inr ⟨⟨p, rfl⟩, current, ?_⟩
      simp only [Option.isSome_some, Bool.not_true, Bool.false_eq_true, if_false]
      rw [hskip, Option.map_some]
      rcases Nat.lt_or_eq_of_le hle with hroom | hfull
      · have hnext : handle = handed.length := by omega
        have hrange : validationRange kind handle = true := decide_eq_true (by omega)
        refine .inl ⟨hroom, by omega, ?_⟩
        dsimp only
        rw [hrange, hnext]
        simp only [updateTable, Function.update_self, Function.update_idem, Bool.not_true,
          Bool.false_eq_true, if_false]
      · have hrange : validationRange kind handle = false := decide_eq_false (by omega)
        refine .inr ⟨hfull, by omega, ?_⟩
        dsimp only
        rw [hrange]
        rfl

end PluginRegistry

/-! ## Steps -/

namespace RegistryRun

variable {η : Type} {s s' : RegistryRun η}

/-- A plugin owns the handles that it got. -/
structure Inv (s : RegistryRun η) : Prop where
  kinds : ∀ k, KindInv k.maximum (s.registry.tables k) (s.handed k)
  owners : ∀ k q h, s.registry.Owns k q h ↔ (q, h) ∈ s.handed k

theorem inv_constructor : Inv (⟨.constructor, fun _ => []⟩ : RegistryRun η) :=
  { kinds := fun k => kindInv_constructor k.maximum
    owners := fun _ _ _ => ⟨fun ⟨_, hp, _⟩ => (nomatch hp), fun hmem => (nomatch hmem)⟩ }

/-- The table of one kind changes, and no handle is given. -/
theorem Inv.updateTable (h : s.Inv) {r' : PluginRegistry η} {kind : HandleKind}
    {f : HandleTable η → HandleTable η}
    (htables : r'.tables = Function.update s.registry.tables kind (f (s.registry.tables kind)))
    (hkind : KindInv kind.maximum (f (s.registry.tables kind)) (s.handed kind))
    (howns : ∀ k q a, r'.Owns k q a ↔ s.registry.Owns k q a) :
    Inv { s with registry := r' } := by
  refine ⟨fun k => ?_, fun k q a => (howns k q a).trans (h.owners k q a)⟩
  dsimp only
  rw [htables]
  by_cases hk : k = kind
  · subst hk
    rw [Function.update_self]
    exact hkind
  · rw [Function.update_of_ne hk]
    exact h.kinds k

/-- A handle is given. -/
theorem Inv.give (h : s.Inv) {kind : HandleKind} {plugin : PluginHandle} {p : RegisteredPlugin}
    (hp : s.registry.plugins plugin = some p) {current : Int}
    (hroom : (s.handed kind).length < kind.maximum)
    (hcurrent : current = (s.handed kind).length ∨ current = (s.handed kind).length + 1) :
    Inv
      { registry :=
          (s.registry.updateTable kind fun t =>
              { t with
                currentToAllocate := current
                allocated := insert ((s.handed kind).length : Int) t.allocated }).updatePlugin
            plugin (.addAllocated kind (s.handed kind).length)
        handed :=
          Function.update s.handed kind ((plugin, ((s.handed kind).length : Int)) ::
            s.handed kind) } := by
  refine ⟨fun k => ?_, fun k q a => ?_⟩
  · by_cases hk : k = kind
    · subst hk
      have hgive := (h.kinds k).give hroom plugin hcurrent
      dsimp only [PluginRegistry.updatePlugin, PluginRegistry.updateTable]
      rw [Function.update_self, Function.update_self]
      exact hgive
    · dsimp only [PluginRegistry.updatePlugin, PluginRegistry.updateTable]
      rw [Function.update_of_ne hk, Function.update_of_ne hk]
      exact h.kinds k
  · have howns : (s.registry.updateTable kind fun t =>
        { t with
          currentToAllocate := current
          allocated := insert ((s.handed kind).length : Int) t.allocated }).Owns k q a ↔
        (q, a) ∈ s.handed k := h.owners k q a
    have hp' : (s.registry.updateTable kind fun t =>
        { t with
          currentToAllocate := current
          allocated := insert ((s.handed kind).length : Int) t.allocated }).plugins plugin =
        some p := hp
    dsimp only
    rw [PluginRegistry.owns_addAllocated hp', howns]
    by_cases hk : k = kind
    · subst hk
      rw [Function.update_self, List.mem_cons, Prod.mk.injEq, or_comm]
      simp only [true_and]
    · rw [Function.update_of_ne hk]
      exact ⟨fun hh => hh.resolve_right fun hh => hk hh.2.1, .inl⟩

/-- What a call does to a run. -/
inductive Effect (s : RegistryRun η) : RegistryCall η → RegistryRun η → Prop
  | refused {call : RegistryCall η} (h : s.registry.Refused call) :
      Effect s call { s with registry := s.registry.setFatalError }
  | newPlugin {generated : List PluginHandle} {plugin : PluginHandle}
      (h : s.registry.plugins plugin = none) :
      Effect s (.allocatePluginHandle generated)
        { s with
          registry :=
            { s.registry with
              plugins := Function.update s.registry.plugins plugin (some .constructor) } }
  | given {kind : HandleKind} {plugin : PluginHandle} {p : RegisteredPlugin} {current : Int}
      (h : s.registry.plugins plugin = some p) (hroom : (s.handed kind).length < kind.maximum)
      (hcurrent : current = (s.handed kind).length ∨ current = (s.handed kind).length + 1) :
      Effect s (.allocateHandle kind plugin)
        { registry :=
            (s.registry.updateTable kind fun t =>
                { t with
                  currentToAllocate := current
                  allocated := insert ((s.handed kind).length : Int) t.allocated }).updatePlugin
              plugin (.addAllocated kind (s.handed kind).length)
          handed :=
            Function.update s.handed kind
              ((plugin, ((s.handed kind).length : Int)) :: s.handed kind) }
  | full {kind : HandleKind} {plugin : PluginHandle} {current : Int}
      (h : (s.handed kind).length = kind.maximum) (hcurrent : (s.handed kind).length ≤ current) :
      Effect s (.allocateHandle kind plugin)
        { s with
          registry :=
            (s.registry.updateTable kind fun t =>
              { t with currentToAllocate := current }).setFatalError }
  | named {kind : HandleKind} {plugin : PluginHandle} {handle : Int} {symbol : Symbol}
      (h : ¬ s.registry.Refused (.setSymbol kind plugin handle symbol)) :
      Effect s (.setSymbol kind plugin handle symbol)
        { s with
          registry :=
            (s.registry.updateTable kind (.setName handle symbol)).updatePlugin plugin
              (.addRegisteredSymbol kind handle) }
  | handled {kind : HandleKind} {plugin : PluginHandle} {handle : Int} {object : Option η}
      (h : ¬ s.registry.Refused (.setObjectHandler kind plugin handle object)) :
      Effect s (.setObjectHandler kind plugin handle object)
        { s with
          registry :=
            (s.registry.updateTable kind fun t =>
                { t with objects := Function.update t.objects handle object }).updatePlugin plugin
              (.addRegisteredHandler kind handle) }
  | resolved {kind : HandleKind} {plugin : PluginHandle} {symbol : Symbol} {handle : Int}
      (h : (s.registry.tables kind).symbols symbol = some handle) :
      Effect s (.getFromSymbol kind plugin symbol)
        { s with registry := s.registry.updatePlugin plugin (.addResolved kind handle) }

theorem invalid_ne_length (n : Nat) : (n : Int) ≠ INVALID_HANDLE := by
  unfold INVALID_HANDLE
  omega

theorem Inv.effect (h : s.Inv) {call : RegistryCall η} (hexec : s.exec call = some s') :
    Effect s call s' := by
  cases call with
  | allocatePluginHandle generated =>
      obtain ⟨⟨r', plugin⟩, hr', hs'⟩ := Option.map_eq_some_iff.mp hexec
      obtain ⟨hnew, heq⟩ := PluginRegistry.allocatePluginHandle_spec hr'
      subst hs'
      dsimp only at heq hnew ⊢
      rw [heq]
      exact .newPlugin hnew
  | allocateHandle kind plugin =>
      rw [exec] at hexec
      rcases PluginRegistry.allocateHandle_cases (h.kinds kind) plugin with
        ⟨hunknown, hcall⟩ | ⟨⟨p, hp⟩, current, ⟨hroom, hcurrent, hcall⟩ | ⟨hfull, hcurrent, hcall⟩⟩
      · rw [hcall] at hexec
        cases hexec
        exact .refused hunknown
      · rw [hcall, Option.map_some] at hexec
        dsimp only at hexec
        rw [if_neg (invalid_ne_length _)] at hexec
        cases hexec
        exact .given hp hroom hcurrent
      · rw [hcall] at hexec
        cases hexec
        exact .full hfull hcurrent
  | setSymbol kind plugin handle symbol =>
      rw [exec] at hexec
      rcases s.registry.setSymbol_cases kind plugin handle symbol with ⟨href, hcall⟩ | ⟨hacc, hcall⟩
      · rw [hcall] at hexec
        cases hexec
        exact .refused href
      · rw [hcall] at hexec
        cases hexec
        exact .named hacc
  | setObjectHandler kind plugin handle object =>
      rw [exec] at hexec
      rcases s.registry.setObjectHandler_cases kind plugin handle object with
        ⟨href, hcall⟩ | ⟨hacc, hcall⟩
      · rw [hcall] at hexec
        cases hexec
        exact .refused href
      · rw [hcall] at hexec
        cases hexec
        exact .handled hacc
  | getFromSymbol kind plugin symbol =>
      rw [exec] at hexec
      rcases s.registry.getFromSymbol_cases kind plugin symbol with
        ⟨href, hcall⟩ | ⟨-, handle, hsymbol, hcall⟩
      · rw [hcall] at hexec
        cases hexec
        exact .refused href
      · rw [hcall] at hexec
        cases hexec
        exact .resolved hsymbol

theorem Inv.step (h : s.Inv) {call : RegistryCall η} (hexec : s.exec call = some s') : s'.Inv := by
  cases h.effect hexec with
  | refused => exact ⟨h.kinds, h.owners⟩
  | newPlugin hnew =>
      exact ⟨h.kinds, fun k q a => (PluginRegistry.owns_newPlugin hnew).trans (h.owners k q a)⟩
  | given hp hroom hcurrent => exact h.give hp hroom hcurrent
  | @full kind _ current hfull hcurrent =>
      have hkind := (h.kinds kind).exhaust hfull hcurrent
      exact h.updateTable (f := fun t => { t with currentToAllocate := current }) rfl hkind
        fun _ _ _ => Iff.rfl
  | @named kind plugin handle symbol hacc =>
      simp only [PluginRegistry.Refused, not_or, not_not] at hacc
      obtain ⟨-, -, howns, hsymbol, hhandle⟩ := hacc
      refine h.updateTable rfl ((h.kinds kind).setName ?_ hsymbol hhandle) fun k q a =>
        PluginRegistry.owns_updatePlugin (.addRegisteredSymbol kind handle) fun _ => rfl
      exact ((h.kinds kind).given handle).mp
        (List.mem_map.mpr ⟨_, (h.owners kind plugin handle).mp howns, rfl⟩)
  | @handled kind _ handle object =>
      have hkind : KindInv kind.maximum
          { s.registry.tables kind with
            objects := Function.update (s.registry.tables kind).objects handle object }
          (s.handed kind) := { h.kinds kind with }
      exact h.updateTable
        (f := fun t => { t with objects := Function.update t.objects handle object }) rfl hkind
        fun k q a =>
          PluginRegistry.owns_updatePlugin (.addRegisteredHandler kind handle) fun _ => rfl
  | @resolved kind plugin symbol handle =>
      exact ⟨h.kinds, fun k q a =>
        (PluginRegistry.owns_updatePlugin (.addResolved kind handle) fun _ => rfl).trans
          (h.owners k q a)⟩

theorem Effect.tables {call : RegistryCall η} (h : Effect s call s') (k : HandleKind) :
    (s'.registry.tables k).objects = (s.registry.tables k).objects ∧
        (s'.registry.tables k).names = (s.registry.tables k).names ∧
        (s'.registry.tables k).symbols = (s.registry.tables k).symbols ∨
      (∃ q a symbol, call = .setSymbol k q a symbol ∧ ¬ s.registry.Refused call ∧
        s'.registry.tables k = (s.registry.tables k).setName a symbol) ∨
      ∃ q a object, call = .setObjectHandler k q a object ∧ ¬ s.registry.Refused call ∧
        s'.registry.tables k =
          { s.registry.tables k with
            objects := Function.update (s.registry.tables k).objects a object } := by
  have hupdate : ∀ (kind : HandleKind) (f : HandleTable η → HandleTable η),
      (kind = k ∧ Function.update s.registry.tables kind (f (s.registry.tables kind)) k =
          f (s.registry.tables k)) ∨
        Function.update s.registry.tables kind (f (s.registry.tables kind)) k =
          s.registry.tables k := by
    intro kind f
    by_cases hk : k = kind
    · subst hk
      exact .inl ⟨rfl, Function.update_self _ _ _⟩
    · exact .inr (Function.update_of_ne hk _ _)
  cases h with
  | refused => exact .inl ⟨rfl, rfl, rfl⟩
  | newPlugin => exact .inl ⟨rfl, rfl, rfl⟩
  | resolved => exact .inl ⟨rfl, rfl, rfl⟩
  | @given kind _ _ current =>
      left
      dsimp only [PluginRegistry.updatePlugin, PluginRegistry.updateTable]
      rcases hupdate kind fun t =>
          { t with
            currentToAllocate := current
            allocated := insert ((s.handed kind).length : Int) t.allocated } with ⟨-, heq⟩ | heq
      · rw [heq]
        exact ⟨rfl, rfl, rfl⟩
      · rw [heq]
        exact ⟨rfl, rfl, rfl⟩
  | @full kind _ current =>
      left
      dsimp only [PluginRegistry.setFatalError, PluginRegistry.updateTable]
      rcases hupdate kind fun t => { t with currentToAllocate := current } with ⟨-, heq⟩ | heq
      · rw [heq]
        exact ⟨rfl, rfl, rfl⟩
      · rw [heq]
        exact ⟨rfl, rfl, rfl⟩
  | @named kind plugin handle symbol hacc =>
      rcases hupdate kind (.setName handle symbol) with ⟨rfl, heq⟩ | heq
      · exact .inr (.inl ⟨plugin, handle, symbol, rfl, hacc, heq⟩)
      · left
        dsimp only [PluginRegistry.updatePlugin, PluginRegistry.updateTable]
        rw [heq]
        exact ⟨rfl, rfl, rfl⟩
  | @handled kind plugin handle object hacc =>
      rcases hupdate kind fun t =>
          { t with objects := Function.update t.objects handle object } with ⟨rfl, heq⟩ | heq
      · exact .inr (.inr ⟨plugin, handle, object, rfl, hacc, heq⟩)
      · left
        dsimp only [PluginRegistry.updatePlugin, PluginRegistry.updateTable]
        rw [heq]
        exact ⟨rfl, rfl, rfl⟩

/-- What plugins rely on. -/
structure Consistent (s : RegistryRun η) : Prop where
  distinct : ∀ k, ((s.handed k).map Prod.snd).Nodup
  inside : ∀ k q a, (q, a) ∈ s.handed k → 0 ≤ a ∧ a < k.maximum
  owners : ∀ k q a, s.registry.Owns k q a ↔ (q, a) ∈ s.handed k
  oneOwner : ∀ k q q' a, s.registry.Owns k q a → s.registry.Owns k q' a → q = q'
  objects : ∀ call s', s.exec call = some s' → ∀ k a,
    (s'.registry.tables k).objects a ≠ (s.registry.tables k).objects a →
    ∃ q object, call = .setObjectHandler k q a object ∧ s.registry.Owns k q a
  names : ∀ call s', s.exec call = some s' → ∀ k a,
    (s'.registry.tables k).nameOf a ≠ (s.registry.tables k).nameOf a →
    ∃ q symbol, call = .setSymbol k q a symbol ∧ s.registry.Owns k q a
  symbols : ∀ call s', s.exec call = some s' → ∀ k symbol,
    (s'.registry.tables k).symbols symbol ≠ (s.registry.tables k).symbols symbol →
    ∃ q a, call = .setSymbol k q a symbol ∧ s.registry.Owns k q a ∧
      (s.registry.tables k).symbols symbol = none ∧
      (s'.registry.tables k).symbols symbol = some a
  injective : ∀ k symbol symbol' a, (s.registry.tables k).symbols symbol = some a →
    (s.registry.tables k).symbols symbol' = some a → symbol = symbol'
  agrees : ∀ k a, a ∈ (s.registry.tables k).registeredSymbols ↔
    ∃ symbol, (s.registry.tables k).symbols symbol = some a ∧
      (s.registry.tables k).nameOf a = symbol.bytes
  registers : ∀ k q a symbol, ¬ s.registry.Refused (.setSymbol k q a symbol) →
    ((s.registry.setSymbol k q a symbol).tables k).symbols symbol = some a
  resolves : ∀ k q symbol, s.registry.plugins q ≠ none →
    (s.registry.getFromSymbol k q symbol).2 =
      ((s.registry.tables k).symbols symbol).getD INVALID_HANDLE
  returns : ∀ k q, s.registry.allocateHandle k q ≠ none
  allocates : ∀ k q, s.registry.plugins q ≠ none → (s.handed k).length < k.maximum →
    ∃ r' a, s.registry.allocateHandle k q = some (r', a) ∧ 0 ≤ a ∧ a < k.maximum ∧
      (∀ q', ¬ s.registry.Owns k q' a) ∧ r'.Owns k q a
  refused : ∀ call, s.registry.Refused call →
    s.exec call = some { s with registry := s.registry.setFatalError }

theorem exec_refused {call : RegistryCall η} (h : s.registry.Refused call) :
    s.exec call = some { s with registry := s.registry.setFatalError } := by
  cases call with
  | allocatePluginHandle => exact h.elim
  | allocateHandle kind plugin =>
      have hplugin : s.registry.plugins plugin = none := h
      rw [exec, PluginRegistry.allocateHandle, PluginRegistry.validationPluginAllocated, hplugin]
      rfl
  | setSymbol kind plugin handle symbol =>
      rcases s.registry.setSymbol_cases kind plugin handle symbol with ⟨-, hcall⟩ | ⟨hacc, -⟩
      · rw [exec, hcall]
      · exact absurd h hacc
  | setObjectHandler kind plugin handle object =>
      rcases s.registry.setObjectHandler_cases kind plugin handle object with
        ⟨-, hcall⟩ | ⟨hacc, -⟩
      · rw [exec, hcall]
      · exact absurd h hacc
  | getFromSymbol kind plugin symbol =>
      rcases s.registry.getFromSymbol_cases kind plugin symbol with ⟨-, hcall⟩ | ⟨hacc, -⟩
      · rw [exec, hcall]
      · exact absurd h hacc

/-- An allocation returns, and gives the next handle while there is one. -/
theorem Inv.allocates (h : s.Inv) (k : HandleKind) (q : PluginHandle) :
    s.registry.allocateHandle k q ≠ none ∧
      (s.registry.plugins q ≠ none → (s.handed k).length < k.maximum →
        ∃ r' a, s.registry.allocateHandle k q = some (r', a) ∧ 0 ≤ a ∧ a < k.maximum ∧
          (∀ q', ¬ s.registry.Owns k q' a) ∧ r'.Owns k q a) := by
  rcases PluginRegistry.allocateHandle_cases (h.kinds k) q with
    ⟨hunknown, hcall⟩ | ⟨⟨p, hp⟩, current, ⟨hroom, -, hcall⟩ | ⟨hfull, -, hcall⟩⟩
  · rw [hcall]
    exact ⟨Option.some_ne_none _, fun hq => absurd hunknown hq⟩
  · rw [hcall]
    refine ⟨Option.some_ne_none _, fun _ _ => ⟨_, _, rfl, by omega, by omega, fun q' howns => ?_, ?_⟩⟩
    · have hmem : ((s.handed k).length : Int) ∈ (s.handed k).map Prod.snd :=
        List.mem_map.mpr ⟨_, (h.owners k q' _).mp howns, rfl⟩
      rw [(h.kinds k).given, (h.kinds k).handles] at hmem
      omega
    · have hp' : (s.registry.updateTable k fun t =>
          { t with
            currentToAllocate := current
            allocated := insert ((s.handed k).length : Int) t.allocated }).plugins q = some p := hp
      exact (PluginRegistry.owns_addAllocated hp').mpr (.inr ⟨rfl, rfl, rfl⟩)
  · rw [hcall]
    exact ⟨Option.some_ne_none _, fun _ hroom => by omega⟩

theorem not_refused_owns {k : HandleKind} {q : PluginHandle} {a : Int} {symbol : Symbol}
    (h : ¬ s.registry.Refused (.setSymbol k q a symbol)) :
    s.registry.Owns k q a ∧ (s.registry.tables k).symbols symbol = none := by
  simp only [PluginRegistry.Refused, not_or, not_not] at h
  exact ⟨h.2.2.1, h.2.2.2.1⟩

/-- The tables of a handle change when its owner says so. -/
theorem Inv.byOwner (h : s.Inv) {call : RegistryCall η} (hexec : s.exec call = some s')
    (k : HandleKind) :
    (∀ a, (s'.registry.tables k).objects a ≠ (s.registry.tables k).objects a →
      ∃ q object, call = .setObjectHandler k q a object ∧ s.registry.Owns k q a) ∧
    (∀ a, (s'.registry.tables k).nameOf a ≠ (s.registry.tables k).nameOf a →
      ∃ q symbol, call = .setSymbol k q a symbol ∧ s.registry.Owns k q a) ∧
    ∀ symbol, (s'.registry.tables k).symbols symbol ≠ (s.registry.tables k).symbols symbol →
      ∃ q a, call = .setSymbol k q a symbol ∧ s.registry.Owns k q a ∧
        (s.registry.tables k).symbols symbol = none ∧
        (s'.registry.tables k).symbols symbol = some a := by
  rcases (h.effect hexec).tables k with ⟨hobjects, hnames, hsymbols⟩ |
    ⟨q, handle, symbol, rfl, hacc, htable⟩ | ⟨q, handle, object, rfl, hacc, htable⟩
  · refine ⟨fun a hne => absurd (congrFun hobjects a) hne, fun a hne => ?_,
      fun symbol hne => absurd (congrFun hsymbols symbol) hne⟩
    have hsame : (s'.registry.tables k).nameOf a = (s.registry.tables k).nameOf a := by
      unfold HandleTable.nameOf
      rw [hnames]
    exact absurd hsame hne
  · obtain ⟨howns, hnone⟩ := not_refused_owns hacc
    rw [htable]
    refine ⟨fun a hne => absurd rfl hne, fun a hne => ?_, fun symbol' hne => ?_⟩
    · by_cases ha : a = handle
      · exact ⟨q, symbol, by rw [ha], ha ▸ howns⟩
      · exact absurd (HandleTable.nameOf_setName_ne symbol ha) hne
    · by_cases hsymbol : symbol' = symbol
      · subst hsymbol
        exact ⟨q, handle, rfl, howns, hnone, Function.update_self _ _ _⟩
      · exact absurd (Function.update_of_ne hsymbol _ _) hne
  · simp only [PluginRegistry.Refused, not_or, not_not] at hacc
    rw [htable]
    refine ⟨fun a hne => ?_, fun a hne => absurd rfl hne, fun symbol hne => absurd rfl hne⟩
    by_cases ha : a = handle
    · exact ⟨q, object, by rw [ha], ha ▸ hacc.2.2⟩
    · exact absurd (Function.update_of_ne ha _ _) hne

theorem Inv.consistent (h : s.Inv) : s.Consistent :=
  { distinct := fun k => (h.kinds k).nodup
    inside := fun k q a hmem => by
      have hle := (h.kinds k).length_le
      have hgiven := ((h.kinds k).given a).mp (List.mem_map.mpr ⟨_, hmem, rfl⟩)
      rw [(h.kinds k).handles] at hgiven
      omega
    owners := h.owners
    oneOwner := fun k q q' a hq hq' =>
      congrArg Prod.fst (List.inj_on_of_nodup_map (h.kinds k).nodup ((h.owners k q a).mp hq)
        ((h.owners k q' a).mp hq') rfl)
    objects := fun _ _ hexec k => (h.byOwner hexec k).1
    names := fun _ _ hexec k => (h.byOwner hexec k).2.1
    symbols := fun _ _ hexec k => (h.byOwner hexec k).2.2
    injective := fun k _ _ _ hs hs' => (h.kinds k).symbols_injective hs hs'
    agrees := fun k a => by
      constructor
      · intro hmem
        obtain ⟨symbol, hs⟩ := (h.kinds k).registered a hmem
        exact ⟨symbol, hs, ((h.kinds k).symbols symbol a hs).2.2⟩
      · rintro ⟨symbol, hs, -⟩
        exact ((h.kinds k).symbols symbol a hs).1
    registers := fun k q a symbol hacc => by
      rcases s.registry.setSymbol_cases k q a symbol with ⟨href, -⟩ | ⟨-, hcall⟩
      · exact absurd href hacc
      · rw [hcall]
        dsimp only [PluginRegistry.updatePlugin, PluginRegistry.updateTable]
        rw [Function.update_self]
        exact Function.update_self _ _ _
    resolves := fun k q symbol hq => by
      rcases s.registry.getFromSymbol_cases k q symbol with
        ⟨hunknown | hnone, hcall⟩ | ⟨-, a, hs, hcall⟩
      · exact absurd hunknown hq
      · rw [hcall, hnone]
        rfl
      · rw [hcall, hs]
        rfl
    returns := fun k q => (h.allocates k q).1
    allocates := fun k q => (h.allocates k q).2
    refused := fun _ href => exec_refused href }

end RegistryRun

theorem registrySystem_inductive (η : Type) : (registrySystem η).Inductive RegistryRun.Inv :=
  { init := by
      rintro s rfl
      exact RegistryRun.inv_constructor
    step := fun _ _ _ h hexec => h.step hexec }

/-- The registry stays consistent, whatever its plugins call. -/
theorem registrySystem_consistent {η : Type} {s : RegistryRun η}
    (h : (registrySystem η).Reachable s) : s.Consistent :=
  ((registrySystem_inductive η).holds h).consistent

/-- The second plugin allocates a handle, and can set neither the symbol of the first one's
handle nor its own handle to the symbol that is taken. -/
theorem registrySystem_consistent_two : ∃ s : RegistryRun Unit,
    s.handed .slaveMode = [(9, 1), (7, 0)] ∧ s.registry.hasFatalErrors = true ∧
      ((s.registry.tables .slaveMode).nameOf 0 = [82, 65, 89]) ∧ s.Consistent := by
  let ray : Symbol := ⟨[82, 65, 89], by simp, by decide⟩
  let other : Symbol := ⟨[66], by simp, by decide⟩
  have hrun : (TransitionSystem.runAll RegistryRun.exec
      (⟨.constructor, fun _ => []⟩ : RegistryRun Unit)
      [.allocatePluginHandle [7], .allocatePluginHandle [7, 9], .allocateHandle .slaveMode 7,
        .setSymbol .slaveMode 7 0 ray, .allocateHandle .slaveMode 9,
        .setSymbol .slaveMode 9 0 other, .setSymbol .slaveMode 9 1 ray]).map
        (fun s => (s.handed .slaveMode, s.registry.hasFatalErrors,
          (s.registry.tables .slaveMode).nameOf 0)) =
      some ([(9, 1), (7, 0)], true, [82, 65, 89]) := by decide +kernel +revert
  obtain ⟨s, hs, hobserved⟩ := Option.map_eq_some_iff.mp hrun
  simp only [Prod.mk.injEq] at hobserved
  obtain ⟨hhanded, hfatal, hname⟩ := hobserved
  have hreach := (TransitionSystem.Reachable.init rfl).runAll hs
  exact ⟨s, hhanded, hfatal, hname, registrySystem_consistent hreach⟩

end RayPlatform
