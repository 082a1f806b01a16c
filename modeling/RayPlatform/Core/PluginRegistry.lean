import Mathlib.Data.Finset.Card
import RayPlatform.Core.MessageDispatch

/-!
# The plugins of a ComputeCore

Plugins allocate handles of three kinds and register a symbol and an object handler for
each. The three families of functions differ in the tables that they use only: they are one
definition with the kind as a parameter.

* A validation that fails sets the fatal error, and the call returns.
* `Symbol` is a C string that fits a row of a name table; a name table is one array of
  characters, in which row `h` starts at `h * 128`.
* `allocatePluginHandle` takes the numbers that `generatePluginHandle` draws.

What is printed, and the texts that describe a plugin, are left out.
-/

namespace RayPlatform

abbrev PluginHandle := UInt64

def MAXIMUM_NUMBER_OF_MASTER_HANDLERS : Nat := 64

def MAXIMUM_NUMBER_OF_SLAVE_HANDLERS : Nat := 64

inductive HandleKind
  | slaveMode
  | masterMode
  | messageTag
  deriving DecidableEq, Repr

/-- The size of the tables of a kind. -/
def HandleKind.maximum : HandleKind → Nat
  | slaveMode => MAXIMUM_NUMBER_OF_SLAVE_HANDLERS
  | masterMode => MAXIMUM_NUMBER_OF_MASTER_HANDLERS
  | messageTag => MAXIMUM_NUMBER_OF_TAG_HANDLERS

/-- The width of a row of `MASTER_MODES`, `SLAVE_MODES` and `MESSAGE_TAGS`. -/
def nameWidth : Nat := 128

structure Symbol where
  bytes : List UInt8
  text : ∀ byte ∈ bytes, byte ≠ 0
  fits : bytes.length < nameWidth

theorem Symbol.ext {s s' : Symbol} (h : s.bytes = s'.bytes) : s = s' := by
  cases s
  cases s'
  cases h
  rfl

instance : DecidableEq Symbol := fun s s' =>
  decidable_of_iff (s.bytes = s'.bytes) ⟨Symbol.ext, congrArg Symbol.bytes⟩

structure RegisteredPlugin where
  allocated : HandleKind → Finset Int
  registeredSymbols : HandleKind → Finset Int
  registeredHandlers : HandleKind → Finset Int
  resolved : HandleKind → Finset Int

/-- What the core keeps for the handles of a kind. -/
structure HandleTable (η : Type) where
  currentToAllocate : Int
  allocated : Finset Int
  registeredSymbols : Finset Int
  symbols : Symbol → Option Int
  names : Int → UInt8
  objects : Int → Option η

structure PluginRegistry (η : Type) where
  plugins : PluginHandle → Option RegisteredPlugin
  tables : HandleKind → HandleTable η
  hasFatalErrors : Bool

/-- `strcpy` with the byte 0 at the end. -/
def strcpy : (Int → UInt8) → Int → List UInt8 → Int → UInt8
  | memory, start, [] => Function.update memory start 0
  | memory, start, byte :: bytes => strcpy (Function.update memory start byte) (start + 1) bytes

namespace RegisteredPlugin

def constructor : RegisteredPlugin :=
  { allocated := fun _ => ∅
    registeredSymbols := fun _ => ∅
    registeredHandlers := fun _ => ∅
    resolved := fun _ => ∅ }

def addAllocated (kind : HandleKind) (handle : Int) (p : RegisteredPlugin) : RegisteredPlugin :=
  { p with allocated := Function.update p.allocated kind (insert handle (p.allocated kind)) }

def addRegisteredSymbol (kind : HandleKind) (handle : Int) (p : RegisteredPlugin) :
    RegisteredPlugin :=
  { p with
    registeredSymbols :=
      Function.update p.registeredSymbols kind (insert handle (p.registeredSymbols kind)) }

def addRegisteredHandler (kind : HandleKind) (handle : Int) (p : RegisteredPlugin) :
    RegisteredPlugin :=
  { p with
    registeredHandlers :=
      Function.update p.registeredHandlers kind (insert handle (p.registeredHandlers kind)) }

def addResolved (kind : HandleKind) (handle : Int) (p : RegisteredPlugin) : RegisteredPlugin :=
  { p with resolved := Function.update p.resolved kind (insert handle (p.resolved kind)) }

end RegisteredPlugin

namespace HandleTable

variable {η : Type}

def constructor : HandleTable η :=
  { currentToAllocate := 0
    allocated := ∅
    registeredSymbols := ∅
    symbols := fun _ => none
    names := fun _ => 0
    objects := fun _ => none }

/-- The C string in the row of a handle. -/
def nameOf (t : HandleTable η) (handle : Int) : List UInt8 :=
  ((List.range nameWidth).map fun k : Nat => t.names (handle * nameWidth + k)).takeWhile (· ≠ 0)

/-- `while(m_allocated.count(handle)>0) handle=m_currentToAllocate++;`: the handle and the
counter. -/
def skipAllocated (allocated : Finset Int) : Nat → Int → Int → Option (Int × Int)
  | 0, _, _ => none
  | fuel + 1, handle, current =>
      if handle ∈ allocated then skipAllocated allocated fuel current (current + 1)
      else some (handle, current)

def setName (handle : Int) (symbol : Symbol) (t : HandleTable η) : HandleTable η :=
  { t with
    names := strcpy t.names (handle * nameWidth) symbol.bytes
    registeredSymbols := insert handle t.registeredSymbols
    symbols := Function.update t.symbols symbol (some handle) }

end HandleTable

namespace PluginRegistry

variable {η : Type}

def constructor : PluginRegistry η :=
  { plugins := fun _ => none
    tables := fun _ => .constructor
    hasFatalErrors := false }

def setFatalError (r : PluginRegistry η) : PluginRegistry η :=
  { r with hasFatalErrors := true }

/-- `m_plugins[plugin]` of a plugin that is there. -/
def updatePlugin (r : PluginRegistry η) (plugin : PluginHandle)
    (f : RegisteredPlugin → RegisteredPlugin) : PluginRegistry η :=
  { r with plugins := Function.update r.plugins plugin ((r.plugins plugin).map f) }

def updateTable (r : PluginRegistry η) (kind : HandleKind) (f : HandleTable η → HandleTable η) :
    PluginRegistry η :=
  { r with tables := Function.update r.tables kind (f (r.tables kind)) }

/-! ## Validations -/

def validationPluginAllocated (r : PluginRegistry η) (plugin : PluginHandle) : Bool :=
  (r.plugins plugin).isSome

def validationRange (kind : HandleKind) (handle : Int) : Bool :=
  decide (0 ≤ handle ∧ handle < kind.maximum)

/-- `m_plugins[plugin].hasSlaveMode(handle)` and its two siblings. -/
def validationOwnership (r : PluginRegistry η) (kind : HandleKind) (plugin : PluginHandle)
    (handle : Int) : Bool :=
  (r.plugins plugin).any fun p => decide (handle ∈ p.allocated kind)

def validationSymbolAvailable (r : PluginRegistry η) (kind : HandleKind) (symbol : Symbol) : Bool :=
  ((r.tables kind).symbols symbol).isNone

def validationSymbolNotRegistered (r : PluginRegistry η) (kind : HandleKind) (handle : Int) :
    Bool :=
  decide (handle ∉ (r.tables kind).registeredSymbols)

def validationSymbolRegistered (r : PluginRegistry η) (kind : HandleKind) (symbol : Symbol) : Bool :=
  ((r.tables kind).symbols symbol).isSome

/-! ## Calls -/

/-- The first number drawn that is not the handle of a plugin. -/
def allocatePluginHandle (r : PluginRegistry η) :
    List PluginHandle → Option (PluginRegistry η × PluginHandle)
  | [] => none
  | handle :: generated =>
      if (r.plugins handle).isSome then r.allocatePluginHandle generated
      else some ({ r with plugins := Function.update r.plugins handle (some .constructor) }, handle)

/-- The new handle, or `INVALID_HANDLE`. -/
def allocateHandle (r : PluginRegistry η) (kind : HandleKind) (plugin : PluginHandle) :
    Option (PluginRegistry η × Int) :=
  if !r.validationPluginAllocated plugin then some (r.setFatalError, INVALID_HANDLE)
  else
    let t := r.tables kind
    (HandleTable.skipAllocated t.allocated (t.allocated.card + 2) t.currentToAllocate
        t.currentToAllocate).map fun (handle, current) =>
      let r := r.updateTable kind fun t => { t with currentToAllocate := current }
      if !validationRange kind handle then (r.setFatalError, INVALID_HANDLE)
      else
        let r := r.updateTable kind fun t => { t with allocated := insert handle t.allocated }
        (r.updatePlugin plugin (.addAllocated kind handle), handle)

def setSymbol (r : PluginRegistry η) (kind : HandleKind) (plugin : PluginHandle) (handle : Int)
    (symbol : Symbol) : PluginRegistry η :=
  if !r.validationPluginAllocated plugin then r.setFatalError
  else if !validationRange kind handle then r.setFatalError
  else if !r.validationOwnership kind plugin handle then r.setFatalError
  else if !r.validationSymbolAvailable kind symbol then r.setFatalError
  else if !r.validationSymbolNotRegistered kind handle then r.setFatalError
  else if !validationRange kind handle then r.setFatalError
  else (r.updateTable kind (.setName handle symbol)).updatePlugin plugin
    (.addRegisteredSymbol kind handle)

def setObjectHandler (r : PluginRegistry η) (kind : HandleKind) (plugin : PluginHandle)
    (handle : Int) (object : Option η) : PluginRegistry η :=
  if !r.validationPluginAllocated plugin then r.setFatalError
  else if !validationRange kind handle then r.setFatalError
  else if !r.validationOwnership kind plugin handle then r.setFatalError
  else
    let r := r.updateTable kind fun t =>
      { t with objects := Function.update t.objects handle object }
    r.updatePlugin plugin (.addRegisteredHandler kind handle)

def getFromSymbol (r : PluginRegistry η) (kind : HandleKind) (plugin : PluginHandle)
    (symbol : Symbol) : PluginRegistry η × Int :=
  if !r.validationPluginAllocated plugin then (r.setFatalError, INVALID_HANDLE)
  else if !r.validationSymbolRegistered kind symbol then (r.setFatalError, INVALID_HANDLE)
  else
    match (r.tables kind).symbols symbol with
    | some handle => (r.updatePlugin plugin (.addResolved kind handle), handle)
    | none => (r, INVALID_HANDLE)

/-! ## The three kinds -/

def allocateSlaveModeHandle (r : PluginRegistry η) := r.allocateHandle .slaveMode

def allocateMasterModeHandle (r : PluginRegistry η) := r.allocateHandle .masterMode

def allocateMessageTagHandle (r : PluginRegistry η) := r.allocateHandle .messageTag

def setSlaveModeSymbol (r : PluginRegistry η) := r.setSymbol .slaveMode

def setMasterModeSymbol (r : PluginRegistry η) := r.setSymbol .masterMode

def setMessageTagSymbol (r : PluginRegistry η) := r.setSymbol .messageTag

def setSlaveModeObjectHandler (r : PluginRegistry η) := r.setObjectHandler .slaveMode

def setMasterModeObjectHandler (r : PluginRegistry η) := r.setObjectHandler .masterMode

def setMessageTagObjectHandler (r : PluginRegistry η) := r.setObjectHandler .messageTag

def getSlaveModeFromSymbol (r : PluginRegistry η) := r.getFromSymbol .slaveMode

def getMasterModeFromSymbol (r : PluginRegistry η) := r.getFromSymbol .masterMode

def getMessageTagFromSymbol (r : PluginRegistry η) := r.getFromSymbol .messageTag

end PluginRegistry

end RayPlatform
