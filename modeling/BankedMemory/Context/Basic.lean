import BankedMemory.Arena.Arrays

/-!
# Contexts

A context owns two arenas, the local and the global bank. Its mode says which of them new arrays are
made in; a composite carries the bank it belongs to. A global array takes no local composite, since
the global bank outlives what the local one holds, unless the context is permissive.
-/

namespace BankedMemory

/-- How a context starts. Limits are in bytes, sixteen times 2 to the 20th unless given. -/
structure Config where
  localLimit : Nat := 0x1000000
  globalLimit : Nat := 0x1000000
  permissive : Bool := false
  mode : Bank := .localVM
deriving DecidableEq, Repr

structure Context where
  localArena : Arena
  globalArena : Arena
  /-- The bank new arrays are made in. -/
  mode : Bank
  /-- Whether a global array takes local composites. -/
  permissive : Bool
deriving DecidableEq

/-- Operations on a context. -/
abbrev ContextM := EStateM Fault Context

/-- Fails if a local composite would go into the global bank. Anything else may go anywhere. -/
def Bank.accept (dest : Bank) (item : Object) (permissive : Bool) (op : String) :
    Except Fault Unit :=
  if dest = .globalVM ∧ item.isComposite ∧ item.bank = .localVM ∧ !permissive then
    .error (.localIntoGlobal op)
  else .ok ()

namespace Context

/-- A context with two empty arenas. -/
def ofConfig (config : Config) : Context where
  localArena := .empty config.localLimit
  globalArena := .empty config.globalLimit
  mode := config.mode
  permissive := config.permissive

def arena (c : Context) : Bank → Arena
  | .localVM => c.localArena
  | .globalVM => c.globalArena

/-- Act on the arena of a bank. The other one is left as it is. -/
def onArena {α : Type} (bank : Bank) (act : ArenaM α) : ContextM α
  | ⟨lo, gl, mode, permissive⟩ =>
    match bank with
    | .localVM =>
      match act lo with
      | .ok x lo => .ok x ⟨lo, gl, mode, permissive⟩
      | .error e lo => .error e ⟨lo, gl, mode, permissive⟩
    | .globalVM =>
      match act gl with
      | .ok x gl => .ok x ⟨lo, gl, mode, permissive⟩
      | .error e gl => .error e ⟨lo, gl, mode, permissive⟩

/-- Look at the context without changing it. -/
def reading {α : Type} (f : Context → Except Fault α) : ContextM α := fun c =>
  match f c with
  | .ok x => .ok x c
  | .error e => .error e c

/-- The bank new arrays are made in. -/
def currentMode : ContextM Bank := reading fun c => .ok c.mode

def setMode (mode : Bank) : ContextM Unit := modify fun c => { c with mode }

def setPermissive (permissive : Bool) : ContextM Unit := modify fun c => { c with permissive }

/-- A new array in the bank of the mode, which its value does not say. -/
def newUnbankedArray (size : Nat) : ContextM Object := do
  onArena (← currentMode) (Arena.newArray size)

/-- A new array in the bank of the mode. -/
def newArray (size : Nat) : ContextM Object := do
  let bank ← currentMode
  return (← onArena bank (Arena.newArray size)).inBank bank

/-- Store an object in element `i` of an array, in the bank the array belongs to. -/
def arrayPut (array : Object) (i : Int32) (o : Object) : ContextM Unit := do
  let v ← reading fun _ => array.array? "bank_array_put"
  if !v.access.writable then
    throw (.accessDenied "bank_array_put")
  reading fun c => v.bank.accept o c.permissive "bank_array_put"
  onArena v.bank (Arena.arrayPut array i o)

/-- Element `i` of an array, from the bank the array belongs to. -/
def arrayGet (array : Object) (i : Int32) (c : Context) : Except Fault Object := do
  let v ← array.array? "bank_array_get"
  if !v.access.readable then
    throw (.accessDenied "bank_array_get")
  Arena.arrayGet array i (c.arena v.bank)

end Context

end BankedMemory
