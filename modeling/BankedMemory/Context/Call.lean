import BankedMemory.Arena.Call
import BankedMemory.Context.Basic

/-!
# Calls on a context

Everything a client can ask of a context: calls on one of its arenas, and those that choose the bank
by themselves.
-/

namespace BankedMemory.Context

inductive Call where
  | onArena (bank : Bank) (call : Arena.Call)
  | setMode (mode : Bank)
  | setPermissive (permissive : Bool)
  | newUnbankedArray (size : Nat)
  | newArray (size : Nat)
  | arrayPut (array : Object) (i : Int32) (o : Object)
  | arrayGet (array : Object) (i : Int32)
  /-- The counts of the bank an object belongs to. -/
  | bankUsage (o : Object)
  | accept (dest : Bank) (item : Object) (permissive : Bool) (op : String)
deriving DecidableEq, Repr

/-- Perform a call. -/
def Call.run : Call → ContextM Reply
  | onArena bank call => Context.onArena bank call.run
  | setMode mode => do Context.setMode mode; return .done
  | setPermissive permissive => do Context.setPermissive permissive; return .done
  | newUnbankedArray size => .object <$> Context.newUnbankedArray size
  | newArray size => .object <$> Context.newArray size
  | arrayPut array i o => do Context.arrayPut array i o; return .done
  | arrayGet array i => reading fun c => return .object (← Context.arrayGet array i c)
  | bankUsage o => reading fun c => return .usage (c.arena o.bank).usage
  | accept dest item permissive op =>
    reading fun _ => do dest.accept item permissive op; return .done

end BankedMemory.Context
