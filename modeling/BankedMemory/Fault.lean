/-!
# Faults

`Condition` is the kind of failure a client can tell apart, `Report` what it reads: the condition,
the operation that met it and a message. `Fault` lists the causes; `Fault.report` words each once.

Some causes are no errors that an operation gives back: arithmetic is checked, and where it leaves
the words, or storage the region, the program stops. `Fault.stops` tells them from the others.
-/

namespace BankedMemory

/-- The kind of a failure. -/
inductive Condition where
  | invalidAccess
  | invalidRestore
  | limitCheck
  | rangeCheck
  | stackUnderflow
  | typeCheck
  | unregistered
  | vmError
  /-- No error is given back: the program stops. -/
  | panic
deriving DecidableEq, Repr

/-- The name a program sees. All are lower case but `VMerror`. -/
def Condition.name : Condition → String
  | .invalidAccess => "invalidaccess"
  | .invalidRestore => "invalidrestore"
  | .limitCheck => "limitcheck"
  | .rangeCheck => "rangecheck"
  | .stackUnderflow => "stackunderflow"
  | .typeCheck => "typecheck"
  | .unregistered => "unregistered"
  | .vmError => "VMerror"
  | .panic => "panic"

/-- A failure as it is shown. An empty operation or message is left out of the text. -/
structure Report where
  condition : Condition
  operation : String := ""
  message : String := ""
deriving DecidableEq, Repr

namespace Report

/-- One line: the condition, then `in` the operation, then the message after a semicolon. -/
def text (r : Report) : String :=
  r.condition.name ++ (if r.operation.isEmpty then "" else " in " ++ r.operation) ++
    (if r.message.isEmpty then "" else "; " ++ r.message)

/-- The text between braces, for listings. -/
def debugText (r : Report) : String :=
  "Error \x7b " ++ r.text ++ " \x7d"

end Report

/-- Why an operation failed. A parameter `op` names the operation that is reported where several
share the cause. -/
inductive Fault where
  /-- The handle names no live entity. -/
  | noSuchEntity
  /-- The reserved entity is never freed. -/
  | reservedEntity
  /-- The element does not lie within the entity's capacity. -/
  | outsideStorage
  /-- The entity copied to is smaller than the one copied from. -/
  | destinationTooSmall
  /-- The region may not grow so far. -/
  | arenaFull
  /-- Every handle is taken. -/
  | tableFull
  /-- Stored bytes of another width than a slot's. -/
  | badWidth
  /-- A stored tag word of no known type. -/
  | unknownTag
  /-- A value that is no array, string or dictionary. -/
  | notComposite (op : String)
  /-- A value that is no array. -/
  | notArray (op : String)
  /-- Rights asked for that the value does not have. -/
  | rightsWidened
  /-- The value's rights do not allow the access. -/
  | accessDenied (op : String)
  /-- A local composite on its way into a global one. -/
  | localIntoGlobal (op : String)
  /-- A window that would reach outside the one it is taken from. -/
  | windowGrows
  /-- No element has that index. -/
  | indexOutOfRange (op : String)
  /-- More elements than a value can count. -/
  | arrayTooLong
  /-- The stack has no value there. -/
  | stackEmpty (op : String)
  /-- A full segment that leads nowhere. -/
  | brokenChain
  /-- No deeper save level can be written into a mark. -/
  | tooManyLevels
  /-- There is no save level to return to. -/
  | nothingSaved
  /-- The save stack holds something else than a save level. -/
  | corruptSaveStack (op : String)
  /-- A save level holds something else than a record. -/
  | corruptRecord
  /-- A sum or a difference that is no word. -/
  | overflow
  /-- More bytes than a region can have. -/
  | regionTooLong
  /-- Bytes that the region does not have. -/
  | outsideRegion
  /-- A save level that no mark holds. -/
  | unmarkableLevel
deriving DecidableEq, Repr

/-- What a client reads about a fault. -/
def Fault.report : Fault → Report
  | noSuchEntity => ⟨.unregistered, "locate", "no such entity"⟩
  | reservedEntity => ⟨.unregistered, "free", "reserved entity"⟩
  | outsideStorage => ⟨.unregistered, "get", "outside entity storage"⟩
  | destinationTooSmall => ⟨.unregistered, "copy_storage", "destination too small"⟩
  | arenaFull => ⟨.vmError, "allocate", "arena limit reached"⟩
  | tableFull => ⟨.vmError, "allocate", "entity table full"⟩
  | badWidth => ⟨.unregistered, "from_bytes", "bad object width"⟩
  | unknownTag => ⟨.unregistered, "from_bytes", "unknown type tag"⟩
  | notComposite op => ⟨.typeCheck, op, ""⟩
  | notArray op => ⟨.typeCheck, op, ""⟩
  | rightsWidened => ⟨.invalidAccess, "with_access", ""⟩
  | accessDenied op => ⟨.invalidAccess, op, ""⟩
  | localIntoGlobal op => ⟨.invalidAccess, op, "local value into global composite"⟩
  | windowGrows => ⟨.rangeCheck, "interval", "interval can only shrink"⟩
  | indexOutOfRange op => ⟨.rangeCheck, op, ""⟩
  | arrayTooLong => ⟨.limitCheck, "cons_array", ""⟩
  | stackEmpty op => ⟨.stackUnderflow, op, ""⟩
  | brokenChain => ⟨.unregistered, "stack", "broken segment chain"⟩
  | tooManyLevels => ⟨.limitCheck, "save", ""⟩
  | nothingSaved => ⟨.invalidRestore, "restore", ""⟩
  | corruptSaveStack op => ⟨.unregistered, op, "corrupt save stack"⟩
  | corruptRecord => ⟨.unregistered, "restore", "corrupt save record"⟩
  | overflow | regionTooLong | outsideRegion | unmarkableLevel => ⟨.panic, "", ""⟩

/-- The program stops there, and nothing of what it has begun is taken back. -/
def Fault.stops (f : Fault) : Bool := f.report.condition == .panic

end BankedMemory
