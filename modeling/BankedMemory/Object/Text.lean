import BankedMemory.Object.Basic

/-!
# Texts of objects

`Object.typeName` names the type of an object and `Object.text` shows the object, on one line. A
composite is shown as its view and not as its elements.
-/

namespace BankedMemory

def Object.typeName : Object → String
  | invalid => "invalidtype"
  | null => "nulltype"
  | mark => "marktype"
  | boolean _ => "booleantype"
  | integer _ => "integertype"
  | real _ => "realtype"
  | composite .array _ => "arraytype"
  | composite .string _ => "stringtype"
  | composite .dict _ => "dicttype"
  | save _ => "savetype"
  | record _ => "saverectype"

/-- The word for a shape in an object's text. -/
def Shape.name : Shape → String
  | array => "array"
  | string => "string"
  | dict => "dict"

/-- A view as entity, offset and size. -/
def View.text (v : View) : String :=
  toString v.ent.toNat ++ ":" ++ toString v.offset.toNat ++ "+" ++ toString v.size.toNat

/-- The text of an object, on one line. -/
def Object.text : Object → String
  | invalid => "-invalid-"
  | null => "null"
  | mark => "-mark-"
  | boolean b => if b then "true" else "false"
  | integer i => toString i.toInt
  | real r => r.text
  | composite shape v => "-" ++ shape.name ++ " " ++ v.text ++ "-"
  | save s => "-save " ++ toString s.level.toNat ++ "-"
  | record r => "-saverec " ++ toString r.source.toNat ++ ">" ++ toString r.copy.toNat ++ "-"

end BankedMemory
