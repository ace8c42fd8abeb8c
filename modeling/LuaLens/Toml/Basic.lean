import LuaLens.Json.Basic

/-!
TOML values, and the JSON documents that stand for them.
-/

namespace LuaLens

inductive Toml
  | str (s : String)
  | int (n : Int)
  | float (x : Double)
  | bool (b : Bool)
  /-- A date or time, in its standard spelling. -/
  | datetime (text : String)
  | arr (items : List Toml)
  | table (members : List (String × Toml))
deriving Inhabited, Repr

namespace Toml

def str? : Toml → Option String
  | .str s => some s
  | _ => none

def strings? : Toml → Option (List String)
  | .arr items => items.mapM str?
  | _ => none

/-- A whole number that is not negative. -/
def nat? : Toml → Option Nat
  | .int (.ofNat n) => some n
  | _ => none

def members? : Toml → Option (List (String × Toml))
  | .table members => some members
  | _ => none

def get? (name : String) (members : List (String × Toml)) : Option Toml :=
  (members.find? (·.1 == name)).map (·.2)

/-- The name of the only member of the object that stands for a date or time. -/
def datetimeMember : String := "$__toml_private_datetime"

mutual

/-- Numbers without a JSON form become `null`. -/
def toJson : Toml → Json
  | .str s => .str s
  | .int n => .int n
  | .float x => if x.isFinite then .double x else .null
  | .bool b => .bool b
  | .datetime text => .obj [(datetimeMember, .str text)]
  | .arr items => .arr (itemsToJson items)
  | .table members => .obj (membersToJson members)

def itemsToJson : List Toml → List Json
  | [] => []
  | v :: rest => toJson v :: itemsToJson rest

def membersToJson : List (String × Toml) → List (String × Json)
  | [] => []
  | (name, v) :: rest => (name, toJson v) :: membersToJson rest

end

end Toml

end LuaLens
