import LuaLens.Json.Double

/-!
JSON documents. Objects keep their members in the order of the text, repeated names included.
-/

namespace LuaLens

inductive Json
  | null
  | bool (b : Bool)
  | int (n : Int)
  | double (x : Double)
  | str (s : String)
  | arr (items : List Json)
  | obj (members : List (String × Json))
deriving BEq, Repr, Inhabited

namespace Json

/-- The members of an object. -/
def members? : Json → Option (List (String × Json))
  | .obj members => some members
  | _ => none

def items? : Json → Option (List Json)
  | .arr items => some items
  | _ => none

def str? : Json → Option String
  | .str s => some s
  | _ => none

def bool? : Json → Option Bool
  | .bool b => some b
  | _ => none

def int? : Json → Option Int
  | .int n => some n
  | _ => none

/-- A whole number that is not negative. -/
def nat? : Json → Option Nat
  | .int (.ofNat n) => some n
  | _ => none

def isNull : Json → Bool
  | .null => true
  | _ => false

/-- The member of the given name; the last one counts. -/
def get? (name : String) (j : Json) : Option Json :=
  j.members?.bind fun members => (members.reverse.find? (·.1 == name)).map (·.2)

def nat (n : Nat) : Json := .int n

/-- `null` for nothing. -/
def ofOption {α : Type} (f : α → Json) : Option α → Json
  | some a => f a
  | none => .null

def strings (items : List String) : Json := .arr (items.map .str)

/-- A member that is left out when it is absent. -/
def optional {α : Type} (name : String) (f : α → Json) : Option α → List (String × Json)
  | some a => [(name, f a)]
  | none => []

/-- Whether a later member has the same name. -/
def keepLast : List (String × Json) → List (String × Json)
  | [] => []
  | m :: rest => if rest.any (·.1 == m.1) then keepLast rest else m :: keepLast rest

mutual

/-- The document in which the last of several members of one name counts, at every depth. -/
def settle : Json → Json
  | .arr items => .arr (settleItems items)
  | .obj members => .obj (keepLast (settleMembers members))
  | j => j

def settleItems : List Json → List Json
  | [] => []
  | j :: rest => settle j :: settleItems rest

def settleMembers : List (String × Json) → List (String × Json)
  | [] => []
  | (name, j) :: rest => (name, settle j) :: settleMembers rest

end

/-! ### Order -/

/-- Enters a member among members in the order of their names; one that has the name already stays. -/
def enter (name : String) (j : Json) : List (String × Json) → List (String × Json)
  | [] => [(name, j)]
  | (other, k) :: rest =>
    if name < other then (name, j) :: (other, k) :: rest
    else if name = other then (other, k) :: rest
    else (other, k) :: enter name j rest

mutual

/-- The document in which members stand in the order of their names, each name once, at every depth; the
last of several members of one name counts. -/
def ordered : Json → Json
  | .arr items => .arr (orderedItems items)
  | .obj members => .obj (orderedMembers members)
  | j => j

def orderedItems : List Json → List Json
  | [] => []
  | j :: rest => ordered j :: orderedItems rest

def orderedMembers : List (String × Json) → List (String × Json)
  | [] => []
  | (name, j) :: rest => enter name (ordered j) (orderedMembers rest)

end

end Json

end LuaLens
