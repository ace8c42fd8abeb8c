import LuaLens.Uri.Parser
import LuaLens.Wire.Message

/-!
Shapes of documents. A shape says which documents it accepts, and gives each of them in its normal
form: members it does not know are dropped, optional members without a value are left out, and
resource identifiers are written in their normal form.
-/

namespace LuaLens

/-- Accepts documents, and gives them in normal form. -/
abbrev Shape := Json → Option Json

namespace Shape

/-! ### Simple values -/

def any : Shape := some

def bool : Shape
  | .bool b => some (.bool b)
  | _ => none

def text : Shape
  | .str s => some (.str s)
  | _ => none

/-- A whole number between two bounds. -/
def whole (low high : Int) : Shape
  | .int n => if low ≤ n && n ≤ high then some (.int n) else none
  | _ => none

/-- A whole number of 32 bits. -/
def int : Shape := whole (-2147483648) 2147483647

/-- A whole number of 32 bits that is not negative. -/
def nat : Shape := whole 0 4294967295

def uri : Shape
  | .str s => (Uri.parse? s).map fun u => .str u.text
  | _ => none

/-- One of the given words, by itself or as the only member of an object, without a value. -/
def word (words : List String) : Shape
  | .str s => if words.contains s then some (.str s) else none
  | .obj [(s, .null)] => if words.contains s then some (.str s) else none
  | _ => none

/-! ### Compound values -/

/-- Each item of an array. -/
def listOf (item : Shape) : Shape
  | .arr items => (items.mapM item).map .arr
  | _ => none

/-- The first shape that accepts the document. -/
def oneOf (shapes : List Shape) : Shape := fun j => shapes.findSome? fun s => s j

/-- When a field may be missing. -/
inductive Presence
  | required
  /-- Absent or `null`, and then left out. -/
  | optional
  /-- Absent or `null`, and then written as `null`. -/
  | nullable
deriving DecidableEq

structure Field where
  name : String
  shape : Shape
  presence : Presence := .required

/-- The member that a field contributes. -/
def Field.member (f : Field) (value : Option Json) : Option (List (String × Json)) :=
  match f.presence, value with
  | .required, none => none
  | .required, some j => (f.shape j).map fun j => [(f.name, j)]
  | .optional, none | .optional, some .null => some []
  | .optional, some j => (f.shape j).map fun j => [(f.name, j)]
  | .nullable, none | .nullable, some .null => some [(f.name, .null)]
  | .nullable, some j => (f.shape j).map fun j => [(f.name, j)]

/-- The members that fields contribute, in order. -/
def gather (fields : List Field) (values : List (Option Json)) : Option Json := do
  let members ← (fields.zip values).mapM fun (f, v) => Field.member f v
  pure (.obj members.flatten)

/-- An object with the given fields. -/
def object (fields : List Field) : Shape
  | j@(.obj _) => (j.fields? (fields.map (·.name))).bind (gather fields)
  | _ => none

/-- An object with the given fields, or the array of their values. -/
def record (fields : List Field) : Shape := fun j =>
  match j with
  | .arr items =>
    if items.length == fields.length then gather fields (items.map some) else none
  | j => object fields j

/-- An object that names its variant in a member, or an array that starts with that name. -/
def variants (tag : String) (cases : List (String × List Field)) : Shape := fun j =>
  let build (name : String) (body : Json) : Option Json := do
    let fields ← cases.lookup name
    match ← record fields body with
    | .obj members => pure (.obj ((tag, .str name) :: members))
    | j => pure j
  match j with
  | .obj _ =>
    match j.get? tag with
    | some (.str name) => build name j
    | _ => none
  | .arr (.str name :: items) => build name (.arr items)
  | _ => none

/-! ### Fields -/

def req (name : String) (shape : Shape) : Field := { name, shape }
def opt (name : String) (shape : Shape) : Field := { name, shape, presence := .optional }

end Shape

end LuaLens
