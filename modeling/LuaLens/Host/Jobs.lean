import LuaLens.Json.Basic

/-!
The jobs that servers report on, by their tokens in increasing order.
-/

namespace LuaLens

structure Job where
  token : String
  title : String
  message : Option String := none
  percentage : Option Nat := none
  cancellable : Bool := false
deriving DecidableEq, Repr

/-- The jobs under way. -/
abbrev Jobs := List Job

namespace Jobs

/-- Begins a job, in place of one with the same token. -/
def start (token title : String) (cancellable : Bool) : Jobs → Jobs
  | [] => [{ token, title, cancellable }]
  | t :: rest =>
    if t.token == token then { token, title, cancellable } :: rest
    else if token < t.token then { token, title, cancellable } :: t :: rest
    else t :: start token title cancellable rest

/-- Reports on a job that is under way. -/
def update (jobs : Jobs) (token : String) (message : Option String) (percentage : Option Nat) :
    Jobs :=
  jobs.map fun t => if t.token == token then { t with message, percentage } else t

def finish (jobs : Jobs) (token : String) : Jobs := jobs.filter (·.token != token)

/-- The text of a token; a number counts as its digits. -/
def tokenText : Json → String
  | .int n => toString n
  | .str s => s
  | _ => ""

/-- Takes over a report in normal form. -/
def apply (jobs : Jobs) (params : Json) : Jobs :=
  let token := tokenText ((params.get? "token").getD .null)
  let value := (params.get? "value").getD .null
  let message := (value.get? "message").bind Json.str?
  let percentage := (value.get? "percentage").bind Json.nat?
  match (value.get? "kind").bind Json.str? with
  | some "begin" =>
    let title := ((value.get? "title").bind Json.str?).getD ""
    let cancellable := ((value.get? "cancellable").bind Json.bool?).getD false
    Jobs.update (Jobs.start token title cancellable jobs) token message percentage
  | some "report" => Jobs.update jobs token message percentage
  | some "end" => Jobs.finish jobs token
  | _ => jobs

end Jobs

end LuaLens
