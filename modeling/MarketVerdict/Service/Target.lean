/-!
# Request targets

A target is a path, or names a host before it: a scheme, `://`, the host and perhaps its port, and
then the path. A query or a fragment may follow. `Target.path` finds the path; a target of another
form has none, and a host without a path stands for its root.
-/

namespace MarketVerdict.Target

/-- A character that may stand in a scheme. -/
def isSchemeChar (c : Char) : Bool := c.isAlphanum || ['+', '-', '.', '~'].contains c

/-- The characters that end a path. -/
def endsPath (c : Char) : Bool := c = '?' || c = '#'

/-- What follows the scheme, if the target has one. -/
def afterScheme? (cs : List Char) : Option (List Char) :=
  match cs.dropWhile isSchemeChar with
  | ':' :: '/' :: '/' :: rest => some rest
  | _ => none

/-- The path behind a host, if a host is named. -/
def pathBehindHost (cs : List Char) : List Char :=
  match cs.takeWhile fun c => c ≠ '/' && !endsPath c with
  | [] => []
  | host =>
    match (cs.drop host.length).takeWhile fun c => !endsPath c with
    | [] => ['/']
    | path => path

def path (target : String) : String :=
  let cs := target.toList
  String.ofList <|
    if cs.head? = some '/' then cs.takeWhile fun c => !endsPath c
    else
      match afterScheme? cs with
      | some rest => pathBehindHost rest
      | none => []

end MarketVerdict.Target
