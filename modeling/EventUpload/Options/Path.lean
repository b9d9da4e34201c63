/-!
# Parts of a path

Two paths are the same when they have the same parts: repeated separators, a separator at the end
and dots between separators do not count; a dot in front does.
-/

set_option autoImplicit false

namespace EventUpload

inductive PathPart where
  /-- The separator in front of an absolute path. -/
  | root
  /-- The dot in front of a relative path. -/
  | here
  | up
  | name (s : String)
deriving BEq, DecidableEq, Repr

def splitPath (cs : List Char) : List (List Char) :=
  cs.foldr (fun c acc =>
    match c, acc with
    | '/', acc => [] :: acc
    | c, piece :: acc => (c :: piece) :: acc
    | c, [] => [[c]]) [[]]

/-- The part that a piece is, if it counts. -/
def PathPart.ofPiece? (first : Bool) (piece : List Char) : Option PathPart :=
  if piece = [] then none
  else if piece = ['.'] then if first then some .here else none
  else if piece = ['.', '.'] then some .up
  else some (.name (String.ofList piece))

def pathParts (path : String) : List PathPart :=
  match splitPath path.toList with
  | [] => []
  | first :: rest =>
    let absolute := path.toList.head? = some '/'
    (if absolute then [.root] else (PathPart.ofPiece? true first).toList)
      ++ rest.filterMap (PathPart.ofPiece? false)

end EventUpload
