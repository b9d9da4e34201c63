import EventUpload.Toml.Scalar
import EventUpload.Toml.Section

/-!
# Documents

A document is read line by line: a header, or a dotted key with its value, or nothing, and perhaps a
comment. Lists go over several lines, tables between braces do not. Lists and tables between braces
are nested at most `maxDepth` deep.
-/

set_option autoImplicit false

namespace EventUpload.Toml

/-! ## Blanks and comments -/

/-- The characters behind a comment, which goes to the end of its line. -/
def skipComment (cs : List Char) : Option (List Char) :=
  match cs with
  | '#' :: rest =>
    -- A control character in a comment is a fault.
    let rest := rest.dropWhile isPrintable
    match rest with
    | [] => some []
    | _ => (lineBreak? rest).map fun _ => rest
  | _ => some cs

/-- The end of a line: blanks, perhaps a comment, and a line break or the end of the document. -/
def endLine (cs : List Char) : Option (List Char) := do
  let cs ← skipComment (skipBlanks cs)
  match cs with
  | [] => some []
  | cs => lineBreak? cs

/-- The characters behind blanks, comments and line breaks. The number bounds the steps. -/
def skipLines : Nat → List Char → Option (List Char)
  | 0, cs => some cs
  | steps + 1, cs => do
    let cs ← skipComment (skipBlanks cs)
    match lineBreak? cs with
    | some rest => skipLines steps rest
    | none => some cs

/-- The characters behind everything between the items of a list. -/
def skipSpace (cs : List Char) : Option (List Char) := skipLines (cs.length + 1) cs

/-! ## Keys -/

def isBareKeyChar (c : Char) : Bool := c.isAlphanum || c = '_' || c = '-'

def readKeyPart : Scan String := fun cs =>
  match cs with
  | '"' :: _ => readLine cs
  | '\'' :: _ => readLine cs
  | cs =>
    let part := cs.takeWhile isBareKeyChar
    if part.isEmpty then none else some (String.ofList part, cs.drop part.length)

/-- The parts of a dotted key, with the blanks around it. The number bounds the steps. -/
def readKeyParts : Nat → Scan (List String)
  | 0, _ => none
  | steps + 1, cs => do
    let (part, cs) ← readKeyPart (skipBlanks cs)
    match skipBlanks cs with
    | '.' :: rest =>
      let (parts, rest) ← readKeyParts steps rest
      return (part :: parts, rest)
    | rest => return ([part], rest)

/-- How deep values, and keys, are nested at most. -/
def maxDepth : Nat := 79

/-- A dotted key: the path to its table, and the name there. -/
def readKey : Scan (List String × String) := fun cs => do
  let (parts, rest) ← readKeyParts (cs.length + 1) cs
  if maxDepth < parts.length then none
  else return ((parts.dropLast, parts.getLastD ""), rest)

/-! ## Values -/

/-- The items of a list up to its bracket; a comma may come last. The number bounds the steps. -/
def readItems (item : Scan Toml) : Nat → List Toml → Scan (List Toml)
  | 0, _, _ => none
  | steps + 1, acc, cs => do
    match ← skipSpace cs with
    | ']' :: rest => return (acc.reverse, rest)
    | cs =>
      let (v, cs) ← item cs
      match ← skipSpace cs with
      | ',' :: rest => readItems item steps (v :: acc) rest
      | ']' :: rest => return ((v :: acc).reverse, rest)
      | _ => none

def readPair (item : Scan Toml) : Scan (List String × String × Toml) := fun cs => do
  let ((path, key), cs) ← readKey cs
  let ((), cs) ← readChar '=' cs
  let (v, cs) ← item (skipBlanks cs)
  return ((path, key, v), skipBlanks cs)

/-- The pairs of a table up to its brace. The number bounds the steps. -/
def readPairs (item : Scan Toml) : Nat → List (List String × String × Toml) →
    Scan (List (List String × String × Toml))
  | 0, _, _ => none
  | steps + 1, acc, cs => do
    let (p, cs) ← readPair item cs
    match cs with
    | ',' :: rest => readPairs item steps (p :: acc) rest
    | '\x7d' :: rest => return ((p :: acc).reverse, rest)
    | _ => none

def readInline (item : Scan Toml) : Scan Toml := fun cs =>
  match skipBlanks cs with
  | '\x7d' :: rest => some (.table [], rest)
  | cs => do
    let (pairs, rest) ← readPairs item (cs.length + 1) [] cs
    return (← inlineTable pairs, rest)

/-- A value in which lists and tables are nested at most `depth` deep. -/
def readValue : (depth : Nat) → Scan Toml
  | depth, cs =>
    match cs with
    | [] => none
    | c :: rest =>
      if c = '"' || c = '\'' then (readString cs).map fun (s, rest) => (.text s, rest)
      else if c = '[' then
        match depth with
        | 0 => none
        | depth + 1 =>
          (readItems (readValue depth) (rest.length + 1) [] rest).map fun (vs, rest) =>
            (.list vs, rest)
      else if c = '\x7b' then
        match depth with
        | 0 => none
        | depth + 1 => readInline (readValue depth) rest
      else if c = 't' then readWord ['t', 'r', 'u', 'e'] (.flag true) cs
      else if c = 'f' then readWord ['f', 'a', 'l', 's', 'e'] (.flag false) cs
      else if c.isDigit || c = '+' || c = '-' || c = 'i' || c = 'n' then readNumber cs
      else none

/-! ## Lines -/

/-- What has been read of a document: its members, and the header that holds. -/
structure Draft where
  root : Members
  header : List String

def readHeader (d : Draft) (cs : List Char) : Option (Draft × List Char) := do
  let ((path, key), cs) ← readKey cs
  let ((), cs) ← readChar ']' cs
  return (⟨← openTable path key d.root, path ++ [key]⟩, ← endLine cs)

def readItemHeader (d : Draft) (cs : List Char) : Option (Draft × List Char) := do
  let ((path, key), cs) ← readKey cs
  let ((), cs) ← readChar ']' cs
  let ((), cs) ← readChar ']' cs
  return (⟨← openItem path key d.root, path ++ [key]⟩, ← endLine cs)

def readAssignment (d : Draft) (cs : List Char) : Option (Draft × List Char) := do
  let ((path, key, v), cs) ← readPair (readValue maxDepth) cs
  return ({ d with root := ← assignBelow d.header path key v d.root }, ← endLine cs)

def readDocumentLine (d : Draft) (cs : List Char) : Option (Draft × List Char) :=
  match skipBlanks cs with
  | [] => some (d, [])
  | '[' :: '[' :: rest => readItemHeader d rest
  | '[' :: rest => readHeader d rest
  | c :: rest =>
    if c = '#' || c = '\n' || c = '\r' then (endLine (c :: rest)).map fun rest => (d, rest)
    else readAssignment d (c :: rest)

/-- The lines of a document. The number bounds the steps. -/
def readDocument : Nat → Draft → List Char → Option Draft
  | 0, d, _ => some d
  | steps + 1, d, cs =>
    match cs with
    | [] => some d
    | cs => do
      let (d, cs) ← readDocumentLine d cs
      readDocument steps d cs

/-- The characters behind the mark that a document may start with. -/
def skipMark : List Char → List Char
  | '\ufeff' :: cs => cs
  | cs => cs

def ofText? (text : String) : Option Toml :=
  let cs := skipMark text.toList
  (readDocument (cs.length + 1) ⟨[], []⟩ cs).map fun d => .table (Section.memberValues d.root)

end EventUpload.Toml
