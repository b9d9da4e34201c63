import EventUpload.Log.Record
import EventUpload.Text.Blank

/-!
# Filters of a log

A filter is a list of directives. A directive names a threshold, and optionally the targets it is
about by how they start, and fields that a record must have. The most specific directive that is
about a record decides: the one with the longest target, then the one with the most fields. Without
one the record is left out.

A directive can also be bound to a span, or to the value of a field in one. This program opens no
spans, so such a directive decides nothing.
-/

set_option autoImplicit false

namespace EventUpload

/-- One directive. -/
structure LogDirective where
  /-- What the targets that it is about start with. -/
  target : Option String
  /-- The least important level that passes; `none` lets nothing pass. -/
  threshold : Option LogLevel
  /-- The fields that a record must have. -/
  fields : List String
  /-- Whether it is bound to a span. -/
  bound : Bool
deriving BEq, DecidableEq, Repr

namespace LogDirective

def general (threshold : Option LogLevel) : LogDirective := ⟨none, threshold, [], false⟩

def isAbout (d : LogDirective) (r : LogRecord) : Bool :=
  !d.bound && d.target.all (fun t => t.toList.isPrefixOf r.target.toList)
    && d.fields.all fun f => f = "message" || r.fields.any fun g => g.1 = f

/-- Whether a record passes a directive that is about it. -/
def passes (d : LogDirective) (r : LogRecord) : Bool :=
  d.threshold.any fun level => level.rank ≤ r.level.rank

/-- How specific a directive is: the length of its target, then the number of its fields. -/
def weight (d : LogDirective) : Nat × Nat :=
  (d.target.elim 0 (·.utf8ByteSize + 1), d.fields.length)

/-- Whether a directive goes before another one. -/
def outweighs (a b : LogDirective) : Bool :=
  b.weight.1 < a.weight.1 || (a.weight.1 = b.weight.1 && b.weight.2 < a.weight.2)

/-- Whether two directives are about the same records, so that the later one replaces the other. -/
def sameSubject (a b : LogDirective) : Bool :=
  a.target = b.target && a.fields = b.fields && a.bound = b.bound

end LogDirective

/-! ## Reading a directive -/

inductive DirectiveFault where
  | malformed
  | noLevel
deriving BEq, DecidableEq, Repr

def DirectiveFault.message : DirectiveFault → String
  | malformed => "invalid filter directive"
  | noLevel => "error parsing level filter: expected one of \"off\", \"error\", \"warn\", "
    ++ "\"info\", \"debug\", \"trace\", or a number 0-5"

namespace LogDirective

/-- The thresholds by number: the first lets nothing pass. -/
def thresholds : List (Option LogLevel) :=
  [none, some .error, some .warn, some .info, some .debug, some .trace]

def namedThresholds : List (String × Option LogLevel) :=
  ["off", "error", "warn", "info", "debug", "trace"].zip thresholds

/-- The number that digits, perhaps after a plus sign, stand for. -/
def number? (cs : List Char) : Option Nat :=
  let digits := match cs with
    | '+' :: rest => rest
    | cs => cs
  if digits.isEmpty || !digits.all Char.isDigit then none
  else some (digits.foldl (fun n c => n * 10 + (c.toNat - '0'.toNat)) 0)

def thresholdOf? (cs : List Char) : Option (Option LogLevel) :=
  match (number? cs).bind (thresholds[·]?) with
  | some t => some t
  | none => namedThresholds.lookup (String.ofList (cs.map Char.toLower))

/-- The threshold behind an equals sign; without one everything passes. -/
def thresholdAfter (cs : List Char) : Except DirectiveFault (Option LogLevel) :=
  if cs.isEmpty then .ok (some .trace)
  else match thresholdOf? cs with
    | some t => .ok t
    | none => .error .noLevel

/-- Where the reading of a directive stands; a piece is what has been read of it. -/
inductive Scan where
  | start
  /-- A level, or a target. -/
  | head (piece : List Char)
  | span (piece : List Char)
  | field (piece : List Char)
  | afterFields
  | afterSpan
  | level (piece : List Char)
  | complete
deriving DecidableEq, Repr

def isStart (c : Char) : Bool := c = '-' || c = ':' || c = '_' || c.isAlphanum || 0x80 ≤ c.toNat

/-- Adds a field with the given text, which may give its value. -/
def addField (d : LogDirective) (piece : List Char) : Except DirectiveFault LogDirective :=
  if piece.isEmpty then .error .malformed
  else
    let name := String.ofList (piece.takeWhile (· ≠ '='))
    .ok { d with fields := d.fields ++ [name], bound := d.bound || piece.contains '=' }

/-- Reads one character, which stands for `f` in a piece. -/
def scanChar (d : LogDirective) (c f : Char) :
    Scan → Except DirectiveFault (Scan × LogDirective)
  | .start =>
    if c = '[' then .ok (.span [], d)
    else if isStart c then .ok (.head [f], d)
    else .error .malformed
  | .head piece =>
    if c = '=' then .ok (.level [], { d with target := some (String.ofList piece) })
    else if c = '[' then .ok (.span [], { d with target := some (String.ofList piece) })
    else if c = ',' then .ok (.complete, d)
    else .ok (.head (piece ++ [f]), d)
  | .span piece =>
    if c = ']' then .ok (.afterSpan, { d with bound := true })
    else if c = '\x7b' then .ok (.field [], { d with bound := d.bound || !piece.isEmpty })
    else .ok (.span (piece ++ [f]), d)
  | .field piece =>
    if c = '\x7d' then do return (.afterFields, ← d.addField piece)
    else if c = ',' then do return (.field [], ← d.addField piece)
    else .ok (.field (piece ++ [f]), d)
  | .afterFields => if c = ']' then .ok (.afterSpan, d) else .error .malformed
  | .afterSpan => if c = '=' then .ok (.level [], d) else .error .malformed
  | .level piece =>
    if c = ',' then do return (.complete, { d with threshold := ← thresholdAfter piece })
    else .ok (.level (piece ++ [f]), d)
  | .complete => .error .malformed

/-- Reads characters; what is left of the pieces' text comes after the last one. -/
def scan (d : LogDirective) (rest : List Char) :
    Scan → List (Char × Char) → Except DirectiveFault LogDirective
  | .head piece, [] =>
    -- A word alone is a level if it can be one, and a target otherwise.
    let word := piece ++ rest
    match thresholdOf? word with
    | some t => .ok { d with threshold := t }
    | none => .ok { d with target := some (String.ofList word) }
  | .level piece, [] => do return { d with threshold := ← thresholdAfter (piece ++ rest) }
  | .afterSpan, [] | .complete, [] => .ok d
  | _, [] => .error .malformed
  | s, (c, f) :: more => do
    let (s, d) ← d.scanChar c f s
    scan d rest s more

/-- The directive that a text stands for. Blanks at its ends do not count when its parts are told
apart, but the parts are cut from the text as it stands. -/
def ofText (text : String) : Except DirectiveFault LogDirective :=
  let cs := text.toList
  let inner := Text.trimChars cs
  scan (general (some .trace)) (cs.drop inner.length) .start (inner.zip cs)

end LogDirective

/-! ## Filters -/

/-- Directives, the most specific first. -/
structure LogFilter where
  directives : List LogDirective
deriving BEq, DecidableEq, Repr

namespace LogFilter

/-- Adds a directive; it replaces one about the same records. -/
def add (f : LogFilter) (d : LogDirective) : LogFilter :=
  let others := f.directives.filter fun e => !e.sameSubject d
  ⟨others.takeWhile (·.outweighs d) ++ d :: others.dropWhile (·.outweighs d)⟩

/-- The filter of directives; without any there is only the given one. -/
def ofDirectives (otherwise : LogDirective) (ds : List LogDirective) : LogFilter :=
  if ds.isEmpty then ⟨[otherwise]⟩ else ds.foldl add ⟨[]⟩

def pieces (text : String) : List String := (text.splitOn ",").filter (· ≠ "")

/-- The filter of a text of directives, every one of which must be well-formed. Without directives
nothing passes. -/
def ofText (text : String) : Except DirectiveFault LogFilter := do
  return ofDirectives (.general none) (← (pieces text).mapM LogDirective.ofText)

/-- The filter of a text of directives, with a complaint about each one that is ignored. Without
directives errors pass. -/
def ofTextLoosely (text : String) : LogFilter × List String :=
  let read := (pieces text).map fun p => (p, LogDirective.ofText p)
  let directives := read.filterMap fun (_, r) => r.toOption
  let complaints := read.filterMap fun (p, r) => match r with
    | .ok _ => none
    | .error e => some ("ignoring \x60" ++ p ++ "\x60: " ++ e.message)
  (ofDirectives (.general (some .error)) directives, complaints)

/-- The directive that decides about a record. -/
def decider? (f : LogFilter) (r : LogRecord) : Option LogDirective :=
  f.directives.find? (·.isAbout r)

def allows (f : LogFilter) (r : LogRecord) : Bool := (f.decider? r).any (·.passes r)

end LogFilter

end EventUpload
