/-!
# Options on a command line

A command line is a list of words. Options start with two dashes; a flag stands alone, every other
option has a value, which is the next word or follows an equals sign. The value of an option is
looked at only when the next option comes, or at the end, so an earlier fault can be hidden by one
in a word that is no option at all. No option may come twice.
-/

set_option autoImplicit false

namespace EventUpload

/-- Why a command line is not carried out. -/
inductive UsageFault where
  /-- Nothing was asked for, so that help is shown. -/
  | nothingAsked
  | helpAsked
  | missingSubcommand
  | unknownSubcommand
  | unknownArgument
  | missingOption
  /-- An option has no value, or an empty one where that means nothing. -/
  | missingValue
  | badValue
  | repeatedOption
  | unwantedValue
deriving BEq, DecidableEq, Repr

/-- What an option does to a draft `δ`. -/
inductive OptionEffect (δ : Type) where
  | flag (set : δ → δ)
  | value (take : δ → String → Except UsageFault δ)

structure OptionSpec (δ : Type) where
  name : String
  effect : OptionEffect δ

/-- How far a command line has been read. -/
structure Reading (δ : Type) where
  draft : δ
  given : List String
  /-- An option whose value has not been looked at: its name, what takes the value, and the value
  if there is one yet. -/
  pending : Option (String × (δ → String → Except UsageFault δ) × Option String)

namespace Reading

variable {δ : Type}

def start (draft : δ) : Reading δ := ⟨draft, [], none⟩

/-- Whether the next word is a value whatever it is, unless it looks like an option. -/
def wantsValue (r : Reading δ) : Bool :=
  match r.pending with
  | some (_, _, none) => true
  | _ => false

def note (r : Reading δ) (name : String) : Except UsageFault (Reading δ) :=
  if r.given.contains name then .error .repeatedOption
  else .ok { r with given := r.given ++ [name] }

/-- Looks at the value that has not been looked at. -/
def resolve (r : Reading δ) : Except UsageFault (Reading δ) :=
  match r.pending with
  | none => .ok r
  | some (_, _, none) => .error .missingValue
  | some (name, take, some v) => do
    let r ← { r with pending := none }.note name
    return { r with draft := ← take r.draft v }

/-- Takes an option with the value behind its equals sign, if there is one. -/
def option (r : Reading δ) (spec : OptionSpec δ) (attached : Option String) :
    Except UsageFault (Reading δ) :=
  match spec.effect, attached with
  | .flag _, some _ => .error .unwantedValue
  | .flag set, none => do
    let r ← (← r.resolve).note spec.name
    return { r with draft := set r.draft }
  | .value take, some v => do
    ({ (← r.resolve) with pending := some (spec.name, take, some v) } : Reading δ).resolve
  | .value take, none => do
    return { (← r.resolve) with pending := some (spec.name, take, none) }

def value (r : Reading δ) (v : String) : Reading δ :=
  { r with pending := r.pending.map fun (name, take, _) => (name, take, some v) }

/-- The name of an option, and the value behind its equals sign, if a word looks like one. -/
def asOption? (word : String) : Option (String × Option String) :=
  match word.toList with
  | '-' :: '-' :: cs =>
    let name := cs.takeWhile (· ≠ '=')
    match cs.drop name.length with
    | [] => if cs.isEmpty then none else some (String.ofList name, none)
    | _ :: v => some (String.ofList name, some (String.ofList v))
  | _ => none

/-- The letters of a word with a single dash. -/
def asLetters? (word : String) : Option (List Char) :=
  match word.toList with
  | '-' :: c :: cs => if c = '-' then none else some (c :: cs)
  | _ => none

def stray (subcommands : List String) : UsageFault :=
  if subcommands.isEmpty then .unknownArgument else .unknownSubcommand

/-- Help is shown once what came before is in order. -/
def help (r : Reading δ) : UsageFault :=
  match r.resolve with
  | .ok _ => .helpAsked
  | .error f => f

/-- The words behind a double dash: none is in place. -/
def afterDashes (r : Reading δ) (subcommands : List String) :
    List String → Except UsageFault (Reading δ)
  | [] => .ok r
  | word :: _ =>
    .error (if subcommands.contains word then .unknownArgument else stray subcommands)

/-- Reads words up to a subcommand, which is answered with the words that follow it. -/
def words (specs : List (OptionSpec δ)) (subcommands : List String) :
    List String → Reading δ → Except UsageFault (Reading δ × Option (String × List String))
  | [], r => .ok (r, none)
  | word :: rest, r =>
    if !r.wantsValue && subcommands.contains word then .ok (r, some (word, rest))
    else if word = "--" then do return (← r.afterDashes subcommands rest, none)
    else match asOption? word with
      | some (name, attached) =>
        match specs.find? (·.name = name) with
        | some spec => do words specs subcommands rest (← r.option spec attached)
        | none =>
          if name = "help" then
            .error (if attached.isSome then .unwantedValue else r.help)
          else .error .unknownArgument
      | none =>
        match asLetters? word with
        | some ('h' :: _) => .error r.help
        | some _ => .error .unknownArgument
        | none =>
          if r.wantsValue then words specs subcommands rest (r.value word)
          else .error (stray subcommands)

end Reading

/-! ## Kinds of values -/

namespace OptionSpec

variable {δ : Type}

def text (name : String) (set : δ → String → δ) : OptionSpec δ :=
  ⟨name, .value fun d v => .ok (set d v)⟩

/-- An option with a path, which may not be empty. -/
def path (name : String) (set : δ → String → δ) : OptionSpec δ :=
  ⟨name, .value fun d v => if v = "" then .error .missingValue else .ok (set d v)⟩

/-- An option with a value that must be readable. -/
def reading {α : Type} (name : String) (read : String → Option α) (set : δ → α → δ) :
    OptionSpec δ :=
  ⟨name, .value fun d v => match read v with
    | some a => .ok (set d a)
    | none => .error .badValue⟩

def flag (name : String) (set : δ → δ) : OptionSpec δ := ⟨name, .flag set⟩

end OptionSpec

end EventUpload
