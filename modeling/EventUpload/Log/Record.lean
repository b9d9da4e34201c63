/-!
# Log records

A record says what happened, where in the program, and how important it is. Its fields are named
values in order.
-/

set_option autoImplicit false

namespace EventUpload

/-- How important a record is, the least important first. -/
inductive LogLevel where
  | trace
  | debug
  | info
  | warn
  | error
deriving BEq, DecidableEq, Repr

namespace LogLevel

def name : LogLevel → String
  | trace => "TRACE"
  | debug => "DEBUG"
  | info => "INFO"
  | warn => "WARN"
  | error => "ERROR"

def all : List LogLevel := [trace, debug, info, warn, error]

/-- The position of a level in the order of importance. -/
def rank : LogLevel → Nat
  | trace => 0
  | debug => 1
  | info => 2
  | warn => 3
  | error => 4

end LogLevel

inductive LogValue where
  /-- The text of a datum. -/
  | shown (s : String)
  /-- A text that is a datum itself. -/
  | text (s : String)
  | count (n : Nat)
  | flag (b : Bool)
deriving BEq, DecidableEq, Repr

structure LogRecord where
  level : LogLevel
  /-- The part of the program that speaks. -/
  target : String
  message : String
  fields : List (String × LogValue)
deriving BEq, DecidableEq, Repr

def LogRecord.plain (level : LogLevel) (target message : String) : LogRecord :=
  ⟨level, target, message, []⟩

end EventUpload
