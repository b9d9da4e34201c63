import EventUpload.Backend.Batch

/-!
# The service behind a backend

A service takes batches and says how far it has got. How it answers is laid down beforehand: the
n-th delivery and the n-th question have an answer each, and the last answer holds for all that come
later. It remembers what it accepted and who asked.
-/

set_option autoImplicit false

namespace EventUpload

/-- How a service answers the question how far it has got. -/
inductive Acknowledgement where
  | upTo (sequence : Nat)
  | failed (reason : String)
  /-- As far as the batches go that it accepted for the invocation. -/
  | published
deriving BEq, DecidableEq, Repr

/-- A service that takes batches. -/
structure Service where
  /-- The reason for which a delivery is refused, if it is. -/
  deliveries : List (Option String)
  /-- How long a delivery takes, in milliseconds. -/
  deliveryTime : Nat
  answers : List Acknowledgement
  delivered : Nat
  asked : Nat
  /-- The invocations that were asked about, each of them once. -/
  askedFor : List String
  accepted : List Batch
deriving Repr

namespace Service

def willing : Service := ⟨[], 0, [], 0, 0, [], []⟩

/-- The n-th entry of a plan whose last entry holds for ever. -/
def planned? {α : Type} (plan : List α) (n : Nat) : Option α := plan[n]? <|> plan.getLast?

def refusal? (s : Service) (n : Nat) : Option String := (planned? s.deliveries n).getD none

/-- The greatest sequence number accepted for an invocation. -/
def acceptedUpTo (s : Service) (invocation : String) : Nat :=
  (s.accepted.filter (fun b => b.invocationId = invocation)).foldl
    (fun n b => max n (b.lastNumber?.getD 0)) 0

/-- Starts a delivery; the answer is its number. -/
def startDelivery (s : Service) : Service × Nat :=
  ({ s with delivered := s.delivered + 1 }, s.delivered)

def endDelivery (s : Service) (n : Nat) (b : Batch) : Service × Except String Unit :=
  match s.refusal? n with
  | some reason => (s, .error reason)
  | none => ({ s with accepted := s.accepted ++ [b] }, .ok ())

/-- Answers how far it has got with an invocation. -/
def ask (s : Service) (invocation : String) : Service × Except String Nat :=
  let answer := match (planned? s.answers s.asked).getD .published with
    | .upTo n => .ok n
    | .failed reason => .error reason
    | .published => .ok (s.acceptedUpTo invocation)
  let askedFor := if s.askedFor.contains invocation then s.askedFor else s.askedFor ++ [invocation]
  ({ s with asked := s.asked + 1, askedFor := askedFor }, answer)

end Service

end EventUpload
