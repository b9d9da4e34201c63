import EventUpload.Sink.Error

/-!
# Signals

A signal is resolved at most once: what comes later does not change it. A sink has two of them, one
for having sent everything and one for being done.
-/

set_option autoImplicit false

namespace EventUpload

/-- A signal: the outcome, as soon as there is one. -/
abbrev Signal := Option Outcome

namespace Signal

/-- Resolves a signal, unless it is resolved already. -/
def resolve (s : Signal) (o : Outcome) : Signal := s <|> some o

@[simp] theorem resolve_none (o : Outcome) : resolve none o = some o := rfl

@[simp] theorem resolve_some (o p : Outcome) : resolve (some o) p = some o := rfl

theorem resolve_eq_of_some {s : Signal} {o : Outcome} (h : s = some o) (p : Outcome) :
    resolve s p = some o := by
  subst h; rfl

theorem isSome_resolve (s : Signal) (o : Outcome) : (resolve s o).isSome = true := by
  cases s <;> rfl

end Signal

structure Signals where
  /-- Everything has been sent. -/
  half : Signal
  /-- Everything has been acknowledged. -/
  done : Signal
deriving BEq, DecidableEq, Repr

namespace Signals

def unresolved : Signals := ⟨none, none⟩

def cancel (s : Signals) (sink : String) : Signals :=
  ⟨s.half.resolve (.failed (.cancelled sink)), s.done.resolve (.failed (.cancelled sink))⟩

/-- Resolves what is not resolved with an error. -/
def fail (s : Signals) (e : SinkError) : Signals :=
  ⟨s.half.resolve (.failed e), s.done.resolve (.failed e)⟩

end Signals

end EventUpload
