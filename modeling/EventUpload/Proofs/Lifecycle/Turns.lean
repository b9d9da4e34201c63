import EventUpload.Proofs.Lifecycle.Settling
import EventUpload.Proofs.Sink.Watch

/-!
# The turns of sinks

At an instant the invocations have their turns one after the other, and within an invocation its sinks;
all they share is the outside. `settle_invocation?` says what an invocation has become when the instant
is over: its sinks have been settled, starting from the outside as the invocations before have left it,
and nobody else has touched it.

`Lifecycle.completions` are the signals for being done at the moment that matters: a sink has done what
it can at this instant, and its watch has not looked at it yet. Neither the signals before the instant
nor those after it would do. Before it a sink has not yet been able to complete now; after it one whose
bound has passed counts as cancelled, and nobody can tell any more whether it had completed in time.

How the outside gets from sink to sink is dealt with in `forall₂_of_turns` and `forall₂_settleSinks`.
They ask for a property of a sink whatever the outside is in its turn, and give the property for every
sink in the row, so the proofs that use them do not mention the outside at all.
-/

set_option autoImplicit false

namespace EventUpload

open List (Forall₂)

namespace Lifecycle

/-- The sinks of an invocation as their watches find them. -/
def turns (now : Nat) : List Sink → Outside → List Sink
  | [], _ => []
  | s :: rest, outside =>
    (s.advance outside now).1 :: turns now rest (s.settle outside now).2.1

theorem length_turns (now : Nat) (sinks : List Sink) (outside : Outside) :
    (turns now sinks outside).length = sinks.length := by
  induction sinks generalizing outside with
  | nil => rfl
  | cons s rest ih => exact congrArg (· + 1) (ih _)

/-- What holds of every sink before its turn, given what its watch finds then. -/
theorem forall₂_of_turns {α : Type} {R A S : Sink → α → Prop} {now : Nat}
    (h : ∀ s a outside, R s a → A (s.advance outside now).1 a → S s a)
    {sinks : List Sink} {as : List α} {outside : Outside} (hr : Forall₂ R sinks as)
    (ha : Forall₂ A (turns now sinks outside) as) : Forall₂ S sinks as := by
  induction hr generalizing outside with
  | nil => exact .nil
  | cons hra _ ih =>
    cases ha with
    | cons hhead hrest => exact .cons (h _ _ _ hra hhead) (ih hrest)

/-- What holds of every sink when it is settled, given what its watch finds. -/
theorem forall₂_settleSinks {α : Type} {R A S : Sink → α → Prop} {now : Nat}
    (h : ∀ s a outside, R s a → A (s.advance outside now).1 a → S (s.settle outside now).1 a)
    {sinks : List Sink} {as : List α} {outside : Outside} (hr : Forall₂ R sinks as)
    (ha : Forall₂ A (turns now sinks outside) as) :
    Forall₂ S (settleSinks now sinks outside).1 as := by
  induction hr generalizing outside with
  | nil => exact .nil
  | cons hra _ ih =>
    cases ha with
    | cons hhead hrest => exact .cons (h _ _ _ hra hhead) (ih hrest)

/-- The outside when an invocation has its turn. -/
def outsideAt (l : Lifecycle) (i : Nat) : Outside :=
  ((List.range i).foldl settleInvocation l).outside

/-- The signals for being done of an invocation's sinks, as their watches find them. -/
def completions (l : Lifecycle) (i : Nat) : List Signal :=
  match l.invocation? i with
  | none => []
  | some v => (turns l.now v.sinks (l.outsideAt i)).map fun s => s.signals.done

/-! ## Invocations do not touch each other -/

theorem invocations_sayErrors (l : Lifecycle) (whom : Addressee) (errors : List SinkError) :
    (l.sayErrors whom errors).invocations = l.invocations := by
  refine foldl_keeps invocations (fun l e => ?_) errors l
  rfl

theorem invocation?_settleInvocation_of_ne {l : Lifecycle} {i j : Nat} (h : j ≠ i) :
    (l.settleInvocation j).invocation? i = l.invocation? i := by
  cases hv : l.invocation? j with
  | none => rw [settleInvocation_of_none hv]
  | some v =>
    rw [settleInvocation_of_some hv, invocation?, invocations_sayErrors]
    exact (invocation?_update l j _ i).trans (if_neg h)

theorem invocation?_settleInvocation_self {l : Lifecycle} {i : Nat} {v : Invocation}
    (hv : l.invocation? i = some v) : (l.settleInvocation i).invocation? i =
      some (v.withSinks (settleSinks l.now v.sinks l.outside).1) := by
  rw [settleInvocation_of_some hv, invocation?, invocations_sayErrors]
  exact invocation?_update_self hv _

theorem invocation?_foldl_settleInvocation {i : Nat} (is : List Nat) (l : Lifecycle)
    (h : i ∉ is) : (is.foldl settleInvocation l).invocation? i = l.invocation? i := by
  induction is generalizing l with
  | nil => rfl
  | cons j is ih =>
    refine (ih _ fun hi => h (List.mem_cons_of_mem _ hi)).trans ?_
    exact invocation?_settleInvocation_of_ne fun hj => h (by simp [hj])

theorem invocation?_afterSinks {l : Lifecycle} {i : Nat} {v : Invocation}
    (hv : l.invocation? i = some v) : l.afterSinks.invocation? i =
      some (v.withSinks (settleSinks l.now v.sinks (l.outsideAt i)).1) := by
  obtain ⟨hi, _⟩ := List.getElem?_eq_some_iff.mp hv
  obtain ⟨k, hk⟩ : ∃ k, l.invocations.length = i + (k + 1) :=
    ⟨l.invocations.length - i - 1, by omega⟩
  have hbefore := (invocation?_foldl_settleInvocation (List.range i) l
    (by simp)).trans hv
  have hnow : ((List.range i).foldl settleInvocation l).now = l.now :=
    (Quiet.foldl quiet_settleInvocation (List.range i) l).now
  have hself := invocation?_settleInvocation_self hbefore
  rw [hnow] at hself
  -- The invocations before leave the outside changed, and the ones after do not come into it.
  rw [afterSinks, settleStrays_eq, invocation?, invocations_sayErrors]
  show ((List.range l.invocations.length).foldl settleInvocation l).invocation? i = _
  rw [hk, List.range_add, List.range_succ_eq_map, List.map_cons, List.foldl_append,
    List.foldl_cons, Nat.add_zero]
  refine (invocation?_foldl_settleInvocation _ _ ?_).trans hself
  simp

theorem invocations_sayAll (l : Lifecycle) (whom : Addressee) (kind : MessageKind)
    (texts : List String) : (l.sayAll whom kind texts).invocations = l.invocations := by
  refine foldl_keeps invocations (fun l text => ?_) texts l
  rfl

theorem invocations_settleDrain (l : Lifecycle) (i : Nat) :
    (l.settleDrain i).invocations = l.invocations := by
  unfold settleDrain
  split
  · split
    · unfold endDrain
      dsimp only
      split
      · refine foldl_keeps invocations (fun l e => ?_) _ _
        exact invocations_sayAll (l.note (.invocation i) (.drainFailed e)) _ _ _
      · rfl
    · rfl
  · rfl

/-- What an invocation has become when an instant is over. -/
theorem settle_invocation? {l : Lifecycle} {i : Nat} {v : Invocation}
    (hv : l.invocation? i = some v) : l.settle.invocation? i =
      some (v.withSinks (settleSinks l.now v.sinks (l.outsideAt i)).1) := by
  rw [settle_eq, invocation?, foldl_keeps invocations invocations_settleDrain]
  exact invocation?_afterSinks hv

end Lifecycle

end EventUpload
