import EventUpload.Proofs.Lifecycle.Arrival

/-!
# A call that nobody else waits with

A host that has no other call waiting makes one and lets time pass until it has its reply, or the call
is lost (`Run.perform`). What is known while the call waits, and what is known with its reply, are two
things: a pair of them is carried (`Carries`) if neither is lost by what happens at an instant, and if
the one turns into the other when the call is answered or dropped. Then what is known with the reply is
known at the end, however long that takes (`Carries.perform`).

This is the induction over a wait for those who need not count instants. What is to be known when a wait
is over, but not when that is, is stated as such a pair, and the seven fields are about one thing each.
For statements about instants there is `Lifecycle/Waits`.
-/

set_option autoImplicit false

namespace EventUpload

open Lifecycle

namespace Run

/-- What is known when a call has been looked at: it waits, or it has been answered. -/
def Looked (W : Lifecycle → Call → Prop) (F : Lifecycle → Reply → Prop) (l : Lifecycle) :
    Progress → Prop
  | .waiting call => W l call
  | .answered a => F l (.answer a l.now)

/-- What is known while a call waits, and with its reply, stays known from one instant to the next. -/
structure Carries (W : Lifecycle → Call → Prop) (F : Lifecycle → Reply → Prop) : Prop where
  settle : ∀ {l : Lifecycle} {call : Call}, W l call → W l.settle call
  check : ∀ {l : Lifecycle} {call : Call}, W l call → Looked W F (l.check call).1 (l.check call).2
  word : ∀ {l : Lifecycle} {call : Call}, W l call → W (l.endInstant call).1 (l.endInstant call).2
  time : ∀ {l : Lifecycle} {call : Call} (t : Nat), W l call → W { l with now := t } call
  drop : ∀ {l : Lifecycle} {call : Call}, W l call → F (l.drop call) (.dropped l.now)
  lost : ∀ {l : Lifecycle} {call : Call}, W l call → F l (.dropped l.now)
  rest : ∀ {l : Lifecycle} {reply : Reply}, F l reply → F l.settle reply

/-- A run with one call. -/
inductive Alone (W : Lifecycle → Call → Prop) (F : Lifecycle → Reply → Prop) : Run → Prop where
  | waiting {l : Lifecycle} {call : Call} (patience : Option Nat) :
      W l call → Alone W F ⟨l, [.waiting call patience]⟩
  | replied {l : Lifecycle} {reply : Reply} : F l reply → Alone W F ⟨l, [.finished reply]⟩

namespace Carries

variable {W : Lifecycle → Call → Prop} {F : Lifecycle → Reply → Prop} {l : Lifecycle} {r : Run}

theorem after (h : Carries W F) {progress : Progress} (hl : Looked W F l progress)
    (patience : Option Nat) :
    Alone W F ⟨(Run.after l progress patience).1, [(Run.after l progress patience).2]⟩ := by
  cases progress with
  | answered a => exact .replied hl
  | waiting call =>
    simp only [Run.after, giveUp]
    split
    · exact .replied (h.drop hl)
    · exact .waiting patience hl

theorem settleRounds (h : Carries W F) (rounds : Nat) (hr : Alone W F r) :
    Alone W F (Run.settleRounds rounds r) := by
  induction rounds generalizing r with
  | zero =>
    cases hr with
    | waiting patience hw => exact .waiting patience (h.settle hw)
    | replied hf => exact .replied (h.rest hf)
  | succ rounds ih =>
    have hnext : Alone W F ⟨(checkCalls r.lifecycle.settle r.calls).1,
        (checkCalls r.lifecycle.settle r.calls).2⟩ := by
      cases hr with
      | waiting patience hw =>
        rw [checkCalls_waiting]
        exact h.after (h.check (h.settle hw)) patience
      | replied hf => exact .replied (h.rest hf)
    unfold Run.settleRounds
    dsimp only
    split
    · exact ih hnext
    · exact hnext

/-- Time only goes on while the call waits. -/
theorem moved (h : Carries W F) (hr : Alone W F r) (hcount : r.waitingCount ≠ 0) (t : Nat) :
    Alone W F (r.leaveInstant.atInstant t) := by
  cases hr with
  | waiting patience hw => exact .waiting patience (h.time t (h.word hw))
  | replied hf => exact absurd rfl hcount

theorem go (h : Carries W F) (horizon moves : Nat) (hr : Alone W F r) :
    Alone W F (Run.go horizon (fun r => r.waitingCount = 0) moves r) := by
  induction moves generalizing r with
  | zero => exact h.settleRounds _ hr
  | succ moves ih =>
    have hsettled : Alone W F r.settle := h.settleRounds _ hr
    unfold Run.go
    dsimp only
    split
    · exact hsettled
    · next hcount =>
      split
      · exact ih (h.moved hsettled (by simpa using hcount) _)
      · exact hsettled

/-- **The reply to a call that is alone** comes with what is known of it. -/
theorem perform (h : Carries W F) {operation : Lifecycle → Lifecycle × Progress}
    (hmade : Looked W F (operation l).1 (operation l).2) (patience : Option Nat) :
    F (Run.perform l operation patience).1 (Run.perform l operation patience).2 := by
  have hcalled : Alone W F ((ofLifecycle l).call operation patience) := h.after hmade patience
  obtain ⟨r, hr, halone⟩ : ∃ r : Run,
      (if ((ofLifecycle l).call operation patience).waitingCount = 0
        then (ofLifecycle l).call operation patience
        else ((ofLifecycle l).call operation patience).await) = r ∧ Alone W F r := by
    refine ⟨_, rfl, ?_⟩
    split
    · exact hcalled
    · exact h.go _ _ hcalled
  unfold Run.perform
  dsimp only
  rw [hr]
  cases halone with
  | waiting patience hw => exact h.lost hw
  | replied hf => exact hf

end Carries

end Run

end EventUpload
