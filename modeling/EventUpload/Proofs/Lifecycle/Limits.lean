import EventUpload.Proofs.Lifecycle.Active
import EventUpload.Proofs.Lifecycle.Arrival

/-!
# What the limits are for

A wait is given its deadline when it begins, and the limits are looked at nowhere else. So a lifecycle
under other limits does the same as before, from one instant to the next, until somebody makes a call
that waits: what happens by itself (`settle_withLimits`), the calls that are waiting already
(`check_withLimits`), and time that passes (`Run.pass_withLimits`) all commute with setting limits. The
one limit that the end of an invocation looks at is the cap of a blocking wait (`finish_withLimits`).

The lemmas are equations and not implications, from the single post up to a whole wait, so each is the
one below it rewritten. They are tagged for `simp` where both sides are small. A limit that is looked at
in another place would break the equation of the function that does so, and no other proof.

They serve to say that limits which are set too early do no harm but the one: a command that is refused
may have set them, and nothing else about the lifecycle can be told from it (`Command/Untimely`).
-/

set_option autoImplicit false

namespace EventUpload

namespace Lifecycle

/-- The lifecycle under other limits. -/
def withLimits (l : Lifecycle) (limits : Limits) : Lifecycle := { l with limits := limits }

variable (l : Lifecycle) (limits : Limits)

@[simp] theorem withLimits_now : (l.withLimits limits).now = l.now := rfl

@[simp] theorem withLimits_limits : (l.withLimits limits).limits = limits := rfl

theorem foldl_withLimits {α : Type} {f : Lifecycle → α → Lifecycle}
    (h : ∀ (l : Lifecycle) a, f (l.withLimits limits) a = (f l a).withLimits limits) (as : List α) :
    as.foldl f (l.withLimits limits) = (as.foldl f l).withLimits limits := by
  induction as generalizing l with
  | nil => rfl
  | cons a as ih =>
    rw [List.foldl_cons, List.foldl_cons, h]
    exact ih (f l a)

/-- What happens by itself is the same under all limits. -/
theorem settle_withLimits : (l.withLimits limits).settle = l.settle.withLimits limits :=
  calc (l.withLimits limits).settle
    _ = l.settle.recast l.phase limits := settle_recast l l.phase limits
    _ = l.settle.recast l.settle.phase limits := by rw [settle_phase]

/-! ## Calls that are waiting

The deadline, the grace and the instants of its messages are stored in a call, and looking at the call
reads them there. -/

theorem retire_withLimits (i : Nat) (who : Retirer) (cancel : Bool) :
    (l.withLimits limits).retire i who cancel = (l.retire i who cancel).withLimits limits := by
  have hgiveUp (m : Lifecycle) : (m.withLimits limits).giveUp i = (m.giveUp i).withLimits limits := by
    have hi : (m.withLimits limits).invocation? i = m.invocation? i := rfl
    unfold giveUp
    rw [hi]
    split <;> rfl
  cases cancel with
  | false => rfl
  | true => exact hgiveUp (l.retire i who false)

theorem leaveClosing_withLimits :
    (l.withLimits limits).leaveClosing = l.leaveClosing.withLimits limits := by
  have hp : (l.withLimits limits).phase = l.phase := rfl
  unfold leaveClosing
  rw [hp]
  split <;> rfl

theorem endReconcile_withLimits (i : Nat) (warning : Option String) :
    (l.withLimits limits).endReconcile i warning =
      (l.endReconcile i warning).withLimits limits := by
  have hi : (l.withLimits limits).isPending i = l.isPending i := rfl
  unfold endReconcile
  dsimp only
  rw [retire_withLimits, hi]
  split
  · split <;> rfl
  · rfl

theorem noticeClosed_withLimits (i : Nat) (v : Invocation) (noticed : List Bool) :
    (l.withLimits limits).noticeClosed i v noticed =
      (l.noticeClosed i v noticed).withLimits limits :=
  foldl_withLimits l limits (fun _ _ => rfl) _

theorem sayAll_withLimits (whom : Addressee) (kind : MessageKind) (texts : List String) :
    (l.withLimits limits).sayAll whom kind texts =
      (l.sayAll whom kind texts).withLimits limits := foldl_withLimits l limits (fun _ _ => rfl) _

theorem noteSettled_withLimits (i : Nat) (v : Invocation) (grace : Nat) (ending : Ending) :
    (l.withLimits limits).noteSettled i v grace ending =
      (l.noteSettled i v grace ending).withLimits limits := by
  unfold noteSettled
  split
  · exact foldl_withLimits l limits (fun _ _ => rfl) _
  · rfl

theorem endSettle_withLimits (i : Nat) (ending : Ending) :
    (l.withLimits limits).endSettle i ending = (l.endSettle i ending).withLimits limits := by
  have hp (m : Lifecycle) : (m.withLimits limits).phase = m.phase := rfl
  unfold endSettle
  dsimp only
  rw [retire_withLimits, hp]
  split <;> rfl

/-- A call that is waiting has its deadline; the limits no longer matter to it. -/
theorem check_withLimits (call : Call) : (l.withLimits limits).check call =
    ((l.check call).1.withLimits limits, (l.check call).2) := by
  -- The limits are read when a call is made; a look has its deadline in the call itself.
  have hinvocation (i : Nat) : (l.withLimits limits).invocation? i = l.invocation? i := rfl
  have hnow (m : Lifecycle) : (m.withLimits limits).now = m.now := rfl
  cases call with
  | reconcile i grace deadline =>
    simp only [check, hinvocation]
    split
    · rfl
    · next v _ =>
      have hverdict : (l.withLimits limits).reconcileVerdict? v grace deadline =
        l.reconcileVerdict? v grace deadline := rfl
      rw [hverdict]
      split
      · rw [endReconcile_withLimits]
      · rfl
  | finish i start deadline noticed longest nextWord =>
    simp only [check, hinvocation]
    split
    · rw [leaveClosing_withLimits]
    · next v _ =>
      have hfinished (m : Lifecycle) : (m.withLimits limits).noteFinished i v =
        (m.noteFinished i v).withLimits limits := rfl
      have hsay (m : Lifecycle) (text : String) :
        (m.withLimits limits).say (.invocation i) .warning text =
          (m.say (.invocation i) .warning text).withLimits limits := rfl
      rw [noticeClosed_withLimits, hnow]
      split
      · rw [sayAll_withLimits, retire_withLimits, hfinished, leaveClosing_withLimits]
      · split
        · rw [hsay, hfinished, leaveClosing_withLimits]
        · rfl
  | settle i grace deadline ending =>
    simp only [check, hinvocation, hnow]
    split
    · rw [endSettle_withLimits]
    · split
      · rw [noteSettled_withLimits, endSettle_withLimits]
      · rfl

theorem endInstant_withLimits (call : Call) : (l.withLimits limits).endInstant call =
    ((l.endInstant call).1.withLimits limits, (l.endInstant call).2) := by
  have hnow : (l.withLimits limits).now = l.now := rfl
  cases call with
  | finish i start deadline noticed longest nextWord =>
    simp only [endInstant, hnow]
    split <;> rfl
  | reconcile i grace deadline => rfl
  | settle i grace deadline ending => rfl

/-! ## Making a call

Each kind of wait has a limit of its own, which is read when the call is made. The call before an
invocation and those at the end of the process are not in this section, because for them the equation is
false. -/

theorem noteOpen_withLimits (i : Nat) (ending : Option Ending) :
    (l.withLimits limits).noteOpen i ending = (l.noteOpen i ending).withLimits limits := by
  have hi : (l.withLimits limits).invocation? i = l.invocation? i := rfl
  unfold noteOpen
  rw [hi]
  split
  · rfl
  · cases ending with
    | some e => dsimp only; split <;> rfl
    | none => dsimp only; split <;> rfl

theorem ended_withLimits (i : Nat) (mode : UploadMode) :
    (l.withLimits limits).ended i mode = (l.ended i mode).withLimits limits := by
  have hopen := noteOpen_withLimits ({ l with phase := .closing, active := none }) limits i none
  unfold ended closeAndPublish
  exact congrArg (fun m : Lifecycle => (m.updateStream i (·.close l.now (some .internal))).publish i
    mode) hopen

/-- The end of an invocation looks at no limit but the cap, and at that only if it is blocking. -/
theorem finish_withLimits {mode : UploadMode}
    (hcap : mode = .blocking → limits.blocking = l.limits.blocking) :
    (l.withLimits limits).finish mode =
      ((l.finish mode).1.withLimits limits, (l.finish mode).2) := by
  have hp : (l.withLimits limits).phase = l.phase := rfl
  have ha : (l.withLimits limits).active = l.active := rfl
  have hrefuse : (l.withLimits limits).refuse .finish = l.refuse .finish := rfl
  have hended (m : Lifecycle) (i : Nat) : ({ m with phase := .closing, active := none } :
      Lifecycle).closeAndPublish i mode none = m.ended i mode := rfl
  unfold finish
  rw [hp, ha, hrefuse]
  split
  · rfl
  · split
    · rfl
    · next i _ =>
      have hi : ((l.ended i mode).withLimits limits).invocation? i =
        (l.ended i mode).invocation? i := rfl
      have hlimits : (l.ended i mode).limits = l.limits :=
        (quiet_closeStream { l with phase := .closing, active := none } i none).limits
      dsimp only
      rw [hended, hended, ended_withLimits, hi]
      split
      · rw [leaveClosing_withLimits]
      · next v _ =>
        have hnotices : v.sinks.foldl (fun l s => l.tell (.invocation i) (.notice (.closed s.name)))
            ((l.ended i mode).withLimits limits) = (v.sinks.foldl (fun l s =>
              l.tell (.invocation i) (.notice (.closed s.name))) (l.ended i mode)).withLimits limits :=
          foldl_withLimits _ limits (fun _ _ => rfl) v.sinks
        have hdrain (m : Lifecycle) : ({ m.withLimits limits with
            drains := (m.withLimits limits).drains ++ [i] } : Lifecycle).noteFinished i v =
          (({ m with drains := m.drains ++ [i] } : Lifecycle).noteFinished i v).withLimits limits := rfl
        cases mode with
        | blocking =>
          dsimp only
          rw [check_withLimits, withLimits_now, withLimits_limits, hlimits, hcap rfl]
        | nonBlocking =>
          dsimp only
          rw [hnotices, hdrain, leaveClosing_withLimits]
        | fullyAsync =>
          dsimp only
          rw [hnotices, hdrain, leaveClosing_withLimits]

end Lifecycle

/-! ## Time

A run takes its lifecycle along from instant to instant. Its instants are those of its calls and sinks,
so they are the same under all limits. -/

namespace Run

/-- The run under other limits. -/
def withLimits (r : Run) (limits : Limits) : Run :=
  { r with lifecycle := r.lifecycle.withLimits limits }

variable (r : Run) (l : Lifecycle) (limits : Limits)

theorem after_withLimits (progress : Progress) (patience : Option Nat) :
    after (l.withLimits limits) progress patience =
      ((after l progress patience).1.withLimits limits, (after l progress patience).2) := by
  cases progress with
  | answered a => rfl
  | waiting call =>
    have hnow : (l.withLimits limits).now = l.now := rfl
    simp only [after, giveUp, hnow]
    split
    · cases call with
      | finish i start deadline noticed longest nextWord =>
        exact congrArg (·, _) (Lifecycle.leaveClosing_withLimits l limits)
      | reconcile i grace deadline => rfl
      | settle i grace deadline ending => rfl
    · rfl

theorem checkCalls_withLimits (calls : List Pending) : checkCalls (l.withLimits limits) calls =
    ((checkCalls l calls).1.withLimits limits, (checkCalls l calls).2) := by
  induction calls generalizing l with
  | nil => rfl
  | cons p rest ih =>
    cases p with
    | finished reply =>
      simp only [checkCalls]
      rw [ih]
    | waiting call patience =>
      rw [checkCalls_waiting, checkCalls_waiting, Lifecycle.check_withLimits, after_withLimits, ih]

theorem settleRounds_withLimits (rounds : Nat) :
    settleRounds rounds (r.withLimits limits) = (settleRounds rounds r).withLimits limits := by
  induction rounds generalizing r with
  | zero => exact congrArg (Run.mk · r.calls) (Lifecycle.settle_withLimits r.lifecycle limits)
  | succ rounds ih =>
    have hcalls : (r.withLimits limits).calls = r.calls := rfl
    have hlifecycle : (r.withLimits limits).lifecycle = r.lifecycle.withLimits limits := rfl
    have hcount (m : Lifecycle) (calls : List Pending) :
      waitingCount ⟨m.withLimits limits, calls⟩ = waitingCount ⟨m, calls⟩ := rfl
    have hbefore : (r.withLimits limits).waitingCount = r.waitingCount := rfl
    unfold settleRounds
    dsimp only
    rw [hlifecycle, hcalls, Lifecycle.settle_withLimits, checkCalls_withLimits, hcount, hbefore]
    split
    · exact ih ⟨_, _⟩
    · rfl

theorem settle_withLimits : (r.withLimits limits).settle = r.settle.withLimits limits :=
  settleRounds_withLimits r limits _

theorem leaveInstant_withLimits :
    (r.withLimits limits).leaveInstant = r.leaveInstant.withLimits limits := by
  have hcalls (calls : List Pending) (l : Lifecycle) : endInstant (l.withLimits limits) calls =
      ((endInstant l calls).1.withLimits limits, (endInstant l calls).2) := by
    induction calls generalizing l with
    | nil => rfl
    | cons p rest ih =>
      cases p with
      | finished reply =>
        simp only [endInstant]
        rw [ih]
      | waiting call patience =>
        simp only [endInstant]
        rw [Lifecycle.endInstant_withLimits, ih]
  have hlifecycle : (r.withLimits limits).lifecycle = r.lifecycle.withLimits limits := rfl
  unfold leaveInstant
  rw [hlifecycle, hcalls]
  rfl

theorem go_withLimits (horizon : Nat) {wish : Run → Bool}
    (hwish : ∀ r : Run, wish (r.withLimits limits) = wish r) (moves : Nat) :
    go horizon wish moves (r.withLimits limits) = (go horizon wish moves r).withLimits limits := by
  induction moves generalizing r with
  | zero => exact settle_withLimits r limits
  | succ moves ih =>
    have hnow (s : Run) : (s.withLimits limits).lifecycle.now = s.lifecycle.now := rfl
    have hdue (s : Run) : (s.withLimits limits).dueInstants = s.dueInstants := rfl
    unfold go
    dsimp only
    rw [settle_withLimits, leaveInstant_withLimits, hwish, hnow, hnow, hdue]
    split
    · rfl
    · split
      · exact ih (r.settle.leaveInstant.atInstant _)
      · rfl

/-- **Waiting for the reply to a call** is the same under all limits, if making the call is. -/
theorem perform_withLimits (operation : Lifecycle → Lifecycle × Progress)
    (h : operation (l.withLimits limits) = ((operation l).1.withLimits limits, (operation l).2))
    (patience : Option Nat) : perform (l.withLimits limits) operation patience =
      ((perform l operation patience).1.withLimits limits, (perform l operation patience).2) := by
  have hcall : (ofLifecycle (l.withLimits limits)).call operation patience =
      ((ofLifecycle l).call operation patience).withLimits limits := by
    simp only [call, ofLifecycle, h, after_withLimits]
    rfl
  have hcount (s : Run) : (s.withLimits limits).waitingCount = s.waitingCount := rfl
  have hawait (s : Run) : (s.withLimits limits).await = s.await.withLimits limits :=
    go_withLimits s limits _ (fun _ => rfl) _
  unfold perform
  dsimp only
  rw [hcall, hcount]
  split
  · rfl
  · rw [hawait]
    rfl

/-- **Letting time pass** is the same under all limits. -/
theorem pass_withLimits (span : Nat) :
    pass (l.withLimits limits) span = (pass l span).withLimits limits :=
  congrArg Run.lifecycle (go_withLimits (ofLifecycle l) limits _ (fun _ => rfl) _)

end Run

end EventUpload
