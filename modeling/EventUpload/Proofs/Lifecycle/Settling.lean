import EventUpload.Proofs.Lifecycle.Frames

/-!
# What happens by itself at an instant

`Lifecycle.settle` lets every sink do what it can and then looks after the drains. A drain may clear the
pending place, so this is not a quiet change, but nearly: `Calm` allows for that and for nothing else.
Neither does it matter to it in which phase the lifecycle is, which is what lets a run with a waiting
call be compared with the same run without the call, nor which limits the lifecycle has.

The two halves of settling are kept apart (`settle_eq`). `afterSinks` is the lifecycle when the sinks
have had their turn and no drain has, and it is quiet; only the second half needs `Calm`. Proofs that
follow a single upload look at it there, because a drain reads the outcomes of that moment.

That the phase and the limits do not matter is an equation and not a relation: settling commutes with
putting others in their place (`settle_recast`). It is proved operation by operation, each lemma by the
one before, and would fail at the first operation that reads the phase. Both halves of the file are
about one instant; what happens from one instant to the next is the subject of
`Proofs.Lifecycle.Arrival`.
-/

set_option autoImplicit false

namespace EventUpload

open List (Forall₂)

namespace Lifecycle

/-- Only sinks, strays, posts, the outside and drains have changed, and uploads may have been
retired. -/
structure Calm (l m : Lifecycle) : Prop where
  now : m.now = l.now
  limits : m.limits = l.limits
  phase : m.phase = l.phase
  active : m.active = l.active
  pending : m.pending = l.pending ∨ m.pending = none
  invocations : Forall₂ Invocation.Onward l.invocations m.invocations

theorem Quiet.calm {l m : Lifecycle} (h : l.Quiet m) : l.Calm m :=
  ⟨h.now, h.limits, h.phase, h.active, .inl h.pending, h.invocations⟩

namespace Calm

variable {l m n : Lifecycle}

theorem refl (l : Lifecycle) : l.Calm l := (Quiet.refl l).calm

theorem trans (h : l.Calm m) (k : m.Calm n) : l.Calm n where
  now := k.now.trans h.now
  limits := k.limits.trans h.limits
  phase := k.phase.trans h.phase
  active := k.active.trans h.active
  pending := by
    rcases k.pending with hk | hk
    · rw [hk]
      exact h.pending
    · exact .inr hk
  invocations := Quiet.invocations_trans h.invocations k.invocations

theorem foldl {α : Type} {f : Lifecycle → α → Lifecycle} (h : ∀ (l : Lifecycle) a, l.Calm (f l a))
    (as : List α) (l : Lifecycle) : l.Calm (as.foldl f l) := foldl_related refl trans h as l

theorem invocation? (h : l.Calm m) {i : Nat} {v : Invocation} (hv : l.invocation? i = some v) :
    ∃ w, m.invocation? i = some w ∧ v.Onward w := forall₂_getElem? h.invocations hv

/-- An empty pending place stays empty. -/
theorem pending_none (h : l.Calm m) (hl : l.pending = none) : m.pending = none := by
  rcases h.pending with hp | hp
  · exact hp.trans hl
  · exact hp

end Calm

theorem calm_retire (l : Lifecycle) (i : Nat) (who : Retirer) (cancel : Bool) :
    l.Calm (l.retire i who cancel) := by
  have h : l.Calm (l.retire i who false) := by
    refine ⟨rfl, rfl, rfl, rfl, ?_, (Quiet.refl l).invocations⟩
    rw [retire_pending]
    split
    · exact .inr rfl
    · exact .inl rfl
  exact h.trans (quiet_retire l i who cancel).calm

theorem calm_settleDrain (l : Lifecycle) (i : Nat) : l.Calm (l.settleDrain i) := by
  unfold settleDrain
  split
  · split
    · refine Calm.trans ?_ (quiet_endDrain l i _).calm
      have h := calm_retire { l with drains := l.drains.filter (· ≠ i) } i .drain false
      exact ⟨h.now, h.limits, h.phase, h.active, h.pending, h.invocations⟩
    · exact .refl l
  · exact .refl l

/-- The lifecycle when all sinks have had their turn at an instant. -/
def afterSinks (l : Lifecycle) : Lifecycle :=
  ((List.range l.invocations.length).foldl settleInvocation l).settleStrays

theorem settle_eq (l : Lifecycle) : l.settle = l.afterSinks.drains.foldl settleDrain l.afterSinks :=
  rfl

theorem calm_settle (l : Lifecycle) : l.Calm l.settle :=
  (quiet_settleSinks l).calm.trans (Calm.foldl calm_settleDrain _ _)

@[simp] theorem settle_now (l : Lifecycle) : l.settle.now = l.now := (calm_settle l).now

@[simp] theorem settle_limits (l : Lifecycle) : l.settle.limits = l.limits := (calm_settle l).limits

@[simp] theorem settle_phase (l : Lifecycle) : l.settle.phase = l.phase := (calm_settle l).phase

theorem settleInvocation_of_none {l : Lifecycle} {i : Nat} (hv : l.invocation? i = none) :
    l.settleInvocation i = l := by
  unfold settleInvocation
  rw [hv]

theorem settleInvocation_of_some {l : Lifecycle} {i : Nat} {v : Invocation}
    (hv : l.invocation? i = some v) : l.settleInvocation i =
      ({ l.update i (·.withSinks (settleSinks l.now v.sinks l.outside).1) with
        outside := (settleSinks l.now v.sinks l.outside).2.1 } : Lifecycle).sayErrors
          (.invocation i) (settleSinks l.now v.sinks l.outside).2.2 := by
  unfold settleInvocation
  rw [hv]

theorem settleStrays_eq (l : Lifecycle) : l.settleStrays =
    ({ l with
      strays := (settleSinks l.now l.strays l.outside).1
      outside := (settleSinks l.now l.strays l.outside).2.1 } : Lifecycle).sayErrors .newcomer
        (settleSinks l.now l.strays l.outside).2.2 := rfl

/-! ## In another phase -/

/-- The lifecycle in another phase. -/
def inPhase (l : Lifecycle) (phase : Phase) : Lifecycle := { l with phase := phase }

/-- The lifecycle in another phase and under other limits. -/
def recast (l : Lifecycle) (phase : Phase) (limits : Limits) : Lifecycle :=
  { l with phase := phase, limits := limits }

section Recast

variable (l : Lifecycle) (phase : Phase) (limits : Limits)

theorem foldl_recast {α : Type} {f : Lifecycle → α → Lifecycle}
    (h : ∀ (l : Lifecycle) a, f (l.recast phase limits) a = (f l a).recast phase limits)
    (as : List α) : as.foldl f (l.recast phase limits) = (as.foldl f l).recast phase limits := by
  induction as generalizing l with
  | nil => rfl
  | cons a as ih =>
    rw [List.foldl_cons, List.foldl_cons, h]
    exact ih (f l a)

theorem sayErrors_recast (whom : Addressee) (errors : List SinkError) :
    (l.recast phase limits).sayErrors whom errors =
      (l.sayErrors whom errors).recast phase limits :=
  foldl_recast l phase limits (fun _ _ => rfl) errors

theorem settleInvocation_recast (i : Nat) : (l.recast phase limits).settleInvocation i =
    (l.settleInvocation i).recast phase limits := by
  have hi : (l.recast phase limits).invocation? i = l.invocation? i := rfl
  cases hv : l.invocation? i with
  | none => rw [settleInvocation_of_none hv, settleInvocation_of_none (hi.trans hv)]
  | some v =>
    rw [settleInvocation_of_some hv, settleInvocation_of_some (hi.trans hv),
      ← sayErrors_recast]
    rfl

theorem settleStrays_recast : (l.recast phase limits).settleStrays =
    l.settleStrays.recast phase limits := by
  rw [settleStrays_eq, settleStrays_eq, ← sayErrors_recast]
  rfl

theorem sayAll_recast (whom : Addressee) (kind : MessageKind) (texts : List String) :
    (l.recast phase limits).sayAll whom kind texts =
      (l.sayAll whom kind texts).recast phase limits :=
  foldl_recast l phase limits (fun _ _ => rfl) texts

theorem endDrain_recast (i : Nat) (v : Invocation) : (l.recast phase limits).endDrain i v =
    (l.endDrain i v).recast phase limits := by
  have hi : (l.recast phase limits).isPending i = l.isPending i := rfl
  have hretire : ({ l.recast phase limits with
      drains := (l.recast phase limits).drains.filter (· ≠ i) } : Lifecycle).retire i .drain false =
      (({ l with drains := l.drains.filter (· ≠ i) } : Lifecycle).retire i .drain false).recast
        phase limits := rfl
  unfold endDrain
  rw [hi]
  dsimp only
  rw [hretire]
  split
  · refine foldl_recast _ phase limits (fun l e => ?_) _
    exact sayAll_recast (l.note (.invocation i) (.drainFailed e)) phase limits _ _ _
  · rfl

theorem settleDrain_recast (i : Nat) : (l.recast phase limits).settleDrain i =
    (l.settleDrain i).recast phase limits := by
  have hi : (l.recast phase limits).invocation? i = l.invocation? i := rfl
  unfold settleDrain
  rw [hi]
  split
  · split
    · exact endDrain_recast l phase limits i _
    · rfl
  · rfl

theorem afterSinks_recast : (l.recast phase limits).afterSinks =
    l.afterSinks.recast phase limits := by
  have hlength : (l.recast phase limits).invocations.length = l.invocations.length := rfl
  rw [afterSinks, afterSinks, hlength,
    foldl_recast l phase limits fun l i => settleInvocation_recast l phase limits i,
    settleStrays_recast]

/-- What happens by itself is the same in every phase and under all limits. -/
theorem settle_recast : (l.recast phase limits).settle = l.settle.recast phase limits := by
  have hdrains (m : Lifecycle) : (m.recast phase limits).drains = m.drains := rfl
  rw [settle_eq, settle_eq, afterSinks_recast, hdrains]
  exact foldl_recast _ phase limits (fun l i => settleDrain_recast l phase limits i) _

theorem settle_inPhase : (l.inPhase phase).settle = l.settle.inPhase phase :=
  calc (l.inPhase phase).settle
    _ = l.settle.recast phase l.limits := settle_recast l phase l.limits
    _ = l.settle.recast phase l.settle.limits := by rw [settle_limits]

end Recast

end Lifecycle

end EventUpload
