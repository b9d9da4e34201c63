import EventUpload.Proofs.Lifecycle.Await
import EventUpload.Proofs.Lifecycle.Phases
import EventUpload.Proofs.Lifecycle.Posts

/-!
# Asking for the next invocation

Before an invocation starts, the uploads that are still outstanding are waited for, within a grace, and
then given up. `before_outstanding` says how long that takes, and what it leaves behind: it takes until
the wait is decided, by the first failure or by the last success, or until the grace is over.

When something happens is read off the lifecycle that is left alone (`Lifecycle.leftAlone`), that is,
off a run without the call. So the theorem also says that waiting does not disturb what is waited for: a
run with the call and the same run without it go through the same states until the call is answered
(`arrival_reconciling`). Stated of the run with the call, the instant of the decision would be defined
by the very wait that is to be described.

The two runs differ at one instant only. The deadline of the call is due in one of them and need not be
due in the other, so at the end of the grace the run with the call may stop over where the other one
does not (`arrival_deadline`). `exists_arrival_reconciling` hides that difference: nothing is missing
there of what would have been seen without the call.

A wait can be decided in two ways that do not exclude each other in time, and the first of them counts.
That is why the decision is a predicate of a moment (`Decided`) and the theorem has "as soon as" in the
form that it does not hold at any earlier moment. `Reconciles.unique` draws the conclusion that the
length of the wait depends on nothing else; for uploads of which only the half-closes are waited for it
follows that only these and the grace have a say.

Without a grace there is a look at the moment of the call and none later, before the sinks have had
their turn at that instant. The warnings of `Reconciles` have a case of their own for it.
-/

set_option autoImplicit false

namespace EventUpload

open List (Forall₂)

/-! ## When a wait is decided

A failure decides at once and a success only when it is that of the last sink. The function of the
program looks at errors first, so an error counts even if everything else is done. -/

/-- The signal of a sink that the next invocation waits for: that everything has been sent if the mode
asks for no more, else that everything is done. -/
def Sink.awaited (mode : UploadMode) (s : Sink) : Signal :=
  if mode = .fullyAsync then s.seen.half else s.seen.done

theorem Sink.Onward.awaited {s t : Sink} (h : s.Onward t) (mode : UploadMode) {o : Outcome}
    (ho : s.awaited mode = some o) : t.awaited mode = some o := by
  unfold Sink.awaited at ho ⊢
  split
  · next hm => exact h.seen.half o (by rwa [if_pos hm] at ho)
  · next hm => exact h.seen.done o (by rwa [if_neg hm] at ho)

namespace Invocation

/-- Every signal that is waited for has been resolved, without an error. -/
def Succeeded (v : Invocation) : Prop := ∀ s ∈ v.sinks, s.awaited v.mode = some .done

/-- Some signal that is waited for has been resolved with an error. -/
def Failed (v : Invocation) : Prop := ∃ s ∈ v.sinks, ∃ e, s.awaited v.mode = some (.failed e)

variable {v w : Invocation}

theorem awaited_eq (v : Invocation) : v.awaited = v.sinks.map (Sink.awaited v.mode) := by
  unfold awaited
  refine List.map_congr_left fun s _ => ?_
  unfold Sink.awaited
  cases v.mode <;> rfl

theorem Succeeded.not_failed (h : v.Succeeded) : ¬ v.Failed := by
  rintro ⟨s, hs, e, he⟩
  exact absurd ((h s hs).symm.trans he) (by simp)

theorem firstError?_eq_none : Lifecycle.firstError? v.awaited = none ↔ ¬ v.Failed := by
  have herror (s : Signal) (e : SinkError) :
      (s.bind Outcome.error? = some e) ↔ s = some (.failed e) := by
    rcases s with _ | _ | e' <;> simp [Outcome.error?]
  rw [Lifecycle.firstError?, List.findSome?_eq_none_iff, awaited_eq]
  constructor
  · rintro h ⟨s, hs, e, he⟩
    have := h _ (List.mem_map_of_mem hs)
    rw [(herror _ e).mpr he] at this
    exact absurd this (by simp)
  · intro h signal hsignal
    obtain ⟨s, hs, rfl⟩ := List.mem_map.mp hsignal
    cases he : (s.awaited v.mode).bind Outcome.error? with
    | none => rfl
    | some e => exact absurd ⟨s, hs, e, (herror _ e).mp he⟩ h

theorem all_awaited (hf : ¬ v.Failed) : v.awaited.all Option.isSome = true ↔ v.Succeeded := by
  rw [awaited_eq, List.all_map, List.all_eq_true]
  constructor
  · intro h s hs
    have hsome := h s hs
    rcases ho : s.awaited v.mode with _ | _ | e
    · simp [ho] at hsome
    · rfl
    · exact absurd ⟨s, hs, e, ho⟩ hf
  · intro h s hs
    simp [h s hs]

theorem Succeeded.onward (hs : v.Succeeded) (h : v.Onward w) : w.Succeeded := by
  intro t ht
  obtain ⟨s, hmem, hst⟩ := forall₂_exists_left h.sinks ht
  rw [h.mode]
  exact hst.awaited _ (hs s hmem)

theorem Failed.onward (hf : v.Failed) (h : v.Onward w) : w.Failed := by
  obtain ⟨s, hs, e, he⟩ := hf
  obtain ⟨t, ht, hst⟩ := forall₂_exists_left h.sinks.flip hs
  refine ⟨t, ht, e, ?_⟩
  rw [h.mode]
  exact hst.awaited _ he

end Invocation

namespace Lifecycle

variable {l m : Lifecycle} {i : Nat}

/-- The uploads of an invocation have succeeded, as far as the next one waits for them. -/
def Succeeded (l : Lifecycle) (i : Nat) : Prop := ∃ v, l.invocation? i = some v ∧ v.Succeeded

/-- The uploads of an invocation have succeeded, or one of them has failed, as far as the next
invocation waits for them. -/
def Decided (l : Lifecycle) (i : Nat) : Prop :=
  ∃ v, l.invocation? i = some v ∧ (v.Succeeded ∨ v.Failed)

theorem Succeeded.calm (hs : l.Succeeded i) (h : l.Calm m) : m.Succeeded i := by
  obtain ⟨v, hv, hs⟩ := hs
  obtain ⟨w, hw, hvw⟩ := h.invocation? hv
  exact ⟨w, hw, hs.onward hvw⟩

theorem Decided.calm (hd : l.Decided i) (h : l.Calm m) : m.Decided i := by
  obtain ⟨v, hv, hd⟩ := hd
  obtain ⟨w, hw, hvw⟩ := h.invocation? hv
  exact ⟨w, hw, hd.imp (·.onward hvw) (·.onward hvw)⟩

/-- There is no verdict as long as the sinks are undecided and there is time left. -/
theorem reconcileVerdict?_eq_none {v : Invocation} {grace deadline : Nat} :
    l.reconcileVerdict? v grace deadline = none ↔
      ¬ (v.Succeeded ∨ v.Failed) ∧ l.now < deadline := by
  unfold reconcileVerdict?
  cases he : firstError? v.awaited with
  | some e =>
    have hf : v.Failed := by
      by_contra hf
      rw [Invocation.firstError?_eq_none.mpr hf] at he
      exact absurd he (by simp)
    simp [hf]
  | none =>
    have hf := Invocation.firstError?_eq_none.mp he
    dsimp only
    split
    · next hall =>
      have hs := (Invocation.all_awaited hf).mp hall
      simp [hs]
    · next hall =>
      have hs : ¬ v.Succeeded := fun hs => hall ((Invocation.all_awaited hf).mpr hs)
      split
      · next hd => simp [Nat.not_lt.mpr hd]
      · next hd => simp [hs, hf, Nat.not_le.mp hd]

theorem reconcileVerdict?_of_succeeded {v : Invocation} (hs : v.Succeeded) (grace deadline : Nat) :
    l.reconcileVerdict? v grace deadline = some none := by
  unfold reconcileVerdict?
  rw [Invocation.firstError?_eq_none.mpr hs.not_failed]
  exact if_pos ((Invocation.all_awaited hs.not_failed).mpr hs)

/-! ## Giving up what was waited for

Whatever the wait has come to, the sinks are cancelled when it is over. For those that are done this
means nothing, and for the mode that waits only for the half-closes it ends the waiting for the rest. -/

/-- The uploads of an invocation have been cancelled. -/
def GivenUp (l : Lifecycle) (i : Nat) : Prop :=
  ∃ v, l.invocation? i = some v ∧ ∀ s ∈ v.sinks, s.isCancelled = true

theorem GivenUp.calm (hg : l.GivenUp i) (h : l.Calm m) : m.GivenUp i := by
  obtain ⟨v, hv, hg⟩ := hg
  obtain ⟨w, hw, hvw⟩ := h.invocation? hv
  refine ⟨w, hw, fun t ht => ?_⟩
  obtain ⟨s, hs, hst⟩ := forall₂_exists_left hvw.sinks ht
  exact hst.cancelled (hg s hs)

theorem isCancelled_of_overSinks (sinks : List Sink) (outside : Outside) :
    ∀ s ∈ (overSinks Sink.giveUp sinks outside).1, s.isCancelled = true := by
  induction sinks generalizing outside with
  | nil => exact fun s hs => absurd hs (by simp [overSinks])
  | cons k rest ih =>
    intro s hs
    rcases List.mem_cons.mp hs with rfl | hs
    · exact k.isCancelled_giveUp outside
    · exact ih _ s hs

theorem givenUp_giveUp {v : Invocation} (hv : l.invocation? i = some v) :
    (l.giveUp i).GivenUp i := by
  refine ⟨v.withSinks (overSinks Sink.giveUp v.sinks l.outside).1, ?_, ?_⟩
  · unfold giveUp
    simp only [hv]
    exact invocation?_update_self hv _
  · exact isCancelled_of_overSinks v.sinks l.outside

/-- What the end of the wait leaves behind. -/
structure Reconciled (l m : Lifecycle) (i : Nat) (warning : Option String) : Prop where
  phase : m.phase = l.phase
  pending : m.pending = none
  givenUp : m.GivenUp i
  warnings : ∃ ws, m.posts Posted.isNewcomerWarning = l.posts Posted.isNewcomerWarning ++ ws ∧
    ws.length ≤ 1 ∧ (warning = none → ws = [])

/-- Whatever the verdict, the end of the wait clears the pending place, gives the sinks up and warns
once at the most. -/
theorem reconciled_endReconcile {v : Invocation} (hv : l.invocation? i = some v)
    (hp : l.pending = some i ∨ l.pending = none) (warning : Option String) :
    l.Reconciled (l.endReconcile i warning) i warning where
  phase := (quiet_endReconcile l i warning).phase
  pending := by
    rw [(quiet_endReconcile l i warning).pending, retire_pending]
    rcases hp with hp | hp <;> simp [hp]
  givenUp := by
    have hretired : (l.retire i .newcomer true).GivenUp i :=
      givenUp_giveUp (l := l.retire i .newcomer false) hv
    unfold endReconcile
    cases warning with
    | none => exact hretired
    | some text =>
      dsimp only
      split
      · exact hretired.calm (quiet_say _ _ _ _).calm
      · exact hretired
  warnings := by
    have hretired := posts_retire (q := Posted.isNewcomerWarning) l i .newcomer true
    unfold endReconcile
    cases warning with
    | none => exact ⟨[], by rw [List.append_nil]; exact hretired, by simp, fun _ => rfl⟩
    | some text =>
      dsimp only
      split
      · refine ⟨[⟨l.now, .newcomer, .message ⟨.warning, text⟩⟩], ?_, by simp, by simp⟩
        rw [say, posts_tell, hretired, (quiet_retire l i .newcomer true).now]
        rfl
      · exact ⟨[], by rw [List.append_nil]; exact hretired, by simp, fun h => absurd h (by simp)⟩

theorem Reconciled.settle {warning : Option String} (h : l.Reconciled m i warning) :
    l.Reconciled m.settle i warning where
  phase := (settle_phase m).trans h.phase
  pending := (calm_settle m).pending_none h.pending
  givenUp := h.givenUp.calm (calm_settle m)
  warnings := by
    rw [posts_settle apart_isNewcomerWarning]
    exact h.warnings

/-! ## Looking at the call

The look at a waiting call, by its verdict. Both lemmas are stated for any grace and deadline, as the
same call is looked at again at each instant. -/

theorem check_reconcile {v : Invocation} (hv : l.invocation? i = some v) (grace deadline : Nat) :
    l.check (.reconcile i grace deadline) = match l.reconcileVerdict? v grace deadline with
      | some warning => (l.endReconcile i warning, .answered .ok)
      | none => (l, .waiting (.reconcile i grace deadline)) := by
  unfold check
  dsimp only
  split
  · next hnone => exact absurd (hv.symm.trans hnone) (by simp)
  · next w hw =>
    cases hv.symm.trans hw
    rfl

/-- The wait goes on until it is decided or the grace is over. -/
theorem check_reconcile_waiting {v : Invocation} (grace deadline : Nat)
    (hv : l.invocation? i = some v) (hd : ¬ l.Decided i) (hlt : l.now < deadline) :
    l.check (.reconcile i grace deadline) = (l, .waiting (.reconcile i grace deadline)) := by
  have hverdict : l.reconcileVerdict? v grace deadline = none :=
    reconcileVerdict?_eq_none.mpr ⟨fun h => hd ⟨v, hv, h⟩, hlt⟩
  rw [check_reconcile hv, hverdict]

theorem check_reconcile_answered {v : Invocation} (grace deadline : Nat)
    (hv : l.invocation? i = some v) (hp : l.pending = some i ∨ l.pending = none)
    (h : l.Decided i ∨ deadline ≤ l.now) :
    ∃ warning, (l.check (.reconcile i grace deadline)).2 = .answered .ok ∧
      l.Reconciled (l.check (.reconcile i grace deadline)).1 i warning ∧
      (l.Succeeded i → warning = none) := by
  rw [check_reconcile hv]
  cases hverdict : l.reconcileVerdict? v grace deadline with
  | none =>
    obtain ⟨hnd, hlt⟩ := reconcileVerdict?_eq_none.mp hverdict
    rcases h with ⟨w, hw, hd⟩ | hdue
    · rw [hv] at hw
      cases hw
      exact absurd hd hnd
    · exact absurd hdue (Nat.not_le.mpr hlt)
  | some warning =>
    refine ⟨warning, rfl, reconciled_endReconcile hv hp warning, ?_⟩
    rintro ⟨w, hw, hs⟩
    rw [hv] at hw
    cases hw
    rw [reconcileVerdict?_of_succeeded hs] at hverdict
    exact (Option.some.inj hverdict).symm

end Lifecycle

/-! ## The same run with and without the call

A call that waits adds its deadline to the instants that are due and takes nothing away. So up to the
decision the two runs stop over at the same instants, and the sinks have the same turns. -/

theorem nextInstant?_concat {now t deadline : Nat} {instants : List Nat} (h : t < deadline) :
    nextInstant? now (instants ++ [deadline]) = some t ↔ nextInstant? now instants = some t := by
  simp only [nextInstant?_eq_some, List.mem_append, List.mem_singleton]
  constructor
  · rintro ⟨hmem, hlt, hfirst⟩
    exact ⟨hmem.resolve_right (by omega), hlt, fun u hu => hfirst u (.inl hu)⟩
  · rintro ⟨hmem, hlt, hfirst⟩
    refine ⟨.inl hmem, hlt, ?_⟩
    rintro u (hu | rfl) hnow
    · exact hfirst u hu hnow
    · exact Nat.le_of_lt h

namespace Lifecycle

variable {l : Lifecycle} {i grace : Nat} {v : Invocation}

theorem pending_leftAlone (hp : l.pending = some i) (d : Nat) :
    (l.leftAlone d).pending = some i ∨ (l.leftAlone d).pending = none := by
  rcases (calm_leftAlone l d).pending with h | h
  · exact .inl (h.trans hp)
  · exact .inr h

/-- The wait for the uploads of an invocation that begins at this instant. -/
def reconcileCall (l : Lifecycle) (i grace : Nat) : Call := .reconcile i grace (l.now + grace)

/-- The run of a host that waits for previous uploads, in a phase. -/
def reconciling (l : Lifecycle) (phase : Phase) (i grace : Nat) : Run :=
  Run.awaiting (l.inPhase phase) (l.reconcileCall i grace)

section Wait

variable (phase : Phase) {d : Nat} (hv : l.invocation? i = some v) (hlt : d < grace)
  (hwait : ¬ (l.leftAlone d).Decided i)

include hv hlt hwait

theorem check_arrived : ((l.arrived d).inPhase phase).settle.check (l.reconcileCall i grace) =
    ((l.leftAlone d).inPhase phase, .waiting (l.reconcileCall i grace)) := by
  obtain ⟨w, hw, _⟩ := (calm_leftAlone l d).invocation? hv
  have hle : (l.arrived d).now ≤ l.now + d := Run.now_arrival_le (Run.ofLifecycle l) d
  rw [settle_inPhase]
  refine check_reconcile_waiting _ _ hw hwait ?_
  show (l.leftAlone d).now < l.now + grace
  rw [leftAlone, settle_now]
  omega

theorem next?_arrived :
    (Run.awaiting ((l.arrived d).inPhase phase) (l.reconcileCall i grace)).next? =
      nextInstant? (l.arrived d).now ((l.leftAlone d).dueInstants ++ [l.now + grace]) := by
  have hcheck := check_arrived phase hv hlt hwait
  rw [Run.next?_awaiting (congrArg Prod.snd hcheck), congrArg Prod.fst hcheck]
  rfl

theorem moved_arrived (t : Nat) :
    (Run.awaiting ((l.arrived d).inPhase phase) (l.reconcileCall i grace)).moved t =
      Run.awaiting (({ l.leftAlone d with now := t } : Lifecycle).inPhase phase)
        (l.reconcileCall i grace) := by
  have hcheck := check_arrived phase hv hlt hwait
  rw [Run.moved_awaiting (congrArg Prod.snd hcheck), congrArg Prod.fst hcheck]
  rfl

end Wait

/-- Until the wait is decided the run with the call goes through the same states as the run
without. -/
theorem arrival_reconciling (phase : Phase) (hv : l.invocation? i = some v) {d : Nat}
    (hd : d < grace) (hwait : ∀ e < d, ¬ (l.leftAlone e).Decided i) :
    (l.reconciling phase i grace).arrival d =
      Run.awaiting ((l.arrived d).inPhase phase) (l.reconcileCall i grace) := by
  -- What is due in both runs is the same but for the deadline, which is later than the next
  -- millisecond: so either both move or both stay.
  induction d with
  | zero => rfl
  | succ d ih =>
    have ih := ih (by omega) fun e he => hwait e (by omega)
    have hnot := hwait d (by omega)
    have hlt : l.now + (d + 1) < l.now + grace := by omega
    have hnext := next?_arrived phase hv (by omega : d < grace) hnot
    rw [← ih] at hnext
    by_cases hdue : nextInstant? (l.arrived d).now (l.leftAlone d).dueInstants =
        some (l.now + (d + 1))
    · rw [arrived_of_next hdue]
      refine (Run.arrival_of_next (r := l.reconciling phase i grace)
        (hnext.trans ((nextInstant?_concat hlt).mpr hdue))).trans ?_
      rw [ih]
      exact moved_arrived phase hv (by omega) hnot _
    · rw [arrived_of_not_next hdue]
      refine (Run.arrival_of_not_next (r := l.reconciling phase i grace) fun hmove => hdue ?_).trans
        ih
      exact (nextInstant?_concat hlt).mp (hnext.symm.trans hmove)

/-- At the deadline the run with the call is looked at, even if nothing else is due. -/
theorem arrival_deadline (phase : Phase) (hv : l.invocation? i = some v)
    (hwait : ∀ e < grace, ¬ (l.leftAlone e).Decided i) :
    ∃ n, (l.reconciling phase i grace).arrival grace = Run.awaiting (n.inPhase phase)
        (l.reconcileCall i grace) ∧ n.now = l.now + grace ∧
      (n = l.arrived grace ∨ n = { l.leftAlone grace with now := l.now + grace }) := by
  cases grace with
  | zero => exact ⟨l, rfl, rfl, .inl rfl⟩
  | succ d =>
    have hd := arrival_reconciling phase hv (Nat.lt_succ_self d) fun e he => hwait e (by omega)
    have hnot := hwait d (by omega)
    have hnext := next?_arrived phase hv (Nat.lt_succ_self d) hnot
    have hdue : ((l.reconciling phase i (d + 1)).arrival d).next? = some (l.now + (d + 1)) :=
      Run.arrival_next_of_mem (r := l.reconciling phase i (d + 1)) (by rw [hd]; exact hnext)
        (List.mem_append_right _ (List.mem_singleton.mpr rfl))
    have hmove := Run.arrival_of_next (r := l.reconciling phase i (d + 1)) hdue
    rw [hd, moved_arrived phase hv (Nat.lt_succ_self d) hnot] at hmove
    refine ⟨{ l.leftAlone d with now := l.now + (d + 1) }, hmove, rfl, ?_⟩
    -- The deadline may be an instant at which nothing else happens; being left alone until then
    -- is to stay where it was.
    by_cases hworld : nextInstant? (l.arrived d).now (l.leftAlone d).dueInstants =
        some (l.now + (d + 1))
    · exact .inl (arrived_of_next hworld).symm
    · have hstay : l.leftAlone (d + 1) = l.leftAlone d := by
        rw [leftAlone, arrived_of_not_next hworld]
        rfl
      exact .inr (by rw [hstay])

theorem posts_leftAlone {q : Posted → Bool} (hq : Apart q) (l : Lifecycle) (d : Nat) :
    (l.leftAlone d).posts q = l.posts q := by
  rw [leftAlone, posts_settle hq]
  refine arrived_induction (P := fun m => m.posts q = l.posts q) rfl (fun m t hm => ?_) d
  exact (posts_settle hq m).trans hm

/-- Where the call is looked at for the last time, nothing is missing of what would be seen without
the call. -/
theorem exists_arrival_reconciling (phase : Phase) (hv : l.invocation? i = some v) {d : Nat}
    (hd : d ≤ grace) (hwait : ∀ e < d, ¬ (l.leftAlone e).Decided i) :
    ∃ n, (l.reconciling phase i grace).arrival d = Run.awaiting (n.inPhase phase)
        (l.reconcileCall i grace) ∧
      (d = grace → n.now = l.now + grace) ∧ (d < grace → n = l.arrived d) ∧
      ({ l.leftAlone d with now := n.now } : Lifecycle).Calm n.settle ∧
      n.settle.posts Posted.isNewcomerWarning = l.posts Posted.isNewcomerWarning := by
  have hcalm : ({ l.leftAlone d with now := (l.arrived d).now } : Lifecycle).Calm
      (l.arrived d).settle := by
    have h := Calm.refl (l.leftAlone d)
    exact ⟨(settle_now _), h.limits, h.phase, h.active, h.pending, h.invocations⟩
  have hposts := posts_leftAlone apart_isNewcomerWarning l d
  rcases Nat.lt_or_eq_of_le hd with hlt | rfl
  · exact ⟨l.arrived d, arrival_reconciling phase hv hlt hwait, fun h => absurd h (by omega),
      fun _ => rfl, hcalm, hposts⟩
  · obtain ⟨n, hn, hnow, hworld⟩ := arrival_deadline phase hv hwait
    refine ⟨n, hn, fun _ => hnow, fun h => absurd h (Nat.lt_irrefl _), ?_, ?_⟩
    · rcases hworld with rfl | rfl
      · exact hcalm
      · exact calm_settle _
    · rcases hworld with rfl | rfl
      · exact hposts
      · exact (posts_settle apart_isNewcomerWarning _).trans hposts

/-- While the call goes on the wait is not decided: looking at it would have answered it. -/
theorem undecided_of_goesOn (phase : Phase) (hv : l.invocation? i = some v)
    (hp : l.pending = some i) {d : Nat} (hd : d ≤ grace)
    (hgo : ∀ e < d, ∃ n b, (l.reconciling phase i grace).arrival e = Run.awaiting n b ∧
      Run.GoesOn n b) : ∀ e < d, ¬ (l.leftAlone e).Decided i := by
  intro e he
  -- The two runs can be compared up to `e` only if nothing was decided before.
  induction e using Nat.strong_induction_on with
  | _ e ih =>
    intro hdecided
    obtain ⟨n, b, hn, next, hnext⟩ := hgo e he
    have harrive := arrival_reconciling phase hv (by omega : e < grace)
      fun f hf => ih f hf (by omega)
    cases hn.symm.trans harrive
    obtain ⟨w, hw, _⟩ := (calm_leftAlone l e).invocation? hv
    rw [settle_inPhase] at hnext
    obtain ⟨_, hanswer, _⟩ := check_reconcile_answered (l := (l.leftAlone e).inPhase phase)
      grace (l.now + grace) hw (pending_leftAlone hp e) (.inl hdecided)
    exact absurd (hanswer.symm.trans hnext) (by simp)

/-- **The wait for previous uploads.** It takes until it is decided or the grace is over. -/
theorem await_reconciling (grace : Nat) (phase : Phase) (hv : l.invocation? i = some v)
    (hp : l.pending = some i) :
    ∃ d m warning, d ≤ grace ∧ (d = grace ∨ (l.leftAlone d).Decided i) ∧
      (∀ e < d, ¬ (l.leftAlone e).Decided i) ∧
      (l.reconciling phase i grace).await = ⟨m, [.finished (.answer .ok (l.now + d))]⟩ ∧
      (l.inPhase phase).Reconciled m i warning ∧
      ((l.leftAlone d).Succeeded i → warning = none) := by
  obtain ⟨d, n₀, b, a, hd, hgo, hn₀, _, ha, hawait⟩ := Run.await_awaiting
    (l.inPhase phase) (l.reconcileCall i grace) (Nat.le_add_right _ _)
  have hle : d ≤ grace := Nat.add_le_add_iff_left.mp hd
  have hwait := undecided_of_goesOn phase hv hp hle hgo
  obtain ⟨n, hn, hend, hsame, hcalm, hposts⟩ := exists_arrival_reconciling phase hv hle hwait
  cases hn₀.symm.trans hn
  rw [settle_inPhase] at ha hawait
  obtain ⟨w, hw, _⟩ := (calm_leftAlone l d).invocation? hv
  obtain ⟨w', hw', _⟩ := hcalm.invocation? hw
  have hpending : n.settle.pending = some i ∨ n.settle.pending = none := by
    rcases hcalm.pending with h | h
    · rw [h]
      exact pending_leftAlone hp d
    · exact .inr h
  -- Before the deadline only a decision answers the call.
  have hover : d = grace ∨ (l.leftAlone d).Decided i := by
    rcases Nat.lt_or_eq_of_le hle with hlt | heq
    · right
      by_contra hnot
      have hcheck := check_arrived phase hv hlt hnot
      rw [settle_inPhase, ← hsame hlt] at hcheck
      exact absurd (ha.symm.trans (congrArg Prod.snd hcheck)) (by simp)
    · exact .inl heq
  -- So the look at the arrival answers the call, for one reason or the other.
  have hdone : n.settle.Decided i ∨ l.now + grace ≤ n.settle.now := by
    rcases hover with heq | hdecided
    · right
      rw [settle_now, hend heq]
    · exact .inl (Decided.calm (l := { l.leftAlone d with now := n.now }) hdecided hcalm)
  obtain ⟨warning, hanswer, hrec, hquiet⟩ := check_reconcile_answered
    (l := n.settle.inPhase phase) grace (l.now + grace) hw' hpending hdone
  have hsucceeded (hs : (l.leftAlone d).Succeeded i) : warning = none := by
    have hn : n.settle.Succeeded i :=
      Succeeded.calm (l := { l.leftAlone d with now := n.now }) hs hcalm
    exact hquiet hn
  have hleft := hrec.settle
  refine ⟨d, ((n.settle.inPhase phase).check (l.reconcileCall i grace)).1.settle, warning, hle,
    hover, hwait, ?_, ?_, hsucceeded⟩
  · exact hawait.trans (by cases ha.symm.trans hanswer; rfl)
  · refine ⟨hleft.phase, hleft.pending, hleft.givenUp, ?_⟩
    obtain ⟨ws, hws, hrest⟩ := hleft.warnings
    refine ⟨ws, hws.trans ?_, hrest⟩
    exact congrArg (· ++ ws) hposts

/-! ## The call

From the run of a waiting call to what the host gets: the reply, its instant, and what is left behind. -/

theorem before_eq (hidle : l.phase = .idle) (ho : l.outstanding? = some (i, v)) :
    l.before = (l.inPhase .waitingPrevious).check (l.reconcileCall i l.limits.previous) := by
  have ho' : Lifecycle.outstanding? { l with phase := .waitingPrevious } = some (i, v) := ho
  unfold before
  rw [if_neg (by rw [hidle]; decide)]
  dsimp only
  rw [ho']
  rfl

/-- What a call before an invocation has come to after `d` milliseconds. -/
structure Reconciles (l : Lifecycle) (i d : Nat) (m : Lifecycle) : Prop where
  /-- It has been answered. -/
  answered : Run.perform l HostCall.before.make none = (m, .answer .ok (l.now + d))
  /-- That was as soon as it was decided or the grace was over. -/
  within : d ≤ l.limits.previous
  reason : d = l.limits.previous ∨ (l.leftAlone d).Decided i
  first : ∀ e < d, ¬ (l.leftAlone e).Decided i
  phase : m.phase = .waitingPrevious
  pending : m.pending = none
  givenUp : m.GivenUp i
  /-- It has given at most one warning, and none if its wait ended in success. Without a grace all that
  counts is what had happened when it was made. -/
  warnings : ∃ ws, m.posts Posted.isNewcomerWarning = l.posts Posted.isNewcomerWarning ++ ws ∧
    ws.length ≤ 1 ∧
      (l.Succeeded i ∨ 0 < l.limits.previous ∧ (l.leftAlone d).Succeeded i → ws = [])

/-- The first call before an invocation is answered at the first instant at which the previous uploads
are decided, or when the grace is over. -/
theorem exists_reconciles (hidle : l.phase = .idle) (ho : l.outstanding? = some (i, v)) :
    ∃ d m, l.Reconciles i d m := by
  obtain ⟨hp, hv, _⟩ := outstanding?_eq_some.mp ho
  have hbefore : HostCall.before.make l =
      (l.inPhase .waitingPrevious).check (l.reconcileCall i l.limits.previous) :=
    before_eq hidle ho
  by_cases hnow : l.Decided i ∨ l.limits.previous = 0
  · -- The call is answered when it is made.
    have hdue : (l.inPhase .waitingPrevious).Decided i ∨
        l.now + l.limits.previous ≤ (l.inPhase .waitingPrevious).now := by
      refine hnow.imp_right fun hz => ?_
      rw [hz]
      exact Nat.le_refl _
    obtain ⟨warning, hanswer, hrec, hquiet⟩ := check_reconcile_answered
      (l := l.inPhase .waitingPrevious) l.limits.previous (l.now + l.limits.previous) hv (.inl hp)
      hdue
    have hcalm : l.Calm (l.leftAlone 0) := calm_settle l
    have hperform : Run.perform l HostCall.before.make none = _ :=
      Run.perform_answered _ (hbefore.trans (Prod.ext rfl hanswer))
    rw [check_now] at hperform
    obtain ⟨ws, hws, hlen, hnone⟩ := hrec.warnings
    refine ⟨0, _, hperform, Nat.zero_le _, ?_, fun e he => absurd he (Nat.not_lt_zero e),
      hrec.phase, hrec.pending, hrec.givenUp, ws, hws, hlen, ?_⟩
    · rcases hnow with hd | hz
      · exact .inr (hd.calm hcalm)
      · exact .inl hz.symm
    · rintro (hs | ⟨hpos, hs⟩)
      · exact hnone (hquiet hs)
      · -- With a grace the call was answered at once because it was decided, and a failure would
        -- not have turned into a success.
        obtain ⟨w, hw, hd⟩ := hnow.resolve_right (Nat.pos_iff_ne_zero.mp hpos)
        rcases hd with hd | hd
        · exact hnone (hquiet ⟨w, hw, hd⟩)
        · obtain ⟨w', hw', hww⟩ := hcalm.invocation? hw
          obtain ⟨w'', hw'', hs⟩ := hs
          cases hw'.symm.trans hw''
          exact absurd (hd.onward hww) hs.not_failed
  · -- The call has to wait.
    obtain ⟨hnot, hz⟩ := not_or.mp hnow
    have hcheck := check_reconcile_waiting (l := l.inPhase .waitingPrevious)
      l.limits.previous (l.now + l.limits.previous) hv hnot
      (Nat.lt_add_of_pos_right (Nat.pos_iff_ne_zero.mpr hz))
    obtain ⟨d, m, warning, hle, hover, hfirst, hawait, hrec, hquiet⟩ :=
      await_reconciling l.limits.previous .waitingPrevious hv hp
    obtain ⟨ws, hws, hlen, hnone⟩ := hrec.warnings
    refine ⟨d, m, Run.perform_waiting _ (hbefore.trans hcheck) hawait, hle, hover, hfirst, hrec.phase,
      hrec.pending, hrec.givenUp, ws, hws, hlen, ?_⟩
    rintro (hs | ⟨_, hs⟩)
    · obtain ⟨w, hw, hs⟩ := hs
      exact absurd ⟨w, hw, .inl hs⟩ hnot
    · exact hnone (hquiet hs)

/-! ## What does not matter

The length of the wait is determined by what it has been shown to be. Sinks whose signal is not waited
for can then be exchanged for others. -/

/-- The half-closes of an invocation. -/
def halves (l : Lifecycle) (i : Nat) : Option (List Signal) :=
  (l.invocation? i).map fun v => v.sinks.map fun s => s.seen.half

/-- When nobody waits for more than the half-closes, nothing else has a say in the decision. -/
theorem decided_iff_halves (hv : l.invocation? i = some v) (hm : v.mode = .fullyAsync) :
    l.Decided i ↔ ∃ hs, l.halves i = some hs ∧
      ((∀ h ∈ hs, h = some .done) ∨ ∃ h ∈ hs, ∃ e, h = some (.failed e)) := by
  have hhalf (s : Sink) : s.awaited v.mode = s.seen.half := if_pos hm
  have hhs : l.halves i = some (v.sinks.map fun s => s.seen.half) := by
    rw [halves, hv]
    rfl
  constructor
  · rintro ⟨w, hw, hd⟩
    rw [hv] at hw
    cases hw
    refine ⟨_, hhs, hd.imp (fun hs h hh => ?_) fun ⟨s, hs, e, he⟩ => ?_⟩
    · obtain ⟨s, hmem, rfl⟩ := List.mem_map.mp hh
      exact (hhalf s).symm.trans (hs s hmem)
    · exact ⟨_, List.mem_map_of_mem hs, e, (hhalf s).symm.trans he⟩
  · rintro ⟨hs, heq, hd⟩
    rw [hhs] at heq
    cases heq
    refine ⟨v, hv, hd.imp (fun hs s hmem => ?_) fun ⟨h, hh, e, he⟩ => ?_⟩
    · exact (hhalf s).trans (hs _ (List.mem_map_of_mem hmem))
    · obtain ⟨s, hmem, rfl⟩ := List.mem_map.mp hh
      exact ⟨s, hmem, e, (hhalf s).trans he⟩

theorem decided_leftAlone_congr {k : Lifecycle} {j : Nat} {w : Invocation}
    (hv : l.invocation? i = some v) (hw : k.invocation? j = some w) (hm : v.mode = .fullyAsync)
    (hn : w.mode = .fullyAsync) {e : Nat}
    (hhalves : (k.leftAlone e).halves j = (l.leftAlone e).halves i) :
    (k.leftAlone e).Decided j ↔ (l.leftAlone e).Decided i := by
  obtain ⟨v', hv', hvv⟩ := (calm_leftAlone l e).invocation? hv
  obtain ⟨w', hw', hww⟩ := (calm_leftAlone k e).invocation? hw
  rw [decided_iff_halves hv' (hvv.mode.trans hm), decided_iff_halves hw' (hww.mode.trans hn),
    hhalves]

/-- How long it takes is settled by when the wait is decided. -/
theorem Reconciles.unique {k m n : Lifecycle} {j d e : Nat} (h : l.Reconciles i d m)
    (hk : k.Reconciles j e n) (hg : k.limits.previous = l.limits.previous)
    (hd : ∀ f, (k.leftAlone f).Decided j ↔ (l.leftAlone f).Decided i) : e = d := by
  refine Nat.le_antisymm (Nat.not_lt.mp fun hlt => ?_) (Nat.not_lt.mp fun hlt => ?_)
  · have hle := hk.within
    rcases h.reason with heq | hdecided
    · omega
    · exact hk.first d hlt ((hd d).mpr hdecided)
  · have hle := h.within
    rcases hk.reason with heq | hdecided
    · omega
    · exact h.first e hlt ((hd e).mp hdecided)

/-- **Asking for the next invocation.** With uploads outstanding the call is answered, as soon as the
wait is decided or the grace is over; the uploads have been given up then, nothing is outstanding, and
an invocation may start. If the mode asks for no more than the half-closes, nothing but these and the
grace has a say in how long it takes. -/
theorem before_outstanding (hidle : l.phase = .idle) (ho : l.outstanding? = some (i, v)) :
    ∃ d m, l.Reconciles i d m ∧ m.outstanding? = none ∧
      (∀ ids sinks f, ((HostCall.start ids sinks).make m).2 ≠ .answered (.refused f)) ∧
      ∀ (k : Lifecycle) (j : Nat) (w : Invocation), k.phase = .idle → k.outstanding? = some (j, w) →
        k.limits.previous = l.limits.previous → v.mode = .fullyAsync → w.mode = .fullyAsync →
        (∀ e, (k.leftAlone e).halves j = (l.leftAlone e).halves i) → ∃ n, k.Reconciles j d n := by
  obtain ⟨d, m, h⟩ := exists_reconciles hidle ho
  refine ⟨d, m, h, ?_, fun ids sinks f => ?_, ?_⟩
  · refine outstanding?_eq_none.mpr fun j hj => ?_
    rw [h.pending] at hj
    exact absurd hj (by simp)
  · exact HostCall.not_refused_of_phase_eq (c := .start ids sinks) rfl h.phase f
  · intro k j w hkidle hko hg hm hn hhalves
    obtain ⟨_, hv, _⟩ := outstanding?_eq_some.mp ho
    obtain ⟨_, hw, _⟩ := outstanding?_eq_some.mp hko
    obtain ⟨e, n, hk⟩ := exists_reconciles hkidle hko
    obtain rfl := h.unique hk hg fun f => decided_leftAlone_congr hv hw hm hn (hhalves f)
    exact ⟨n, hk⟩

/-- The lifecycle behind an invocation with a sink that is never done. -/
def stuckUpload : Lifecycle :=
  let sink := Sink.new 0 (.responder (.new "stuck" none none))
  let r := Run.ofLifecycle (.new .standard .fresh)
  let r := r.call (HostCall.before).make none
  let r := r.call (HostCall.start ⟨"b", "i"⟩ [sink]).make none
  (r.call (HostCall.finish .nonBlocking).make none).lifecycle

theorem before_outstanding_stuckUpload : stuckUpload.phase = .idle ∧
    ∃ v, stuckUpload.outstanding? = some (0, v) ∧ ∃ d m, stuckUpload.Reconciles 0 d m := by
  have hidle : stuckUpload.phase = .idle := rfl
  obtain ⟨d, m, h, _⟩ := before_outstanding hidle rfl
  exact ⟨hidle, _, rfl, d, m, h⟩

end Lifecycle

end EventUpload
