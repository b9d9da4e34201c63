import EventUpload.Proofs.Lifecycle.Active
import EventUpload.Proofs.Lifecycle.Reconcile

/-!
# After the end of an invocation

A failed upload is announced by different parties: by the sink itself, by the wait at the end of an
invocation, by the cap of that wait, by the drain, or by the wait before the next invocation. Each of
them is silent about some failures, because somebody else has spoken or will.

`Lifecycle.Vouched` is what holds of an invocation from its end on: an alarm was raised, or everything
has been sent, or its uploads are pending and its watches are candid, so that whoever takes them out of
the pending place will know what there is to announce. There is one lemma for each of the parties.

The pending place does the work of a token. As long as the uploads are there nothing needs to have been
said, and the one who takes them out has to make sure that something is. Each lemma of a party is then
one case analysis: if the uploads are not its own, or not pending any more, somebody has answered
before, and else it speaks or there is nothing to say (`Vouched.of_allDone`).

Who was warned is a proposition that changes on the way. The wait before the next invocation warns the
newcomer and not the invocation that has ended, and it does so within one call; `warned` is false until
that call is made and "since then" afterwards (`WarnedSince`). A drain says nothing of a cancellation,
which is right as long as nobody but a bound cancels and that bound is what is seen. It is `Sink.Candid`
that says so, and this is the point at which the argument would fail if the timer of a half-close could
come first.
-/

set_option autoImplicit false

namespace EventUpload

/-- Every sink of an invocation has sent everything. -/
def Invocation.AllSent (v : Invocation) : Prop := ∀ s ∈ v.sinks, s.signals.half = some .done

namespace Lifecycle

variable {l m : Lifecycle} {i : Nat} {v : Invocation}

/-! ## The pending place

Who may take uploads out of the pending place: their own drain, a call that waits for them, and the wait
before the next invocation. Nobody else touches them. -/

theorem pending_leaveClosing (l : Lifecycle) : l.leaveClosing.pending = l.pending := by
  unfold leaveClosing
  split <;> rfl

/-- The drain of another invocation leaves the pending place alone. -/
theorem pending_settleDrain {j : Nat} (hij : j ≠ i) (hp : l.pending = some i) :
    (l.settleDrain j).pending = some i := by
  have hne : l.pending ≠ some j := by
    rw [hp]
    exact fun heq => hij (Option.some.inj heq).symm
  unfold settleDrain
  split
  · split
    · rw [(says_endDrain l j _).pending, retire_pending, if_neg hne]
      exact hp
    · exact hp
  · exact hp

/-- So does the wait for the end of another invocation. -/
theorem pending_check_finish {j : Nat} (hij : j ≠ i) (hp : l.pending = some i)
    (start deadline : Nat) (noticed : List Bool) (longest nextWord : Nat) :
    (l.check (.finish j start deadline noticed longest nextWord)).1.pending = some i := by
  have hne : l.pending ≠ some j := by
    rw [hp]
    exact fun heq => hij (Option.some.inj heq).symm
  have hlooks := looks_check l (.finish j start deadline noticed longest nextWord)
  generalize (l.check (.finish j start deadline noticed longest nextWord)).1 = m at hlooks
  generalize (l.check (.finish j start deadline noticed longest nextWord)).2 = p at hlooks
  cases hlooks with
  | goesOn hq _ => exact hq.pending.trans hp
  | finished hq =>
    rw [pending_leaveClosing, hq.pending, retire_pending, if_neg hne]
    exact hp
  | cut hq _ =>
    rw [pending_leaveClosing, hq.pending]
    exact hp

/-! ## The wait before the next invocation

The only party that warns somebody else than the invocation concerned. When it succeeds it says nothing,
and then everything that it has waited for has been sent. -/

/-- The one that is about to start was warned, after the first posts. -/
def WarnedSince (n : Nat) (l : Lifecycle) : Prop :=
  ∃ p ∈ l.log.drop n, p.isNewcomerWarning = true

theorem WarnedSince.mono {n : Nat} (h : l.WarnedSince n) (hlog : l.log <+: m.log) :
    m.WarnedSince n := by
  obtain ⟨p, hp, hwarning⟩ := h
  obtain ⟨posts, hposts⟩ := hlog
  refine ⟨p, ?_, hwarning⟩
  rw [← hposts, List.drop_append]
  exact List.mem_append_left _ hp

theorem mem_overSinks {f : Sink → Outside → Sink × Outside} {sinks : List Sink} {outside : Outside}
    {t : Sink} (h : t ∈ (overSinks f sinks outside).1) : ∃ s ∈ sinks, ∃ o, t = (f s o).1 := by
  induction sinks generalizing outside with
  | nil => exact absurd h (by simp [overSinks])
  | cons s rest ih =>
    rcases List.mem_cons.mp h with rfl | h
    · exact ⟨s, by simp, outside, rfl⟩
    · obtain ⟨k, hk, hfrom⟩ := ih h
      exact ⟨k, List.mem_cons_of_mem _ hk, hfrom⟩

theorem invocation?_endReconcile_self (hv : l.invocation? i = some v) (warning : Option String) :
    (l.endReconcile i warning).invocation? i =
      some (v.withSinks (overSinks Sink.giveUp v.sinks l.outside).1) := by
  rw [(says_endReconcile l i warning).invocation?]
  show ((l.retire i .newcomer false).giveUp i).invocation? i = _
  have hv' : (l.retire i .newcomer false).invocation? i = some v := hv
  unfold giveUp
  simp only [hv']
  exact invocation?_update_self hv' _

theorem invocation?_endReconcile_of_ne {j : Nat} (h : j ≠ i) (warning : Option String) :
    (l.endReconcile j warning).invocation? i = l.invocation? i := by
  rw [(says_endReconcile l j warning).invocation?]
  show ((l.retire j .newcomer false).giveUp j).invocation? i = _
  unfold giveUp
  split
  · rfl
  · exact (invocation?_update _ j _ i).trans (if_neg h)

/-- A warning goes to the newcomer as long as the uploads are pending. -/
theorem warnedSince_endReconcile {n : Nat} (hp : l.pending = some i) (text : String)
    (hn : n ≤ l.log.length) : (l.endReconcile i (some text)).WarnedSince n := by
  have hend : l.endReconcile i (some text) =
      (l.retire i .newcomer true).say .newcomer .warning text := by
    simp [Lifecycle.endReconcile, isPending, hp]
  refine ⟨⟨(l.retire i .newcomer true).now, .newcomer, .message ⟨.warning, text⟩⟩, ?_, rfl⟩
  rw [hend, say, tell, log_retire, List.drop_append_of_le_length hn]
  exact List.mem_append_right _ (List.mem_singleton.mpr rfl)

/-- The wait ends without a warning only if what it has waited for has succeeded. -/
theorem succeeded_of_verdict {grace deadline : Nat}
    (h : l.reconcileVerdict? v grace deadline = some none) : v.Succeeded := by
  unfold reconcileVerdict? at h
  split at h
  · exact absurd h (by simp)
  · next hnone =>
    split at h
    · next hall => exact (Invocation.all_awaited (Invocation.firstError?_eq_none.mp hnone)).mp hall
    · split at h <;> exact absurd h (by simp)

/-! ## After the end of an invocation

What may happen to an invocation that has ended, with a lemma for each of the parties and for its sinks. -/

/-- What is known of an invocation that has ended. Somebody else was warned, an alarm was raised, or
everything has been sent; or else its uploads are pending, and what is seen of them is true. -/
structure Vouched (warned : Prop) (i : Nat) (l : Lifecycle) (v : Invocation) : Prop where
  here : l.invocation? i = some v
  closed : v.stream.closed = true
  kept : v.stream.Kept (l.Alarmed i)
  answer : (warned ∨ l.Alarmed i ∨ v.AllSent) ∨ l.pending = some i ∧ ∀ s ∈ v.sinks, s.Candid

namespace Vouched

variable {warned warned' : Prop}

theorem warn (h : Vouched warned i l v) (hw : warned → warned') : Vouched warned' i l v :=
  { h with answer := h.answer.imp_left (Or.imp_left hw) }

/-- Nothing has happened to the invocation. -/
theorem keeps (h : Vouched warned i l v) (hhere : m.invocation? i = l.invocation? i)
    (hpending : l.pending = some i → m.pending = some i) (hlog : l.log <+: m.log) :
    Vouched warned i m v where
  here := hhere.trans h.here
  closed := h.closed
  kept := h.kept.mono fun halarm => halarm.mono hlog
  answer := h.answer.imp (Or.imp_right (Or.imp_left fun halarm => halarm.mono hlog))
    (And.imp_left hpending)

/-- Somebody has spoken, or there is nothing to be said. -/
theorem answered (h : Vouched warned i l v) (hhere : m.invocation? i = l.invocation? i)
    (hlog : l.log <+: m.log) (hanswer : warned' ∨ m.Alarmed i ∨ v.AllSent) :
    Vouched warned' i m v where
  here := hhere.trans h.here
  closed := h.closed
  kept := h.kept.mono fun halarm => halarm.mono hlog
  answer := .inl hanswer

theorem posted (h : Vouched warned i l v) (hsaid : l.Says m) : Vouched warned i m v :=
  h.keeps (hsaid.invocation? i) (fun hp => hsaid.pending.trans hp) hsaid.log

/-- When all uploads are seen to be over, they have been sent, or there is something to announce. -/
theorem of_allDone (h : Vouched warned i l v) (hcandid : ∀ s ∈ v.sinks, s.Candid)
    (hdone : v.allDone = true) : l.Alarmed i ∨ v.AllSent ∨
      ∃ e ∈ v.errors, e.isCancelled = false ∧ e.isTransmission = false := by
  by_cases hsent : v.AllSent
  · exact .inr (.inl hsent)
  · obtain ⟨s, hs, hhalf⟩ : ∃ s ∈ v.sinks, s.signals.half ≠ some .done := by
      simpa [Invocation.AllSent] using hsent
    obtain ⟨o, ho⟩ := Option.isSome_iff_exists.mp (List.all_eq_true.mp hdone s hs)
    rcases (h.kept s hs).of_seen (hcandid s hs) ho with hsent | halarm | ⟨e, rfl, hc, ht⟩
    · exact absurd hsent hhalf
    · exact .inl halarm
    · refine .inr (.inr ⟨e, List.mem_filterMap.mpr ⟨s, hs, ?_⟩, hc, ht⟩)
      rw [ho]
      rfl

/-- The sinks of the invocation go on, and the errors that they meet are announced. -/
theorem goOn {sinks : List Sink} {errors : List SinkError} (h : Vouched warned i l v)
    (hgo : Sink.AllGoOn l.now v.sinks sinks errors)
    (hhere : m.invocation? i = some (v.withSinks sinks)) (hpending : m.pending = l.pending)
    (hlog : l.log <+: m.log) (halarmed : errors ≠ [] → m.Alarmed i) :
    Vouched warned i m (v.withSinks sinks) := by
  have hkept : ∀ s ∈ v.sinks, s.Kept v.stream.next (m.Alarmed i) :=
    fun s hs => (h.kept s hs).mono fun halarm => halarm.mono hlog
  refine ⟨hhere, h.closed, ?_, ?_⟩
  · exact hgo.keeps (fun hs hstir htold => hs.stirs hstir htold) halarmed hkept
  · rcases h.answer with hanswer | ⟨hp, hcandid⟩
    · refine .inl (hanswer.imp_right (Or.imp (fun halarm => halarm.mono hlog) ?_))
      intro hsent t ht
      obtain ⟨s, hs, hst⟩ := forall₂_exists_left hgo.onward ht
      exact hst.signals.half _ (hsent s hs)
    · have hboth : ∀ t ∈ sinks, t.Kept v.stream.next (m.Alarmed i) ∧ t.Candid := by
        refine hgo.keeps ?_ halarmed fun s hs => ⟨hkept s hs, hcandid s hs⟩
        exact fun hs hstir htold => ⟨hs.1.stirs hstir htold, hs.2.stirs hs.1 hstir⟩
      exact .inr ⟨hpending.trans hp, fun t ht => (hboth t ht).2⟩

theorem deed (h : Vouched warned i l v) (d : StreamDeed) :
    Vouched warned i (l.updateStream i (d.apply · l.now))
      { v with stream := d.apply v.stream l.now } := by
  obtain ⟨hsinks, hnext, hclosed⟩ := h.kept.deed h.closed d l.now
  refine ⟨invocation?_update_self h.here _, hclosed, ?_, ?_⟩
  · intro k hk
    rw [hnext]
    exact h.kept k (hsinks ▸ hk)
  · rcases h.answer with hanswer | ⟨hp, hcandid⟩
    · refine .inl (hanswer.imp_right (Or.imp_right fun hsent => ?_))
      intro s hs
      rw [Invocation.sinks, hsinks] at hs
      exact hsent s hs
    · refine .inr ⟨hp, fun s hs => ?_⟩
      rw [Invocation.sinks, hsinks] at hs
      exact hcandid s hs

/-- The drain of the invocation announces what has failed, unless everything has been sent. -/
theorem drain (h : Vouched warned i l v) : Vouched warned i (l.settleDrain i) v := by
  have hhere : (l.settleDrain i).invocation? i = l.invocation? i :=
    congrArg (·[i]?) (invocations_settleDrain l i)
  have hlog := log_settleDrain l i
  rcases h.answer with hanswer | ⟨hp, hcandid⟩
  · exact h.answered hhere hlog (hanswer.imp_right (Or.imp_left fun halarm => halarm.mono hlog))
  · cases hdone : v.allDone with
    | false =>
      have hsame : l.settleDrain i = l := by simp [settleDrain, h.here, hdone]
      rw [hsame]
      exact h
    | true =>
      have hend : l.settleDrain i = l.endDrain i v := by simp [settleDrain, h.here, hdone]
      rcases h.of_allDone hcandid hdone with halarm | hsent | ⟨e, he, hc, ht⟩
      · exact h.answered hhere hlog (.inr (.inl (halarm.mono hlog)))
      · exact h.answered hhere hlog (.inr (.inr hsent))
      · refine h.answered hhere hlog (.inr (.inl ?_))
        rw [hend]
        exact alarmed_endDrain hp he hc ht

/-- So does the wait at its end, which is not silent about anything. -/
theorem finish (h : Vouched warned i l v) (start deadline : Nat) (noticed : List Bool)
    (longest nextWord : Nat) :
    Vouched warned i (l.check (.finish i start deadline noticed longest nextWord)).1 v := by
  have hlog := log_check l (.finish i start deadline noticed longest nextWord)
  have hhere : (l.check (.finish i start deadline noticed longest nextWord)).1.invocation? i =
      l.invocation? i := congrArg (·[i]?) (invocations_check_finish start deadline noticed longest nextWord l i)
  rcases h.answer with hanswer | ⟨hp, hcandid⟩
  · exact h.answered hhere hlog (hanswer.imp_right (Or.imp_left fun halarm => halarm.mono hlog))
  · have hnotice := says_noticeClosed l i v noticed
    cases hdone : v.allDone with
    | true =>
      rcases h.of_allDone hcandid hdone with halarm | hsent | ⟨e, he, -, ht⟩
      · exact h.answered hhere hlog (.inr (.inl (halarm.mono hlog)))
      · exact h.answered hhere hlog (.inr (.inr hsent))
      · refine h.answered hhere hlog (.inr (.inl ?_))
        simp only [check, h.here, hdone, if_true]
        refine (alarmed_closeWarnings he ht (l.noticeClosed i v noticed)).mono ?_
        rw [log_leaveClosing]
        exact (says_note _ _ _).log
    | false =>
      by_cases hdue : deadline ≤ l.now
      · refine h.answered hhere hlog (.inr (.inl ?_))
        have hdue' : deadline ≤ (l.noticeClosed i v noticed).now := by
          rw [(quiet_noticeClosed l i v noticed).now]
          exact hdue
        simp only [check, h.here, hdone, if_pos hdue', Bool.false_eq_true, if_false]
        refine (alarmed_warning (l.noticeClosed i v noticed) i (capReached (deadline - start))).mono ?_
        rw [log_leaveClosing]
        exact (says_note _ _ _).log
      · rw [check_finish_waiting start deadline noticed longest nextWord h.here (by simp [hdone])
          (Nat.not_le.mp hdue)]
        exact h.posted hnotice

/-- The wait before the next invocation gives the uploads up, and says so to the newcomer unless they
have been sent or somebody else has spoken. -/
theorem endReconcile {warning : Option String} {n : Nat} (h : Vouched warned i l v)
    (hwarned : warned → (l.endReconcile i warning).WarnedSince n) (hn : n ≤ l.log.length)
    (hsilent : warning = none → v.Succeeded) :
    ∃ w, Vouched ((l.endReconcile i warning).WarnedSince n) i (l.endReconcile i warning) w := by
  have hlog := log_endReconcile l i warning
  have hanswer : (l.endReconcile i warning).WarnedSince n ∨ l.Alarmed i ∨ v.AllSent := by
    rcases h.answer with hanswer | ⟨hp, hcandid⟩
    · exact hanswer.imp_left hwarned
    · cases warning with
      | some text => exact .inl (warnedSince_endReconcile hp text hn)
      | none =>
        refine .inr (.inr fun s hs => ?_)
        have hseen := hsilent rfl s hs
        unfold Sink.awaited at hseen
        split at hseen
        · exact (hcandid s hs).half hseen
        · exact (h.kept s hs).half_of_seen (hcandid s hs) hseen
  refine ⟨_, invocation?_endReconcile_self h.here warning, h.closed, ?_, .inl ?_⟩
  · intro t ht
    obtain ⟨s, hs, outside, rfl⟩ := mem_overSinks ht
    exact ((h.kept s hs).giveUp outside).mono fun halarm => halarm.mono hlog
  · refine hanswer.imp_right (Or.imp (fun halarm => halarm.mono hlog) fun hsent t ht => ?_)
    obtain ⟨s, hs, outside, rfl⟩ := mem_overSinks ht
    exact (s.onward_giveUp outside).signals.half _ (hsent s hs)

end Vouched

/-! ### One thing after the other

The lemmas are put together along the steps of a run, in which other invocations have their turns as
well. -/

section Steps

variable {warned : Prop}

/-- Nothing that stirs takes the answer away: a sink that fails meanwhile alarms its invocation. -/
theorem Stirs.vouched (hs : l.Stirs m) (h : Vouched warned i l v) : ∃ w, Vouched warned i m w := by
  have hlog := hs.log
  cases hs with
  | @sinks j u sinks errors outside hu hgo =>
    have hsaid := says_sayErrors ({ l.update j (·.withSinks sinks) with outside := outside })
      (.invocation j) errors
    by_cases hij : j = i
    · subst hij
      cases hu.symm.trans h.here
      refine ⟨_, h.goOn hgo ?_ hsaid.pending hlog (alarmed_sayErrors _ j)⟩
      rw [hsaid.invocation?]
      exact invocation?_update_self hu _
    · refine ⟨v, h.keeps ?_ (fun hp => hsaid.pending.trans hp) hlog⟩
      rw [hsaid.invocation?]
      exact (invocation?_update l j _ i).trans (if_neg hij)
  | strays strays outside errors =>
    have hsaid := says_sayErrors ({ l with strays := strays, outside := outside }) .newcomer errors
    exact ⟨v, h.keeps (hsaid.invocation? i) (fun hp => hsaid.pending.trans hp) hlog⟩
  | deed j d =>
    by_cases hij : j = i
    · subst hij
      exact ⟨_, h.deed d⟩
    · refine ⟨v, h.keeps ?_ (fun hp => hp) hlog⟩
      exact (invocation?_update l j _ i).trans (if_neg hij)
  | @drain j hj =>
    by_cases hij : j = i
    · subst hij
      exact ⟨v, h.drain⟩
    · refine ⟨v, h.keeps ?_ (fun hp => ?_) hlog⟩
      · exact congrArg (·[i]?) (invocations_settleDrain l j)
      · exact pending_settleDrain hij hp
  | time hle => exact ⟨v, h.keeps rfl (fun hp => hp) hlog⟩
  | limits limits => exact ⟨v, h.keeps rfl (fun hp => hp) hlog⟩

theorem Vouched.check_finish (h : Vouched warned i l v) (j start deadline : Nat)
    (noticed : List Bool) (longest nextWord : Nat) :
    Vouched warned i (l.check (.finish j start deadline noticed longest nextWord)).1 v := by
  by_cases hij : j = i
  · subst hij
    exact h.finish start deadline noticed longest nextWord
  · refine h.keeps ?_ (fun hp => ?_) (log_check l _)
    · exact congrArg (·[i]?) (invocations_check_finish start deadline noticed longest nextWord l j)
    · exact pending_check_finish hij hp start deadline noticed longest nextWord

/-- A wait before the next invocation may be for these uploads or for others; only in the first case
does it answer for them. -/
theorem Vouched.check_reconcile {n : Nat} (h : Vouched (l.WarnedSince n) i l v)
    (hn : n ≤ l.log.length) (j grace deadline : Nat) :
    ∃ w, Vouched ((l.check (.reconcile j grace deadline)).1.WarnedSince n) i
      (l.check (.reconcile j grace deadline)).1 w := by
  cases hu : l.invocation? j with
  | none =>
    simp only [check, hu]
    exact ⟨v, h⟩
  | some u =>
    rw [Lifecycle.check_reconcile hu]
    cases hverdict : l.reconcileVerdict? u grace deadline with
    | none => exact ⟨v, h⟩
    | some warning =>
      have hlog := log_endReconcile l j warning
      by_cases hij : j = i
      · subst hij
        cases hu.symm.trans h.here
        refine h.endReconcile (fun hw => hw.mono hlog) hn fun hnone => ?_
        rw [hnone] at hverdict
        exact succeeded_of_verdict hverdict
      · refine ⟨v, (h.keeps (invocation?_endReconcile_of_ne hij warning) (fun hp => ?_) hlog).warn
          fun hw => hw.mono hlog⟩
        rw [(quiet_endReconcile l j warning).pending, retire_pending, if_neg]
        · exact hp
        · rw [hp]
          exact fun heq => hij (Option.some.inj heq).symm

end Steps

/-! ### Where it begins

An invocation is vouched for when it has been published: its uploads are pending, and nothing has been
seen of them yet. -/

theorem log_ended (l : Lifecycle) (i : Nat) (mode : UploadMode) : l.log <+: (l.ended i mode).log :=
  (says_noteOpen { l with phase := .closing, active := none } i none).log

/-- When an invocation has just ended its uploads are pending, and nothing is hidden. -/
theorem vouched_ended (hv : l.invocation? i = some v) (h : v.stream.Running (l.Alarmed i))
    (mode : UploadMode) : ∃ w, Vouched False i (l.ended i mode) w := by
  have hclosed : (v.stream.close l.now (some .internal)).Running (l.Alarmed i) :=
    h.deed (.close (some .internal)) l.now
  refine ⟨_, invocation?_ended hv mode, v.stream.closed_close l.now _, ?_, .inr ⟨rfl, ?_⟩⟩
  · intro k hk
    obtain ⟨s, hs, rfl⟩ := List.mem_map.mp hk
    refine (Sink.Kept.startWatch (hclosed.sinks s hs).kept).mono fun halarm => ?_
    exact halarm.mono (log_ended l i mode)
  · intro k hk
    obtain ⟨s, hs, rfl⟩ := List.mem_map.mp hk
    have hrunning := hclosed.sinks s hs
    exact (Sink.Candid.fresh hrunning.1 hrunning.isCancelled).startWatch hrunning.isCancelled

/-- The same when the call that has ended it is answered or waits. -/
theorem vouched_finish (hp : l.phase = .active) (ha : l.active = some i)
    (hv : l.invocation? i = some v) (h : v.stream.Running (l.Alarmed i)) (mode : UploadMode) :
    ∃ w, Vouched False i (l.finish mode).1 w := by
  obtain ⟨w, hw⟩ := vouched_ended hv h mode
  rcases finish_cases hp ha mode hw.here with
    ⟨start, deadline, noticed, longest, nextWord, heq⟩ | ⟨m, n, a, hm, hn, heq⟩
  · rw [heq]
    exact ⟨w, hw.finish start deadline noticed longest nextWord⟩
  · rw [heq]
    have hdrains : Vouched False i { m with drains := m.drains ++ [i] } w :=
      (hw.posted hm).keeps rfl (fun hp => hp) (List.prefix_refl _)
    refine ⟨w, (hdrains.posted hn).keeps ?_ (fun hp => ?_) ?_⟩
    · exact congrArg (·[i]?) (invocations_leaveClosing n)
    · exact (pending_leaveClosing n).trans hp
    · exact (log_leaveClosing n).symm ▸ List.prefix_refl n.log

/-- When the next invocation is asked for, it is warned or goes on waiting. -/
theorem vouched_before (hp : l.phase = .idle) (h : Vouched False i l v) :
    l.before.1.phase = .waitingPrevious ∧ l.log <+: l.before.1.log ∧
      ∃ w, Vouched (l.before.1.WarnedSince l.log.length) i l.before.1 w := by
  have hkept : Vouched False i (l.inPhase .waitingPrevious) v :=
    h.keeps rfl (fun hp => hp) (List.prefix_refl _)
  have hnow : Vouched ((l.inPhase .waitingPrevious).WarnedSince l.log.length) i
      (l.inPhase .waitingPrevious) v := hkept.warn False.elim
  rcases before_cases hp with heq | ⟨j, grace, deadline, heq⟩
  · rw [heq]
    exact ⟨rfl, List.prefix_refl _, v, hnow⟩
  · rw [heq]
    have hphase := (looks_check (l.inPhase .waitingPrevious) (.reconcile j grace deadline)).phase
      fun ending => by simp [Call.role]
    refine ⟨hphase.resolve_right fun hc => absurd hc.1 (by simp [inPhase]), ?_, ?_⟩
    · exact log_check (l.inPhase .waitingPrevious) _
    · exact hnow.check_reconcile (Nat.le_refl _) j grace deadline

end Lifecycle

end EventUpload
