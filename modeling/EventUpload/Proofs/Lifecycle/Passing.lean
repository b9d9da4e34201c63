import EventUpload.Proofs.Lifecycle.Await
import EventUpload.Proofs.Lifecycle.SettledRuns
import EventUpload.Proofs.Lifecycle.Undisturbed

/-!
# While the host makes no call

As long as the host makes no call and does nothing to a stream, sinks go on by themselves and may be
given up, uploads may be retired, and the end of a wait may leave a phase. Nothing is published and
nothing is handed to any sink. `Lifecycle.Passes` says so; whatever happens within an instant and from
one instant to the next is of this kind, whoever is waiting.

For the end of the process this is the second half of what has to be said. The first is what the call
itself does at once, closing the active invocation; the second is that from then on no sink is asked for
anything (`Sink.Unasked`), whoever else is waiting and for however long. The relation is stated for
every sink by itself, as a chain of steps, since sinks share nothing but the outside and that is not
looked at.

`Passes` is coarser than `Idles`: it has no calls in it. So it can be put together from the parts of an
instant, each with its own lemma, and is the same whether time passes by looking or by waiting
(`passes_arrival`). What it keeps of the phase is just enough to know that a crash stays one.
-/

set_option autoImplicit false

namespace EventUpload

open List (Forall₂)
open Relation (ReflTransGen)

/-! ## Sinks that are asked for nothing

A sink that goes on by itself and one that is given up are the two things that can befall a sink without
a deed of its stream. The chain is for each sink by itself; how the chains of different sinks lie in
time is not kept. -/

/-- What befalls a sink that is asked for nothing: it goes on by itself, or is given up. -/
inductive Sink.Unasked (s : Sink) : Sink → Prop where
  | goesOn {now : Nat} {t : Sink} {errors : List SinkError} : Sink.GoesOn now s t errors → Unasked s t
  | givenUp (outside : Outside) : Unasked s (s.giveUp outside).1

theorem Sink.Unasked.onward {s t : Sink} (h : s.Unasked t) : s.Onward t := by
  cases h with
  | goesOn hgo => exact hgo.onward
  | givenUp outside => exact s.onward_giveUp outside

theorem Sink.onward_of_unasked {s t : Sink} (h : ReflTransGen Unasked s t) : s.Onward t := by
  induction h with
  | refl => exact .refl s
  | tail _ hs ih => exact ih.trans hs.onward

/-- All that has become of an invocation is what its sinks have come to, which were asked for nothing. -/
def Invocation.Unasked (v w : Invocation) : Prop :=
  ∃ sinks, w = v.withSinks sinks ∧ Forall₂ (ReflTransGen Sink.Unasked) v.sinks sinks

namespace Invocation.Unasked

variable {u v w : Invocation}

theorem of_sinks {sinks : List Sink} (h : Forall₂ Sink.Unasked v.sinks sinks) :
    v.Unasked (v.withSinks sinks) := ⟨sinks, rfl, h.imp fun _ _ hs => .single hs⟩

theorem refl (v : Invocation) : v.Unasked v :=
  ⟨v.sinks, rfl, List.forall₂_same.mpr fun _ _ => .refl⟩

theorem trans (h : u.Unasked v) (k : v.Unasked w) : u.Unasked w := by
  obtain ⟨ss, rfl, hs⟩ := h
  obtain ⟨ts, rfl, ht⟩ := k
  exact ⟨ts, rfl, forall₂_trans hs ht .trans⟩

theorem onward (h : v.Unasked w) : v.Onward w := by
  obtain ⟨sinks, rfl, hs⟩ := h
  exact onward_withSinks (hs.imp fun _ _ => Sink.onward_of_unasked)

theorem sinks_eq_nil (h : v.Unasked w) (hv : v.sinks = []) : w.sinks = [] := by
  obtain ⟨sinks, rfl, hs⟩ := h
  rw [hv] at hs
  cases hs
  rfl

end Invocation.Unasked

namespace Lifecycle

variable {l m n : Lifecycle} {i : Nat} {v : Invocation}

/-- Time may have passed and waits may have ended, but nobody has made a call. -/
structure Passes (l m : Lifecycle) : Prop where
  active : m.active = l.active
  pending : m.pending = l.pending ∨ m.pending = none
  phase : m.phase = l.phase ∨ l.phase ≠ .crashed ∧ m.phase = .idle
  invocations : Forall₂ Invocation.Unasked l.invocations m.invocations

namespace Passes

theorem refl (l : Lifecycle) : l.Passes l :=
  ⟨rfl, .inl rfl, .inl rfl, List.forall₂_same.mpr fun v _ => .refl v⟩

theorem trans (h : l.Passes m) (k : m.Passes n) : l.Passes n where
  active := k.active.trans h.active
  pending := by
    rcases k.pending with hk | hk
    · rw [hk]
      exact h.pending
    · exact .inr hk
  phase := by
    rcases k.phase with hk | ⟨hne, hk⟩
    · rw [hk]
      exact h.phase
    · refine .inr ⟨fun hl => ?_, hk⟩
      rcases h.phase with hm | ⟨hnot, -⟩
      · exact hne (hm.trans hl)
      · exact hnot hl
  invocations := forall₂_trans h.invocations k.invocations .trans

theorem foldl {α : Type} {f : Lifecycle → α → Lifecycle} (h : ∀ (l : Lifecycle) a, l.Passes (f l a))
    (as : List α) (l : Lifecycle) : l.Passes (as.foldl f l) := foldl_related refl trans h as l

theorem of_posts (h : l.Says m) : l.Passes m := by
  obtain ⟨posts, rfl⟩ := h
  exact ⟨rfl, .inl rfl, .inl rfl, (refl l).invocations⟩

/-- What is beside the uploads does not matter. -/
theorem aside (h : l.Passes m) (now : Nat) (drains : List Nat) (journal : List Move)
    (strays : List Sink) (outside : Outside) :
    l.Passes { m with
      now := now, drains := drains, journal := journal, strays := strays, outside := outside } :=
  ⟨h.active, h.pending, h.phase, h.invocations⟩

theorem invocation? (h : l.Passes m) (hv : l.invocation? i = some v) :
    ∃ w, m.invocation? i = some w ∧ v.Unasked w := forall₂_getElem? h.invocations hv

theorem of_invocation? (h : l.Passes m) {w : Invocation} (hw : m.invocation? i = some w) :
    ∃ v, l.invocation? i = some v ∧ v.Unasked w := forall₂_getElem? h.invocations.flip hw

theorem crashed (h : l.Passes m) (hl : l.phase = .crashed) : m.phase = .crashed := by
  rcases h.phase with hm | ⟨hne, -⟩
  · exact hm.trans hl
  · exact absurd hl hne

theorem not_crashed (h : l.Passes m) (hl : l.phase ≠ .crashed) : m.phase ≠ .crashed := by
  rcases h.phase with hm | ⟨-, hm⟩
  · rwa [hm]
  · rw [hm]
    simp

theorem idle (h : l.Passes m) (hl : l.phase = .idle) : m.phase = .idle := by
  rcases h.phase with hm | ⟨-, hm⟩
  · exact hm.trans hl
  · exact hm

theorem outstanding?_eq_none (h : l.Passes m) (hl : l.outstanding? = none) : m.outstanding? = none := by
  refine Lifecycle.outstanding?_eq_none.mpr fun i hi w hw => ?_
  obtain ⟨v, hv, hvw⟩ := h.of_invocation? hw
  rcases h.pending with hp | hp
  · exact hvw.sinks_eq_nil (Lifecycle.outstanding?_eq_none.mp hl i (hp.symm.trans hi) v hv)
  · exact absurd (hp.symm.trans hi) (by simp)

end Passes

/-! ## What happens at an instant

Settling an instant is a row of small changes, and each of them is compared with what was there before
it. Only `passes_giveUp` and `passes_settleInvocation` do anything to sinks. -/

/-- The sinks of an invocation are changed, without being asked for anything. -/
theorem passes_update {f : Invocation → Invocation}
    (h : ∀ v, l.invocation? i = some v → v.Unasked (f v)) : l.Passes (l.update i f) :=
  ⟨rfl, .inl rfl, .inl rfl, forall₂_modify .refl l.invocations i h⟩

theorem passes_giveUp (l : Lifecycle) (i : Nat) : l.Passes (l.giveUp i) := by
  cases hv : l.invocation? i with
  | none =>
    unfold giveUp
    simp only [hv]
    exact .refl l
  | some v =>
    unfold giveUp
    simp only [hv]
    have hupdate : l.Passes (l.update i (·.withSinks (overSinks Sink.giveUp v.sinks l.outside).1)) :=
      passes_update fun w hw => by
        cases hv.symm.trans hw
        exact .of_sinks (forall₂_overSinks (fun _ _ => .givenUp) l.outside)
    exact hupdate.aside l.now l.drains l.journal l.strays _

theorem passes_retire (l : Lifecycle) (i : Nat) (who : Retirer) (cancel : Bool) :
    l.Passes (l.retire i who cancel) := by
  have hretired : l.Passes (l.retire i who false) := by
    refine ⟨rfl, ?_, .inl rfl, (Passes.refl l).invocations⟩
    rw [retire_pending]
    split
    · exact .inr rfl
    · exact .inl rfl
  cases cancel with
  | false => exact hretired
  | true => exact hretired.trans (passes_giveUp (l.retire i who false) i)

theorem passes_leaveClosing (l : Lifecycle) : l.Passes l.leaveClosing := by
  unfold leaveClosing
  split
  · next hp => exact ⟨rfl, .inl rfl, .inr ⟨by simp [hp], rfl⟩, (Passes.refl l).invocations⟩
  · exact .refl l

theorem passes_settleInvocation (l : Lifecycle) (i : Nat) : l.Passes (l.settleInvocation i) := by
  cases hv : l.invocation? i with
  | none =>
    rw [settleInvocation_of_none hv]
    exact .refl l
  | some v =>
    have hall {ss ts : List Sink} {errors : List SinkError} (h : Sink.AllGoOn l.now ss ts errors) :
        Forall₂ Sink.Unasked ss ts := by
      induction h with
      | nil => exact .nil
      | cons hgo _ ih => exact .cons (.goesOn hgo) ih
    have hgo := hall (allGoOn_settleSinks v.sinks l.outside)
    rw [settleInvocation_of_some hv]
    refine Passes.trans ?_ (.of_posts (says_sayErrors _ _ _))
    have hupdate : l.Passes
        (l.update i (·.withSinks (settleSinks l.now v.sinks l.outside).1)) :=
      passes_update fun w hw => by
        cases hv.symm.trans hw
        exact .of_sinks hgo
    exact hupdate.aside l.now l.drains l.journal l.strays _

theorem passes_settleDrain (l : Lifecycle) (i : Nat) : l.Passes (l.settleDrain i) := by
  unfold settleDrain
  split
  · split
    · refine Passes.trans ?_ (.of_posts (says_endDrain l i _))
      exact ((Passes.refl l).aside l.now (l.drains.filter (· ≠ i)) l.journal l.strays
        l.outside).trans (passes_retire _ i .drain false)
    · exact .refl l
  · exact .refl l

/-- Who is active does not change by itself. -/
theorem Drift.active (h : l.Drift m) : m.active = l.active := by
  cases h with
  | quiet hq => exact hq.active
  | drain _ => exact (passes_settleDrain l _).active
  | time _ => rfl
  | limits _ => rfl

theorem passes_afterSinks (l : Lifecycle) : l.Passes l.afterSinks := by
  rw [afterSinks, settleStrays_eq]
  have hinvocations := Passes.foldl passes_settleInvocation (List.range l.invocations.length) l
  exact (hinvocations.aside _ _ _ _ _).trans (.of_posts (says_sayErrors _ _ _))

theorem passes_settle (l : Lifecycle) : l.Passes l.settle := by
  rw [settle_eq]
  exact (passes_afterSinks l).trans (Passes.foldl passes_settleDrain _ _)

/-! ## Looking at calls

A look at a call may post messages, retire uploads and leave a phase. That it may leave the phase is the
reason for the disjunction in `Passes.phase`: the call at the end of an invocation goes from closing to
idle, and the one at the end of the process from whatever it was. -/

theorem passes_endSettle (l : Lifecycle) (i : Nat) (ending : Ending) :
    l.Passes (l.endSettle i ending) := by
  refine (passes_retire l i .ending true).trans ?_
  unfold endSettle
  dsimp only
  split
  · next hshutdown =>
    have hne : (l.retire i .ending true).phase ≠ .crashed := by
      simpa using (Bool.and_eq_true_iff.mp hshutdown).2
    exact ⟨rfl, .inl rfl, .inr ⟨hne, rfl⟩, (Passes.refl _).invocations⟩
  · exact .refl _

/-- Looking at a call asks no sink for anything, even if it gives the uploads up. -/
theorem passes_check (l : Lifecycle) (call : Call) : l.Passes (l.check call).1 := by
  cases call with
  | reconcile i grace deadline =>
    simp only [check]
    split
    · exact .refl l
    · split
      · exact (passes_retire l i .newcomer true).trans (.of_posts (says_endReconcile l i _))
      · exact .refl l
  | finish i start deadline noticed longest nextWord =>
    simp only [check]
    split
    · exact passes_leaveClosing l
    · next v _ =>
      have hnotice : l.Passes (l.noticeClosed i v noticed) := .of_posts (says_noticeClosed l i v noticed)
      split
      · have hsaid := says_sayAll (l.noticeClosed i v noticed) (.invocation i) .warning
          (closeWarnings v.errors)
        refine (hnotice.trans (.of_posts hsaid)).trans ((passes_retire _ i .wait false).trans ?_)
        exact (Passes.of_posts (says_note _ _ _)).trans (passes_leaveClosing _)
      · split
        · have hsaid := says_say (l.noticeClosed i v noticed) (.invocation i) .warning
            (capReached (deadline - start))
          refine (hnotice.trans (.of_posts hsaid)).trans ?_
          exact (Passes.of_posts (says_note _ _ _)).trans (passes_leaveClosing _)
        · exact hnotice
  | settle i grace deadline ending =>
    simp only [check]
    split
    · exact passes_endSettle l i ending
    · split
      · exact (Passes.of_posts (says_noteSettled _ _ _ _ _)).trans (passes_endSettle _ i ending)
      · exact .refl l

/-- The wait at the end of the process goes on, or is over. -/
theorem check_settle_cases (l : Lifecycle) (i grace deadline : Nat) (ending : Ending) :
    l.check (.settle i grace deadline ending) = (l, .waiting (.settle i grace deadline ending)) ∨
      (l.check (.settle i grace deadline ending)).2 = .answered .ok ∧
        ¬ l.HasToWait (.settle i grace deadline ending) := by
  cases hv : l.invocation? i with
  | none =>
    refine .inr ⟨by simp only [check, hv], ?_⟩
    rintro ⟨v, hv', -⟩
    exact absurd (hv.symm.trans hv') (by simp)
  | some v =>
    by_cases hover : (v.allDone || decide (deadline ≤ l.now)) = true
    · refine .inr ⟨by simp only [check, hv, if_pos hover], ?_⟩
      rintro ⟨w, hw, hdone, hlt⟩
      cases hv.symm.trans hw
      simp [hdone, Nat.not_le.mpr hlt] at hover
    · exact .inl (by simp only [check, hv, if_neg hover])

end Lifecycle

namespace Run

open Lifecycle

theorem passes_after (l : Lifecycle) (progress : Progress) (patience : Option Nat) :
    l.Passes (after l progress patience).1 := by
  cases progress with
  | answered a => exact .refl l
  | waiting call =>
    show l.Passes (giveUp l call patience).1
    unfold giveUp
    split
    · cases call with
      | finish i start deadline noticed longest nextWord => exact passes_leaveClosing l
      | reconcile i grace deadline => exact .refl l
      | settle i grace deadline ending => exact .refl l
    · exact .refl l

theorem passes_look (l : Lifecycle) (call : Call) (patience : Option Nat) :
    l.Passes (after (l.check call).1 (l.check call).2 patience).1 :=
  (passes_check l call).trans (passes_after _ _ _)

theorem passes_checkCalls (calls : List Pending) (l : Lifecycle) :
    l.Passes (checkCalls l calls).1 := by
  induction calls generalizing l with
  | nil => exact .refl l
  | cons p rest ih =>
    cases p with
    | finished reply => exact ih l
    | waiting call patience =>
      rw [checkCalls_waiting]
      exact (passes_look l call patience).trans (ih _)

theorem passes_settleRounds (rounds : Nat) (r : Run) :
    r.lifecycle.Passes (settleRounds rounds r).lifecycle := by
  induction rounds generalizing r with
  | zero => exact passes_settle r.lifecycle
  | succ rounds ih =>
    have hnext := (passes_settle r.lifecycle).trans (passes_checkCalls r.calls _)
    unfold settleRounds
    dsimp only
    split
    · exact hnext.trans (ih ⟨_, _⟩)
    · exact hnext

/-- The rest of an instant, after its calls have been looked at once. -/
theorem passes_round (r : Run) :
    (checkCalls r.lifecycle.settle r.calls).1.Passes r.settle.lifecycle := by
  unfold settle settleRounds
  dsimp only
  split
  · exact passes_settleRounds _ ⟨_, _⟩
  · exact .refl _

theorem passes_leaveInstant (r : Run) : r.lifecycle.Passes r.leaveInstant.lifecycle := by
  have hcalls (calls : List Pending) (l : Lifecycle) : l.Passes (endInstant l calls).1 := by
    induction calls generalizing l with
    | nil => exact .refl l
    | cons p rest ih =>
      cases p with
      | finished reply => exact ih l
      | waiting call patience => exact (Passes.of_posts (says_endInstant l call)).trans (ih _)
  exact hcalls r.calls r.lifecycle

/-- **From one instant to another** only time passes. -/
theorem passes_arrival (r : Run) (d : Nat) : r.lifecycle.Passes (r.arrival d).lifecycle := by
  induction d with
  | zero => exact .refl _
  | succ d ih =>
    by_cases h : (r.arrival d).next? = some (r.lifecycle.now + (d + 1))
    · rw [arrival_of_next h]
      have hleft := (passes_settleRounds _ (r.arrival d)).trans
        (passes_leaveInstant (r.arrival d).settle)
      exact ih.trans (hleft.aside _ _ _ _ _)
    · rw [arrival_of_not_next h]
      exact ih

end Run

end EventUpload
