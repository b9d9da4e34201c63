import EventUpload.Proofs.Lifecycle.Genuine
import EventUpload.Proofs.Lifecycle.Passing

/-!
# What looking at calls does to sinks

Looking at calls does one thing to the sinks of an invocation: it may give them up, all of them or none.
So the outcome of a sink after all calls of an instant have been looked at is the one that it had
before, or it had none and has been cancelled (`sheds_checkCalls`). If all sinks are over then, their
outcomes can be told from how they stood before (`Sheds.outcomes`).

What one looks at here are outcomes as others see them, through the watch of a sink: of a sink whose
bound has passed that is the timeout, whatever its signal comes to later, and reports are made of these.

`Shed` composes because being given up twice is the same as being given up once: an outcome, once it is
there, is not replaced. So nothing has to be known about how many calls have given a sink up, or in
which order, and in an instant several may.
-/

set_option autoImplicit false

namespace EventUpload

open List (Forall₂)

/-- A sink is as it was for everybody who looks at it, or was given up. -/
def Sink.Shed (s t : Sink) : Prop :=
  t.name = s.name ∧ (t.seen.done = s.seen.done ∨
    t.seen.done = s.seen.done.resolve (.failed (.cancelled s.name)))

namespace Sink.Shed

variable {s t u : Sink}

theorem refl (s : Sink) : s.Shed s := ⟨rfl, .inl rfl⟩

theorem trans (h : s.Shed t) (k : t.Shed u) : s.Shed u := by
  obtain ⟨hname, hdone⟩ := h
  obtain ⟨kname, kdone⟩ := k
  rw [hname] at kdone
  refine ⟨kname.trans hname, ?_⟩
  rcases hdone with hdone | hdone
  · rwa [hdone] at kdone
  · -- Whoever has been given up once has an outcome.
    obtain ⟨o, ho⟩ := Option.isSome_iff_exists.mp (Signal.isSome_resolve s.seen.done
      (.failed (.cancelled s.name)))
    rw [hdone, ho] at kdone
    rw [ho]
    exact .inr (kdone.elim id id)

theorem giveUp (h : s.Sound) (outside : Outside) : s.Shed (s.giveUp outside).1 := by
  have hshape := (s.onward_giveUp outside).shape
  exact ⟨congrArg (·.1) hshape, .inr (h.seen_giveUp outside)⟩

/-- A sink that is over now is over as it was, or cancelled. -/
theorem done_eq (h : s.Shed t) (ht : t.seen.done.isSome = true) :
    t.seen.done = s.seen.done.resolve (.failed (.cancelled s.name)) := by
  rcases h.2 with hsame | hgiven
  · obtain ⟨o, ho⟩ := Option.isSome_iff_exists.mp ht
    rw [← hsame, ho]
    rfl
  · exact hgiven

end Sink.Shed

/-- Some sinks of an invocation may have been given up. -/
def Invocation.Shed (v w : Invocation) : Prop := Forall₂ Sink.Shed v.sinks w.sinks

theorem Invocation.Shed.refl (v : Invocation) : v.Shed v := List.forall₂_same.mpr fun s _ => .refl s

/-- An invocation that is over has the outcomes that it will have. -/
theorem Invocation.Onward.outcomes {v w : Invocation} (h : v.Onward w) (hv : v.allDone = true) :
    w.outcomes = v.outcomes := by
  have hsinks := h.sinks
  have hdone := List.all_eq_true.mp hv
  rw [Invocation.outcomes, Invocation.outcomes]
  generalize v.sinks = ss at hsinks hdone
  generalize w.sinks = ts at hsinks
  induction hsinks with
  | nil => rfl
  | @cons s t ss ts hst _ ih =>
    obtain ⟨o, ho⟩ := Option.isSome_iff_exists.mp (hdone s (by simp))
    have hname : t.name = s.name := congrArg (·.1) hst.shape
    rw [List.map_cons, List.map_cons, ih fun s hs => hdone s (List.mem_cons_of_mem _ hs), hname, ho,
      hst.seen.done o ho]

namespace Lifecycle

variable {l m n : Lifecycle} {i : Nat} {v w : Invocation}

/-- Some sinks may have been given up, and nothing else has been done to any sink. -/
structure Sheds (l m : Lifecycle) : Prop where
  sound : m.Sound
  invocations : Forall₂ Invocation.Shed l.invocations m.invocations

theorem sheds_refl (hl : l.Sound) : l.Sheds l := ⟨hl, List.forall₂_same.mpr fun v _ => .refl v⟩

namespace Sheds

theorem trans (h : l.Sheds m) (k : m.Sheds n) : l.Sheds n :=
  ⟨k.sound, forall₂_trans h.invocations k.invocations fun hv hw => forall₂_trans hv hw .trans⟩

theorem same (h : l.Sheds m) (hn : n.invocations = m.invocations) : l.Sheds n :=
  ⟨h.sound.of_invocations hn, hn ▸ h.invocations⟩

theorem posted (h : l.Sheds m) (hn : m.Says n) : l.Sheds n := by
  obtain ⟨posts, rfl⟩ := hn
  exact h.same rfl

theorem giveUp (h : l.Sheds m) (i : Nat) : l.Sheds (m.giveUp i) := by
  refine h.trans ⟨h.sound.giveUp i, ?_⟩
  cases hv : m.invocation? i with
  | none =>
    rw [giveUp_of_none hv]
    exact (sheds_refl h.sound).invocations
  | some v =>
    rw [giveUp_of_some hv]
    refine forall₂_modify .refl m.invocations i fun u hu => ?_
    cases hv.symm.trans hu
    exact forall₂_overSinks (fun s hs => .giveUp (h.sound i v hv s hs)) m.outside

theorem retire (h : l.Sheds m) (i : Nat) (who : Retirer) : l.Sheds (m.retire i who true) :=
  (h.same (n := m.retire i who false) rfl).giveUp i

/-- **The outcomes of sinks that are all over** are those that they had before, and otherwise they are
cancelled. -/
theorem outcomes (h : l.Sheds m) (hv : l.invocation? i = some v) (hw : m.invocation? i = some w)
    (hdone : w.allDone = true) : w.outcomes = v.sinks.map fun s =>
      (s.name, s.seen.done.resolve (.failed (.cancelled s.name))) := by
  obtain ⟨w', hw', (hsinks : Forall₂ Sink.Shed v.sinks w'.sinks)⟩ :=
    forall₂_getElem? h.invocations hv
  cases hw.symm.trans hw'
  have hall := List.all_eq_true.mp hdone
  rw [Invocation.outcomes]
  generalize v.sinks = ss at hsinks
  generalize w.sinks = ts at hsinks hall
  induction hsinks with
  | nil => rfl
  | @cons s t ss ts hst _ ih =>
    rw [List.map_cons, List.map_cons, ih fun t ht => hall t (List.mem_cons_of_mem _ ht), hst.1,
      hst.done_eq (hall t (by simp))]

end Sheds

/-! ## Looking at calls -/

theorem Sheds.endSettle (h : l.Sheds m) (i : Nat) (ending : Ending) : l.Sheds (m.endSettle i ending) := by
  rw [endSettle_eq]
  exact (h.retire i .ending).same rfl

theorem sheds_check (hl : l.Sound) (call : Call) : l.Sheds (l.check call).1 := by
  have hsame := sheds_refl hl
  cases call with
  | reconcile i grace deadline =>
    simp only [check]
    split
    · exact hsame
    · split
      · exact (hsame.retire i .newcomer).posted (says_endReconcile l i _)
      · exact hsame
  | finish i start deadline noticed longest nextWord =>
    exact hsame.same (invocations_check_finish start deadline noticed longest nextWord l i)
  | settle i grace deadline ending =>
    simp only [check]
    split
    · exact hsame.endSettle i ending
    · split
      · exact (hsame.posted (says_noteSettled l i _ grace ending)).endSettle i ending
      · exact hsame

theorem sheds_settleWithin (hl : l.Sound) (grace : Nat) (ending : Ending) :
    l.Sheds (l.settleWithin grace ending).1 := by
  unfold settleWithin
  split
  · exact sheds_check hl _
  · refine (sheds_refl hl).same ?_
    dsimp only
    split <;> rfl

end Lifecycle

namespace Run

open Lifecycle

theorem invocations_after (l : Lifecycle) (progress : Progress) (patience : Option Nat) :
    (after l progress patience).1.invocations = l.invocations := by
  cases progress with
  | answered a => rfl
  | waiting call =>
    show (giveUp l call patience).1.invocations = l.invocations
    unfold giveUp
    split
    · cases call with
      | finish i start deadline noticed longest nextWord => exact invocations_leaveClosing l
      | reconcile i grace deadline => rfl
      | settle i grace deadline ending => rfl
    · rfl

/-- **When all calls have been looked at** sinks are as they were before, or have been given up. -/
theorem sheds_checkCalls {l : Lifecycle} (hl : l.Sound) (calls : List Pending) :
    l.Sheds (checkCalls l calls).1 := by
  induction calls generalizing l with
  | nil => exact sheds_refl hl
  | cons p rest ih =>
    cases p with
    | finished reply => exact ih hl
    | waiting call patience =>
      rw [checkCalls_waiting]
      have hlook := (sheds_check hl call).same (invocations_after _ (l.check call).2 patience)
      exact hlook.trans (ih hlook.sound)

end Run

end EventUpload
