import EventUpload.Proofs.Lifecycle.Warnings

/-!
# Who retires uploads, and what is said then

A call that waits has an errand: to retire the uploads of an invocation, as one of those who do. What
happens in a run is told here by what it does to uploads, drains, warnings and errands alone. Something
may be prepared (`Prepares`): an invocation starts, uploads are published and somebody answers for them,
a call goes on its errand. Then at most one thing is concluded (`Concludes`): uploads are retired by a
drain or by a call whose errand is over, or the wait for them is cut by its cap.

`Retires` says everything that is known of uploads that somebody has cleared away: what is written in
the journal, who is warned of what, and that the sinks are done. `Retirer.Voices` has the texts. A drain
says nothing if somebody else was first, and for that it looks at the pending place; the wait at the end
of an invocation does not look, because nobody else can have been there.

The cap of a wait is a conclusion of its own and no retirement: the errand is over and one warning is
given, but the uploads stay where they are. All that goes wrong at a cap can be seen in the case
`Concludes.cut`, which has no sinks that are done and no texts of errors.

Here this is shown of looking at a call (`concludes_check`); `Lifecycle/Conclusions` has the rest.
-/

set_option autoImplicit false

namespace EventUpload

open List (Forall₂)
open Relation (ReflTransGen)

/-! ## What is said about uploads

A drain and whoever waits look at the same errors and leave different ones out. Their texts are
functions of the sinks as they are seen, so that they can be compared. -/

/-- Whom somebody tells about uploads that he retires. -/
def Retirer.addressee (index : Nat) : Retirer → Addressee
  | newcomer => .newcomer
  | wait | drain | ending => .invocation index

/-- What the wait at the end of an invocation says about an error. -/
def SinkError.closeWarning? (e : SinkError) : Option String :=
  if e.isTransmission then none else some e.message

/-- What a drain says about an error. -/
def SinkError.drainWarning? (e : SinkError) : Option String :=
  if e.isCancelled || e.isTransmission then none else some e.message

/-- What is said about the outcome of a sink. -/
def Signal.warning? (say : SinkError → Option String) (signal : Signal) : Option String :=
  (signal.bind Outcome.error?).bind say

namespace Invocation

/-- What is said about the outcomes of an invocation: at most one warning for each sink, in order. -/
def warnings (v : Invocation) (say : SinkError → Option String) : List String :=
  v.sinks.filterMap fun s => Signal.warning? say s.seen.done

theorem filterMap_errors (v : Invocation) (say : SinkError → Option String) :
    v.errors.filterMap say = v.warnings say := List.filterMap_filterMap

theorem closeWarnings_errors (v : Invocation) :
    Lifecycle.closeWarnings v.errors = v.warnings SinkError.closeWarning? := by
  rw [← filterMap_errors, Lifecycle.closeWarnings, ← List.filterMap_eq_filter,
    ← List.filterMap_eq_map, List.filterMap_filterMap]
  refine List.filterMap_congr fun e _ => ?_
  cases h : e.isTransmission <;> simp [Option.guard, SinkError.closeWarning?, h]

theorem drainWarnings_errors (v : Invocation) :
    (v.errors.filter (!·.isCancelled)).flatMap (fun e => Lifecycle.closeWarnings [e]) =
      v.warnings SinkError.drainWarning? := by
  rw [← filterMap_errors]
  induction v.errors with
  | nil => rfl
  | cons e errors ih =>
    cases hc : e.isCancelled
    · have hone : Lifecycle.closeWarnings [e] = e.drainWarning?.toList := by
        cases ht : e.isTransmission <;>
          simp [Lifecycle.closeWarnings, SinkError.drainWarning?, hc, ht]
      rw [List.filter_cons_of_pos (by simp [hc]), List.flatMap_cons, ih, hone, List.filterMap_cons]
      cases e.drainWarning? <;> rfl
    · rw [List.filter_cons_of_neg (by simp [hc]), ih,
        List.filterMap_cons_none (by simp [SinkError.drainWarning?, hc])]

end Invocation

/-- What somebody who retires uploads says about them. -/
def Retirer.Voices (l : Lifecycle) (i : Nat) (texts : List String) : Retirer → Prop
  | drain => ∃ v, l.invocation? i = some v ∧ v.allDone = true ∧
      texts = if l.isPending i then v.warnings SinkError.drainWarning? else []
  | newcomer => texts.length ≤ 1 ∧ (l.isPending i = false → texts = [])
  | wait => ∃ v, l.invocation? i = some v ∧ v.allDone = true ∧
      texts = v.warnings SinkError.closeWarning?
  | ending => texts = []

namespace Lifecycle

variable {l m n : Lifecycle} {i : Nat} {who : Retirer} {texts : List String} {v : Invocation}

/-! ## Retiring

`Retires` is everything that a retirement does, whoever does it. The lemmas build it up from the end:
first the retirement itself, then what was said before it. -/

/-- Somebody retires the uploads of an invocation, which are over then, and says something. -/
structure Retires (l : Lifecycle) (i : Nat) (who : Retirer) (texts : List String) (m : Lifecycle) :
    Prop where
  journal : m.journal = l.journal ++ [.retired i who (l.isPending i)]
  pending : m.pending = if l.pending = some i then none else l.pending
  drains : m.drains = if who = .drain then l.drains.filter (· ≠ i) else l.drains
  invocations : Forall₂ Invocation.Onward l.invocations m.invocations
  warnings : ∀ whom, m.warningsTo whom =
    l.warningsTo whom ++ if whom = who.addressee i then texts else []
  sound : l.Sound → m.Sound
  settled : l.Sound → ∀ v, m.invocation? i = some v → v.allDone = true
  voices : who.Voices l i texts

namespace Retires

theorem hush (h : l.Retires i who texts m) (k : m.Hush n) : l.Retires i who texts n where
  journal := k.journal.trans h.journal
  pending := k.pending.trans h.pending
  drains := k.drains.trans h.drains
  invocations := Quiet.invocations_trans h.invocations k.invocations
  warnings := fun whom => (k.warnings whom).trans (h.warnings whom)
  sound := fun hs => k.sound (h.sound hs)
  settled := fun hs w hw => by
    obtain ⟨v, hv, hvw⟩ := k.of_invocation? hw
    exact hvw.allDone (h.settled hs v hv)
  voices := h.voices

/-- The uploads were given up. -/
theorem givenUp (hwho : who ≠ .drain) (hvoices : who.Voices l i []) :
    l.Retires i who [] (l.retire i who true) where
  journal := (quiet_retire l i who true).journal
  pending := (quiet_retire l i who true).pending.trans (retire_pending l i who)
  drains := by
    rw [if_neg hwho]
    exact (quiet_retire l i who true).drains
  invocations := (quiet_retire l i who true).invocations
  warnings := fun whom => by
    rw [warningsTo_retire, ite_self, List.append_nil]
  sound := fun hs => Sound.giveUp (l := l.retire i who false) (hs.of_invocations rfl) i
  settled := fun hs v hv =>
    Sound.allDone_giveUp (l := l.retire i who false) (hs.of_invocations rfl) hv
  voices := hvoices

/-- The uploads were all done. -/
theorem done (hsay : l.Says m) (hwho : who ≠ .drain) (hv : l.invocation? i = some v)
    (hdone : v.allDone = true) (hwarnings : ∀ whom, m.warningsTo whom =
      l.warningsTo whom ++ if whom = who.addressee i then texts else [])
    (hvoices : who.Voices l i texts) : l.Retires i who texts (m.retire i who false) := by
  obtain ⟨posts, rfl⟩ := hsay
  exact {
    journal := rfl
    pending := retire_pending _ i who
    drains := (if_neg hwho).symm
    invocations := (Quiet.refl l).invocations
    warnings := hwarnings
    sound := fun hs => hs.of_invocations rfl
    settled := fun _ w hw => by cases hv.symm.trans hw; exact hdone
    voices := hvoices }

/-- What is noted down before changes neither what is pending nor what is warned of. -/
theorem noted (h : m.Retires i who texts n) (hsay : l.Says m) (hm : l.Hush m) :
    l.Retires i who texts n := by
  obtain ⟨posts, rfl⟩ := hsay
  exact {
    journal := h.journal
    pending := h.pending
    drains := h.drains
    invocations := h.invocations
    warnings := fun whom => (h.warnings whom).trans (by rw [hm.warnings])
    sound := fun hs => h.sound (hm.sound hs)
    settled := fun hs => h.settled (hm.sound hs)
    voices := h.voices }

end Retires

theorem warningsTo_foldl {α : Type} {f : Lifecycle → α → Lifecycle} {g : α → List String}
    (whom : Addressee) (h : ∀ l a, (f l a).warningsTo whom = l.warningsTo whom ++ g a) (as : List α)
    (l : Lifecycle) : (as.foldl f l).warningsTo whom = l.warningsTo whom ++ as.flatMap g := by
  induction as generalizing l with
  | nil => simp
  | cons a as ih => rw [List.foldl_cons, ih, h, List.flatMap_cons, List.append_assoc]

/-- The drain says something about its uploads if they are still pending. -/
theorem retires_endDrain (hv : l.invocation? i = some v) (hdone : v.allDone = true) :
    ∃ texts, l.Retires i .drain texts (l.endDrain i v) := by
  have hsaid := says_endDrain l i v
  have hinvocations : (l.endDrain i v).invocations = l.invocations := by
    obtain ⟨posts, heq⟩ := hsaid
    rw [heq]
    rfl
  refine ⟨if l.isPending i then v.warnings SinkError.drainWarning? else [], ?_, ?_, ?_, ?_, ?_, ?_, ?_, ?_⟩
  · exact (quiet_endDrain l i v).journal
  · rw [hsaid.pending]
    exact retire_pending _ i .drain
  · exact (quiet_endDrain l i v).drains
  · exact (quiet_endDrain l i v).invocations
  · intro whom
    unfold endDrain
    dsimp only
    split
    · have hstep (l : Lifecycle) (e : SinkError) :
          ((l.note (.invocation i) (.drainFailed e)).sayAll (.invocation i) .warning
            (closeWarnings [e])).warningsTo whom =
          l.warningsTo whom ++ if whom = .invocation i then closeWarnings [e] else [] := by
        rw [warningsTo_sayAll, warningsTo_note]
      rw [warningsTo_foldl whom hstep, warningsTo_retire]
      split
      · rw [Invocation.drainWarnings_errors, if_pos (by assumption)]
        rfl
      · rw [List.flatMap_eq_nil_iff.mpr fun _ _ => rfl, if_neg (by assumption)]
        rfl
    · rw [warningsTo_retire, ite_self, List.append_nil]
      rfl
  · exact fun hs => hs.of_invocations hinvocations
  · intro _ w hw
    rw [invocation?, hinvocations] at hw
    cases hv.symm.trans hw
    exact hdone
  · exact ⟨v, hv, hdone, rfl⟩

/-- The one that is about to start is warned at most once, and only if the uploads are still
pending. -/
theorem retires_endReconcile (l : Lifecycle) (i : Nat) (warning : Option String) :
    ∃ texts, l.Retires i .newcomer texts (l.endReconcile i warning) := by
  have hretired : l.Retires i .newcomer [] (l.retire i .newcomer true) :=
    .givenUp (by simp) ⟨by simp, fun _ => rfl⟩
  unfold endReconcile
  cases warning with
  | none => exact ⟨[], hretired⟩
  | some text =>
    dsimp only
    split
    · next hp =>
      refine ⟨[text], hretired.journal, hretired.pending, hretired.drains, hretired.invocations,
        fun whom => ?_, fun hs => (hretired.sound hs).of_invocations rfl, hretired.settled, ?_⟩
      · rw [warningsTo_warn, warningsTo_retire]
        rfl
      · exact ⟨by simp, fun hn => absurd (hp.symm.trans hn) (by simp)⟩
    · exact ⟨[], hretired⟩

/-- The end of an invocation is told of all errors of its sinks when they are done. -/
theorem retires_noticeClosed (hv : l.invocation? i = some v) (hdone : v.allDone = true)
    (noticed : List Bool) : l.Retires i .wait (v.warnings SinkError.closeWarning?)
      (((l.noticeClosed i v noticed).sayAll (.invocation i) .warning
        (closeWarnings v.errors)).retire i .wait false) := by
  have hsaid := (says_noticeClosed l i v noticed).trans
    (says_sayAll _ (.invocation i) .warning (closeWarnings v.errors))
  refine .done hsaid (by simp) hv hdone (fun whom => ?_) ⟨v, hv, hdone, rfl⟩
  rw [warningsTo_sayAll, (hush_noticeClosed l i v noticed).warnings, Invocation.closeWarnings_errors]
  rfl

theorem retires_endSettle (l : Lifecycle) (i : Nat) (ending : Ending) :
    l.Retires i .ending [] (l.endSettle i ending) := by
  rw [endSettle_eq]
  have hretired : l.Retires i .ending [] (l.retire i .ending true) := .givenUp (by simp) rfl
  exact hretired.hush ((Hush.refl _).aside _ _ (ending.phaseAfter _) _ _ _)

end Lifecycle

/-! ## Errands

A call that waits has an errand, which is whose uploads it is going to retire and as whom. When it is
answered the errand is over, whether it has retired anything or not. -/

/-- What a call does in the end: whose uploads it retires, and as who. -/
def Call.errand : Call → Nat × Retirer
  | reconcile index _ _ => (index, .newcomer)
  | finish index .. => (index, .wait)
  | settle index _ _ _ => (index, .ending)

/-- The errands that are left when a call has been looked at. -/
def Progress.errands : Progress → List (Nat × Retirer)
  | waiting call => [call.errand]
  | answered _ => []

def Pending.errand? : Pending → Option (Nat × Retirer)
  | waiting call _ => some call.errand
  | finished _ => none

/-- The errands of the calls that are waiting. -/
def Run.errands (r : Run) : List (Nat × Retirer) := r.calls.filterMap Pending.errand?

/-- A warning about uploads: whose they are, who has retired them, and what he said. -/
structure Warning where
  index : Nat
  who : Retirer
  text : String
deriving DecidableEq, Repr

namespace Lifecycle

/-- Who answers for uploads that have just been published: a drain, or the call that waits for them. -/
inductive Heir (l : Lifecycle) (i : Nat) : UploadMode → List Nat → List (Nat × Retirer) → Prop where
  | wait : Heir l i .blocking [] [(i, .wait)]
  | drain {mode : UploadMode} : mode ≠ .blocking → Heir l i mode [i] []
  | ending : Heir l i .blocking [] [(i, .ending)]
  /-- Without sinks there is nothing to answer for. -/
  | nobody : l.IsHollow i → Heir l i .blocking [] []

/-- Something is prepared of which nobody is warned. -/
inductive Prepares : Lifecycle × List (Nat × Retirer) → Lifecycle × List (Nat × Retirer) → Prop where
  | hush {l m : Lifecycle} {es : List (Nat × Retirer)} : l.Hush m → Prepares (l, es) (m, es)
  | start {l : Lifecycle} {es : List (Nat × Retirer)} {v : Invocation} : (∀ s ∈ v.sinks, s.Sound) →
      Prepares (l, es) ({ l with invocations := l.invocations ++ [v] }, es)
  | publish {l : Lifecycle} {i : Nat} {mode : UploadMode} {drains : List Nat}
      {es : List (Nat × Retirer)} :
      i < l.invocations.length → .published i ∉ l.journal → (∀ j, l.pending = some j → l.IsHollow j) →
      l.Heir i mode drains es →
      Prepares (l, []) ({ l.publish i mode with drains := l.drains ++ drains }, es)
  /-- A call goes on its errand. -/
  | ask {l : Lifecycle} {es : List (Nat × Retirer)} (errand : Nat × Retirer) :
      errand.2 = .newcomer ∨ errand.2 = .ending → Prepares (l, es) (l, es ++ [errand])

/-- Something is concluded, with these warnings about uploads. -/
inductive Concludes : Lifecycle × List (Nat × Retirer) → Lifecycle × List (Nat × Retirer) →
    List Warning → Prop where
  | hush {l m : Lifecycle} {es : List (Nat × Retirer)} : l.Hush m → Concludes (l, es) (m, es) []
  | drain {l m : Lifecycle} {es : List (Nat × Retirer)} {i : Nat} {texts : List String} :
      i ∈ l.drains → l.Retires i .drain texts m →
      Concludes (l, es) (m, es) (texts.map (⟨i, .drain, ·⟩))
  /-- An errand is over. -/
  | errand {l m : Lifecycle} {earlier later : List (Nat × Retirer)} {i : Nat} {who : Retirer}
      {texts : List String} : who ≠ .drain → l.Retires i who texts m →
      Concludes (l, earlier ++ (i, who) :: later) (m, earlier ++ later) (texts.map (⟨i, who, ·⟩))
  /-- The cap of a wait was reached. -/
  | cut {l m n : Lifecycle} {earlier later : List (Nat × Retirer)} {i cap : Nat} :
      l.Hush m → (m.say (.invocation i) .warning (capReached cap)).Hush n →
      Concludes (l, earlier ++ (i, .wait) :: later) (n, earlier ++ later) []
  /-- There was nothing to be waited for. -/
  | vacuous {l m : Lifecycle} {earlier later : List (Nat × Retirer)} {i : Nat} {who : Retirer} :
      l.invocation? i = none → l.Hush m →
      Concludes (l, earlier ++ (i, who) :: later) (m, earlier ++ later) []

/-! ### Looking at a call -/

/-- **Looking at a call** lets it wait, or its errand is over, or it is cut by its cap. -/
theorem concludes_check (l : Lifecycle) (call : Call) (earlier later : List (Nat × Retirer)) :
    ∃ ws, Concludes (l, earlier ++ call.errand :: later)
      ((l.check call).1, earlier ++ ((l.check call).2.errands ++ later)) ws := by
  cases call with
  | reconcile index grace deadline =>
    simp only [check]
    cases hv : l.invocation? index with
    | none => exact ⟨_, .vacuous hv (.refl l)⟩
    | some v =>
      dsimp only
      cases l.reconcileVerdict? v grace deadline with
      | none => exact ⟨_, .hush (.refl l)⟩
      | some warning =>
        obtain ⟨texts, hretires⟩ := retires_endReconcile l index warning
        exact ⟨_, .errand (by simp) hretires⟩
  | finish index start deadline noticed longest nextWord =>
    simp only [check]
    cases hv : l.invocation? index with
    | none => exact ⟨_, .vacuous hv (hush_leaveClosing l)⟩
    | some v =>
      have hnotice := hush_noticeClosed l index v noticed
      dsimp only
      split
      · next hdone =>
        exact ⟨_, .errand (by simp) ((retires_noticeClosed hv hdone noticed).hush
          ((hush_note _ _ _).trans (hush_leaveClosing _)))⟩
      · split
        · exact ⟨_, .cut hnotice ((hush_note _ _ _).trans (hush_leaveClosing _))⟩
        · exact ⟨_, .hush hnotice⟩
  | settle index grace deadline ending =>
    simp only [check]
    cases hv : l.invocation? index with
    | none => exact ⟨_, .errand (by simp) (retires_endSettle l index ending)⟩
    | some v =>
      dsimp only
      split
      · have hretires := retires_endSettle (l.noteSettled index v grace ending) index ending
        exact ⟨_, .errand (by simp) (hretires.noted (says_noteSettled l index v grace ending)
          (hush_noteSettled l index v grace ending))⟩
      · exact ⟨_, .hush (.refl l)⟩

end Lifecycle

end EventUpload
