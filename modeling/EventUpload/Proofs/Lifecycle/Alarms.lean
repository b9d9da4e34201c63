import EventUpload.Proofs.Lifecycle.Turns
import EventUpload.Proofs.Lifecycle.Uploading
import EventUpload.Proofs.Lifecycle.Undisturbed

/-!
# Alarms

A warning or an error that was posted to an invocation is an alarm. Nothing is ever taken out of the
log, so an alarm is there for good; `Idles.log` says so of everything that happens while nothing is
accepted. Most of it only makes posts (`Lifecycle.Says`), which leaves all the rest as it was.

`Says` is the finest of the frames of a lifecycle, and an equation: the state after it is the state
before with more in its log. So a field that is not the log can be rewritten under it, and what depends
on fields alone needs no lemma. Retiring is what most operations do besides posting, and where an
operation does both the posts are split off (`says_endDrain`, `says_endReconcile`).

An alarm is any warning or error, whatever its text. That is enough where the question is whether a user
was told at all. Which text goes to whom, and that nobody is told twice, needs the warnings one by one,
and is asked in `Proofs.Lifecycle.WarnedOnce`.
-/

set_option autoImplicit false

namespace EventUpload

namespace Lifecycle

variable {l m n : Lifecycle} {i : Nat}

/-! ## Only posts

`Says` is the strongest that can be said of a function that only posts. Whatever is known of the rest of
a lifecycle goes over by rewriting. -/

/-- Posts were made, and nothing else has changed. -/
def Says (l m : Lifecycle) : Prop := ∃ posts, m = { l with log := l.log ++ posts }

namespace Says

theorem refl (l : Lifecycle) : l.Says l := ⟨[], by rw [List.append_nil]⟩

theorem trans (h : l.Says m) (k : m.Says n) : l.Says n := by
  obtain ⟨posts, rfl⟩ := h
  obtain ⟨more, rfl⟩ := k
  exact ⟨posts ++ more, by rw [List.append_assoc]⟩

theorem foldl {α : Type} {f : Lifecycle → α → Lifecycle} (h : ∀ (l : Lifecycle) a, l.Says (f l a))
    (as : List α) (l : Lifecycle) : l.Says (as.foldl f l) := foldl_related refl trans h as l

theorem log (h : l.Says m) : l.log <+: m.log := by
  obtain ⟨posts, rfl⟩ := h
  exact List.prefix_append _ _

theorem invocation? (h : l.Says m) (i : Nat) : m.invocation? i = l.invocation? i := by
  obtain ⟨posts, rfl⟩ := h
  rfl

theorem pending (h : l.Says m) : m.pending = l.pending := by
  obtain ⟨posts, rfl⟩ := h
  rfl

theorem phase (h : l.Says m) : m.phase = l.phase := by
  obtain ⟨posts, rfl⟩ := h
  rfl

theorem active (h : l.Says m) : m.active = l.active := by
  obtain ⟨posts, rfl⟩ := h
  rfl

end Says

theorem says_tell (l : Lifecycle) (whom : Addressee) (post : Post) : l.Says (l.tell whom post) :=
  ⟨_, rfl⟩

theorem says_say (l : Lifecycle) (whom : Addressee) (kind : MessageKind) (text : String) :
    l.Says (l.say whom kind text) := says_tell l whom _

theorem says_note (l : Lifecycle) (whom : Addressee) (r : Remark) : l.Says (l.note whom r) :=
  says_tell l whom _

theorem says_sayAll (l : Lifecycle) (whom : Addressee) (kind : MessageKind) (texts : List String) :
    l.Says (l.sayAll whom kind texts) := Says.foldl (fun l text => says_say l whom kind text) texts l

theorem says_sayErrors (l : Lifecycle) (whom : Addressee) (errors : List SinkError) :
    l.Says (l.sayErrors whom errors) := by
  refine Says.foldl (fun l e => ?_) errors l
  exact (says_note l whom _).trans (says_say _ whom _ e.message)

theorem says_noticeClosed (l : Lifecycle) (i : Nat) (v : Invocation) (noticed : List Bool) :
    l.Says (l.noticeClosed i v noticed) := by
  refine Says.foldl (fun l s => ?_) _ l
  exact says_tell l (.invocation i) (.notice (.closed s.1.name))

theorem says_noteOpen (l : Lifecycle) (i : Nat) (ending : Option Ending) :
    l.Says (l.noteOpen i ending) := by
  unfold noteOpen
  cases hv : l.invocation? i with
  | none => exact .refl l
  | some v =>
    have second (m : Lifecycle) : m.Says (if v.stream.closed then m
        else m.note (.invocation i) (.streamAborted .internal v.sinks.length)) := by
      split
      · exact .refl m
      · exact says_note m _ _
    cases ending with
    | some e => exact (says_note l _ _).trans (second _)
    | none =>
      refine Says.trans ?_ (second _)
      dsimp only
      split
      · exact .refl l
      · exact says_note l _ _

theorem says_noteSettled (l : Lifecycle) (i : Nat) (v : Invocation) (grace : Nat)
    (ending : Ending) : l.Says (l.noteSettled i v grace ending) := by
  unfold noteSettled
  split
  · exact Says.foldl (fun l e => says_note l _ _) _ l
  · exact says_note l _ _

theorem says_endInstant (l : Lifecycle) (call : Call) : l.Says (l.endInstant call).1 := by
  unfold endInstant
  split
  · split
    · exact says_say _ _ _ _
    · exact .refl l
  · exact .refl l

/-- What the end of a drain says, after the uploads were retired. -/
theorem says_endDrain (l : Lifecycle) (i : Nat) (v : Invocation) :
    ({ l with drains := l.drains.filter (· ≠ i) }.retire i .drain false).Says (l.endDrain i v) := by
  unfold endDrain
  dsimp only
  split
  · exact Says.foldl (fun l e => (says_note l _ _).trans (says_sayAll _ _ _ _)) _ _
  · exact .refl _

theorem says_endReconcile (l : Lifecycle) (i : Nat) (warning : Option String) :
    (l.retire i .newcomer true).Says (l.endReconcile i warning) := by
  unfold endReconcile
  cases warning with
  | none => exact .refl _
  | some text =>
    dsimp only
    split
    · exact says_say _ _ _ _
    · exact .refl _

/-! ## The log grows -/

theorem log_leaveClosing (l : Lifecycle) : l.leaveClosing.log = l.log := by
  unfold leaveClosing
  split <;> rfl

theorem log_retire (l : Lifecycle) (i : Nat) (who : Retirer) (cancel : Bool) :
    (l.retire i who cancel).log = l.log := by
  cases cancel with
  | false => rfl
  | true =>
    show (giveUp _ i).log = l.log
    unfold giveUp
    split <;> rfl

theorem log_settleDrain (l : Lifecycle) (i : Nat) : l.log <+: (l.settleDrain i).log := by
  unfold settleDrain
  split
  · split
    · exact (says_endDrain l i _).log
    · exact List.prefix_refl _
  · exact List.prefix_refl _

theorem Stirs.log (h : l.Stirs m) : l.log <+: m.log := by
  cases h with
  | sinks outside hv hgo =>
    refine List.IsPrefix.trans ?_ (says_sayErrors _ _ _).log
    exact List.prefix_refl _
  | strays strays outside errors =>
    refine List.IsPrefix.trans ?_ (says_sayErrors _ _ _).log
    exact List.prefix_refl _
  | deed i d => exact List.prefix_refl _
  | drain hi => exact log_settleDrain l _
  | time hle => exact List.prefix_refl _
  | limits limits => exact List.prefix_refl _

theorem log_endReconcile (l : Lifecycle) (i : Nat) (warning : Option String) :
    l.log <+: (l.endReconcile i warning).log := by
  have hretire := log_retire l i .newcomer true
  unfold endReconcile
  cases warning with
  | none => exact hretire ▸ List.prefix_refl _
  | some text =>
    dsimp only
    split
    · exact hretire ▸ (says_say _ _ _ _).log
    · exact hretire ▸ List.prefix_refl _

theorem log_endSettle (l : Lifecycle) (i : Nat) (ending : Ending) :
    (l.endSettle i ending).log = l.log := by
  rw [endSettle_eq]
  exact log_retire l i .ending true

/-- Looking at a call never shortens the log. -/
theorem log_check (l : Lifecycle) (call : Call) : l.log <+: (l.check call).1.log := by
  -- Along every branch the log is extended by what is said there, and not rewritten.
  cases call with
  | reconcile index grace deadline =>
    simp only [check]
    cases l.invocation? index with
    | none => exact List.prefix_refl _
    | some v =>
      dsimp only
      cases l.reconcileVerdict? v grace deadline with
      | none => exact List.prefix_refl _
      | some warning => exact log_endReconcile l index warning
  | finish index start deadline noticed longest nextWord =>
    simp only [check]
    cases l.invocation? index with
    | none => exact log_leaveClosing l ▸ List.prefix_refl _
    | some v =>
      have hnotice := says_noticeClosed l index v noticed
      dsimp only
      split
      · rw [log_leaveClosing]
        have hsay := hnotice.trans
          (says_sayAll _ (.invocation index) .warning (closeWarnings v.errors))
        exact hsay.log.trans (says_note _ _ _).log
      · split
        · rw [log_leaveClosing]
          exact (hnotice.trans ((says_say _ _ _ _).trans (says_note _ _ _))).log
        · exact hnotice.log
  | settle index grace deadline ending =>
    simp only [check]
    cases l.invocation? index with
    | none => exact log_endSettle l index ending ▸ List.prefix_refl _
    | some v =>
      dsimp only
      split
      · rw [log_endSettle]
        exact (says_noteSettled l index v grace ending).log
      · exact List.prefix_refl _

/-! ## Alarms

As nothing is taken back, an alarm that was raised once stays raised. -/

/-- A warning or an error was posted to an invocation. -/
def Alarmed (l : Lifecycle) (i : Nat) : Prop :=
  ∃ m ∈ l.messagesTo (.invocation i), m.kind = .warning ∨ m.kind = .error

theorem Alarmed.mono (h : l.Alarmed i) (hlog : l.log <+: m.log) : m.Alarmed i := by
  obtain ⟨message, hmem, hkind⟩ := h
  obtain ⟨posts, hposts⟩ := hlog
  refine ⟨message, ?_, hkind⟩
  rw [messagesTo, ← hposts, List.filterMap_append]
  exact List.mem_append_left _ hmem

theorem alarmed_warning (l : Lifecycle) (i : Nat) (text : String) :
    (l.say (.invocation i) .warning text).Alarmed i := by
  refine ⟨⟨.warning, text⟩, ?_, .inl rfl⟩
  rw [messagesTo_say]
  exact List.mem_append_right _ (List.mem_singleton.mpr rfl)

theorem alarmed_sayErrors (l : Lifecycle) (i : Nat) {errors : List SinkError} (h : errors ≠ []) :
    (l.sayErrors (.invocation i) errors).Alarmed i := by
  obtain ⟨e, he⟩ := List.exists_mem_of_ne_nil errors h
  refine ⟨⟨.error, e.message⟩, ?_, .inr rfl⟩
  rw [messagesTo_sayErrors]
  exact List.mem_append_right _ (List.mem_map_of_mem he)

/-- If something that is done for every item raises an alarm for one of them, it is raised. -/
theorem alarmed_foldl {α : Type} {f : Lifecycle → α → Lifecycle}
    (hf : ∀ (l : Lifecycle) a, l.Says (f l a)) {as : List α} {a : α} (ha : a ∈ as)
    (halarm : ∀ l : Lifecycle, (f l a).Alarmed i) (l : Lifecycle) : (as.foldl f l).Alarmed i := by
  induction as generalizing l with
  | nil => exact absurd ha (by simp)
  | cons b as ih =>
    rcases List.mem_cons.mp ha with rfl | ha
    · exact (halarm l).mono (Says.foldl hf as (f l a)).log
    · exact ih ha (f l b)

/-- An error that the sink does not report itself is warned of. -/
theorem alarmed_closeWarnings {errors : List SinkError} {e : SinkError} (he : e ∈ errors)
    (ht : e.isTransmission = false) (l : Lifecycle) :
    (l.sayAll (.invocation i) .warning (closeWarnings errors)).Alarmed i := by
  have hmem : e.message ∈ closeWarnings errors :=
    List.mem_map_of_mem (List.mem_filter.mpr ⟨he, by simp [ht]⟩)
  exact alarmed_foldl (fun l text => says_say l _ _ text) hmem (fun l => alarmed_warning l i _) l

theorem alarmed_endDrain {v : Invocation} (hp : l.pending = some i) {e : SinkError}
    (he : e ∈ v.errors) (hc : e.isCancelled = false) (ht : e.isTransmission = false) :
    (l.endDrain i v).Alarmed i := by
  unfold endDrain
  dsimp only
  rw [if_pos (by simp [isPending, hp])]
  have hmem : e ∈ v.errors.filter (!·.isCancelled) := List.mem_filter.mpr ⟨he, by simp [hc]⟩
  refine alarmed_foldl (fun l e => (says_note l _ _).trans (says_sayAll _ _ _ _)) hmem (fun l => ?_) _
  exact alarmed_closeWarnings (List.mem_singleton.mpr rfl) ht _

end Lifecycle

namespace Run

variable {r s : Run}

/-- Nothing that is posted is taken back. -/
theorem Idles.log (h : r.Idles s) : r.lifecycle.log <+: s.lifecycle.log := by
  cases h with
  | stirs hs => exact hs.log
  | look hcalls =>
    rw [after_none]
    exact Lifecycle.log_check _ _
  | word hcalls => exact (Lifecycle.says_endInstant _ _).log
  | refused hc hp =>
    obtain ⟨⟨strays, hsame⟩, -⟩ := refused_call hc hp
    exact hsame.symm ▸ List.prefix_refl r.lifecycle.log
  | forget => exact List.prefix_refl _

end Run

end EventUpload
