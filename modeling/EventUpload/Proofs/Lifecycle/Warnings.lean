import EventUpload.Proofs.Lifecycle.Alarms
import EventUpload.Proofs.Lifecycle.Genuine

/-!
# Warnings, and what warns nobody

`Lifecycle.warningsTo` picks out of the log what somebody was warned of. A change is a `Lifecycle.Hush`
if that stays the same for everybody, nothing is published or retired, no drain comes or goes, and the
sinks only go on. Neither the phase matters to it nor the active invocation nor the time, so nearly
everything that happens is one: what sinks do by themselves, remarks and notices, the closing of a
stream, giving uploads up.

The point is what is left over. By `Stirs.hush_or` the only thing a lifecycle does by itself that is not
a `Hush` is the turn of a drain, and the warnings of a run come from a few operations that can be listed
(`Lifecycle/Retirement`). A proof about warnings goes through that list and not through the operations
of a lifecycle.

Only messages of the kind that warns are counted. The errors of transmissions are messages of another
kind, and a remark goes to the log of the program and not to the one who has started the invocation; so
a sink that fails to transmit says so itself (`hush_sayErrors`) and that is no warning here.
-/

set_option autoImplicit false

namespace EventUpload

open List (Forall₂)

/-- The text that a post warns somebody with, if it does. -/
def Posted.warningTo? (whom : Addressee) (p : Posted) : Option String :=
  match p.post with
  | .message ⟨.warning, text⟩ => if p.addressee = whom then some text else none
  | .message _ | .notice _ | .remark _ => none

namespace Lifecycle

/-- The warnings that somebody was given, in order. -/
def warningsTo (whom : Addressee) (l : Lifecycle) : List String :=
  l.log.filterMap (Posted.warningTo? whom)

variable {l m n : Lifecycle} {i : Nat} {v : Invocation} (whom : Addressee)

/-! ## Who is warned -/

theorem warningsTo_tell (l : Lifecycle) (addressee : Addressee) (post : Post) :
    (l.tell addressee post).warningsTo whom =
      l.warningsTo whom ++ (Posted.warningTo? whom ⟨l.now, addressee, post⟩).toList := by
  rw [warningsTo, tell, List.filterMap_append]
  cases h : Posted.warningTo? whom ⟨l.now, addressee, post⟩ <;> simp [warningsTo, h]

theorem warningsTo_warn (l : Lifecycle) (addressee : Addressee) (text : String) :
    (l.say addressee .warning text).warningsTo whom =
      l.warningsTo whom ++ if whom = addressee then [text] else [] := by
  rw [say, warningsTo_tell]
  by_cases h : whom = addressee
  · simp [Posted.warningTo?, h]
  · simp [Posted.warningTo?, h, Ne.symm h]

theorem warningsTo_say (l : Lifecycle) (addressee : Addressee) {kind : MessageKind}
    (hkind : kind ≠ .warning) (text : String) :
    (l.say addressee kind text).warningsTo whom = l.warningsTo whom := by
  rw [say, warningsTo_tell]
  cases kind with
  | warning => exact absurd rfl hkind
  | info => simp [Posted.warningTo?]
  | progress => simp [Posted.warningTo?]
  | error => simp [Posted.warningTo?]

theorem warningsTo_note (l : Lifecycle) (addressee : Addressee) (r : Remark) :
    (l.note addressee r).warningsTo whom = l.warningsTo whom := by
  rw [note, warningsTo_tell]
  simp [Posted.warningTo?]

theorem warningsTo_notice (l : Lifecycle) (addressee : Addressee) (notice : Notice) :
    (l.tell addressee (.notice notice)).warningsTo whom = l.warningsTo whom := by
  rw [warningsTo_tell]
  simp [Posted.warningTo?]

theorem warningsTo_sayErrors (l : Lifecycle) (addressee : Addressee) (errors : List SinkError) :
    (l.sayErrors addressee errors).warningsTo whom = l.warningsTo whom := by
  refine foldl_keeps (warningsTo whom) (fun l e => ?_) errors l
  rw [warningsTo_say whom _ _ (by simp), warningsTo_note]

theorem warningsTo_sayAll (l : Lifecycle) (addressee : Addressee) (texts : List String) :
    (l.sayAll addressee .warning texts).warningsTo whom =
      l.warningsTo whom ++ if whom = addressee then texts else [] := by
  unfold sayAll
  induction texts generalizing l with
  | nil => simp
  | cons text texts ih =>
    rw [List.foldl_cons, ih, warningsTo_warn]
    split <;> simp

theorem warningsTo_retire (l : Lifecycle) (i : Nat) (who : Retirer) (cancel : Bool) :
    (l.retire i who cancel).warningsTo whom = l.warningsTo whom := by
  rw [warningsTo, log_retire, warningsTo]

/-! ## Nobody is warned -/

/-- Nobody is warned, nothing is published or retired, and sinks go on. -/
structure Hush (l m : Lifecycle) : Prop where
  pending : m.pending = l.pending
  journal : m.journal = l.journal
  drains : m.drains = l.drains
  invocations : Forall₂ Invocation.Onward l.invocations m.invocations
  warnings : ∀ whom, m.warningsTo whom = l.warningsTo whom
  sound : l.Sound → m.Sound

namespace Hush

theorem refl (l : Lifecycle) : l.Hush l :=
  ⟨rfl, rfl, rfl, (Quiet.refl l).invocations, fun _ => rfl, id⟩

theorem trans (h : l.Hush m) (k : m.Hush n) : l.Hush n where
  pending := k.pending.trans h.pending
  journal := k.journal.trans h.journal
  drains := k.drains.trans h.drains
  invocations := Quiet.invocations_trans h.invocations k.invocations
  warnings := fun whom => (k.warnings whom).trans (h.warnings whom)
  sound := fun hs => k.sound (h.sound hs)

theorem of_posts (h : l.Says m) (hw : ∀ whom, m.warningsTo whom = l.warningsTo whom) : l.Hush m := by
  obtain ⟨posts, rfl⟩ := h
  exact ⟨rfl, rfl, rfl, (Quiet.refl l).invocations, hw, fun hs => hs.of_invocations rfl⟩

theorem of_quiet (h : l.Quiet m) (hw : ∀ whom, m.warningsTo whom = l.warningsTo whom)
    (hs : l.Sound → m.Sound) : l.Hush m :=
  ⟨h.pending, h.journal, h.drains, h.invocations, hw, hs⟩

/-- What is beside the uploads does not matter. -/
theorem aside (h : l.Hush m) (now : Nat) (limits : Limits) (phase : Phase) (active : Option Nat)
    (strays : List Sink) (outside : Outside) :
    l.Hush { m with
      now := now, limits := limits, phase := phase, active := active, strays := strays,
      outside := outside } :=
  ⟨h.pending, h.journal, h.drains, h.invocations, h.warnings,
   fun hs => (h.sound hs).of_invocations rfl⟩

theorem of_invocation? (h : l.Hush m) {w : Invocation} (hw : m.invocation? i = some w) :
    ∃ v, l.invocation? i = some v ∧ v.Onward w := forall₂_getElem? h.invocations.flip hw

theorem isHollow (h : l.Hush m) (i : Nat) : m.IsHollow i ↔ l.IsHollow i :=
  Quiet.isHollow (l := l) (m := { m with
      now := l.now, limits := l.limits, phase := l.phase, active := l.active })
    ⟨rfl, rfl, rfl, rfl, h.pending, h.journal, h.drains, h.invocations⟩ i

end Hush

/-! ## What is said in passing -/

theorem hush_note (l : Lifecycle) (whom : Addressee) (r : Remark) : l.Hush (l.note whom r) :=
  .of_posts (says_note l whom r) fun whom => warningsTo_note whom l _ r

theorem hush_notice (l : Lifecycle) (whom : Addressee) (notice : Notice) :
    l.Hush (l.tell whom (.notice notice)) :=
  .of_posts (says_tell l whom _) fun whom => warningsTo_notice whom l _ notice

theorem hush_foldl {α : Type} {f : Lifecycle → α → Lifecycle} (h : ∀ (l : Lifecycle) a, l.Hush (f l a))
    (as : List α) (l : Lifecycle) : l.Hush (as.foldl f l) := foldl_related .refl .trans h as l

theorem hush_sayErrors (l : Lifecycle) (whom : Addressee) (errors : List SinkError) :
    l.Hush (l.sayErrors whom errors) :=
  .of_posts (says_sayErrors l whom errors) fun whom => warningsTo_sayErrors whom l _ errors

theorem hush_noticeClosed (l : Lifecycle) (i : Nat) (v : Invocation) (noticed : List Bool) :
    l.Hush (l.noticeClosed i v noticed) := by
  refine hush_foldl (fun l s => ?_) _ l
  exact hush_notice l (.invocation i) (.closed s.1.name)

theorem hush_noteSettled (l : Lifecycle) (i : Nat) (v : Invocation) (grace : Nat)
    (ending : Ending) : l.Hush (l.noteSettled i v grace ending) := by
  unfold noteSettled
  split
  · exact hush_foldl (fun l e => hush_note l _ _) _ l
  · exact hush_note l _ _

theorem hush_noteOpen (l : Lifecycle) (i : Nat) (ending : Option Ending) :
    l.Hush (l.noteOpen i ending) := by
  refine .of_posts (says_noteOpen l i ending) fun whom => ?_
  unfold noteOpen
  cases l.invocation? i with
  | none => rfl
  | some v =>
    have second (m : Lifecycle) : (if v.stream.closed then m
        else m.note (.invocation i) (.streamAborted .internal v.sinks.length)).warningsTo whom =
          m.warningsTo whom := by
      split
      · rfl
      · exact warningsTo_note whom m _ _
    cases ending with
    | some e => exact (second _).trans (warningsTo_note whom l _ _)
    | none =>
      refine (second _).trans ?_
      dsimp only
      split
      · rfl
      · exact warningsTo_note whom l _ _

theorem hush_endInstant (l : Lifecycle) (call : Call) : l.Hush (l.endInstant call).1 := by
  refine .of_posts (says_endInstant l call) fun whom => ?_
  unfold endInstant
  split
  · split
    · exact warningsTo_say whom l _ (by simp) _
    · rfl
  · rfl

theorem hush_leaveClosing (l : Lifecycle) : l.Hush l.leaveClosing := by
  unfold leaveClosing
  split
  · exact (Hush.refl l).aside l.now l.limits .idle l.active l.strays l.outside
  · exact .refl l

/-! ## What is done to sinks -/

theorem hush_deed (l : Lifecycle) (i : Nat) (d : StreamDeed) :
    l.Hush (l.updateStream i (d.apply · l.now)) :=
  .of_quiet (quiet_updateStream fun s => d.onward s l.now) (fun _ => rfl) fun hs => hs.deed i d

/-- The stream of an invocation that ends is closed. -/
theorem hush_closeStream (l : Lifecycle) (i : Nat) (ending : Option Ending) :
    l.Hush ((l.noteOpen i ending).updateStream i (·.close l.now (some .internal))) := by
  have hnow : l.now = (l.noteOpen i ending).now := (quiet_noteOpen l i ending).now.symm
  rw [hnow]
  exact (hush_noteOpen l i ending).trans (hush_deed _ i (.close (some .internal)))

/-- What happens by itself says nothing, unless it is a drain. -/
theorem Stirs.hush_or (h : l.Stirs m) : l.Hush m ∨ ∃ i ∈ l.drains, m = l.settleDrain i := by
  cases h with
  | @sinks i v sinks errors outside hv hgo =>
    refine .inl (Hush.trans ?_ (hush_sayErrors _ _ _))
    refine .of_quiet (Quiet.around (quiet_update fun w hw => ?_) l.strays outside) (fun _ => rfl) ?_
    · cases hv.symm.trans hw
      exact Invocation.onward_withSinks hgo.onward
    · intro hs
      refine Sound.of_invocations (l := l.update i (·.withSinks sinks)) ?_ rfl
      exact hs.update fun _ _ => hgo.sound (hs i v hv)
  | strays strays outside errors =>
    refine .inl (Hush.trans ?_ (hush_sayErrors _ _ _))
    exact (Hush.refl l).aside l.now l.limits l.phase l.active strays outside
  | deed i d => exact .inl (hush_deed l i d)
  | drain hi => exact .inr ⟨_, hi, rfl⟩
  | @time t _ => exact .inl ((Hush.refl l).aside t l.limits l.phase l.active l.strays l.outside)
  | limits limits => exact .inl ((Hush.refl l).aside l.now limits l.phase l.active l.strays l.outside)

end Lifecycle

end EventUpload
