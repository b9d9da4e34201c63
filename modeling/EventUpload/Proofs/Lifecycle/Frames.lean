import EventUpload.Lifecycle.Call
import EventUpload.Proofs.Sink.Onward

/-!
# What leaves the course of a lifecycle alone

Most of what happens in a lifecycle only lets sinks go on, posts something or closes a stream: phase,
active invocation, pending place, journal and drains stay as they are. `Lifecycle.Quiet` is the relation
between the states before and after. It is wide on purpose: the sinks may go anywhere that `Sink.Onward`
allows, so whatever is shown of quiet changes holds of every behaviour of the sinks, of their
destinations and of the hosts that post events.

What is not quiet is starting, publishing, retiring and a change of phase. Retiring is split here into
the part that matters, which is retiring without giving anything up, and a quiet rest (`quiet_retire`).
So an invariant of the lifecycle has to be looked at in four places only, and an operation that is
changed to post one thing more, or to close a stream earlier, costs a frame lemma here and nothing in
the invariants.

`Quiet` says nothing of strays, posts and the outside, neither that they change nor how. What is said of
posts is the subject of other frames, which differ by what they hold on to: `Lifecycle.Says` for changes
that post and do nothing else, `Lifecycle.Hush` for those that warn nobody, `Lifecycle.Calm` for those
that may also clear the pending place. Each is a preorder, and each is proved of an operation from the
finer ones (`Quiet.calm`, `Hush.of_quiet`).

`foldl_keeps` and `foldl_related` are the two inductions over folds that everything here rests on. They
are stated of any step of a fold, since whatever is done to many sinks, posts or drains is a fold.
-/

set_option autoImplicit false

namespace EventUpload

open List (Forall₂)

/-- Where an invocation can go while it is neither started nor published. -/
structure Invocation.Onward (v w : Invocation) : Prop where
  ids : w.ids = v.ids
  mode : w.mode = v.mode
  sinks : Forall₂ Sink.Onward v.sinks w.sinks

theorem Invocation.Onward.refl (v : Invocation) : v.Onward v :=
  ⟨rfl, rfl, Sink.forall₂_onward_refl _⟩

theorem Invocation.Onward.trans {u v w : Invocation} (h : u.Onward v) (k : v.Onward w) :
    u.Onward w :=
  ⟨k.ids.trans h.ids, k.mode.trans h.mode, Sink.forall₂_onward_trans h.sinks k.sinks⟩

theorem Invocation.onward_withSinks {v : Invocation} {sinks : List Sink}
    (h : Forall₂ Sink.Onward v.sinks sinks) : v.Onward (v.withSinks sinks) := ⟨rfl, rfl, h⟩

namespace Lifecycle

/-- What every step of a fold keeps, the fold keeps. -/
theorem foldl_keeps {α β : Type} (g : Lifecycle → β) {f : Lifecycle → α → Lifecycle}
    (h : ∀ l a, g (f l a) = g l) (as : List α) (l : Lifecycle) : g (as.foldl f l) = g l := by
  induction as generalizing l with
  | nil => rfl
  | cons a as ih => exact (ih (f l a)).trans (h l a)

/-- What relates every step of a fold to the next one relates its beginning to its end. -/
theorem foldl_related {α : Type} {R : Lifecycle → Lifecycle → Prop} (hrefl : ∀ l, R l l)
    (htrans : ∀ {l m n}, R l m → R m n → R l n) {f : Lifecycle → α → Lifecycle}
    (h : ∀ l a, R l (f l a)) (as : List α) (l : Lifecycle) : R l (as.foldl f l) := by
  induction as generalizing l with
  | nil => exact hrefl l
  | cons a as ih => exact htrans (h l a) (ih (f l a))

/-- Only sinks, strays, posts and the outside have changed. -/
structure Quiet (l m : Lifecycle) : Prop where
  now : m.now = l.now
  limits : m.limits = l.limits
  phase : m.phase = l.phase
  active : m.active = l.active
  pending : m.pending = l.pending
  journal : m.journal = l.journal
  drains : m.drains = l.drains
  invocations : Forall₂ Invocation.Onward l.invocations m.invocations

namespace Quiet

theorem refl (l : Lifecycle) : l.Quiet l :=
  ⟨rfl, rfl, rfl, rfl, rfl, rfl, rfl, List.forall₂_same.mpr fun v _ => .refl v⟩

theorem invocations_trans {as bs cs : List Invocation} (h : Forall₂ Invocation.Onward as bs)
    (k : Forall₂ Invocation.Onward bs cs) : Forall₂ Invocation.Onward as cs :=
  forall₂_trans h k .trans

theorem trans {l m n : Lifecycle} (h : l.Quiet m) (k : m.Quiet n) : l.Quiet n :=
  ⟨k.now.trans h.now, k.limits.trans h.limits, k.phase.trans h.phase, k.active.trans h.active,
   k.pending.trans h.pending, k.journal.trans h.journal, k.drains.trans h.drains,
   invocations_trans h.invocations k.invocations⟩

/-- A fold of quiet changes is quiet. -/
theorem foldl {α : Type} {f : Lifecycle → α → Lifecycle} (h : ∀ (l : Lifecycle) a, l.Quiet (f l a))
    (as : List α) (l : Lifecycle) : l.Quiet (as.foldl f l) := foldl_related refl trans h as l

theorem length {l m : Lifecycle} (h : l.Quiet m) : m.invocations.length = l.invocations.length :=
  h.invocations.length_eq.symm

theorem invocation? {l m : Lifecycle} (h : l.Quiet m) {i : Nat} {v : Invocation}
    (hv : l.invocation? i = some v) : ∃ w, m.invocation? i = some w ∧ v.Onward w :=
  forall₂_getElem? h.invocations hv

theorem of_invocation? {l m : Lifecycle} (h : l.Quiet m) {i : Nat} {w : Invocation}
    (hw : m.invocation? i = some w) : ∃ v, l.invocation? i = some v ∧ v.Onward w :=
  forall₂_getElem? h.invocations.flip hw

end Quiet

/-! ## Posts -/

theorem quiet_tell (l : Lifecycle) (whom : Addressee) (post : Post) : l.Quiet (l.tell whom post) :=
  ⟨rfl, rfl, rfl, rfl, rfl, rfl, rfl, (Quiet.refl l).invocations⟩

theorem quiet_say (l : Lifecycle) (whom : Addressee) (kind : MessageKind) (text : String) :
    l.Quiet (l.say whom kind text) := quiet_tell l whom _

theorem quiet_note (l : Lifecycle) (whom : Addressee) (r : Remark) : l.Quiet (l.note whom r) :=
  quiet_tell l whom _

theorem quiet_sayAll (l : Lifecycle) (whom : Addressee) (kind : MessageKind)
    (texts : List String) : l.Quiet (l.sayAll whom kind texts) :=
  Quiet.foldl (fun l text => quiet_say l whom kind text) texts l

theorem quiet_sayErrors (l : Lifecycle) (whom : Addressee) (errors : List SinkError) :
    l.Quiet (l.sayErrors whom errors) := by
  refine Quiet.foldl (fun l e => ?_) errors l
  exact (quiet_note l whom _).trans (quiet_say _ whom _ e.message)

theorem quiet_noticeClosed (l : Lifecycle) (i : Nat) (v : Invocation) (noticed : List Bool) :
    l.Quiet (l.noticeClosed i v noticed) := by
  refine Quiet.foldl (fun l s => ?_) _ l
  exact quiet_tell l (.invocation i) (.notice (.closed s.1.name))

theorem quiet_noteFinished (l : Lifecycle) (i : Nat) (v : Invocation) :
    l.Quiet (l.noteFinished i v) := quiet_note l _ _

theorem quiet_noteSettled (l : Lifecycle) (i : Nat) (v : Invocation) (grace : Nat)
    (ending : Ending) : l.Quiet (l.noteSettled i v grace ending) := by
  unfold noteSettled
  split
  · exact Quiet.foldl (fun l e => quiet_note l _ _) _ l
  · exact quiet_note l _ _

/-! ## Changes to sinks and streams -/

theorem invocation?_update (l : Lifecycle) (i : Nat) (f : Invocation → Invocation) (j : Nat) :
    (l.update i f).invocation? j =
      if i = j then (l.invocation? j).map f else l.invocation? j := by
  simp only [update, invocation?, List.getElem?_modify]
  split <;> simp

theorem invocation?_update_self {l : Lifecycle} {i : Nat} {v : Invocation}
    (hv : l.invocation? i = some v) (f : Invocation → Invocation) :
    (l.update i f).invocation? i = some (f v) := by
  rw [invocation?_update, if_pos rfl, hv]
  rfl

theorem invocation?_publish (l : Lifecycle) (i : Nat) (mode : UploadMode) (j : Nat) :
    (l.publish i mode).invocation? j = if i = j then (l.invocation? j).map fun v =>
      { v with mode := mode }.withSinks (v.sinks.map (Sink.startWatch · l.now))
    else l.invocation? j := invocation?_update l i _ j

theorem quiet_update {l : Lifecycle} {i : Nat} {f : Invocation → Invocation}
    (h : ∀ v, l.invocation? i = some v → v.Onward (f v)) : l.Quiet (l.update i f) :=
  ⟨rfl, rfl, rfl, rfl, rfl, rfl, rfl, forall₂_modify .refl l.invocations i h⟩

theorem quiet_updateStream {l : Lifecycle} {i : Nat} {f : Stream → Stream}
    (h : ∀ s, Forall₂ Sink.Onward s.sinks (f s).sinks) : l.Quiet (l.updateStream i f) :=
  quiet_update fun v _ => ⟨rfl, rfl, h v.stream⟩

/-- Neither the outside nor the strays matter to the course of a lifecycle. -/
theorem Quiet.around {l m : Lifecycle} (h : l.Quiet m) (strays : List Sink) (outside : Outside) :
    l.Quiet { m with strays := strays, outside := outside } :=
  ⟨h.now, h.limits, h.phase, h.active, h.pending, h.journal, h.drains, h.invocations⟩

theorem quiet_letGo (l : Lifecycle) (sinks : List Sink) : l.Quiet (l.letGo sinks) :=
  (Quiet.refl l).around _ l.outside

theorem quiet_giveUp (l : Lifecycle) (i : Nat) : l.Quiet (l.giveUp i) := by
  unfold giveUp
  cases hv : l.invocation? i with
  | none => exact .refl l
  | some v =>
    refine Quiet.around (quiet_update fun w hw => ?_) l.strays _
    rw [hv] at hw
    cases hw
    exact Invocation.onward_withSinks (forall₂_overSinks (fun s _ => s.onward_giveUp) l.outside)

theorem quiet_settleInvocation (l : Lifecycle) (i : Nat) : l.Quiet (l.settleInvocation i) := by
  unfold settleInvocation
  cases hv : l.invocation? i with
  | none => exact .refl l
  | some v =>
    refine Quiet.trans (Quiet.around (quiet_update fun w hw => ?_) l.strays _)
      (quiet_sayErrors _ _ _)
    rw [hv] at hw
    cases hw
    exact Invocation.onward_withSinks (forall₂_onward_settleSinks l.now v.sinks l.outside)

theorem quiet_settleStrays (l : Lifecycle) : l.Quiet l.settleStrays :=
  ((Quiet.refl l).around _ _).trans (quiet_sayErrors _ _ _)

/-- Everything that sinks do by themselves at an instant is quiet. -/
theorem quiet_settleSinks (l : Lifecycle) :
    l.Quiet ((List.range l.invocations.length).foldl settleInvocation l).settleStrays :=
  (Quiet.foldl quiet_settleInvocation _ l).trans (quiet_settleStrays _)

theorem quiet_noteOpen (l : Lifecycle) (i : Nat) (ending : Option Ending) :
    l.Quiet (l.noteOpen i ending) := by
  unfold noteOpen
  cases hv : l.invocation? i with
  | none => exact .refl l
  | some v =>
    have second (m : Lifecycle) : m.Quiet (if v.stream.closed then m
        else m.note (.invocation i) (.streamAborted .internal v.sinks.length)) := by
      split
      · exact .refl m
      · exact quiet_note m _ _
    cases ending with
    | some e => exact (quiet_note l _ _).trans (second _)
    | none =>
      refine Quiet.trans ?_ (second _)
      dsimp only
      split
      · exact .refl l
      · exact quiet_note l _ _

/-- Closing the stream of an invocation that ends is quiet. -/
theorem quiet_closeStream (l : Lifecycle) (i : Nat) (ending : Option Ending) :
    l.Quiet ((l.noteOpen i ending).updateStream i (·.close l.now (some .internal))) :=
  (quiet_noteOpen l i ending).trans
    (quiet_updateStream fun s => s.onward_close l.now (some .internal))

/-! ## Retiring

Giving uploads up is quiet, so all that retiring does to the course of a lifecycle it does with
`cancel := false` already. -/

@[simp] theorem retire_now (l : Lifecycle) (i : Nat) (who : Retirer) :
    (l.retire i who false).now = l.now := rfl

@[simp] theorem retire_phase (l : Lifecycle) (i : Nat) (who : Retirer) :
    (l.retire i who false).phase = l.phase := rfl

@[simp] theorem retire_active (l : Lifecycle) (i : Nat) (who : Retirer) :
    (l.retire i who false).active = l.active := rfl

@[simp] theorem retire_drains (l : Lifecycle) (i : Nat) (who : Retirer) :
    (l.retire i who false).drains = l.drains := rfl

@[simp] theorem retire_invocations (l : Lifecycle) (i : Nat) (who : Retirer) :
    (l.retire i who false).invocations = l.invocations := rfl

@[simp] theorem retire_journal (l : Lifecycle) (i : Nat) (who : Retirer) :
    (l.retire i who false).journal = l.journal ++ [.retired i who (l.isPending i)] := rfl

theorem retire_pending (l : Lifecycle) (i : Nat) (who : Retirer) :
    (l.retire i who false).pending = if l.pending = some i then none else l.pending := by
  simp only [retire, isPending, decide_eq_true_eq]
  rfl

theorem quiet_retire (l : Lifecycle) (i : Nat) (who : Retirer) (cancel : Bool) :
    (l.retire i who false).Quiet (l.retire i who cancel) := by
  cases cancel with
  | false => exact .refl _
  | true => exact quiet_giveUp _ i

/-- Retiring comes to the same before and after a quiet change. -/
theorem Quiet.retire {l m : Lifecycle} (h : l.Quiet m) (i : Nat) (who : Retirer) :
    (l.retire i who false).Quiet (m.retire i who false) where
  now := h.now
  limits := h.limits
  phase := h.phase
  active := h.active
  pending := by rw [retire_pending, retire_pending, h.pending]
  journal := by simp only [retire_journal, isPending, h.pending, h.journal]
  drains := h.drains
  invocations := h.invocations

theorem quiet_endReconcile (l : Lifecycle) (i : Nat) (warning : Option String) :
    (l.retire i .newcomer false).Quiet (l.endReconcile i warning) := by
  refine (quiet_retire l i .newcomer true).trans ?_
  unfold endReconcile
  cases warning with
  | none => exact .refl _
  | some text =>
    dsimp only
    split
    · exact quiet_say _ _ _ _
    · exact .refl _

theorem quiet_endDrain (l : Lifecycle) (i : Nat) (v : Invocation) :
    ({ l with drains := l.drains.filter (· ≠ i) }.retire i .drain false).Quiet
      (l.endDrain i v) := by
  unfold endDrain
  dsimp only
  split
  · exact Quiet.foldl (fun l e => (quiet_note l _ _).trans (quiet_sayAll _ _ _ _)) _ _
  · exact .refl _

end Lifecycle

end EventUpload
