import EventUpload.Proofs.Lifecycle.Registered
import EventUpload.Proofs.Lifecycle.WaitingMessages

/-!
# What an invocation is told about its sinks

An invocation is told about its sinks twice: which they are when it starts, and that their uploads are
over when it ends. `noticesTo` is all that it is told of this kind. Nobody tells it anything but the
call that starts it and the call at the end of it, with the wait that this one may be
(`Proceeds.noticesTo`): so an active invocation has been told which sinks it has, and nothing else
(`Hasty.announced`); and once nobody waits for the end of it any more it is told nothing again
(`untold_of_proceeds`).

As with the words of a wait (`Lifecycle/WaitingMessages`) most operations are done with by what they
leave out of the log. Three are left: to start, to end, and to look at a waiting end. Each of them only
tells the invocation that it is for, and the theorems about silence come from there being no such call.

`Hasty.announced` needs the call with which the invocation has started, as the announcement has its
instant and the names that were handed over then. That call is found by going back from the invocation
(`Lifecycle/Registered`), and forward again nothing was added.
-/

set_option autoImplicit false

namespace EventUpload

open Relation (ReflTransGen)
open Lifecycle

/-- A notice to an invocation about its sinks. -/
def Posted.isNoticeTo (i : Nat) : Posted → Bool
  | ⟨_, .invocation j, .notice _⟩ => j = i
  | _ => false

/-- Which sinks an invocation has. -/
def announcement (i time : Nat) (names : List String) : Posted :=
  ⟨time, .invocation i, .notice (.announced names)⟩

/-- That the upload to a sink of an invocation is over. -/
def closure (i time : Nat) (name : String) : Posted := ⟨time, .invocation i, .notice (.closed name)⟩

/-- What an invocation was told about its sinks. -/
def Lifecycle.noticesTo (l : Lifecycle) (i : Nat) : List Posted := l.posts (Posted.isNoticeTo i)

theorem apart_isNoticeTo (i : Nat) : Apart (Posted.isNoticeTo i) :=
  ⟨fun _ _ _ => by simp [Posted.isNoticeTo],
   fun _ _ _ => by simp [Posted.isNoticeTo],
   fun _ _ _ => by simp [Posted.isNoticeTo]⟩

namespace Lifecycle

variable {i : Nat}

/-! ## Who tells an invocation nothing -/

theorem noticesTo_note (l : Lifecycle) (whom : Addressee) (remark : Remark) :
    (l.note whom remark).noticesTo i = l.noticesTo i := posts_note (apart_isNoticeTo i) l whom remark

theorem noticesTo_say (l : Lifecycle) (whom : Addressee) (kind : MessageKind) (text : String) :
    (l.say whom kind text).noticesTo i = l.noticesTo i := by
  refine posts_tell_of_false ?_
  cases whom <;> rfl

theorem noticesTo_leaveClosing (l : Lifecycle) : l.leaveClosing.noticesTo i = l.noticesTo i :=
  posts_leaveClosing l

theorem noticesTo_tell_self (l : Lifecycle) (n : Notice) :
    (l.tell (.invocation i) (.notice n)).noticesTo i =
      l.noticesTo i ++ [⟨l.now, .invocation i, .notice n⟩] := by
  rw [noticesTo, posts_tell, List.filter_cons_of_pos (by simp [Posted.isNoticeTo]), List.filter_nil]
  rfl

theorem noticesTo_tell_of_ne {j : Nat} (hji : j ≠ i) (l : Lifecycle) (n : Notice) :
    (l.tell (.invocation j) (.notice n)).noticesTo i = l.noticesTo i :=
  posts_tell_of_false (by simp [Posted.isNoticeTo, hji])

theorem noticesTo_endReconcile (l : Lifecycle) (j : Nat) (warning : Option String) :
    (l.endReconcile j warning).noticesTo i = l.noticesTo i := by
  have hretire : (l.retire j .newcomer true).noticesTo i = l.noticesTo i :=
    posts_retire l j .newcomer true
  unfold endReconcile
  cases warning with
  | none => exact hretire
  | some text =>
    dsimp only
    split
    · exact (noticesTo_say _ _ _ _).trans hretire
    · exact hretire

/-- What a look at the end of an invocation tells is that uploads are over. -/
theorem noticesTo_check_finish {l : Lifecycle} {j start deadline longest word : Nat}
    {noticed : List Bool} {v : Invocation} (hv : l.invocation? j = some v) :
    (l.check (.finish j start deadline noticed longest word)).1.noticesTo i =
      (l.noticeClosed j v noticed).noticesTo i := by
  simp only [check, hv]
  split
  · refine (noticesTo_leaveClosing _).trans ((noticesTo_note _ _ _).trans ?_)
    exact (posts_retire _ j .wait false).trans (posts_sayWarnings (apart_isNoticeTo i) _ j _)
  · split
    · exact (noticesTo_leaveClosing _).trans ((noticesTo_note _ _ _).trans (noticesTo_say _ _ _ _))
    · rfl

/-- Only the wait for the end of an invocation tells it anything. -/
theorem noticesTo_check (l : Lifecycle) {call : Call} (h : call.errand ≠ (i, .wait)) :
    (l.check call).1.noticesTo i = l.noticesTo i := by
  cases call with
  | reconcile index grace deadline =>
    simp only [check]
    split
    · rfl
    · split
      · exact noticesTo_endReconcile l index _
      · rfl
  | finish index start deadline noticed longest nextWord =>
    have hne : index ≠ i := fun heq => h (congrArg (·, Retirer.wait) heq)
    cases hv : l.invocation? index with
    | none =>
      simp only [check, hv]
      exact noticesTo_leaveClosing l
    | some v =>
      rw [noticesTo_check_finish hv]
      exact foldl_keeps (noticesTo · i) (fun l _ => noticesTo_tell_of_ne hne l _) _ l
  | settle index grace deadline ending =>
    simp only [check]
    split
    · exact posts_endSettle l index ending
    · split
      · exact (posts_endSettle _ index ending).trans
          (posts_noteSettled (apart_isNoticeTo i) l index _ grace ending)
      · rfl

theorem noticesTo_settleWithin (l : Lifecycle) (grace : Nat) (ending : Ending) :
    (l.settleWithin grace ending).1.noticesTo i = l.noticesTo i := by
  unfold settleWithin
  split
  · exact noticesTo_check l (by simp [Call.errand])
  · dsimp only
    split <;> rfl

theorem noticesTo_endInstant (l : Lifecycle) (call : Call) :
    (l.endInstant call).1.noticesTo i = l.noticesTo i := by
  cases call with
  | finish index start deadline noticed longest nextWord =>
    simp only [endInstant]
    split
    · exact noticesTo_say _ _ _ _
    · rfl
  | reconcile index grace deadline => rfl
  | settle index grace deadline ending => rfl

theorem Stirs.noticesTo {l m : Lifecycle} (h : l.Stirs m) : m.noticesTo i = l.noticesTo i := by
  cases h with
  | sinks outside hv hgo => exact posts_sayErrors (apart_isNoticeTo i) _ _ _
  | strays strays outside errors => exact posts_sayErrors (apart_isNoticeTo i) _ _ _
  | deed j d => rfl
  | drain hi => exact posts_settleDrain (apart_isNoticeTo i) l _
  | time hle => rfl
  | limits limits => rfl

/-- The end of another invocation tells an invocation nothing. -/
theorem noticesTo_finish {l : Lifecycle} (mode : UploadMode) (h : l.active ≠ some i) :
    (l.finish mode).1.noticesTo i = l.noticesTo i := by
  unfold finish
  split
  · rfl
  · split
    · rfl
    · next j hj =>
      have hne : j ≠ i := fun heq => h (hj.trans (congrArg some heq))
      have hclosed : (({ l with phase := .closing, active := none } : Lifecycle).closeAndPublish j mode
          none).noticesTo i = l.noticesTo i :=
        posts_closeAndPublish (apart_isNoticeTo i) { l with phase := .closing, active := none } j mode
          none
      dsimp only
      split
      · exact (noticesTo_leaveClosing _).trans hclosed
      · split
        · refine (noticesTo_check _ ?_).trans hclosed
          simpa [Call.errand] using hne
        · refine (noticesTo_leaveClosing _).trans ((noticesTo_note _ _ _).trans ?_)
          exact (foldl_keeps (noticesTo · i) (fun l _ => noticesTo_tell_of_ne hne l _) _ _).trans hclosed

/-- **Making a call** tells an invocation nothing, unless it starts it or ends it. -/
theorem noticesTo_make (c : HostCall) (l : Lifecycle) : (c.make l).1.noticesTo i = l.noticesTo i ∨
    (∃ ids sinks, c = .start ids sinks ∧ l.phase = .waitingPrevious ∧ l.invocations.length = i) ∨
      ∃ mode, c = .finish mode ∧ l.phase = .active ∧ l.active = some i := by
  -- Only a start and an accepted end of this very invocation speak to its sinks; all other calls leave
  -- the notices alone.
  cases c with
  | before =>
    refine .inl ?_
    simp only [HostCall.make, before]
    split
    · rfl
    · split
      · rfl
      · exact noticesTo_check { l with phase := .waitingPrevious } (by simp [Call.errand])
  | start ids sinks =>
    by_cases hp : l.phase = .waitingPrevious
    · by_cases hi : l.invocations.length = i
      · exact .inr (.inl ⟨ids, sinks, rfl, hp, hi⟩)
      · refine .inl ?_
        simp only [HostCall.make, start]
        split
        · rfl
        · exact (noticesTo_tell_of_ne hi _ _).trans (noticesTo_note _ _ _)
    · have hrefused : l.start ids sinks = (l.letGo sinks, l.refuse .start) := if_pos hp
      exact .inl (congrArg (fun p : Lifecycle × Progress => p.1.noticesTo i) hrefused)
  | finish mode =>
    by_cases ha : l.active = some i
    · by_cases hp : l.phase = .active
      · exact .inr (.inr ⟨mode, rfl, hp, ha⟩)
      · have hrefused : l.finish mode = (l, l.refuse .finish) := if_pos hp
        exact .inl (congrArg (fun p : Lifecycle × Progress => p.1.noticesTo i) hrefused)
    · exact .inl (noticesTo_finish mode ha)
  | abandon =>
    refine .inl ?_
    simp only [HostCall.make, abandon]
    split <;> rfl
  | crash =>
    refine .inl ?_
    simp only [HostCall.make, crash]
    split
    · rfl
    · exact (noticesTo_settleWithin _ _ _).trans
        (posts_abortActive (apart_isNoticeTo i) { l with phase := .crashed } .crash)
  | shutdown =>
    refine .inl ?_
    simp only [HostCall.make, shutdown]
    split
    · rfl
    · exact (noticesTo_settleWithin _ _ _).trans (posts_abortActive (apart_isNoticeTo i) l .shutdown)

end Lifecycle

namespace Run

variable {r s : Run} {i : Nat} {v : Invocation}

/-- **Who tells an invocation about its sinks**: as long as nobody waits for the end of it, only the call
that starts it and the call that ends it. -/
theorem Proceeds.noticesTo (h : r.Proceeds s) (hes : (i, .wait) ∉ r.errands) :
    s.lifecycle.noticesTo i = r.lifecycle.noticesTo i ∨
      (∃ ids sinks, s = r.call (HostCall.start ids sinks).make none ∧
        r.lifecycle.phase = .waitingPrevious ∧ r.lifecycle.invocations.length = i) ∨
      ∃ mode, s = r.call (HostCall.finish mode).make none ∧ r.lifecycle.phase = .active ∧
        r.lifecycle.active = some i := by
  cases h with
  | idles hs =>
    refine .inl ?_
    cases hs with
    | stirs hs => exact hs.noticesTo
    | look hcalls =>
      rw [after_none]
      refine noticesTo_check _ fun herrand => hes ?_
      rw [errands_split hcalls]
      exact List.mem_append_right _ (List.mem_append_left _ (List.mem_singleton.mpr herrand.symm))
    | word hcalls => exact noticesTo_endInstant _ _
    | @refused c _ hc hp =>
      obtain ⟨⟨strays, hsame⟩, -⟩ := refused_call hc hp
      rw [hsame]
      rfl
    | forget => rfl
  | call c _ _ =>
    rw [lifecycle_call]
    rcases noticesTo_make c r.lifecycle with hsame | ⟨ids, sinks, rfl, hstart⟩ | ⟨mode, rfl, hend⟩
    · exact .inl hsame
    · exact .inr (.inl ⟨ids, sinks, rfl, hstart⟩)
    · exact .inr (.inr ⟨mode, rfl, hend⟩)
  | drop hrole hd =>
    rw [(hd.finish hrole).1]
    exact .inl (noticesTo_leaveClosing r.lifecycle)

/-- Whoever waits for the end of an invocation has published it. -/
theorem Hasty.published_of_errand (h : r.Hasty) (hi : (i, .wait) ∈ r.errands) :
    .published i ∈ r.lifecycle.journal := by
  obtain ⟨⟨_, hledger⟩, -⟩ := h.voiced
  exact (hledger.waits i hi).1

/-- As long as an invocation is active nobody waits for anything. -/
theorem Hasty.roles_of_active (h : r.Hasty) (ha : r.lifecycle.active = some i) : r.roles = [] := by
  by_contra hwaits
  exact absurd ((h.orderly.alone hwaits).symm.trans ha) (by simp)

/-- So the lifecycle may be looked at by itself. -/
theorem Hasty.by_itself (h : r.Hasty) (ha : r.lifecycle.active = some i) :
    (ofLifecycle r.lifecycle).Hasty := by
  have hcount : r.waitingCount = 0 := by
    refine List.countP_eq_zero.mpr fun p hp => ?_
    have hrole := List.filterMap_eq_nil_iff.mp (h.roles_of_active ha) p hp
    cases p with
    | waiting call patience => exact absurd hrole (by simp [Pending.role?])
    | finished reply => simp [Pending.isWaiting]
  exact h.of_proceeds (h.closed.forgotten .refl hcount)

/-- The active invocation is published when the host asks for the end of it. -/
theorem Hasty.published_finish (h : r.Hasty) (ha : r.lifecycle.active = some i) (mode : UploadMode) :
    (r.call (HostCall.finish mode).make none).Hasty ∧
      .published i ∈ (r.call (HostCall.finish mode).make none).lifecycle.journal := by
  obtain ⟨hphase, hlt, -, -⟩ := h.orderly.active i ha
  have hfree : r.IsFree := fun role hr => absurd hr (by simp [h.roles_of_active ha])
  have hs : r.Proceeds (r.call (HostCall.finish mode).make none) := .call (.finish mode) hfree trivial
  have hv := List.getElem?_eq_getElem hlt
  obtain ⟨w, hw, -⟩ := h.roster_of_proceeds (.single hs) hv
  refine ⟨h.proceeds hs, (hs.orderly h.orderly).published i (List.getElem?_eq_some_iff.mp hw).1
    |>.resolve_left fun hactive => ?_⟩
  rw [lifecycle_call] at hactive
  have hnone := active_finish hphase ha mode (invocation?_ended hv mode)
  exact absurd (hnone.symm.trans hactive) (by simp)

/-- **An invocation that nobody waits for any more is told nothing again**, whatever happens. -/
theorem untold_of_proceeds (hr : r.Hasty) (hi : Unattended i (r.lifecycle, r.errands))
    (hs : ReflTransGen Proceeds r s) : s.lifecycle.noticesTo i = r.lifecycle.noticesTo i := by
  induction hs with
  | refl => rfl
  | @tail t s hrt hs ih =>
    have ht := hr.of_proceeds hrt
    obtain ⟨hpub, hes⟩ := unattended_of_proceeds hr hi hrt
    rcases hs.noticesTo hes with hsame | ⟨ids, sinks, -, -, hlength⟩ | ⟨mode, -, -, hactive⟩
    · exact hsame.trans ih
    · -- It has started long before.
      have hlt := ht.orderly.started i hpub
      omega
    · exact absurd hpub (ht.orderly.active i hactive).2.2.1

/-- An invocation that has not started was told nothing. -/
theorem Hasty.untold (h : r.Hasty) (hi : r.lifecycle.invocations.length ≤ i) :
    r.lifecycle.noticesTo i = [] := by
  refine h.induct (P := fun r => ∀ i, r.lifecycle.invocations.length ≤ i →
    r.lifecycle.noticesTo i = []) (fun _ _ _ _ => rfl) ?_ i hi
  intro r s hr ih hs i hi
  have hlengths : r.lifecycle.invocations.length ≤ s.lifecycle.invocations.length := by
    have hrosters : r.lifecycle.rosters.length ≤ s.lifecycle.rosters.length := by
      rcases hs.rosters hr with hsame | ⟨ids, sinks, -, hmore⟩
      · rw [hsame]
      · rw [hmore]
        simp
    simpa [Lifecycle.rosters] using hrosters
  have hes : (i, .wait) ∉ r.errands := fun hmem =>
    absurd (hr.orderly.started i (hr.published_of_errand hmem)) (by omega)
  rcases hs.noticesTo hes with hsame | ⟨ids, sinks, rfl, hphase, rfl⟩ | ⟨mode, -, -, hactive⟩
  · exact hsame.trans (ih i (by omega))
  · -- The one that starts is not beyond the invocations any more.
    rw [lifecycle_call] at hi
    have hstarted : ((HostCall.start ids sinks).make r.lifecycle).1.invocations.length =
        r.lifecycle.invocations.length + 1 := by
      simp [HostCall.make, Lifecycle.start, hphase, Operation.phase, Lifecycle.note, Lifecycle.tell]
    omega
  · exact absurd (hr.orderly.active i hactive).2.1 (by omega)

/-- The call that starts an invocation tells it which sinks it has. -/
theorem StartedWith.noticesTo {r₀ : Run} {ids : CommandIds} {sinks : List Sink}
    (h : r₀.StartedWith ids sinks r i) :
    (r₀.call (HostCall.start ids sinks).make none).lifecycle.noticesTo i =
      [announcement i r₀.lifecycle.now (sinks.map Sink.name)] := by
  have hnothing := h.hasty.untold (Nat.le_of_eq h.index)
  rw [lifecycle_call, HostCall.make, Lifecycle.start, if_neg (by simp [h.phase, Operation.phase])]
  dsimp only
  rw [h.index, noticesTo_tell_self, noticesTo_note]
  show r₀.lifecycle.noticesTo i ++ _ = _
  rw [hnothing]
  rfl

/-- **Which sinks it has** is all that an active invocation was told, and it was told when it started. -/
theorem Hasty.announced (h : r.Hasty) (ha : r.lifecycle.active = some i)
    (hv : r.lifecycle.invocation? i = some v) : ∃ r₀ ids sinks, StartedWith r₀ ids sinks r i ∧
      v.roster = (ids, rosterOf sinks) ∧
      r.lifecycle.noticesTo i = [announcement i r₀.lifecycle.now (sinks.map Sink.name)] := by
  obtain ⟨r₀, ids, sinks, hstarted, hroster⟩ := h.registered hv
  refine ⟨r₀, ids, sinks, hstarted, hroster, ?_⟩
  rw [← hstarted.noticesTo]
  have hfirst : (r₀.call (HostCall.start ids sinks).make none).Hasty :=
    hstarted.hasty.proceeds (.call _ hstarted.admits hstarted.fresh)
  have hlength : i < (r₀.call (HostCall.start ids sinks).make none).lifecycle.invocations.length := by
    simp [lifecycle_call, HostCall.make, Lifecycle.start, hstarted.phase, Operation.phase,
      Lifecycle.note, Lifecycle.tell, hstarted.index]
  have hnew : .published i ∉ r.lifecycle.journal := (h.orderly.active i ha).2.2.1
  have hlater := hstarted.later
  clear hstarted ha hv hroster
  -- As long as it has not been published, the invocation was told nothing more.
  induction hlater with
  | refl => rfl
  | @tail t s hrt hs ih =>
    have ht := hfirst.of_proceeds hrt
    have hunpublished : .published i ∉ t.lifecycle.journal := fun hpub =>
      hnew (hs.published ht.orderly hpub)
    have hes : (i, .wait) ∉ t.errands := fun hmem => hunpublished (ht.published_of_errand hmem)
    obtain ⟨u, hu, -⟩ := hfirst.roster_of_proceeds hrt (List.getElem?_eq_getElem hlength)
    have hlt : i < t.lifecycle.invocations.length := (List.getElem?_eq_some_iff.mp hu).1
    rcases hs.noticesTo hes with hsame | ⟨_, _, -, -, heq⟩ | ⟨mode, rfl, hphase, hactive⟩
    · exact hsame.trans (ih ht hunpublished)
    · omega
    · exact absurd (ht.published_finish hactive mode).2 hnew

/-- The call at the end of the active invocation, answered: the run is as hasty as before, and nobody waits
for the end of the invocation any more. -/
theorem Hasty.performed (h : r.Hasty) (ha : r.lifecycle.active = some i) (mode : UploadMode) :
    (ofLifecycle (perform r.lifecycle (HostCall.finish mode).make none).1).Hasty ∧
      Unattended i ((perform r.lifecycle (HostCall.finish mode).make none).1, []) := by
  obtain ⟨hasked, hpub⟩ := (h.by_itself ha).published_finish ha mode
  have hreplied := hasked.closed.perform .refl
  have hpublished := hasked.published_of_proceeds hreplied hpub
  exact ⟨hasked.of_proceeds hreplied, hpublished, by simp⟩

end Run

end EventUpload
