import EventUpload.Proofs.Lifecycle.Active
import EventUpload.Proofs.Lifecycle.Retirement

/-!
# What a genuine run comes to

In a genuine run everything that happens is prepared and then concludes at most one thing:
`Run.Idles.concludes` says so of what goes on by itself, and `Run.Admits.comesTo` of what the host asks
for. What is to be shown of warnings and of the pending place need not look at the operations any more.

An operation of the host that ends something does several things in a row, and their order is what
`ComesTo` records: the stream is closed and the uploads are published before anybody waits for them, so
by the time of the first look somebody answers for them. A conclusion may come in the same operation,
because the look may find that there is nothing to wait for.

That at most one thing is concluded by one operation of the host depends on there being one call at a
time. Uploads are published while no call is waiting, which is why `Prepares.publish` has no errands;
the hypotheses about `Orderly` in this module say no more than that. What the errands of the waiting
calls have to do with it is not needed for a step of the drains, where any number of calls may be
waiting.
-/

set_option autoImplicit false

namespace EventUpload

open Relation (ReflTransGen)
open Lifecycle

namespace Lifecycle

variable {l m : Lifecycle} {es : List (Nat × Retirer)} {i : Nat}
  {p q x : Lifecycle × List (Nat × Retirer)}

/-- Something was prepared, and then at most one thing was concluded. -/
def ComesTo (p q : Lifecycle × List (Nat × Retirer)) : Prop :=
  ∃ x ws, ReflTransGen Prepares p x ∧ Concludes x q ws

namespace ComesTo

theorem after (h : ComesTo x q) (hp : ReflTransGen Prepares p x) : ComesTo p q := by
  obtain ⟨y, ws, hx, hq⟩ := h
  exact ⟨y, ws, hp.trans hx, hq⟩

/-- A call is answered, and nobody is warned. -/
theorem hush (h : l.Hush m) {progress : Progress} (hprogress : progress.errands = []) :
    ComesTo (l, es) (m, es ++ progress.errands) := by
  rw [hprogress, List.append_nil]
  exact ⟨_, _, .refl, .hush h⟩

/-- A call that has gone on its errand is looked at for the first time. -/
theorem check {call : Call} (h : ReflTransGen Prepares p (l, es ++ [call.errand])) :
    ComesTo p ((l.check call).1, es ++ (l.check call).2.errands) := by
  obtain ⟨ws, hcheck⟩ := concludes_check l call es []
  rw [List.append_nil] at hcheck
  exact ⟨_, ws, h, hcheck⟩

end ComesTo

/-! ## Before an invocation

The start and the abandonment answer at once. The call before an invocation may have an errand, and is
looked at as soon as it has. -/

theorem comesTo_before (l : Lifecycle) (es : List (Nat × Retirer)) :
    ComesTo (l, es) (l.before.1, es ++ l.before.2.errands) := by
  unfold before
  split
  · exact .hush (.refl l) rfl
  · have haside := (Hush.refl l).aside l.now l.limits .waitingPrevious l.active l.strays l.outside
    dsimp only
    split
    · exact .hush haside rfl
    · next i v _ =>
      have hwaiting : Prepares (l, es) ({ l with phase := .waitingPrevious }, es) := .hush haside
      exact .check ((ReflTransGen.single hwaiting).tail (.ask (i, .newcomer) (.inl rfl)))

theorem comesTo_start (l : Lifecycle) (es : List (Nat × Retirer)) (ids : CommandIds)
    {sinks : List Sink} (h : ∀ s ∈ sinks, s.Sound) :
    ComesTo (l, es) ((l.start ids sinks).1, es ++ (l.start ids sinks).2.errands) := by
  unfold start
  split
  · exact .hush ((Hush.refl l).aside l.now l.limits l.phase l.active _ l.outside) rfl
  · have hstarted : Prepares (l, es) ({ l with
        invocations := l.invocations ++ [⟨ids, .new sinks, .blocking⟩] }, es) := .start h
    refine ComesTo.after (.hush ?_ rfl) (.single hstarted)
    exact (((Hush.refl _).aside _ _ .active (some l.invocations.length) _ _).trans
      (hush_note _ _ _)).trans (hush_notice _ _ _)

theorem comesTo_abandon (l : Lifecycle) (es : List (Nat × Retirer)) :
    ComesTo (l, es) (l.abandon.1, es ++ l.abandon.2.errands) := by
  unfold abandon
  split
  · exact .hush (.refl l) rfl
  · exact .hush ((Hush.refl l).aside l.now l.limits .idle l.active l.strays l.outside) rfl

/-! ## The end of an invocation -/

/-- The stream of the active invocation is closed and its uploads are published. -/
theorem prepares_closeAndPublish {mode : UploadMode} {drains : List Nat}
    {es : List (Nat × Retirer)} (h : Orderly l []) (ha : l.active = some i) (phase : Phase)
    (ending : Option Ending) (hheir : l.Heir i mode drains es) :
    ReflTransGen Prepares (l, [])
      ({ ({ l with phase := phase, active := none } : Lifecycle).closeAndPublish i mode ending with
        drains := l.drains ++ drains }, es) := by
  obtain ⟨-, hlt, hnew, -⟩ := h.active i ha
  have haside := (Hush.refl l).aside l.now l.limits phase none l.strays l.outside
  have hclosed := haside.trans (hush_closeStream { l with phase := phase, active := none } i ending)
  have hlength : ∀ m : Lifecycle, l.Hush m → i < m.invocations.length := fun m hm => by
    rw [← hm.invocations.length_eq]
    exact hlt
  have hheir' : ∀ m : Lifecycle, l.Hush m → m.Heir i mode drains es := fun m hm => by
    cases hheir with
    | wait => exact .wait
    | drain hmode => exact .drain hmode
    | ending => exact .ending
    | nobody hollow => exact .nobody ((hm.isHollow i).mpr hollow)
  refine (ReflTransGen.single (.hush hclosed)).tail ?_
  have hpublish := Prepares.publish (hlength _ hclosed) (by rw [hclosed.journal]; exact hnew)
    (fun j hj => ?_) (hheir' _ hclosed)
  · rw [hclosed.drains] at hpublish
    exact hpublish
  · rw [hclosed.pending] at hj
    exact (hclosed.isHollow j).mpr (h.vacant (by simp [ha]) j hj)

/-- Without a wait the drain answers for the uploads, and the sinks are said to be closed. -/
theorem hush_noteEnded (l : Lifecycle) (i : Nat) (v : Invocation) :
    ({ l with drains := l.drains ++ [i] } : Lifecycle).Hush
      (({ v.sinks.foldl (fun l s => l.tell (.invocation i) (.notice (.closed s.name))) l with
        drains := (v.sinks.foldl (fun l s =>
          l.tell (.invocation i) (.notice (.closed s.name))) l).drains ++ [i] } :
            Lifecycle).noteFinished i v).leaveClosing := by
  have hfold := hush_foldl (fun (l : Lifecycle) (s : Sink) =>
    hush_notice l (.invocation i) (.closed s.name)) v.sinks l
  refine Hush.trans ?_ ((hush_note _ _ _).trans (hush_leaveClosing _))
  exact {
    pending := hfold.pending
    journal := hfold.journal
    drains := by rw [hfold.drains]
    invocations := hfold.invocations
    warnings := hfold.warnings
    sound := fun hs => (hfold.sound (hs.of_invocations rfl)).of_invocations rfl }

/-- The end of an invocation prepares, by publishing its uploads with somebody to answer for them, and
then concludes at most one wait, its own. -/
theorem comesTo_finish (h : Orderly l []) (hp : l.phase = .active) (mode : UploadMode) :
    ComesTo (l, []) ((l.finish mode).1, [] ++ (l.finish mode).2.errands) := by
  obtain ⟨i, v, ha, hv⟩ := h.active_of_phase hp
  have hended := invocation?_ended hv mode
  have hdrains : (l.ended i mode).drains = l.drains :=
    (quiet_closeStream { l with phase := .closing, active := none } i none).drains
  have hprepares {drains : List Nat} {es : List (Nat × Retirer)} (hheir : l.Heir i mode drains es) :
      ReflTransGen Prepares (l, [])
        ({ l.ended i mode with drains := (l.ended i mode).drains ++ drains }, es) := by
    rw [hdrains]
    exact prepares_closeAndPublish h ha .closing none hheir
  have heq : ({ l with phase := .closing, active := none } :
      Lifecycle).closeAndPublish i mode none = l.ended i mode := rfl
  unfold finish
  rw [if_neg (by simp [hp, Operation.phase])]
  simp only [ha, heq, hended]
  generalize l.ended i mode = n at hprepares
  cases mode with
  | blocking =>
    have hwait := hprepares .wait
    have hnil : ({ n with drains := n.drains ++ [] } : Lifecycle) = n := by rw [List.append_nil]
    rw [hnil] at hwait
    exact .check hwait
  | nonBlocking => exact .after (.hush (hush_noteEnded n i _) rfl) (hprepares (.drain (by simp)))
  | fullyAsync => exact .after (.hush (hush_noteEnded n i _) rfl) (hprepares (.drain (by simp)))

/-! ## The end of the process

An active invocation is closed first. What the call waits for then is its uploads, or what was pending
if there was none. -/

theorem outstanding?_closeAndPublish (l : Lifecycle) (i : Nat) (mode : UploadMode)
    (ending : Option Ending) {j : Nat} {v : Invocation}
    (ho : (l.closeAndPublish i mode ending).outstanding? = some (j, v)) : j = i :=
  (Option.some.inj (outstanding?_eq_some.mp ho).1).symm

/-- Without sinks there is nothing outstanding, and without anything outstanding there are no
sinks. -/
theorem isHollow_of_closeAndPublish {mode : UploadMode} {ending : Option Ending} {phase : Phase}
    (ho : (({ l with phase := phase, active := none } : Lifecycle).closeAndPublish i mode
      ending).outstanding? = none) : l.IsHollow i := by
  have hvacant := outstanding?_eq_none.mp ho i rfl
  have hclosed := hush_closeStream { l with phase := phase, active := none } i ending
  have hbefore := (hclosed.isHollow i).mp ((Orderly.isHollow_publish _ i mode i).mp hvacant)
  exact hbefore

/-- The wait at the end of the process, for whatever is outstanding. -/
theorem comesTo_settleWithin (l : Lifecycle) (es : List (Nat × Retirer)) (grace : Nat)
    (ending : Ending) : ComesTo (l, es)
      ((l.settleWithin grace ending).1, es ++ (l.settleWithin grace ending).2.errands) := by
  unfold settleWithin
  split
  · next i v _ => exact .check (.single (.ask (i, .ending) (.inr rfl)))
  · refine .hush ?_ rfl
    split
    · exact (Hush.refl l).aside l.now l.limits .idle l.active l.strays l.outside
    · exact .refl l

/-- The active invocation is closed, and its uploads are waited for. -/
theorem comesTo_abort (h : Orderly l []) (ha : l.active = some i) (phase : Phase) (ending : Ending)
    (grace : Nat) : ComesTo (l, [])
      ((({ l with phase := phase, active := none } : Lifecycle).closeAndPublish i .blocking
        (some ending) |>.settleWithin grace ending).1,
        [] ++ (({ l with phase := phase, active := none } : Lifecycle).closeAndPublish i .blocking
          (some ending) |>.settleWithin grace ending).2.errands) := by
  have hdrains : (({ l with phase := phase, active := none } : Lifecycle).closeAndPublish i
      .blocking (some ending)).drains = l.drains ++ [] := by
    rw [List.append_nil]
    exact (quiet_closeStream { l with phase := phase, active := none } i (some ending)).drains
  have hprepares {es : List (Nat × Retirer)} (hheir : l.Heir i .blocking [] es) :
      ReflTransGen Prepares (l, []) (({ l with phase := phase, active := none } :
        Lifecycle).closeAndPublish i .blocking (some ending), es) := by
    have hclosed := prepares_closeAndPublish h ha phase (some ending) hheir
    rwa [← hdrains] at hclosed
  cases ho : (({ l with phase := phase, active := none } : Lifecycle).closeAndPublish i .blocking
      (some ending)).outstanding? with
  | none =>
    exact (comesTo_settleWithin _ [] grace ending).after
      (hprepares (.nobody (isHollow_of_closeAndPublish ho)))
  | some found =>
    -- The errand came with the publishing, so it is not asked for again.
    obtain ⟨j, v⟩ := found
    obtain rfl := outstanding?_closeAndPublish _ _ _ _ ho
    simp only [settleWithin, ho]
    exact .check (hprepares .ending)

/-- The end of the process closes the active invocation, if there is one, and waits. -/
theorem comesTo_ending {roles : List Role} (h : Orderly l roles) (hes : roles = [] → es = [])
    (phase : Phase) (ending : Ending) (grace : Nat) : ComesTo (l, es)
      (((({ l with phase := phase } : Lifecycle).abortActive ending).settleWithin grace ending).1,
        es ++ ((({ l with phase := phase } : Lifecycle).abortActive ending).settleWithin grace
          ending).2.errands) := by
  rcases Option.eq_none_or_eq_some l.active with ha | ⟨i, ha⟩
  · rw [Orderly.abortActive_of_none (l := { l with phase := phase }) ha]
    have haside := (Hush.refl l).aside l.now l.limits phase l.active l.strays l.outside
    exact (comesTo_settleWithin _ es grace ending).after (.single (.hush haside))
  · rw [Orderly.abortActive_of_some (l := { l with phase := phase }) ha]
    obtain rfl := h.roles_eq_nil_of_active ha
    obtain rfl := hes rfl
    exact comesTo_abort h ha phase ending grace

end Lifecycle

namespace Run

variable {r s : Run}

theorem errands_split {earlier later : List Pending} {p : Pending}
    (h : r.calls = earlier ++ p :: later) : r.errands =
      earlier.filterMap Pending.errand? ++
        ([p].filterMap Pending.errand? ++ later.filterMap Pending.errand?) := by
  rw [errands, h, ← List.filterMap_append, ← List.filterMap_append]
  rfl

theorem errands_after_none (l : Lifecycle) (progress : Progress) :
    [(after l progress none).2].filterMap Pending.errand? = progress.errands := by
  cases progress <;> rfl

theorem errands_call (r : Run) (c : HostCall) :
    (r.call c.make none).errands = r.errands ++ (c.make r.lifecycle).2.errands := by
  have h := errands_after_none (c.make r.lifecycle).1 (c.make r.lifecycle).2
  rw [← h, errands, errands, ← List.filterMap_append]
  rfl

/-- Whoever has no role has no errand. -/
theorem errands_eq_nil (h : r.roles = []) : r.errands = [] := by
  refine List.filterMap_eq_nil_iff.mpr fun p hp => ?_
  have hrole := List.filterMap_eq_nil_iff.mp h p hp
  cases p with
  | waiting call patience => exact absurd hrole (by simp [Pending.role?])
  | finished reply => rfl

/-- **While nothing is accepted** at most one thing is concluded at a time. -/
theorem Idles.concludes (h : r.Idles s) :
    ∃ ws, Concludes (r.lifecycle, r.errands) (s.lifecycle, s.errands) ws := by
  cases h with
  | stirs hs =>
    rcases hs.hush_or with hhush | ⟨i, hi, rfl⟩
    · exact ⟨_, .hush hhush⟩
    · unfold settleDrain
      split
      · next v hv =>
        split
        · next hdone =>
          obtain ⟨texts, hretires⟩ := retires_endDrain hv hdone
          exact ⟨_, .drain hi hretires⟩
        · exact ⟨_, .hush (.refl _)⟩
      · exact ⟨_, .hush (.refl _)⟩
  | @look earlier later call hcalls =>
    rw [errands_split hcalls, after_none,
      errands_split (r := ⟨_, earlier ++ _ :: later⟩) rfl, errands_after_none]
    exact concludes_check r.lifecycle call _ _
  | @word earlier later call hcalls =>
    have herrand : (r.lifecycle.endInstant call).2.errand = call.errand := by
      unfold Lifecycle.endInstant
      split
      · split <;> rfl
      · rfl
    rw [errands_split hcalls, errands_split (r := ⟨_, earlier ++ _ :: later⟩) rfl]
    simp only [List.filterMap_cons, Pending.errand?, herrand]
    exact ⟨_, .hush (hush_endInstant _ _)⟩
  | @refused c operation hc hp =>
    have hrefused := HostCall.refused_of_phase_ne hc hp
    obtain ⟨⟨strays, hsame⟩, -⟩ := refused_call hc hp
    rw [errands_call, hrefused.answer, Progress.errands, List.append_nil, hsame]
    exact ⟨_, .hush ((Hush.refl _).aside _ _ _ _ strays _)⟩
  | forget =>
    have herrands : Run.errands { r with calls := r.calls.filter Pending.isWaiting } = r.errands := by
      simp only [errands, List.filterMap_filter]
      refine List.filterMap_congr fun p _ => ?_
      cases p <;> rfl
    rw [herrands]
    exact ⟨_, .hush (.refl _)⟩

/-- **What the host asks for** is prepared, and then at most one thing is concluded. -/
theorem Admits.comesTo {c : HostCall} (hc : r.Admits c) (hfresh : c.Fresh)
    (ho : Orderly r.lifecycle r.roles) : ComesTo (r.lifecycle, r.errands)
      ((r.call c.make none).lifecycle, (r.call c.make none).errands) := by
  rw [lifecycle_call, errands_call]
  cases c with
  | before => exact comesTo_before _ _
  | start ids sinks => exact comesTo_start _ _ ids fun s hs => (hfresh s hs).sound
  | abandon => exact comesTo_abandon _ _
  | finish mode =>
    by_cases hp : r.lifecycle.phase = .active
    · have hnil := ho.roles_eq_nil hc (by rw [hp]; simp)
      rw [hnil] at ho
      rw [errands_eq_nil hnil]
      exact comesTo_finish ho hp mode
    · have hrefused : r.lifecycle.finish mode = (r.lifecycle, r.lifecycle.refuse .finish) := if_pos hp
      show ComesTo _ ((r.lifecycle.finish mode).1, _ ++ (r.lifecycle.finish mode).2.errands)
      rw [hrefused]
      exact .hush (.refl _) rfl
  | crash =>
    simp only [HostCall.make, Lifecycle.crash]
    split
    · exact .hush (.refl _) rfl
    · exact comesTo_ending ho errands_eq_nil .crashed .crash _
  | shutdown =>
    simp only [HostCall.make, Lifecycle.shutdown]
    split
    · exact .hush (.refl _) rfl
    · exact comesTo_ending ho errands_eq_nil r.lifecycle.phase .shutdown _

end Run

end EventUpload
