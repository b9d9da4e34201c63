import EventUpload.Proofs.Lifecycle.BlockingEnd
import EventUpload.Proofs.Lifecycle.Notices

/-!
# What an invocation is told of its end

The end of an invocation tells it which uploads are over. One that does not wait says so of every sink
at once. One that waits says it of a sink when it finds that its upload has ended: as the run stops at
every instant at which something ends (`Waiting`), that is the instant at which it has ended, or the
instant of the call if it had ended before. What is reported is read off the same look: whoever is told
to be over is reported with an outcome, and whoever is not is reported as pending (`Hasty.kept_posted`).

The induction is over the wait, millisecond by millisecond, and the invariant is about two things that
must not drift apart: the flags in the call, which say of whom it has been told, and the notices in the
log (`Hears`). One look adds to both alike (`closures_look`). Notices are compared up to their order,
because several uploads may end at the same instant, and which of them is told first is of no
importance.

That every end is noticed at its own instant is `NoticedBy`. An upload that has ended before the time
has been noticed; one that ends just now may or may not have been, depending on whether the call was
looked at since. A wait that is cut by its cap looks once more before it is answered, so what ends
together with the cap is told as well.

When an upload ends is a plan, as everywhere with blocking ends (`Lifecycle/Closing`). The theorem says
of every plan that is true of the run what is told; `exists_plans` says that there is one.
-/

set_option autoImplicit false

namespace EventUpload

open List (Forall₂)
open Relation (ReflTransGen)
open Lifecycle

/-! ## The notices of uploads

Two lists are compared, the notices that have been posted and the ends that have been noticed. The flags
are in the order of the sinks and the notices in the order of time. -/

/-- The notice of an upload, if it has been noticed to be over: it has the instant at which it ended. -/
def Upload.closure? (u : Upload) (i base : Nat) (noticed : Bool) : Option Posted :=
  if noticed then u.ending.map fun p => closure i (base + p.1) u.name else none

/-- The notices of the uploads that have been noticed to be over. -/
def closures (i base : Nat) (us : List Upload) (noticed : List Bool) : List Posted :=
  (List.zipWith (Upload.closure? · i base) us noticed).reduceOption

/-- Which uploads are reported to be over. -/
def Report.over (report : Report) : List Bool := report.outcomes.map fun o => o.status ≠ .pending

namespace Upload

/-- What is seen of the sink is how the upload has ended. -/
structure Tells (u : Upload) (time : Nat) (s : Sink) : Prop where
  name : s.name = u.name
  seen : ∀ o, s.seen.done = some o → ∃ t, u.ending = some (t, o) ∧ t ≤ time

theorem Shows.tells {u : Upload} {time : Nat} {s : Sink} (h : u.Shows time s) : u.Tells time s := by
  refine ⟨h.name, fun o ho => ?_⟩
  rw [h.seen] at ho
  obtain ⟨t, o', he, hle⟩ := isSome_seenAt.mp (by rw [ho]; rfl)
  rw [seenAt_of_ended he hle] at ho
  cases ho
  exact ⟨t, he, hle⟩

/-- The upload has been noticed if it has ended before the time, and only if it has ended by then. -/
structure NoticedBy (u : Upload) (time : Nat) (noticed : Bool) : Prop where
  only : noticed = true → u.EndedBy time
  all : ∀ t o, u.ending = some (t, o) → t < time → noticed = true

end Upload

theorem closures_cons (i base : Nat) (u : Upload) (us : List Upload) (before : Bool)
    (noticed : List Bool) : closures i base (u :: us) (before :: noticed) =
      (u.closure? i base before).toList ++ closures i base us noticed := by
  unfold closures
  rw [List.zipWith_cons_cons]
  cases u.closure? i base before <;> rfl

theorem closures_none (i base : Nat) (us : List Upload) (sinks : List Sink) :
    closures i base us (sinks.map fun _ => false) = [] := by
  induction us generalizing sinks with
  | nil => rfl
  | cons u us ih =>
    cases sinks with
    | nil => rfl
    | cons s sinks => exact ih sinks

/-- The sinks of which a look finds that they are over, and that have not been noticed before. -/
def freshlyOver (sinks : List Sink) (noticed : List Bool) : List (Sink × Bool) :=
  (sinks.zip noticed).filter fun (s, before) => !before && s.seen.done.isSome

/-- **One look.** With what it notices, everything that is over by now has been noticed, each at the instant
at which it ended. -/
theorem closures_look (i base : Nat) {time : Nat} {sinks : List Sink} {us : List Upload}
    {noticed : List Bool}
    (htells : Forall₂ (fun s u => u.Tells time s) sinks us)
    (hnoticed : Forall₂ (fun u before => u.NoticedBy time before) us noticed)
    (hkept : Forall₂ (fun (s : Sink) before => before = true → s.seen.done.isSome = true) sinks noticed) :
    (closures i base us noticed ++
        (freshlyOver sinks noticed).map fun p => closure i (base + time) p.1.name).Perm
      (closures i base us (sinks.map fun s => s.seen.done.isSome)) := by
  -- The upload, its flag and its sink are taken off together; a notice is added for those only that
  -- have ended since the last look.
  induction htells generalizing noticed with
  | nil =>
    cases hnoticed
    exact .refl _
  | @cons s u sinks us hs _ ih =>
    cases hnoticed with
    | @cons _ before _ noticed hbefore hrest =>
    cases hkept with
    | cons hstays hkept =>
    have hmore := ih hrest hkept
    rw [List.map_cons, closures_cons, closures_cons]
    cases hb : before with
    | true =>
      have hskip : freshlyOver (s :: sinks) (true :: noticed) = freshlyOver sinks noticed := rfl
      rw [hskip, hstays hb, List.append_assoc]
      exact hmore.append_left _
    | false =>
      cases hseen : s.seen.done with
      | none =>
        have hskip : freshlyOver (s :: sinks) (false :: noticed) = freshlyOver sinks noticed := by
          simp [freshlyOver, hseen]
        rw [hskip]
        exact hmore
      | some o =>
        have htake : freshlyOver (s :: sinks) (false :: noticed) =
            (s, false) :: freshlyOver sinks noticed := by
          simp [freshlyOver, hseen]
        obtain ⟨t, he, hle⟩ := hs.seen o hseen
        -- It has not been noticed before, so it ends just now.
        obtain rfl : t = time := by
          by_contra hne
          exact absurd (hbefore.all t o he (by omega)) (by simp [hb])
        have hhead : (u.closure? i base (some o).isSome).toList =
            [closure i (base + t) s.name] := by
          rw [hs.name, Upload.closure?, he]
          rfl
        rw [htake, hhead, List.map_cons]
        exact List.perm_middle.trans (hmore.cons _)

/-! ## Looking

`Tells` is weaker than what is known of an upload in general. It speaks only of ends that have been
seen, and this is what a look at the flags uses. -/

namespace Lifecycle

variable {l m : Lifecycle} {i time : Nat} {us : List Upload} {v : Invocation} {noticed : List Bool}

/-- Saying of sinks that their uploads are over. -/
theorem noticesTo_closures {α : Type} (name : α → String) (as : List α) (l : Lifecycle) :
    (as.foldl (fun l a => l.tell (.invocation i) (.notice (.closed (name a)))) l).noticesTo i =
      l.noticesTo i ++ as.map fun a => closure i l.now (name a) := by
  induction as generalizing l with
  | nil => exact (List.append_nil _).symm
  | cons a as ih =>
    rw [List.foldl_cons, ih, noticesTo_tell_self, List.append_assoc]
    rfl

theorem noticesTo_noticeClosed (l : Lifecycle) (i : Nat) (v : Invocation) (noticed : List Bool) :
    (l.noticeClosed i v noticed).noticesTo i = l.noticesTo i ++
      (freshlyOver v.sinks noticed).map fun p => closure i l.now p.1.name :=
  noticesTo_closures (fun p : Sink × Bool => p.1.name) _ l

theorem noticesTo_settle (l : Lifecycle) (i : Nat) : l.settle.noticesTo i = l.noticesTo i :=
  posts_settle (apart_isNoticeTo i) l

/-- What a look at the end of a blocking invocation finds of its uploads when nothing else has been done at
this instant: if an end is there already, the upload has ended. -/
theorem Uploading.tells_at_once (h : l.Uploading i us (Upload.Arrived · l.now 0))
    (hown : Forall₂ (fun own u => u.InTime 0 → Upload.Agrees u 0 own) (l.completions i) us) :
    l.Uploading i us (Upload.Tells · 0) := by
  obtain ⟨v, hv, hmode, hall⟩ := h
  refine ⟨v, hv, hmode, ?_⟩
  rw [completions, hv] at hown
  refine forall₂_of_turns (fun s u outside hs hagrees => ?_) hall (List.forall₂_map_left_iff.mp hown)
  refine ⟨hs.describes.name, fun o ho => ?_⟩
  exact (hs.shows (hagrees Upload.inTime_zero) (.inl (by rw [ho]; rfl))).tells.seen o ho

end Lifecycle

/-! ## While the call waits

`heard` is what the invocation has been told before the call was made, and it stays in front. -/

/-- What the invocation has heard of its uploads while the call at the end of it waits: everything that has
been noticed, and nothing else. -/
def Hears (heard : List Posted) (i base : Nat) (us : List Upload) (m : Lifecycle) (b : Call) (t : Nat) :
    Prop :=
  ∃ noticed closed start deadline longest word, b = .finish i start deadline noticed longest word ∧
    Forall₂ (fun u before => u.NoticedBy t before) us noticed ∧
    m.noticesTo i = heard ++ closed ∧ closed.Perm (closures i base us noticed)

namespace Waiting

variable {r : Run} {i cap e t : Nat} {us : List Upload} {m : Lifecycle} {b : Call}
  {heard : List Posted}

/-- When the call is looked at, the invocation hears of everything that has ended by now. -/
theorem looked (h : Waiting r i cap us e m b t) (hown : ∀ k u, us[k]? = some u → r.CompletesAs i k u)
    (hh : Hears heard i r.lifecycle.now us m b t) : ∃ v closed,
      m.settle.invocation? i = some v ∧ Forall₂ (fun s u => u.Shows t s) v.sinks us ∧
        (m.settle.check b).1.noticesTo i = heard ++ closed ∧
        closed.Perm (closures i r.lifecycle.now us (v.sinks.map fun s => s.seen.done.isSome)) := by
  obtain ⟨noticed, closed, start, deadline, longest, word, rfl, hnoticed, htold, hperm⟩ := hh
  obtain ⟨v, hv, -, hshows⟩ := (h.settled hown).imp fun s u _ hs => hs.shows
  have hnow : m.settle.now = r.lifecycle.now + t := (settle_now m).trans h.now
  have hkept : Forall₂ (fun (s : Sink) before => before = true → s.seen.done.isSome = true) v.sinks
      noticed := by
    refine forall₂_trans hshows hnoticed fun hs hu hbefore => ?_
    rw [hs.seen]
    exact Upload.isSome_seenAt.mpr (hu.only hbefore)
  have hlook := closures_look i r.lifecycle.now (hshows.imp fun s u hs => hs.tells)
    hnoticed hkept
  refine ⟨v, closed ++ (freshlyOver v.sinks noticed).map fun p =>
    closure i (r.lifecycle.now + t) p.1.name, hv, hshows, ?_, ?_⟩
  · rw [noticesTo_check_finish hv, noticesTo_noticeClosed, noticesTo_settle, htold, hnow,
      List.append_assoc]
  · exact (hperm.append_right _).trans hlook

/-- **One millisecond of the wait.** The invocation hears of what ends, and of nothing twice. -/
theorem hears_next {m' : Lifecycle} {b' : Call} {t' : Nat} (h : Waiting r i cap us e m b t)
    (hown : ∀ k u, us[k]? = some u → r.CompletesAs i k u) (hgo : Run.GoesOn m b)
    (h' : Waiting r i cap us (e + 1) m' b' t') (hh : Hears heard i r.lifecycle.now us m b t) :
    Hears heard i r.lifecycle.now us m' b' t' := by
  by_cases hmoves : (r.arrival e).next? = some (r.lifecycle.now + (e + 1))
  · obtain ⟨v, closed, hv, hshows, htold, hperm⟩ := h.looked hown hh
    obtain ⟨noticed, longest, word, rfl⟩ := h.call
    obtain ⟨next, hnext⟩ := hgo
    obtain ⟨hdone, hlt⟩ := not_over_of_check_finish r.lifecycle.now _ noticed longest word hv hnext
    have hcheck := check_finish_waiting r.lifecycle.now _ noticed longest word hv hdone hlt
    -- What was seen at the last look is what has been noticed.
    have hrun := Run.arrival_of_next hmoves
    rw [h.run, Run.moved_awaiting (congrArg Prod.snd hcheck), h'.run] at hrun
    obtain ⟨rfl, rfl⟩ := Run.awaiting_inj hrun
    obtain rfl : t' = e + 1 := Nat.add_left_cancel h'.now.symm
    obtain ⟨word', hcall, -⟩ := endInstant_finish r.lifecycle.now (r.lifecycle.now + cap)
      (v.sinks.map fun s => s.seen.done.isSome) longest word (m.settle.check (.finish i r.lifecycle.now
        (r.lifecycle.now + cap) noticed longest word)).1 i
    refine ⟨_, closed, _, _, _, _, hcall, ?_, ?_, hperm⟩
    · have hboth := (List.forall₂_and_left (p := (· ∈ us)) us v.sinks).mpr ⟨fun u hu => hu, hshows.flip⟩
      refine List.forall₂_map_right_iff.mpr (hboth.imp fun u s ⟨hu, hs⟩ => ?_)
      rw [hs.seen]
      refine ⟨fun hsome => ?_, fun time o he hbefore => Upload.isSome_seenAt.mpr ⟨time, o, he, ?_⟩⟩
      · obtain ⟨time, o, he, hle⟩ := Upload.isSome_seenAt.mp hsome
        exact ⟨time, o, he, Nat.le_trans hle (Nat.le_succ_of_le h.le)⟩
      · exact h.between u hu time o he (Nat.le_of_lt_succ hbefore)
    · exact (noticesTo_endInstant _ _).trans htold
  · have hstay := Run.arrival_of_not_next hmoves
    rw [h'.run, h.run] at hstay
    obtain ⟨rfl, rfl⟩ := Run.awaiting_inj hstay
    obtain rfl : t' = t := Nat.add_left_cancel (h'.now.symm.trans h.now)
    exact hh

/-- **The whole wait**, by induction on its length. -/
theorem hears_of_goesOn (h : Waiting r i cap us 0 m b 0)
    (hown : ∀ k u, us[k]? = some u → r.CompletesAs i k u)
    (hgo : ∀ f < e, ∃ n c, r.arrival f = Run.awaiting n c ∧ Run.GoesOn n c)
    (hh : Hears heard i r.lifecycle.now us m b 0) :
    ∃ m' b' t', Waiting r i cap us e m' b' t' ∧ Hears heard i r.lifecycle.now us m' b' t' := by
  induction e with
  | zero => exact ⟨m, b, 0, h, hh⟩
  | succ e ih =>
    obtain ⟨m', b', t', hm, hh'⟩ := ih fun f hf => hgo f (Nat.lt_succ_of_lt hf)
    obtain ⟨n, c, hrun, hnc⟩ := hgo e (Nat.lt_succ_self e)
    obtain ⟨rfl, rfl⟩ := Run.awaiting_inj (hm.run.symm.trans hrun)
    obtain ⟨m'', b'', t'', hnext⟩ := hm.next hown hnc
    exact ⟨m'', b'', t'', hnext, hm.hears_next hown hnc hnext hh'⟩

end Waiting

/-! ## The end of the invocation

What is told by the look that answers the call is told in the same instant, so it is counted to the
wait. -/

/-- What a report has to do with what the invocation has been told by the time of the report: a sink that is
not reported as pending is reported with how its upload has ended, and the notices are the ones of these
uploads, each with the instant at which it ended. -/
structure Accords (i base time : Nat) (us : List Upload) (report : Report) (closed : List Posted) :
    Prop where
  outcomes : Forall₂ (fun u o => o.name = u.name ∧ (o.status = .pending ∨
    ∃ t out, u.ending = some (t, out) ∧ base + t ≤ time ∧ o.status = .ofOutcome? (some out))) us
      report.outcomes
  notices : closed.Perm (closures i base us report.over)

/-- A sink is reported as pending as long as it is not seen to be over. -/
theorem SinkStatus.ofOutcome?_eq_pending {signal : Signal} :
    SinkStatus.ofOutcome? signal = .pending ↔ signal = none := by
  rcases signal with _ | (_ | e)
  · simp [ofOutcome?]
  · simp [ofOutcome?]
  · cases e <;> simp [ofOutcome?]

theorem over_ofOutcomes (mode : UploadMode) (v : Invocation) :
    (Report.ofOutcomes mode v.outcomes).over = v.sinks.map fun s => s.seen.done.isSome := by
  unfold Report.over Report.ofOutcomes Invocation.outcomes
  rw [List.map_map, List.map_map]
  refine List.map_congr_left fun s _ => ?_
  cases h : s.seen.done with
  | none => simp [h, SinkStatus.ofOutcome?]
  | some o => simp [h, SinkStatus.ofOutcome?_eq_pending]

/-- **A look that answers** reports what the invocation has been told. -/
theorem accords_of_tells {i base time : Nat} {us : List Upload} {v : Invocation} {closed : List Posted}
    (htells : Forall₂ (fun s u => u.Tells time s) v.sinks us)
    (hperm : closed.Perm (closures i base us (v.sinks.map fun s => s.seen.done.isSome))) :
    Accords i base (base + time) us (.ofOutcomes v.mode v.outcomes) closed := by
  refine ⟨?_, by rw [over_ofOutcomes]; exact hperm⟩
  unfold Report.ofOutcomes Invocation.outcomes
  rw [List.map_map, List.forall₂_map_right_iff]
  refine htells.flip.imp fun u s hs => ⟨hs.name, ?_⟩
  cases hseen : s.seen.done with
  | none => exact .inl (by simp [hseen, SinkStatus.ofOutcome?])
  | some o =>
    obtain ⟨t, he, hle⟩ := hs.seen o hseen
    exact .inr ⟨t, o, he, by omega, by simp [hseen]⟩

namespace Run

section Finish

variable {l m : Lifecycle} {i : Nat} {us : List Upload} {w : Invocation} {p : Progress}

theorem noticesTo_closing (l : Lifecycle) (i : Nat) :
    (l.closing i).noticesTo i = l.noticesTo i :=
  posts_closeAndPublish (apart_isNoticeTo i) { l with phase := .closing, active := none } i .blocking none

/-- The first look comes before anything else at the instant of the call. -/
theorem tells_closing (huploads : (l.closing i).Uploading i us (Upload.Arrived · l.now 0))
    (hown : ∀ k u, us[k]? = some u → (finishing l).CompletesAs i k u)
    (hfinish : l.finish .blocking = (m, p)) (hcheck : (l.closing i).check (l.finishCall i w) = (m, p)) :
    (l.closing i).Uploading i us (Upload.Tells · 0) := by
  have hrun : ((finishing l).arrival 0).lifecycle = m := by
    rw [arrival_zero, finishing]
    show (call (ofLifecycle l) _ _).lifecycle = m
    rw [lifecycle_call]
    exact congrArg Prod.fst hfinish
  have hinv : m.invocations = (l.closing i).invocations := by
    have := invocations_check_finish l.now (l.now + l.limits.blocking) (w.sinks.map fun _ => false)
      (expectedWait l.limits.blocking w.sinks) (l.now + 1000) (l.closing i) i
    rw [← this]
    exact congrArg (fun p : Lifecycle × Progress => p.1.invocations) hcheck.symm
  have hm : m.Uploading i us (Upload.Arrived · m.now 0) := by
    rw [now_of_check_closing hcheck]
    exact huploads.of_invocations hinv
  have hagrees : Forall₂ (fun own u => u.InTime 0 → Upload.Agrees u 0 own) (m.completions i) us := by
    rw [← hrun] at hm ⊢
    exact agrees_completions hm hown
  exact (hm.tells_at_once hagrees).of_invocations hinv.symm

/-- What the first look tells. -/
theorem noticesTo_first_look (hw : (l.closing i).invocation? i = some w)
    (htells : Forall₂ (fun s u => u.Tells 0 s) w.sinks us)
    (hcheck : (l.closing i).check (l.finishCall i w) = (m, p)) : ∃ closed,
      m.noticesTo i = l.noticesTo i ++ closed ∧
        closed.Perm (closures i l.now us (w.sinks.map fun s => s.seen.done.isSome)) := by
  have hm : m = ((l.closing i).check (l.finishCall i w)).1 := congrArg Prod.fst hcheck.symm
  have hnone : Forall₂ (fun u before => u.NoticedBy 0 before) us (w.sinks.map fun _ => false) := by
    refine List.forall₂_map_right_iff.mpr (htells.flip.imp fun u s _ => ⟨by simp, fun t o _ hlt => ?_⟩)
    exact absurd hlt (Nat.not_lt_zero t)
  have hlook := closures_look i l.now htells hnone
    (List.forall₂_map_right_iff.mpr (List.forall₂_same.mpr fun s _ h => absurd h (by simp)))
  rw [closures_none, List.nil_append] at hlook
  refine ⟨_, ?_, hlook⟩
  rw [hm, finishCall, noticesTo_check_finish hw, noticesTo_noticeClosed, noticesTo_closing, now_closing,
    Nat.add_zero]

/-- The call has to wait, and is answered when the wait is over. -/
theorem hears_finish {next : Call} (hw : (l.closing i).invocation? i = some w)
    (huploads : (l.closing i).Uploading i us (Upload.Arrived · l.now 0))
    (htells : Forall₂ (fun s u => u.Tells 0 s) w.sinks us)
    (hown : ∀ k u, us[k]? = some u → (awaiting m next).CompletesAs i k u)
    (hcheck : (l.closing i).check (l.finishCall i w) = (m, .waiting next)) :
    ∃ n report time closed, (awaiting m next).await = ⟨n, [.finished (.answer (.report report) time)]⟩ ∧
      n.noticesTo i = l.noticesTo i ++ closed ∧ Accords i l.now time us report closed := by
  obtain ⟨closed, htold, hperm⟩ := noticesTo_first_look hw htells hcheck
  have hnow := now_of_check_closing hcheck
  rw [finishCall, ← now_closing l i] at hcheck
  rw [← now_closing l i] at huploads
  have hstart := Waiting.start _ _ _ huploads hcheck
  obtain ⟨hdone, hlt⟩ := not_over_of_check_finish _ _ _ _ _ hw (congrArg Prod.snd hcheck)
  rw [check_finish_waiting _ _ _ _ _ hw hdone hlt] at hcheck
  have hnext := Progress.waiting.inj (congrArg Prod.snd hcheck)
  -- After the first look what has been noticed is what was over then.
  have hhears : Hears (l.noticesTo i) i m.now us m next 0 := by
    refine ⟨_, closed, _, _, _, _, hnext.symm, ?_, htold, by rw [hnow]; exact hperm⟩
    refine List.forall₂_map_right_iff.mpr (htells.flip.imp fun u s hs => ⟨fun hsome => ?_, ?_⟩)
    · obtain ⟨o, ho⟩ := Option.isSome_iff_exists.mp hsome
      obtain ⟨t, he, hle⟩ := hs.seen o ho
      exact ⟨t, o, he, hle⟩
    · exact fun t o _ hlt => absurd hlt (Nat.not_lt_zero t)
  obtain ⟨d, n, b, a, -, hgo, hd, hat, hanswered, hawait⟩ :=
    await_awaiting m next (by rw [← hnext, hnow, ← now_closing l i]; exact Nat.le_add_right _ _)
  obtain ⟨n', b', t, hwaiting, hheard⟩ := hstart.hears_of_goesOn hown hgo hhears
  obtain ⟨rfl, rfl⟩ := awaiting_inj (hwaiting.run.symm.trans hd)
  obtain rfl : t = d := Nat.add_left_cancel (hwaiting.now.symm.trans hat)
  obtain ⟨v, closed', hv, hshows, htold', hperm'⟩ := hwaiting.looked hown hheard
  obtain ⟨noticed, longest, word, rfl⟩ := hwaiting.call
  have hover := over_of_check_finish _ _ noticed longest word hv hanswered
  obtain ⟨hanswer, -⟩ := check_finish_answered (awaiting m next).lifecycle.now
    ((awaiting m next).lifecycle.now + l.limits.blocking) noticed longest word hv hover
  cases hanswered.symm.trans hanswer
  refine ⟨_, _, _, closed', hawait, (noticesTo_settle _ i).trans htold', ?_⟩
  rw [← hnow]
  exact accords_of_tells (hshows.imp fun s u hs => hs.tells) hperm'

/-- **The end of a blocking invocation** is answered, and the invocation has been told what is reported. -/
theorem told_blocking (hphase : l.phase = .active) (ha : l.active = some i)
    (hw : (l.closing i).invocation? i = some w)
    (huploads : (l.closing i).Uploading i us (Upload.Arrived · l.now 0))
    (hown : ∀ k u, us[k]? = some u → (finishing l).CompletesAs i k u) :
    ∃ n report time closed, perform l (HostCall.finish .blocking).make none =
        (n, .answer (.report report) time) ∧
      n.noticesTo i = l.noticesTo i ++ closed ∧ Accords i l.now time us report closed := by
  cases hfinish : l.finish .blocking with
  | mk m progress =>
    have hcheck := (finish_blocking_eq hphase ha hw).symm.trans hfinish
    obtain ⟨w', hw', -, htells⟩ := tells_closing huploads hown hfinish hcheck
    cases hw.symm.trans hw'
    cases progress with
    | waiting next =>
      have hrun : finishing l = awaiting m next := by
        rw [finishing, call, ofLifecycle, HostCall.make, hfinish]
        rfl
      rw [hrun] at hown
      obtain ⟨n, report, time, closed, hawait, htold⟩ := hears_finish hw huploads htells hown hcheck
      exact ⟨n, report, time, closed, perform_waiting _ hfinish hawait, htold⟩
    | answered a =>
      obtain ⟨closed, htold, hperm⟩ := noticesTo_first_look hw htells hcheck
      have hanswered := congrArg Prod.snd hcheck
      have hover := over_of_check_finish _ _ _ _ _ hw hanswered
      obtain ⟨hanswer, -⟩ := check_finish_answered l.now (l.now + l.limits.blocking)
        (w.sinks.map fun _ => false) (expectedWait l.limits.blocking w.sinks) (l.now + 1000) hw hover
      cases hanswered.symm.trans hanswer
      refine ⟨m, _, _, closed, perform_answered _ hfinish, htold, ?_⟩
      rw [now_of_check_closing hcheck]
      exact accords_of_tells htells hperm

/-- The end of an invocation that does not wait tells it at once that the uploads are over for it. -/
theorem told_at_once {mode : UploadMode} {v : Invocation} (hphase : l.phase = .active)
    (ha : l.active = some i) (hv : l.invocation? i = some v) (hmode : mode ≠ .blocking) :
    ∃ m report, perform l (HostCall.finish mode).make none = (m, .answer (.report report) l.now) ∧
      m.noticesTo i = l.noticesTo i ++ v.sinks.map fun s => closure i l.now s.name := by
  have hended : ({ l with phase := .closing, active := none } :
      Lifecycle).closeAndPublish i mode none = l.ended i mode := rfl
  obtain ⟨w, hw, hroster⟩ := exists_ended hv mode
  have hnames : (v.sinks.map fun s => closure i l.now s.name) =
      w.sinks.map fun s => closure i l.now s.name := by
    have hsinks := congrArg (fun p : CommandIds × List (String × Nat) =>
      p.2.map fun q => closure i l.now q.1) hroster.symm
    simpa [Invocation.roster, rosterOf, Function.comp_def] using hsinks
  have hnow : (l.ended i mode).now = l.now :=
    (quiet_closeStream { l with phase := .closing, active := none } i none).now
  have hbefore : (l.ended i mode).noticesTo i = l.noticesTo i :=
    posts_closeAndPublish (apart_isNoticeTo i) { l with phase := .closing, active := none } i mode none
  let said := w.sinks.foldl (fun l s => l.tell (.invocation i) (.notice (.closed s.name))) (l.ended i mode)
  let left := (({ said with drains := said.drains ++ [i] } : Lifecycle).noteFinished i w).leaveClosing
  have hat : left.now = l.now := by
    have hsaid : said.now = (l.ended i mode).now := foldl_keeps (f := fun (l : Lifecycle) (s : Sink) =>
      l.tell (.invocation i) (.notice (.closed s.name))) now (fun _ _ => rfl) w.sinks _
    exact (now_leaveClosing _).trans (hsaid.trans hnow)
  have htold : left.noticesTo i = l.noticesTo i ++ w.sinks.map fun s => closure i l.now s.name := by
    have hsaid := noticesTo_closures (i := i) Sink.name w.sinks (l.ended i mode)
    rw [hbefore, hnow] at hsaid
    exact (noticesTo_leaveClosing _).trans ((noticesTo_note _ _ _).trans hsaid)
  have hfinish : ∃ report, l.finish mode = (left, .answered (.report report)) := by
    unfold finish
    rw [if_neg (by simp [hphase, Operation.phase]), ha]
    dsimp only
    rw [hended, hw]
    cases mode with
    | blocking => exact absurd rfl hmode
    | nonBlocking => exact ⟨_, rfl⟩
    | fullyAsync => exact ⟨_, rfl⟩
  obtain ⟨report, hfinish⟩ := hfinish
  refine ⟨left, report, ?_, by rw [hnames]; exact htold⟩
  rw [← hat]
  exact perform_answered _ hfinish

/-- There is always an answer to when the sinks of an invocation complete by themselves. -/
theorem exists_plans (r : Run) (i : Nat) (sinks : List Sink) :
    ∃ plans : List (Option (Nat × Outcome)), plans.length = sinks.length ∧
      ∀ k u, (sinks.zipWith Sink.upload plans)[k]? = some u → r.CompletesAs i k u := by
  classical
  choose plan hplan using fun k => fun s => exists_completesAs r i k s
  refine ⟨sinks.mapIdx plan, List.length_mapIdx, fun k u hu => ?_⟩
  obtain ⟨s, p, hs, hp, rfl⟩ := List.getElem?_zipWith_eq_some.mp hu
  rw [List.getElem?_mapIdx, hs] at hp
  cases hp
  exact hplan k s

end Finish

/-! ## From the start to the end

The announcement of the sinks and the notices of their ends are put together, for every mode. -/

/-- What an invocation is told about its sinks, from its start to the reply to the call at the end of it. -/
structure Told (r : Run) (i : Nat) (v : Invocation) (mode : UploadMode) (m : Lifecycle) (time : Nat)
    (report : Report) (closed : List Posted) : Prop where
  reply : perform r.lifecycle (HostCall.finish mode).make none = (m, .answer (.report report) time)
  /-- Which sinks it has, in the order in which they were registered, when it starts; the rest comes with
  the call at the end of it. -/
  notices : ∃ r₀ ids sinks, StartedWith r₀ ids sinks r i ∧ v.roster = (ids, rosterOf sinks) ∧
    m.noticesTo i = announcement i r₀.lifecycle.now (sinks.map Sink.name) :: closed
  /-- A call that does not wait says of every sink, in this order, that its upload is over. -/
  atOnce : mode ≠ .blocking →
    time = r.lifecycle.now ∧ closed = v.sinks.map fun s => closure i r.lifecycle.now s.name
  /-- A call that waits says so of the sinks that it does not report as pending, and of no other ones. -/
  whenOver : mode = .blocking → ∀ plans : List (Option (Nat × Outcome)), plans.length = v.sinks.length →
    (∀ k u, (v.sinks.zipWith Sink.upload plans)[k]? = some u →
      (finishing r.lifecycle).CompletesAs i k u) →
    Accords i r.lifecycle.now time (v.sinks.zipWith Sink.upload plans) report closed
  /-- Whatever happens afterwards. -/
  silence : ∀ s, ReflTransGen Proceeds (ofLifecycle m) s → s.lifecycle.noticesTo i = m.noticesTo i

/-- **What an invocation is told about its sinks**: once which they are, when it starts, and once of a sink
that its upload is over. If the end of the invocation does not wait this is said of every sink at once. If
it waits, this is said of just those sinks that the report does not call pending, and at the instant at
which their uploads have ended, or at the call if they had ended before. After the reply nothing more is
said, whatever happens. -/
theorem Hasty.kept_posted {r : Run} {i : Nat} {v : Invocation} (h : r.Hasty) (ha : r.lifecycle.active = some i)
    (hv : r.lifecycle.invocation? i = some v) (mode : UploadMode) :
    ∃ m time report closed, Told r i v mode m time report closed := by
  obtain ⟨hphase, -, -, hunwatched⟩ := h.orderly.active i ha
  obtain ⟨r₀, ids, sinks, hstarted, hroster, hannounced⟩ := h.announced ha hv
  have hsilence {m : Lifecycle} {reply : Reply}
      (hm : perform r.lifecycle (HostCall.finish mode).make none = (m, reply)) (s : Run)
      (hs : ReflTransGen Proceeds (ofLifecycle m) s) : s.lifecycle.noticesTo i = m.noticesTo i := by
    obtain ⟨hasty, halone⟩ := h.performed ha mode
    rw [hm] at hasty halone
    exact untold_of_proceeds hasty halone hs
  by_cases hmode : mode = .blocking
  · subst hmode
    have hwait {plans : List (Option (Nat × Outcome))} (hlength : plans.length = v.sinks.length)
        (hplans : ∀ k u, (v.sinks.zipWith Sink.upload plans)[k]? = some u →
          (finishing r.lifecycle).CompletesAs i k u) :
        ∃ m report time closed, perform r.lifecycle (HostCall.finish .blocking).make none =
            (m, .answer (.report report) time) ∧
          m.noticesTo i = r.lifecycle.noticesTo i ++ closed ∧
          Accords i r.lifecycle.now time (v.sinks.zipWith Sink.upload plans) report closed := by
      obtain ⟨w, hw, hblocking, hall⟩ := arrived_closing hv hunwatched hlength
      exact told_blocking hphase ha hw ⟨w, hw, hblocking, hall⟩ hplans
    obtain ⟨plans, hlength, hplans⟩ := exists_plans (finishing r.lifecycle) i v.sinks
    obtain ⟨m, report, time, closed, hreply, htold, -⟩ := hwait hlength hplans
    refine ⟨m, time, report, closed, hreply, ⟨r₀, ids, sinks, hstarted, hroster, ?_⟩,
      fun hne => absurd rfl hne, fun _ plans hlength hplans => ?_, hsilence hreply⟩
    · rw [htold, hannounced]
      rfl
    · -- The reply does not depend on how it is put when the sinks complete.
      obtain ⟨m', report', time', closed', hreply', htold', haccords⟩ := hwait hlength hplans
      cases hreply.symm.trans hreply'
      cases List.append_cancel_left (htold.symm.trans htold')
      exact haccords
  · obtain ⟨m, report, hreply, htold⟩ := told_at_once hphase ha hv hmode
    refine ⟨m, _, report, _, hreply, ⟨r₀, ids, sinks, hstarted, hroster, ?_⟩, fun _ => ⟨rfl, rfl⟩,
      fun heq => absurd heq hmode, hsilence hreply⟩
    rw [htold, hannounced]
    rfl

theorem hasty_boundedUploads : boundedUploads.Hasty := by
  have hfresh := fresh_responders [("stuck", 2, none), ("quick", 3, some (1, .done))]
  have h₀ := Genuine.new .standard .fresh
  have h₁ := h₀.call .before (isFree_of_waitingCount rfl) trivial
  exact (h₁.call (.start ⟨"b", "i"⟩ (responders [("stuck", 2, none), ("quick", 3, some (1, .done))]))
    ⟨isFree_of_waitingCount rfl, fun s hs => (hfresh s hs).unwatched⟩ hfresh).hasty

theorem kept_posted_boundedUploads : boundedUploads.Hasty ∧ boundedUploads.lifecycle.active = some 0 ∧
    ∃ v m time report, boundedUploads.lifecycle.invocation? 0 = some v ∧
      Told boundedUploads 0 v .blocking m time report [closure 0 1 "quick", closure 0 2 "stuck"] := by
  obtain ⟨m, time, report, closed, h⟩ := hasty_boundedUploads.kept_posted (i := 0) rfl rfl .blocking
  refine ⟨hasty_boundedUploads, rfl, _, m, time, report, rfl, ?_⟩
  have hnotices : (perform boundedUploads.lifecycle (HostCall.finish .blocking).make none).1.noticesTo 0 =
      [announcement 0 0 ["stuck", "quick"], closure 0 1 "quick", closure 0 2 "stuck"] := rfl
  obtain ⟨r₀, ids, sinks, -, -, htold⟩ := h.notices
  rw [h.reply] at hnotices
  cases (List.cons.inj (htold.symm.trans hnotices)).2
  exact h

end Run

end EventUpload
