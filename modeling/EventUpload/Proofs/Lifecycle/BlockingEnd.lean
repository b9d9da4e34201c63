import EventUpload.Proofs.Lifecycle.Await
import EventUpload.Proofs.Lifecycle.Uploading

/-!
# The end of a blocking invocation

The end of a blocking invocation waits for every upload, but no longer than a cap.
`Reachable.finish_blocking` says when it is answered and with which report, given when every upload
completes by itself: the cap and the bounds of the sinks do the rest (`Upload.ending`, `waitSpan`). So
what is reported of a sink depends on its own completion, its own bound and the cap, and on nothing
else.

When an upload completes by itself is read off the run that waits, at the moment at which the sink has
had its turn and its watch has not looked yet (`Run.completion`). There is always an answer to that
(`exists_completesAs`), so it is no assumption about the sinks. Once its bound has passed a sink is
cancelled, and it does not matter any more when it would have been done.

The induction is on the milliseconds of the wait, and its invariant is `Waiting`. A run stays where it
is at most of them, so the invariant has two times: the one that has passed, and the one of the instant
at which the run still stands. That nothing has ended in between is part of it (`between`), and to keep
it is the one step in which it matters that ends of uploads are due: `not_ended_of_stays` shows that a
run that stays has missed nothing.

The first look at the call comes before anything else has been done at its instant. It makes a
difference in one case only, a cap of zero, where there is no later look; so the theorem asks there that
nothing completes just then (`hcap`), and for no other cap.
-/

set_option autoImplicit false

namespace EventUpload

open List (Forall₂)

/-! ## When uploads complete by themselves

A plan for an upload is compared with the run only as long as the bound of the upload has not passed.
What would have come later is cut off by the timer, and any plan is true of it. -/

namespace Run

/-- The signal for being done of a sink of an invocation after `d` milliseconds, as its watch finds
it. -/
def completion (r : Run) (i k d : Nat) : Signal := ((r.arrival d).lifecycle.completions i)[k]?.join

/-- As long as its bound has not passed, a sink of the run completes as the upload says. -/
def CompletesAs (r : Run) (i k : Nat) (u : Upload) : Prop :=
  ∀ time, u.InTime time → u.Agrees time (r.completion i k time)

/-- Every sink completes at some time or never. -/
theorem exists_completesAs (r : Run) (i k : Nat) (s : Sink) :
    ∃ plan, r.CompletesAs i k (s.upload plan) := by
  classical
  -- The first millisecond at which the signal is there, if there is one.
  by_cases h : ∃ e, r.completion i k e ≠ none
  · obtain ⟨o, ho⟩ := Option.ne_none_iff_exists'.mp (Nat.find_spec h)
    refine ⟨some (Nat.find h, o), fun time _ => ⟨?_, ?_, fun hn => ?_⟩⟩
    · intro t o' hc hlt
      cases hc
      exact Decidable.not_not.mp (Nat.find_min h hlt)
    · intro t o' hc heq
      cases hc
      rw [heq]
      exact ho
    · exact absurd hn (by simp [Sink.upload])
  · refine ⟨none, fun time _ => ⟨fun t o hc => absurd hc (by simp [Sink.upload]),
      fun t o hc => absurd hc (by simp [Sink.upload]), fun _ => ?_⟩⟩
    exact Decidable.not_not.mp fun hne => h ⟨time, hne⟩

theorem agrees_completions {r : Run} {i t : Nat} {us : List Upload} {P : Upload → Sink → Prop}
    (h : (r.arrival t).lifecycle.Uploading i us P)
    (hown : ∀ k u, us[k]? = some u → r.CompletesAs i k u) :
    Forall₂ (fun own u => u.InTime t → Upload.Agrees u t own)
      ((r.arrival t).lifecycle.completions i) us := by
  obtain ⟨v, hv, _, hall⟩ := h
  have hlength : ((r.arrival t).lifecycle.completions i).length = us.length := by
    simp only [Lifecycle.completions, hv, List.length_map, Lifecycle.length_turns]
    exact hall.length_eq
  refine List.forall₂_iff_get.mpr ⟨hlength, fun k hk hk' htime => ?_⟩
  have hagrees := hown k us[k] (List.getElem?_eq_getElem hk') t htime
  rw [Run.completion, List.getElem?_eq_getElem hk] at hagrees
  exact hagrees

theorem awaiting_inj {l m : Lifecycle} {b c : Call} (h : awaiting l b = awaiting m c) :
    l = m ∧ b = c := by
  simp only [awaiting, Run.mk.injEq, List.cons.injEq, Pending.waiting.injEq, and_true] at h
  exact h

end Run

/-! ## The wait

`Waiting` is kept from one millisecond to the next in two ways: the run moves on to an instant that is
due, or it stays, because nothing is. -/

open Lifecycle

/-- A run `e` milliseconds after the call at the end of an invocation was made, while the call is
waiting. It has stayed where it is since the time `t`, and nothing has ended since. -/
structure Waiting (r : Run) (i cap : Nat) (us : List Upload) (e : Nat) (m : Lifecycle) (b : Call)
    (t : Nat) : Prop where
  run : r.arrival e = Run.awaiting m b
  call : ∃ noticed longest word,
    b = .finish i r.lifecycle.now (r.lifecycle.now + cap) noticed longest word
  now : m.now = r.lifecycle.now + t
  le : t ≤ e
  same : r.arrival t = r.arrival e
  uploads : m.Uploading i us (Upload.Arrived · r.lifecycle.now t)
  between : ∀ u ∈ us, ∀ time o, u.ending = some (time, o) → time ≤ e → time ≤ t

namespace Waiting

variable {r : Run} {i cap e t : Nat} {us : List Upload} {m : Lifecycle} {b : Call}

/-- What the uploads have come to when the call is looked at. -/
theorem settled (h : Waiting r i cap us e m b t)
    (hown : ∀ k u, us[k]? = some u → r.CompletesAs i k u) :
    m.settle.Uploading i us (Upload.Settled · r.lifecycle.now t) := by
  have hm : (r.arrival t).lifecycle = m := by
    rw [h.same, h.run]
    rfl
  have huploads := h.uploads
  rw [← hm] at huploads
  have hagrees := Run.agrees_completions huploads hown
  rw [hm] at hagrees
  exact h.uploads.settle h.now hagrees

/-- The call goes on while some upload has not ended and the cap has not been reached. -/
theorem goesOn (h : Waiting r i cap us e m b t)
    (hown : ∀ k u, us[k]? = some u → r.CompletesAs i k u) (hgo : Run.GoesOn m b) :
    (¬ ∀ u ∈ us, u.EndedBy t) ∧ ∃ v noticed noticed' longest word,
      m.settle.check b = (m.settle.noticeClosed i v noticed,
        .waiting (.finish i r.lifecycle.now (r.lifecycle.now + cap) noticed' longest word)) := by
  obtain ⟨noticed, longest, word, rfl⟩ := h.call
  obtain ⟨next, hnext⟩ := hgo
  have hshows := (h.settled hown).imp fun s u _ hs => hs.shows
  obtain ⟨v, hv, _⟩ := h.settled hown
  obtain ⟨hdone, hlt⟩ := not_over_of_check_finish r.lifecycle.now _ noticed longest word hv hnext
  have hcheck := check_finish_waiting r.lifecycle.now _ noticed longest word hv hdone hlt
  exact ⟨fun hall => hdone ((hshows.allDone hv).mpr hall), v, noticed, _, longest, word, hcheck⟩

/-- Nothing ends while the run stays where it is: an upload that completes by itself, or whose bound
passes, has something due. -/
theorem not_ended_of_stays (h : Waiting r i cap us e m b t)
    (hown : ∀ k u, us[k]? = some u → r.CompletesAs i k u)
    {next : Call} (hcheck : (m.settle.check b).2 = .waiting next)
    (hdue : (m.settle.check b).1.dueInstants = m.settle.dueInstants)
    (hstays : (r.arrival e).next? ≠ some (r.lifecycle.now + (e + 1))) {u : Upload} (hu : u ∈ us)
    (o : Outcome) : u.ending ≠ some (e + 1, o) := by
  intro hending
  have hlt : t < e + 1 := Nat.lt_succ_of_le h.le
  have hnot : ¬ u.EndedBy t := by
    rintro ⟨time, o', he, hle⟩
    rw [hending] at he
    cases he
    exact absurd hle (Nat.not_le.mpr hlt)
  -- A completion is seen as soon as it is there, so the run has moved since.
  have hin := Upload.inTime_of_ending hending
  have hcompletes : u.completion ≠ some (e + 1, o) := by
    intro hc
    obtain ⟨k, hk⟩ := List.getElem?_of_mem hu
    have hstay : r.arrival (e + 1) = r.arrival t := by
      rw [Run.arrival_of_not_next hstays, h.same]
    have hnow := (hown k u hk (e + 1) hin).at_ (e + 1) o hc rfl
    have hbefore := (hown k u hk t (hin.mono (Nat.le_of_lt hlt))).before (e + 1) o hc hlt
    rw [Run.completion, hstay] at hnow
    exact absurd (hbefore.symm.trans hnow) (by simp)
  have hb : u.bound ≠ 0 := by
    intro hb
    rw [Upload.ending_of_unbounded hb] at hending
    exact hcompletes hending
  rcases Upload.ending_of_bounded hb with ⟨time, o', hc, _, he⟩ | ⟨_, he⟩
  · rw [hending] at he
    cases he
    exact hcompletes hc
  · -- The end of the bound is due, so the run moves there.
    rw [hending] at he
    have hbound : e + 1 = u.bound := congrArg Prod.fst (Option.some.inj he)
    have hmem := (h.settled hown).due hu hb hnot
    rw [← hdue, ← hbound] at hmem
    refine hstays (Run.arrival_next_of_mem (r := r) (by rw [h.run]; exact Run.next?_awaiting hcheck)
      (List.mem_append_left _ hmem))

/-- **One millisecond of the wait.** -/
theorem next (h : Waiting r i cap us e m b t)
    (hown : ∀ k u, us[k]? = some u → r.CompletesAs i k u) (hgo : Run.GoesOn m b) :
    ∃ m' b' t', Waiting r i cap us (e + 1) m' b' t' := by
  obtain ⟨_, v, noticed, noticed', longest, word, hcheck⟩ := h.goesOn hown hgo
  have hwaiting := congrArg Prod.snd hcheck
  by_cases hmoves : (r.arrival e).next? = some (r.lifecycle.now + (e + 1))
  · -- The run moves, and what was seen when the last instant was over is what is seen now.
    have hrun := Run.arrival_of_next hmoves
    rw [h.run, Run.moved_awaiting hwaiting, congrArg Prod.fst hcheck] at hrun
    obtain ⟨word', hcall, hinv⟩ := endInstant_finish r.lifecycle.now (r.lifecycle.now + cap)
      noticed' longest word (m.settle.noticeClosed i v noticed) i
    refine ⟨_, _, e + 1, hrun, ⟨noticed', longest, word', hcall⟩, rfl, Nat.le_refl _, rfl, ?_,
      fun u _ time o _ hle => hle⟩
    have huploads := (h.settled hown).of_invocations
      (hinv.trans (invocations_noticeClosed m.settle i v noticed))
    refine Uploading.imp huploads fun s u hu hs => ?_
    refine hs.arrived (Nat.lt_succ_of_le h.le) fun time o he hlt => ?_
    exact h.between u hu time o he (Nat.le_of_lt_succ hlt)
  · -- The run stays, so nothing has ended and everything is as it was.
    have hstay := Run.arrival_of_not_next hmoves
    have hdue : (m.settle.check b).1.dueInstants = m.settle.dueInstants := by
      rw [congrArg Prod.fst hcheck]
      exact dueInstants_noticeClosed _ _ _ _
    refine ⟨m, b, t, hstay.trans h.run, h.call, h.now, Nat.le_succ_of_le h.le,
      h.same.trans hstay.symm, h.uploads, fun u hu time o he hle => ?_⟩
    rcases Nat.lt_or_eq_of_le hle with hlt | rfl
    · exact h.between u hu time o he (Nat.le_of_lt_succ hlt)
    · exact absurd he (h.not_ended_of_stays hown hwaiting hdue hmoves hu o)

/-- The wait begins when the call has been looked at once. -/
theorem start {l : Lifecycle} {b : Call} (noticed : List Bool) (longest word : Nat)
    (h : l.Uploading i us (Upload.Arrived · l.now 0))
    (hcheck : l.check (.finish i l.now (l.now + cap) noticed longest word) = (m, .waiting b)) :
    Waiting (Run.awaiting m b) i cap us 0 m b 0 := by
  have ⟨v, hv, _⟩ := h
  obtain ⟨hdone, hlt⟩ := not_over_of_check_finish l.now _ noticed longest word hv
    (congrArg Prod.snd hcheck)
  rw [check_finish_waiting l.now _ noticed longest word hv hdone hlt] at hcheck
  cases hcheck
  have hnow (b : Call) : (Run.awaiting (l.noticeClosed i v noticed) b).lifecycle.now = l.now :=
    (quiet_noticeClosed l i v noticed).now
  refine ⟨rfl, ?_, rfl, Nat.le_refl 0, rfl, ?_, fun _ _ _ _ _ hle => hle⟩
  · rw [hnow]
    exact ⟨_, longest, word, rfl⟩
  · rw [hnow]
    exact h.of_invocations (invocations_noticeClosed l i v noticed)

/-- **The whole wait**, by induction on its length. -/
theorem run_of_goesOn (h : Waiting r i cap us 0 m b 0)
    (hown : ∀ k u, us[k]? = some u → r.CompletesAs i k u)
    (hgo : ∀ f < e, ∃ n c, r.arrival f = Run.awaiting n c ∧ Run.GoesOn n c) :
    ∃ m' b' t', Waiting r i cap us e m' b' t' := by
  induction e with
  | zero => exact ⟨m, b, 0, h⟩
  | succ e ih =>
    obtain ⟨m', b', t', hm⟩ := ih fun f hf => hgo f (Nat.lt_succ_of_lt hf)
    obtain ⟨n, c, hrun, hnc⟩ := hgo e (Nat.lt_succ_self e)
    obtain ⟨rfl, rfl⟩ := Run.awaiting_inj (hm.run.symm.trans hrun)
    exact hm.next hown hnc

/-- As long as the call goes on some upload has not ended. -/
theorem not_ended (h : Waiting r i cap us e m b t)
    (hown : ∀ k u, us[k]? = some u → r.CompletesAs i k u) (hgo : Run.GoesOn m b) :
    ¬ ∀ u ∈ us, u.EndedBy e := by
  intro hall
  refine (h.goesOn hown hgo).1 fun u hu => ?_
  obtain ⟨time, o, he, hle⟩ := hall u hu
  exact ⟨time, o, he, h.between u hu time o he hle⟩

/-- What the answer is when the wait is over. -/
theorem answered {a : Answer} (h : Waiting r i cap us e m b e)
    (hown : ∀ k u, us[k]? = some u → r.CompletesAs i k u) (hle : e ≤ cap)
    (hwait : ∀ f < e, ¬ ∀ u ∈ us, u.EndedBy f) (ha : (m.settle.check b).2 = .answered a) :
    a = .report (cappedReport cap us) ∧ waitSpan cap us = e ∧
      (m.settle.check b).1.settle.Uploading i us (Upload.Spares · e) := by
  obtain ⟨noticed, longest, word, rfl⟩ := h.call
  have hsettled := h.settled hown
  have hnow : m.settle.now = r.lifecycle.now + e := (settle_now m).trans h.now
  obtain ⟨hanswer, hspan, hinv⟩ := check_finish_report r.lifecycle.now noticed longest word
    (hsettled.imp fun s u _ hs => hs.shows) hnow hle hwait ha
  refine ⟨hanswer, hspan, ?_⟩
  refine ((hsettled.imp fun s u _ hs => ?_).of_invocations hinv).spares_settle
    ((check_now _ _).trans hnow)
  exact ⟨hs.describes, hs.spares⟩

end Waiting

/-! ## Ending the invocation

The first look is made by the call itself, and the others in the wait. The report is read off the look
that answers the call. -/

namespace Run

/-- The run in which the host has just asked for the end of the invocation and waits for it. -/
def finishing (l : Lifecycle) : Run := (ofLifecycle l).call (HostCall.finish .blocking).make none

section Finish

variable {l m : Lifecycle} {i : Nat} {us : List Upload} {w : Invocation} {p : Progress}

theorem now_of_check_closing (hcheck : (l.closing i).check (l.finishCall i w) = (m, p)) :
    m.now = l.now := by
  have hnow := check_now (l.closing i) (l.finishCall i w)
  rw [hcheck] at hnow
  exact hnow.trans (now_closing l i)

/-- The answer is there at once: the wait has no time to take, or everything has ended already. -/
theorem finish_answered {a : Answer} (hw : (l.closing i).invocation? i = some w)
    (huploads : (l.closing i).Uploading i us (Upload.Arrived · l.now 0))
    (hown : ∀ k u, us[k]? = some u → (finishing l).CompletesAs i k u)
    (hcap : l.limits.blocking = 0 → ∀ u ∈ us, ∀ o, u.ending ≠ some (0, o))
    (hfinish : l.finish .blocking = (m, .answered a))
    (hcheck : (l.closing i).check (l.finishCall i w) = (m, .answered a)) :
    a = .report (cappedReport l.limits.blocking us) ∧ waitSpan l.limits.blocking us = 0 ∧
      m.Uploading i us (Upload.Spares · 0) := by
  have hrun : ((finishing l).arrival 0).lifecycle = m := by
    rw [arrival_zero, finishing, call, ofLifecycle, HostCall.make, hfinish]
    rfl
  have hnow := now_of_check_closing hcheck
  have hfst : ((l.closing i).check (l.finishCall i w)).1 = m := congrArg Prod.fst hcheck
  have hsnd : ((l.closing i).check (l.finishCall i w)).2 = .answered a := congrArg Prod.snd hcheck
  have hover := over_of_check_finish _ _ _ _ _ hw hsnd
  have hinv : m.invocations = (l.closing i).invocations := by
    rw [← hfst]
    exact (check_finish_answered _ _ _ _ _ hw hover).2
  have hm : m.Uploading i us (Upload.Arrived · m.now 0) := by
    rw [hnow]
    exact huploads.of_invocations hinv
  have hagrees : Forall₂ (fun own u => u.InTime 0 → Upload.Agrees u 0 own)
      (m.completions i) us := by
    rw [← hrun] at hm ⊢
    exact agrees_completions hm hown
  -- The call was looked at before the sinks had their turns; `hcap` is for a wait of no length.
  have hshows : m.Uploading i us (Upload.Shows · 0) := by
    refine hm.shows_at_once hagrees ?_
    rcases hover with hdone | hdue
    · refine .inl fun v hv => ?_
      rw [invocation?, hinv] at hv
      cases hw.symm.trans hv
      exact hdone
    · rw [now_closing] at hdue
      exact .inr (hcap (by omega))
  obtain ⟨hanswer, hspan, _⟩ := check_finish_report _ _ _ _ (hshows.of_invocations hinv.symm)
    (now_closing l i) (Nat.zero_le _) (fun e he => absurd he (Nat.not_lt_zero e)) hsnd
  exact ⟨hanswer, hspan, hm.imp fun s u _ hs => hs.spares⟩

/-- The call has to wait, and is answered when the wait is over. -/
theorem await_finish {next : Call}
    (huploads : (l.closing i).Uploading i us (Upload.Arrived · l.now 0))
    (hown : ∀ k u, us[k]? = some u → (awaiting m next).CompletesAs i k u)
    (hcheck : (l.closing i).check (l.finishCall i w) = (m, .waiting next)) :
    ∃ n, (awaiting m next).await = ⟨n, [.finished (.answer
        (.report (cappedReport l.limits.blocking us))
        (l.now + waitSpan l.limits.blocking us))]⟩ ∧
      n.Uploading i us (Upload.Spares · (waitSpan l.limits.blocking us)) := by
  have hnow := now_of_check_closing hcheck
  rw [finishCall, ← now_closing l i] at hcheck
  rw [← now_closing l i] at huploads
  have hstart := Waiting.start _ _ _ huploads hcheck
  have hdeadline : next.deadline = m.now + l.limits.blocking := by
    obtain ⟨_, _, _, hcall⟩ := hstart.call
    rw [hcall]
    rfl
  obtain ⟨d, n, b, a, hle, hgo, hd, hat, hanswered, hawait⟩ :=
    await_awaiting m next (by rw [hdeadline]; exact Nat.le_add_right _ _)
  obtain ⟨n', b', t, hwaiting⟩ := hstart.run_of_goesOn hown hgo
  obtain ⟨rfl, rfl⟩ := awaiting_inj (hwaiting.run.symm.trans hd)
  obtain rfl : t = d := Nat.add_left_cancel (hwaiting.now.symm.trans hat)
  -- The invariant holds at every millisecond before, and the call went on there.
  have hwait (e : Nat) (he : e < t) : ¬ ∀ u ∈ us, u.EndedBy e := by
    obtain ⟨m', c', t', hm'⟩ := hstart.run_of_goesOn hown fun f hf => hgo f (Nat.lt_trans hf he)
    obtain ⟨n'', c'', hrun', hgo'⟩ := hgo e he
    obtain ⟨rfl, rfl⟩ := awaiting_inj (hm'.run.symm.trans hrun')
    exact hm'.not_ended hown hgo'
  obtain ⟨rfl, hspan, hspares⟩ := hwaiting.answered hown (by omega) hwait hanswered
  rw [hspan, ← hnow]
  exact ⟨_, hawait, hspares⟩

end Finish

/-- The end of the active invocation, blocking, for a host that makes this call and waits for its
reply. The uploads are its sinks with when they complete by themselves. -/
structure FinishesAs (l : Lifecycle) (i : Nat) (us : List Upload) (m : Lifecycle) : Prop where
  /-- When the reply comes, and what it says. -/
  reply : perform l (HostCall.finish .blocking).make none =
    (m, .answer (.report (cappedReport l.limits.blocking us))
      (l.now + waitSpan l.limits.blocking us))
  /-- A sink is cancelled only if it was before or if its own bound has passed. -/
  spares : m.Uploading i us (Upload.Spares · (waitSpan l.limits.blocking us))

/-- **The end of a blocking invocation.** Given when its sinks complete by themselves, the reply comes
as soon as every upload has completed or run into its bound, but not after the cap; and it reports
of every sink what has become of it by the cap. No sink has a part in what becomes of another. If
the cap is zero, nothing may complete just when the call is made, since the call does not wait for
what else happens at that instant. -/
theorem Reachable.finish_blocking {r : Run} {i : Nat} {v : Invocation} (h : r.Reachable)
    (plans : List (Option (Nat × Outcome))) (ha : r.lifecycle.active = some i)
    (hv : r.lifecycle.invocation? i = some v)
    (hlength : plans.length = v.sinks.length)
    (hplans : ∀ k u, (v.sinks.zipWith Sink.upload plans)[k]? = some u →
      (finishing r.lifecycle).CompletesAs i k u)
    (hcap : r.lifecycle.limits.blocking = 0 → ∀ o, some (0, o) ∉ plans) :
    ∃ m, FinishesAs r.lifecycle i (v.sinks.zipWith Sink.upload plans) m := by
  obtain ⟨hphase, _, _, hunwatched⟩ := h.orderly.active i ha
  obtain ⟨w, hw, hmode, hall⟩ := arrived_closing hv hunwatched hlength
  have huploads : (r.lifecycle.closing i).Uploading i _
      (Upload.Arrived · r.lifecycle.now 0) := ⟨w, hw, hmode, hall⟩
  cases hfinish : r.lifecycle.finish .blocking with
  | mk m progress =>
    have hcheck := (finish_blocking_eq hphase ha hw).symm.trans hfinish
    cases progress with
    | waiting next =>
      have hrun : finishing r.lifecycle = awaiting m next := by
        rw [finishing, call, ofLifecycle, HostCall.make, hfinish]
        rfl
      rw [hrun] at hplans
      obtain ⟨n, hawait, hspares⟩ := await_finish huploads hplans hcheck
      exact ⟨n, perform_waiting _ hfinish hawait, hspares⟩
    | answered a =>
      have hzero (h0 : r.lifecycle.limits.blocking = 0) (u : Upload)
          (hu : u ∈ v.sinks.zipWith Sink.upload plans) (o : Outcome) :
          u.ending ≠ some (0, o) := by
        intro he
        obtain ⟨k, hk⟩ := List.getElem?_of_mem hu
        obtain ⟨s, plan, _, hplan, rfl⟩ := List.getElem?_zipWith_eq_some.mp hk
        have hc : plan = some (0, o) := Upload.completion_of_ending_zero he
        exact hcap h0 o (hc ▸ List.mem_of_getElem? hplan)
      obtain ⟨rfl, hspan, hspares⟩ := finish_answered hw huploads hplans hzero hfinish hcheck
      refine ⟨m, ?_, ?_⟩
      · rw [hspan, Nat.add_zero, ← now_of_check_closing hcheck]
        exact perform_answered _ hfinish
      · rw [hspan]
        exact hspares

/-- A run with a sink that is never done and runs into its bound, beside one that is done in time. -/
def boundedUploads : Run :=
  let stuck := Sink.new 2 (.responder (.new "stuck" none none))
  let quick := Sink.new 3 (.responder (.new "quick" none (some (1, .done))))
  let r := ofLifecycle (.new .standard .fresh)
  let r := r.call (HostCall.before).make none
  r.call (HostCall.start ⟨"b", "i"⟩ [stuck, quick]).make none

theorem reachable_boundedUploads : boundedUploads.Reachable := by
  have hsinks : ∀ s ∈ [Sink.new 2 (.responder (.new "stuck" none none)),
      Sink.new 3 (.responder (.new "quick" none (some (1, .done))))], s.watch = none := by
    intro s hs
    rcases List.mem_cons.mp hs with rfl | hs
    · rfl
    · rw [List.mem_singleton.mp hs]
      rfl
  have h₀ := Reachable.new .standard .fresh
  have h₁ := h₀.step (.call .before (isFree_of_waitingCount rfl))
  exact h₁.step (.call (.start ⟨"b", "i"⟩ _) ⟨isFree_of_waitingCount rfl, hsinks⟩)

theorem finish_blocking_boundedUploads : boundedUploads.Reachable ∧
    boundedUploads.lifecycle.active = some 0 ∧
    (perform boundedUploads.lifecycle (HostCall.finish .blocking).make none).2 =
      .answer (.report ⟨.blocking, [⟨"stuck", .timedOut⟩, ⟨"quick", .succeeded⟩]⟩) 2 := by
  have hstuck : (finishing boundedUploads.lifecycle).CompletesAs 0 0 ⟨"stuck", 2, none, false⟩ := by
    intro time htime
    have hnone : ∀ t ≤ 2, (finishing boundedUploads.lifecycle).completion 0 0 t = none := by decide
    have hown := hnone time (htime.resolve_left (by decide))
    exact ⟨fun _ _ _ _ => hown, fun _ _ hc => absurd hc (by simp), fun _ => hown⟩
  have hquick : (finishing boundedUploads.lifecycle).CompletesAs 0 1
      ⟨"quick", 3, some (1, .done), false⟩ := by
    intro time _
    refine ⟨fun t o hc hlt => ?_, fun t o hc heq => ?_, fun hn => absurd hn (by simp)⟩
    · cases hc
      obtain rfl := Nat.lt_one_iff.mp hlt
      rfl
    · cases hc
      rw [heq]
      rfl
  have hplans (k : Nat) (u : Upload) (hu : ([⟨"stuck", 2, none, false⟩,
      ⟨"quick", 3, some (1, .done), false⟩] : List Upload)[k]? = some u) :
      (finishing boundedUploads.lifecycle).CompletesAs 0 k u := by
    match k, hu with
    | 0, rfl => exact hstuck
    | 1, rfl => exact hquick
  obtain ⟨m, hm⟩ := reachable_boundedUploads.finish_blocking [none, some (1, .done)] (i := 0)
    rfl rfl rfl hplans fun h0 => absurd h0 (by decide)
  refine ⟨reachable_boundedUploads, rfl, ?_⟩
  rw [hm.reply]
  rfl

end Run

end EventUpload
