import EventUpload.Proofs.Lifecycle.DroppedCalls

/-!
# While the host waits

While a call waits that is not one after a crash, the host may only crash or end its process, and drop
the call. So nothing starts and nothing is published until the call is over, and if the phase changes
the lifecycle becomes idle or has crashed (`Proceeds.course`). What a call is there for is the same as
when it was made, so whatever it was told then still holds: `Hasty.apt` says in which phases a waiting
call finds the lifecycle, and that it has sinks to wait for, whose bounds count from the instant of the
call if it is at the end of their invocation.

A call is a piece of data in a run, and nothing in its type says that the numbers in it fit the
lifecycle. A run that was written down could have a call that waits for an invocation that never was.
`Apt` is what makes a waiting call one that was really made: `Proceeds.waiting` goes back from a call
that waits to the operation that has made it, and `Admits.apt` has a case for each operation that may
wait.

`Awaited` puts together what the modules about dropped and cut waits need to know of the end of an
invocation, so that they do not each go back to the call.
-/

set_option autoImplicit false

namespace EventUpload

open List (Forall₂)
open Relation (ReflTransGen)
open Lifecycle

/-! ## Where invocations go

Invocations are never taken away, so an index stays good. -/

theorem Lifecycle.Concludes.invocations {p q : Lifecycle × List (Nat × Retirer)} {ws : List Warning}
    (h : Concludes p q ws) : Forall₂ Invocation.Onward p.1.invocations q.1.invocations := by
  cases h with
  | hush hm => exact hm.invocations
  | drain _ hr => exact hr.invocations
  | errand _ hr => exact hr.invocations
  | cut hm hn => exact Quiet.invocations_trans hm.invocations hn.invocations
  | vacuous _ hm => exact hm.invocations

theorem Lifecycle.Passes.onward {l m : Lifecycle} (h : l.Passes m) :
    Forall₂ Invocation.Onward l.invocations m.invocations := h.invocations.imp fun _ _ hu => hu.onward

namespace Run

variable {r s : Run} {call : Call} {i start deadline longest word : Nat} {noticed : List Bool}

/-! ## What can happen meanwhile

A host that waits has its hands tied: all calls but the end of the process are refused. -/

theorem Idles.onward (h : r.Idles s) :
    Forall₂ Invocation.Onward r.lifecycle.invocations s.lifecycle.invocations := by
  obtain ⟨ws, hws⟩ := h.concludes
  exact hws.invocations

/-- While nothing is accepted the phase stays as it is, or becomes idle. -/
theorem Idles.phase_or (h : r.Idles s) : s.lifecycle.phase = r.lifecycle.phase ∨
    r.lifecycle.phase ≠ .crashed ∧ s.lifecycle.phase = .idle := by
  cases h with
  | stirs hs => exact .inl hs.drift.phase
  | look _ =>
    rw [after_none]
    exact (passes_check _ _).phase
  | word _ => exact .inl (quiet_endInstant _ _).phase
  | refused hc hp =>
    obtain ⟨⟨strays, hsame⟩, -⟩ := refused_call hc hp
    rw [hsame]
    exact .inl rfl
  | forget => exact .inl rfl

/-- A crash, or the end of the process, while no invocation is active. -/
theorem course_ending {l : Lifecycle} (ha : l.active = none) (ending : Ending) :
    Forall₂ Invocation.Onward l.invocations (ending.call.make l).1.invocations ∧
      ((ending.call.make l).1.phase = l.phase ∨ (ending.call.make l).1.phase = .idle ∨
        (ending.call.make l).1.phase = .crashed) := by
  by_cases hphase : l.phase = .crashed
  · rw [make_ending_crashed hphase]
    exact ⟨(Quiet.refl l).invocations, .inl rfl⟩
  · have haborted : l.aborted ending = { l with phase := ending.during l.phase } :=
      aborted_of_inactive ha
    have hduring : (l.aborted ending).phase = l.phase ∨ (l.aborted ending).phase = .idle ∨
        (l.aborted ending).phase = .crashed := by
      rw [haborted]
      cases ending with
      | crash => exact .inr (.inr rfl)
      | shutdown => exact .inl rfl
    have hpasses : (l.aborted ending).Passes (ending.call.make l).1 := by
      have hfits : ending.Fits (l.aborted ending).phase := by
        rw [haborted]
        exact ending.fits_during hphase
      rw [make_ending hphase]
      rcases settleWithin_cases (ending.grace l.limits) hfits with
        ⟨m, hm, hpasses, -⟩ | ⟨i, v, -, hm⟩
      · rw [hm]
        exact hpasses
      · rw [hm]
        exact .refl _
    refine ⟨?_, ?_⟩
    · have honward := hpasses.onward
      rwa [haborted] at honward
    · rcases hpasses.phase with hsame | ⟨-, hidle⟩
      · rw [hsame]
        exact hduring
      · exact .inr (.inl hidle)

/-- **While the host waits** invocations only go on, and the phase stays as it is unless the invocation or
the process has come to its end. -/
theorem Proceeds.course (h : r.Proceeds s) (ho : Orderly r.lifecycle r.roles) (hbusy : ¬ r.IsFree) :
    Forall₂ Invocation.Onward r.lifecycle.invocations s.lifecycle.invocations ∧
      (s.lifecycle.phase = r.lifecycle.phase ∨ s.lifecycle.phase = .idle ∨
        s.lifecycle.phase = .crashed) := by
  cases h with
  | idles hs => exact ⟨hs.onward, hs.phase_or.imp_right fun h => .inl h.2⟩
  | drop hrole hd =>
    rw [(hd.finish hrole).1]
    have hpasses := passes_leaveClosing r.lifecycle
    exact ⟨hpasses.onward, hpasses.phase.imp_right fun h => .inl h.2⟩
  | call c hc _ =>
    have hwaits : r.roles ≠ [] := fun hnil => hbusy fun role hr => absurd hr (by simp [hnil])
    have ha := ho.alone hwaits
    rw [lifecycle_call]
    cases c with
    | crash => exact course_ending ha .crash
    | shutdown => exact course_ending ha .shutdown
    | before => exact absurd hc hbusy
    | start ids sinks => exact absurd hc.1 hbusy
    | finish mode => exact absurd hc hbusy
    | abandon => exact absurd hc hbusy

/-! ## Who is waiting

A call keeps its core while it waits, so it can be traced back to when it was made. -/

theorem waiting_of_after {l : Lifecycle} {progress : Progress} {patience : Option Nat}
    (h : .waiting call patience = (after l progress none).2) : progress = .waiting call := by
  cases progress <;> cases h
  rfl

/-- While nothing is accepted nobody else comes to wait. -/
theorem Idles.waiting (h : r.Idles s) (hcall : .waiting call none ∈ s.calls) :
    ∃ before, .waiting before none ∈ r.calls ∧ call.core = before.core := by
  cases h with
  | stirs _ => exact ⟨call, hcall, rfl⟩
  | @look earlier later looked hcalls =>
    have hmem {p : Pending} (hp : p ∈ earlier ++ .waiting looked none :: later) : p ∈ r.calls :=
      hcalls ▸ hp
    rcases List.mem_append.mp hcall with hcall | hcall
    · exact ⟨call, hmem (List.mem_append_left _ hcall), rfl⟩
    · rcases List.mem_cons.mp hcall with heq | hcall
      · exact ⟨looked, hmem (by simp), core_check (waiting_of_after heq)⟩
      · exact ⟨call, hmem (List.mem_append_right _ (List.mem_cons_of_mem _ hcall)), rfl⟩
  | @word earlier later looked hcalls =>
    have hmem {p : Pending} (hp : p ∈ earlier ++ .waiting looked none :: later) : p ∈ r.calls :=
      hcalls ▸ hp
    rcases List.mem_append.mp hcall with hcall | hcall
    · exact ⟨call, hmem (List.mem_append_left _ hcall), rfl⟩
    · rcases List.mem_cons.mp hcall with heq | hcall
      · cases heq
        exact ⟨looked, hmem (by simp), core_endInstant _ _⟩
      · exact ⟨call, hmem (List.mem_append_right _ (List.mem_cons_of_mem _ hcall)), rfl⟩
  | refused hc hp =>
    rcases List.mem_append.mp hcall with hcall | hcall
    · exact ⟨call, hcall, rfl⟩
    · have hwaiting := waiting_of_after (List.mem_singleton.mp hcall)
      have hrefused := (HostCall.refused_of_phase_ne hc hp).answer
      exact absurd (hrefused.symm.trans hwaiting) (by simp)
  | forget => exact ⟨call, List.mem_of_mem_filter hcall, rfl⟩

/-- Whoever waits has been waiting before, or the host has just made the call. -/
theorem Proceeds.waiting (h : r.Proceeds s) (hcall : .waiting call none ∈ s.calls) :
    (∃ before, .waiting before none ∈ r.calls ∧ call.core = before.core) ∨
      ∃ c, r.Admits c ∧ s = r.call c.make none ∧ (c.make r.lifecycle).2 = .waiting call := by
  cases h with
  | idles hs => exact .inl (hs.waiting hcall)
  | call c hc _ =>
    rcases List.mem_append.mp hcall with hcall | hcall
    · exact .inl ⟨call, hcall, rfl⟩
    · exact .inr ⟨c, hc, rfl, waiting_of_after (List.mem_singleton.mp hcall)⟩
  | drop _ hd =>
    obtain ⟨-, earlier, later, hcalls, hleft⟩ := hd.split
    rw [hleft] at hcall
    rw [hcalls]
    rcases List.mem_append.mp hcall with hcall | hcall
    · exact .inl ⟨call, List.mem_append_left _ hcall, rfl⟩
    · have hlater := (List.mem_cons.mp hcall).resolve_left (by simp)
      exact .inl ⟨call, List.mem_append_right _ (List.mem_cons_of_mem _ hlater), rfl⟩

theorem not_isFree (hcall : .waiting call none ∈ r.calls) (hrole : call.role ≠ .settle .crash) :
    ¬ r.IsFree := fun hfree =>
  hrole (hfree call.role (List.mem_filterMap.mpr ⟨_, hcall, rfl⟩))

end Run

/-! ## What a waiting call finds

`Apt` holds from the moment at which a call begins to wait, and nothing that may happen meanwhile takes
it away. -/

/-- The bounds of the sinks of an invocation count from an instant. -/
def Invocation.WatchedSince (v : Invocation) (start : Nat) : Prop :=
  ∀ s ∈ v.sinks, s.watch.map Watch.deadline = if s.bound = 0 then none else some (start + s.bound)

theorem Invocation.WatchedSince.onward {v w : Invocation} {start : Nat} (h : v.WatchedSince start)
    (hvw : v.Onward w) : w.WatchedSince start := by
  intro t ht
  obtain ⟨s, hs, hst⟩ := forall₂_exists_left hvw.sinks ht
  have hshape := hst.shape
  simp only [Sink.shape, Prod.mk.injEq] at hshape
  rw [hshape.2.1, hshape.2.2]
  exact h s hs

/-- Sinks that nobody has watched before are watched from now on. -/
theorem Invocation.watchedSince_startWatch {v : Invocation} {sinks : List Sink} {now : Nat}
    (h : v.sinks = sinks.map (Sink.startWatch · now)) (hunwatched : ∀ s ∈ sinks, s.watch = none) :
    v.WatchedSince now := by
  intro t ht
  rw [h] at ht
  obtain ⟨s, hs, rfl⟩ := List.mem_map.mp ht
  by_cases hb : s.bound = 0
  · have hsame : s.startWatch now = s := if_pos hb
    rw [hsame, hunwatched s hs, if_pos hb]
    rfl
  · have hwatched : s.startWatch now = { s with watch := some ⟨now + s.bound, .unresolved⟩ } := if_neg hb
    rw [hwatched, if_neg hb]
    rfl

namespace Lifecycle

variable {l m : Lifecycle} {call : Call} {i : Nat} {v : Invocation}

/-- What a call finds as long as it waits, whatever else comes to its end meanwhile. -/
def Apt (l : Lifecycle) : Call → Prop
  | .reconcile i _ _ => (l.phase = .waitingPrevious ∨ l.phase = .idle ∨ l.phase = .crashed) ∧
      ∃ v, l.invocation? i = some v ∧ v.sinks ≠ []
  | .finish i start _ _ _ _ => (l.phase = .closing ∨ l.phase = .idle ∨ l.phase = .crashed) ∧
      ∃ v, l.invocation? i = some v ∧ v.sinks ≠ [] ∧ v.WatchedSince start
  | .settle _ _ _ _ => True

theorem apt_core : l.Apt call.core ↔ l.Apt call := by cases call <;> exact Iff.rfl

theorem Apt.onward (h : l.Apt call)
    (hinvocations : Forall₂ Invocation.Onward l.invocations m.invocations)
    (hphase : m.phase = l.phase ∨ m.phase = .idle ∨ m.phase = .crashed) : m.Apt call := by
  have hstays {phase : Phase} (hl : l.phase = phase ∨ l.phase = .idle ∨ l.phase = .crashed) :
      m.phase = phase ∨ m.phase = .idle ∨ m.phase = .crashed := by
    rcases hphase with hsame | hover
    · rw [hsame]
      exact hl
    · exact .inr hover
  cases call with
  | reconcile index grace deadline =>
    obtain ⟨hl, v, hv, hsinks⟩ := h
    obtain ⟨w, hw, hvw⟩ := forall₂_getElem? hinvocations hv
    exact ⟨hstays hl, w, hw, hvw.sinks_ne_nil hsinks⟩
  | finish index start deadline noticed longest nextWord =>
    obtain ⟨hl, v, hv, hsinks, hwatched⟩ := h
    obtain ⟨w, hw, hvw⟩ := forall₂_getElem? hinvocations hv
    exact ⟨hstays hl, w, hw, hvw.sinks_ne_nil hsinks, hwatched.onward hvw⟩
  | settle index grace deadline ending => trivial

/-- The wait for previous uploads begins. -/
theorem apt_before (h : l.before.2 = .waiting call) : l.before.1.Apt call := by
  unfold before at h ⊢
  split at h
  · exact absurd h (by simp [refuse])
  · next hp =>
    rw [if_neg hp]
    dsimp only at h ⊢
    split at h
    · exact absurd h (by simp)
    · next i v ho =>
      obtain ⟨-, hv, hsinks⟩ := outstanding?_eq_some.mp ho
      obtain ⟨-, -, hsaid⟩ := hasToWait_of_check h
      refine apt_core.mp ?_
      rw [core_check h]
      exact ⟨.inl hsaid.phase, v, (hsaid.invocation? i).trans hv, hsinks⟩

/-- When an invocation has been closed and published its sinks are watched. -/
theorem exists_closing (hv : l.invocation? i = some v) (hunwatched : l.Unwatched i) :
    ∃ w, (l.closing i).invocation? i = some w ∧ w.WatchedSince l.now := by
  have hopen : ({ l with phase := .closing, active := none } : Lifecycle).invocation? i = some v := hv
  refine ⟨_, invocation?_closeAndPublish hopen .blocking none, ?_⟩
  refine Invocation.watchedSince_startWatch rfl fun t ht => ?_
  obtain ⟨s, hs, hst⟩ := forall₂_exists_left (v.stream.onward_close l.now (some .internal)) ht
  have hshape := congrArg (fun p : String × Nat × Option Nat => p.2.2) hst.shape
  simpa [Sink.shape, hunwatched v hv s hs] using hshape

/-- Without a wait the call is answered at once. -/
theorem finish_not_waiting (hp : l.phase = .active) (ha : l.active = some i)
    (hv : l.invocation? i = some v) {mode : UploadMode} (hmode : mode ≠ .blocking) :
    (l.finish mode).2 ≠ .waiting call := by
  have hopen : ({ l with phase := .closing, active := none } : Lifecycle).invocation? i = some v := hv
  have hclosed := invocation?_closeAndPublish hopen mode none
  unfold finish
  rw [if_neg (by simp [hp, Operation.phase]), ha]
  simp only [hclosed]
  cases mode with
  | blocking => exact absurd rfl hmode
  | nonBlocking => simp
  | fullyAsync => simp

/-- The wait at the end of an invocation begins. -/
theorem apt_finish (ho : Orderly l []) (hp : l.phase = .active) (mode : UploadMode)
    (h : (l.finish mode).2 = .waiting call) : (l.finish mode).1.Apt call := by
  obtain ⟨i, v, ha, hv⟩ := ho.active_of_phase hp
  by_cases hmode : mode = .blocking
  · subst hmode
    obtain ⟨w, hw, hwatched⟩ := exists_closing hv (ho.active i ha).2.2.2
    rw [finish_blocking_eq hp ha hw] at h ⊢
    obtain ⟨hwaits, -, hsaid⟩ := hasToWait_of_check h
    obtain ⟨w', hw', hdone, -⟩ : ∃ w, (l.closing i).invocation? i = some w ∧ w.allDone = false ∧
      (l.closing i).now < l.now + l.limits.blocking := hwaits
    cases hw.symm.trans hw'
    have hphase : (l.closing i).phase = .closing :=
      (quiet_closeStream { l with phase := .closing, active := none } i none).phase
    refine apt_core.mp ?_
    rw [core_check h]
    refine ⟨.inl (hsaid.phase.trans hphase), w, ?_, fun hnil => ?_, hwatched⟩
    · rw [hsaid.invocation?]
      exact hw
    · rw [Invocation.allDone, hnil] at hdone
      exact absurd hdone (by simp)
  · exact absurd h (finish_not_waiting hp ha hv hmode)

/-- The wait at the end of the process begins. -/
theorem apt_settleWithin {grace : Nat} {ending : Ending}
    (h : (l.settleWithin grace ending).2 = .waiting call) : m.Apt call := by
  unfold settleWithin at h
  split at h
  · refine apt_core.mp ?_
    rw [core_check h]
    trivial
  · exact absurd h (by simp)

end Lifecycle

namespace Run

variable {r s : Run} {call : Call} {i start deadline longest word : Nat} {noticed : List Bool}

/-- A call that comes to wait is apt: what it waits for is there. -/
theorem Admits.apt {c : HostCall} (hc : r.Admits c) (ho : Orderly r.lifecycle r.roles)
    (h : (c.make r.lifecycle).2 = .waiting call) : (c.make r.lifecycle).1.Apt call := by
  cases c with
  | before => exact apt_before h
  | start ids sinks =>
    simp only [HostCall.make, Lifecycle.start] at h
    split at h <;> exact absurd h (by simp [refuse])
  | finish mode =>
    by_cases hp : r.lifecycle.phase = .active
    · rw [ho.roles_eq_nil hc (by rw [hp]; simp)] at ho
      exact apt_finish ho hp mode h
    · have hrefused : r.lifecycle.finish mode = (r.lifecycle, r.lifecycle.refuse .finish) := if_pos hp
      exact absurd ((congrArg Prod.snd hrefused).symm.trans h) (by simp [refuse])
  | abandon =>
    simp only [HostCall.make, Lifecycle.abandon] at h
    split at h <;> exact absurd h (by simp [refuse])
  | crash =>
    have hmake : r.lifecycle.crash.2 = .waiting call := h
    unfold Lifecycle.crash at hmake
    split at hmake
    · exact absurd hmake (by simp)
    · exact apt_settleWithin hmake
  | shutdown =>
    have hmake : r.lifecycle.shutdown.2 = .waiting call := h
    unfold Lifecycle.shutdown at hmake
    split at hmake
    · exact absurd hmake (by simp)
    · exact apt_settleWithin hmake

/-- **What a waiting call finds.** -/
theorem Hasty.apt (h : r.Hasty) (hcall : .waiting call none ∈ r.calls) : r.lifecycle.Apt call := by
  refine h.induct (P := fun r => ∀ call, .waiting call none ∈ r.calls → r.lifecycle.Apt call) ?_ ?_
    call hcall
  · exact fun _ _ call hmem => absurd hmem (by simp [ofLifecycle])
  · intro r s hr hapt hs call hmem
    rcases hs.waiting hmem with ⟨before, hbefore, hcore⟩ | ⟨c, hc, rfl, hmake⟩
    · refine apt_core.mp (hcore ▸ apt_core.mpr ?_)
      by_cases hrole : before.role = .settle .crash
      · cases before with
        | reconcile index grace deadline => exact absurd hrole (by simp [Call.role])
        | finish index start deadline noticed longest nextWord => exact absurd hrole (by simp [Call.role])
        | settle index grace deadline ending => trivial
      · obtain ⟨hinvocations, hphase⟩ := hs.course hr.orderly (not_isFree hbefore hrole)
        exact (hapt before hbefore).onward hinvocations hphase
    · rw [lifecycle_call]
      exact hc.apt hr.orderly hmake

/-- What is known of an invocation for whose end the host has been waiting since an instant. -/
structure Awaited (r : Run) (i start : Nat) (v : Invocation) : Prop where
  hasty : r.Hasty
  inactive : r.lifecycle.active = none
  phase : r.lifecycle.phase = .closing ∨ r.lifecycle.phase = .idle ∨ r.lifecycle.phase = .crashed
  published : .published i ∈ r.lifecycle.journal
  invocation : r.lifecycle.invocation? i = some v
  sinks : v.sinks ≠ []
  watched : v.WatchedSince start
  mode : v.mode = .blocking

theorem Hasty.awaited (h : r.Hasty)
    (hcall : .waiting (.finish i start deadline noticed longest word) none ∈ r.calls) :
    ∃ v, r.Awaited i start v := by
  obtain ⟨earlier, later, hcalls⟩ := List.mem_iff_append.mp hcall
  obtain ⟨hphase, v, hv, hne, hwatched⟩ :
      r.lifecycle.Apt (.finish i start deadline noticed longest word) := h.apt hcall
  obtain ⟨⟨_, hledger⟩, -⟩ := h.voiced
  obtain ⟨hpub, -, hmode⟩ := hledger.waits i (by
    rw [errands_split hcalls]
    exact List.mem_append_right _ (List.mem_cons_self ..))
  refine ⟨v, h, h.orderly.alone fun hnil => ?_, hphase, hpub, hv, hne, hwatched, hmode v hv⟩
  have hrole := role_mem_roles hcalls
  rw [hnil] at hrole
  exact absurd hrole (by simp)

end Run

end EventUpload
