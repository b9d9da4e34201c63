import EventUpload.Proofs.Lifecycle.Phases
import EventUpload.Proofs.Sink.Conduct

/-!
# Runs that nothing disturbs

`Run.Step` lets sinks go anywhere. This file has a finer relation in which they do what sinks do: in
`Run.Idles` the sinks of an invocation go on, something is done to a stream, a drain has its turn, time
passes, or a waiting call is looked at, in whatever order; the host may call, but what it asks for is
refused. A run is `Undisturbed` if it gets on like this and by calls that are accepted, made one after
another, over new channels, by a process that neither crashes nor ends.

An undisturbed run is orderly like every other (`Undisturbed.orderly`); and while it idles nobody starts
to wait (`Idles.roles`), and the phase only changes when the end of an invocation is over
(`Idles.phase`).

Two relations are needed because they are good for different things. Steps are coarse, and what is
proved of them does not depend on what a sink can do. But a loss cannot be excluded for sinks that go
anywhere: a sink might be cancelled and never say so. `Lifecycle.Stirs` therefore has the errors that
the sinks have met, and posts them, in the step in which they are met. It still leaves the outside and
the destinations open, and of sinks that were let go of it says nothing at all.

What is excluded is excluded by the host and not by the sinks. After a crash or a shutdown uploads are
given up without a word to anybody, so nothing can be promised of runs with either; sinks that are
handed over with a past of their own might have lost something in it.
-/

set_option autoImplicit false

namespace EventUpload

open List (Forall₂)
open Relation (ReflTransGen)

namespace Lifecycle

variable {l m : Lifecycle}

/-- One thing that happens by itself, or because the host does something to a stream or sets limits. -/
inductive Stirs (l : Lifecycle) : Lifecycle → Prop where
  /-- The sinks of an invocation go on; the outside may be anything afterwards. -/
  | sinks {i : Nat} {v : Invocation} {sinks : List Sink} {errors : List SinkError}
      (outside : Outside) : l.invocation? i = some v →
      Sink.AllGoOn l.now v.sinks sinks errors →
      Stirs l (({ l.update i (·.withSinks sinks) with outside := outside } : Lifecycle).sayErrors
        (.invocation i) errors)
  /-- The sinks that were let go do what they like. -/
  | strays (strays : List Sink) (outside : Outside) (errors : List SinkError) :
      Stirs l (({ l with strays := strays, outside := outside } : Lifecycle).sayErrors .newcomer
        errors)
  | deed (i : Nat) (d : StreamDeed) : Stirs l (l.updateStream i (d.apply · l.now))
  | drain {i : Nat} : i ∈ l.drains → Stirs l (l.settleDrain i)
  | time {t : Nat} : l.now ≤ t → Stirs l { l with now := t }
  | limits (limits : Limits) : Stirs l { l with limits := limits }

/-- Settling sinks at an instant is letting them go on. -/
theorem allGoOn_settleSinks {now : Nat} (sinks : List Sink) (outside : Outside) :
    Sink.AllGoOn now sinks (settleSinks now sinks outside).1
      (settleSinks now sinks outside).2.2 := by
  induction sinks generalizing outside with
  | nil => exact .nil
  | cons s rest ih => exact .cons (s.goesOn_settle outside) (ih _)

theorem Stirs.drift (h : l.Stirs m) : l.Drift m := by
  cases h with
  | @sinks i v sinks errors outside hv hgo =>
    refine .quiet (Quiet.trans (Quiet.around (quiet_update fun w hw => ?_) l.strays outside)
      (quiet_sayErrors _ _ _))
    rw [hv] at hw
    cases hw
    exact Invocation.onward_withSinks hgo.onward
  | strays strays outside errors =>
    exact .quiet (((Quiet.refl l).around strays outside).trans (quiet_sayErrors _ _ _))
  | deed i d => exact .quiet (quiet_updateStream fun s => d.onward s l.now)
  | drain hi => exact .drain hi
  | time hle => exact .time hle
  | limits limits => exact .limits limits

theorem active_leaveClosing (l : Lifecycle) : l.leaveClosing.active = l.active := by
  unfold leaveClosing
  split <;> rfl

theorem Looks.active {call : Call} {p : Progress} (h : l.Looks call m p) : m.active = l.active := by
  cases h with
  | goesOn hq _ => exact hq.active
  | reconciled hq => exact hq.active
  | vacuous _ => rfl
  | finished hq => exact (active_leaveClosing _).trans hq.active
  | cut hq _ => exact (active_leaveClosing _).trans hq.active
  | settled hq => exact hq.active

/-- Looking at a call leaves it waiting for the same, or not at all. -/
theorem Looks.roles {call : Call} {p : Progress} (h : l.Looks call m p) :
    ∀ role ∈ p.roles, role = call.role := by
  cases h with
  | goesOn _ hrole =>
    intro role hr
    rw [List.mem_singleton.mp hr, hrole]
  | reconciled _ => exact fun role hr => absurd hr (by simp [Progress.roles])
  | vacuous _ => exact fun role hr => absurd hr (by simp [Progress.roles])
  | finished _ => exact fun role hr => absurd hr (by simp [Progress.roles])
  | cut _ _ => exact fun role hr => absurd hr (by simp [Progress.roles])
  | settled _ => exact fun role hr => absurd hr (by simp [Progress.roles])

theorem phase_leaveClosing (l : Lifecycle) :
    l.leaveClosing.phase = l.phase ∨ l.phase = .closing ∧ l.leaveClosing.phase = .idle := by
  unfold leaveClosing
  split
  · next hp => exact .inr ⟨hp, rfl⟩
  · exact .inl rfl

/-- Only the end of an invocation leaves a phase, unless the process ends. -/
theorem Looks.phase {call : Call} {p : Progress} (h : l.Looks call m p)
    (hrole : ∀ ending, call.role ≠ .settle ending) :
    m.phase = l.phase ∨ l.phase = .closing ∧ m.phase = .idle := by
  cases h with
  | goesOn hq _ => exact .inl hq.phase
  | reconciled hq => exact .inl hq.phase
  | vacuous _ => exact .inl rfl
  | finished hq => exact hq.phase ▸ phase_leaveClosing _
  | cut hq _ => exact hq.phase ▸ phase_leaveClosing _
  | settled _ => exact absurd rfl (hrole _)

end Lifecycle

open Lifecycle

/-- The host's process neither crashes nor ends, and the sinks that it hands over are new channels. -/
def HostCall.IsOrdinary : HostCall → Prop
  | before | finish _ | abandon => True
  | start _ sinks => ∀ s ∈ sinks, ∃ bound name destination,
      s = .new bound (.channel (.new name destination))
  | crash | shutdown => False

namespace Run

/-- One thing happens in a run, and nothing is accepted. -/
inductive Idles (r : Run) : Run → Prop where
  | stirs {l : Lifecycle} : r.lifecycle.Stirs l → Idles r { r with lifecycle := l }
  /-- A waiting call is looked at. -/
  | look {earlier later : List Pending} {call : Call} :
      r.calls = earlier ++ .waiting call none :: later →
        Idles r ⟨(after (r.lifecycle.check call).1 (r.lifecycle.check call).2 none).1,
          earlier ++ (after (r.lifecycle.check call).1 (r.lifecycle.check call).2 none).2 :: later⟩
  /-- The instant is over for a waiting call. -/
  | word {earlier later : List Pending} {call : Call} :
      r.calls = earlier ++ .waiting call none :: later →
        Idles r ⟨(r.lifecycle.endInstant call).1,
          earlier ++ .waiting (r.lifecycle.endInstant call).2 none :: later⟩
  /-- The host calls out of order. -/
  | refused {c : HostCall} {operation : Operation} : c.operation? = some operation →
      r.lifecycle.phase ≠ operation.phase → Idles r (r.call c.make none)
  | forget : Idles r { r with calls := r.calls.filter Pending.isWaiting }

/-- The run began with a new lifecycle, and nothing has disturbed it. -/
inductive Undisturbed : Run → Prop where
  | new (limits : Limits) (outside : Outside) : Undisturbed (ofLifecycle (.new limits outside))
  | idles {r s : Run} : Undisturbed r → r.Idles s → Undisturbed s
  | call {r : Run} (c : HostCall) : Undisturbed r → r.IsFree → c.IsOrdinary →
      Undisturbed (r.call c.make none)

variable {r s : Run}

/-- A call that is refused lets sinks go, and changes nothing else. -/
theorem refused_call {c : HostCall} {operation : Operation} (hc : c.operation? = some operation)
    (hp : r.lifecycle.phase ≠ operation.phase) :
    (∃ strays, (r.call c.make none).lifecycle = { r.lifecycle with strays := strays }) ∧
      (r.call c.make none).roles = r.roles := by
  have hrefused := HostCall.refused_of_phase_ne hc hp
  refine ⟨⟨(c.make r.lifecycle).1.strays, ?_⟩, ?_⟩
  · have hsame := hrefused.untouched
    rw [lifecycle_call]
    generalize (c.make r.lifecycle).1 = m at hsame ⊢
    rw [← hsame]
  · rw [roles_call, hrefused.answer, Progress.roles, List.append_nil]

/-- Idling is a step, unless the host is refused something. -/
theorem Idles.step_or (h : r.Idles s) : r.Step s ∨
    (∃ strays, s.lifecycle = { r.lifecycle with strays := strays }) ∧ s.roles = r.roles := by
  cases h with
  | stirs hs => exact .inl (.drift hs.drift)
  | look hcalls => exact .inl (.look hcalls)
  | word hcalls => exact .inl (.word hcalls)
  | refused hc hp => exact .inr (refused_call hc hp)
  | forget => exact .inl .forget

theorem Idles.orderly (h : r.Idles s) (ho : Orderly r.lifecycle r.roles) :
    Orderly s.lifecycle s.roles := by
  rcases h.step_or with hstep | ⟨⟨strays, hsame⟩, hroles⟩
  · exact hstep.orderly ho
  · rw [hroles, hsame]
    exact ho.quiet ((Quiet.refl r.lifecycle).around strays r.lifecycle.outside)

/-- While a run idles nobody starts to wait for anything. -/
theorem Idles.roles (h : r.Idles s) : ∀ role ∈ s.roles, role ∈ r.roles := by
  intro role hr
  cases h with
  | stirs _ => exact hr
  | @look earlier later call hcalls =>
    rw [roles_split hcalls]
    rw [roles_split (r := ⟨_, earlier ++ _ :: later⟩) rfl, roles_after_none] at hr
    simp only [List.mem_append] at hr ⊢
    refine hr.imp_right (Or.imp_left fun hr => ?_)
    rw [(looks_check r.lifecycle call).roles role hr]
    exact List.mem_singleton.mpr rfl
  | @word earlier later call hcalls =>
    rw [roles_split hcalls]
    rw [roles_split (r := ⟨_, earlier ++ _ :: later⟩) rfl] at hr
    simp only [List.mem_append] at hr ⊢
    refine hr.imp_right (Or.imp_left fun hr => ?_)
    simpa [Pending.role?, role_endInstant] using hr
  | refused hc hp => exact (refused_call hc hp).2 ▸ hr
  | forget =>
    obtain ⟨p, hp, hrole⟩ := List.mem_filterMap.mp hr
    exact List.mem_filterMap.mpr ⟨p, List.mem_of_mem_filter hp, hrole⟩

theorem role_mem_roles {earlier later : List Pending} {call : Call}
    (hcalls : r.calls = earlier ++ .waiting call none :: later) : call.role ∈ r.roles := by
  rw [roles_split hcalls]
  exact List.mem_append_right _ (List.mem_append_left _ (List.mem_singleton.mpr rfl))

/-- Nobody waits for the end of the process. -/
def Unending (r : Run) : Prop := ∀ role ∈ r.roles, ∀ ending, role ≠ .settle ending

theorem Idles.unending (h : r.Idles s) (hu : r.Unending) : s.Unending :=
  fun role hr => hu role (h.roles role hr)

/-- While a run idles only the end of an invocation leaves a phase. -/
theorem Idles.phase (h : r.Idles s) (hu : r.Unending) :
    s.lifecycle.phase = r.lifecycle.phase ∨
      r.lifecycle.phase = .closing ∧ s.lifecycle.phase = .idle := by
  cases h with
  | stirs hs => exact .inl hs.drift.phase
  | look hcalls =>
    rw [after_none]
    exact (looks_check _ _).phase (hu _ (role_mem_roles hcalls))
  | word _ => exact .inl (quiet_endInstant _ _).phase
  | refused hc hp =>
    obtain ⟨⟨strays, hsame⟩, -⟩ := refused_call hc hp
    rw [hsame]
    exact .inl rfl
  | forget => exact .inl rfl

/-! ## As long as nothing is accepted -/

theorem roles_of_idles (hs : ReflTransGen Idles r s) : ∀ role ∈ s.roles, role ∈ r.roles := by
  induction hs with
  | refl => exact fun _ hr => hr
  | tail _ hs ih => exact fun role hr => ih role (hs.roles role hr)

theorem phase_of_idles (hs : ReflTransGen Idles r s) (hu : r.Unending) :
    s.lifecycle.phase = r.lifecycle.phase ∨
      r.lifecycle.phase = .closing ∧ s.lifecycle.phase = .idle := by
  induction hs with
  | refl => exact .inl rfl
  | tail hrt hs ih =>
    rcases hs.phase (fun role hr => hu role (roles_of_idles hrt role hr)) with hsame | ⟨ht, hidle⟩
    · rw [hsame]
      exact ih
    · rcases ih with hsame | ⟨-, hidle'⟩
      · exact .inr ⟨hsame.symm.trans ht, hidle⟩
      · exact absurd (ht.symm.trans hidle') (by simp)

namespace Undisturbed

theorem of_idles (h : r.Undisturbed) (hs : ReflTransGen Idles r s) : s.Undisturbed := by
  induction hs with
  | refl => exact h
  | tail _ hs ih => exact ih.idles hs

/-- No ordinary call waits for the end of the process. -/
theorem roles_make {c : HostCall} (hc : c.IsOrdinary) (l : Lifecycle) :
    ∀ role ∈ (c.make l).2.roles, ∀ ending, role ≠ .settle ending := by
  -- A look goes on with the kind of wait that it has been, and no ordinary call begins with the end of
  -- the process.
  have hcheck (m : Lifecycle) (call : Call) (hne : ∀ ending, call.role ≠ .settle ending) :
      ∀ role ∈ (m.check call).2.roles, ∀ ending, role ≠ .settle ending := by
    intro role hr
    rw [(looks_check m call).roles role hr]
    exact hne
  have hanswer (a : Answer) : ∀ role ∈ (Progress.answered a).roles, ∀ ending,
      role ≠ Role.settle ending := fun role hr => absurd hr (by simp [Progress.roles])
  cases c with
  | before =>
    simp only [HostCall.make, Lifecycle.before]
    split
    · exact hanswer _
    · split
      · exact hanswer _
      · exact hcheck _ _ fun ending => by simp [Call.role]
  | start ids sinks =>
    simp only [HostCall.make, Lifecycle.start]
    split <;> exact hanswer _
  | finish mode =>
    simp only [HostCall.make, Lifecycle.finish]
    split
    · exact hanswer _
    · split
      · exact hanswer _
      · split
        · exact hanswer _
        · split
          · exact hcheck _ _ fun ending => by simp [Call.role]
          · exact hanswer _
  | abandon =>
    simp only [HostCall.make, Lifecycle.abandon]
    split <;> exact hanswer _
  | crash => exact hc.elim
  | shutdown => exact hc.elim

theorem unending (h : r.Undisturbed) : r.Unending := by
  induction h with
  | new limits outside => exact fun role hr => absurd hr (by simp [roles, ofLifecycle])
  | idles _ hs ih => exact hs.unending ih
  | @call r c _ _ hc ih =>
    intro role hr
    rw [roles_call] at hr
    rcases List.mem_append.mp hr with hr | hr
    · exact ih role hr
    · exact roles_make hc r.lifecycle role hr

/-- A host that waits for nothing has made no call that still waits. -/
theorem roles_eq_nil (h : r.Undisturbed) (hf : r.IsFree) : r.roles = [] := by
  refine List.eq_nil_iff_forall_not_mem.mpr fun role hr => ?_
  exact h.unending role hr .crash (hf role hr)

/-- **Every undisturbed run is orderly.** -/
theorem orderly (h : r.Undisturbed) : Orderly r.lifecycle r.roles := by
  induction h with
  | new limits outside => exact .new limits outside
  | idles _ hs ih => exact hs.orderly ih
  | @call r c _ hf hc ih =>
    rw [lifecycle_call, roles_call]
    refine Admits.orderly ?_ ih
    cases c with
    | before => exact hf
    | start ids sinks =>
      refine ⟨hf, fun s hs => ?_⟩
      obtain ⟨bound, name, destination, rfl⟩ := hc s hs
      rfl
    | finish mode => exact hf
    | abandon => exact hf
    | crash => exact hc.elim
    | shutdown => exact hc.elim

end Undisturbed

end Run

end EventUpload
