import EventUpload.Proofs.Lifecycle.WaitingCalls

/-!
# The sinks that were registered

The sinks of an invocation are handed over when it starts. Whatever happens to them afterwards, and to
the invocation, nobody adds a sink or takes one away, and nobody changes their order. `Hasty.registered`
says so of every hasty run: behind every invocation there is a call of the host that has started it,
with just these sinks.

Only names and bounds are compared (`rosterOf`). Everything else about a sink changes as it works, and
the name is what reports and warnings refer to. With the ids of the invocation they form its roster,
which is constant from the start on; so `rosters` of a lifecycle only ever grows, and it grows by one at
a call that starts an invocation (`rosters_make`). Nothing has to be known about settling, calls or time
except that invocations go on.

The call is given as the run before it (`StartedWith`), which has as many invocations as the place of
the new one. That ties an invocation to one call, and not to some call with the same sinks.
-/

set_option autoImplicit false

namespace EventUpload

open List (Forall₂)
open Relation (ReflTransGen)
open Lifecycle

/-- The names and the bounds of sinks, in order. -/
def rosterOf (sinks : List Sink) : List (String × Nat) := sinks.map fun s => (s.name, s.bound)

/-- What was registered when an invocation started. -/
def Invocation.roster (v : Invocation) : CommandIds × List (String × Nat) := (v.ids, rosterOf v.sinks)

theorem Invocation.Onward.roster {v w : Invocation} (h : v.Onward w) : w.roster = v.roster := by
  have hsinks : rosterOf w.sinks = rosterOf v.sinks := by
    have hall := h.sinks
    generalize v.sinks = ss at hall
    generalize w.sinks = ts at hall
    induction hall with
    | nil => rfl
    | @cons s t _ _ hst _ ih =>
      have hshape := hst.shape
      simp only [Sink.shape, Prod.mk.injEq] at hshape
      simp only [rosterOf, List.map_cons, hshape.1, hshape.2.1] at ih ⊢
      rw [ih]
  rw [Invocation.roster, h.ids, hsinks]
  rfl

theorem Sink.name_startWatch (s : Sink) (now : Nat) : (s.startWatch now).name = s.name := by
  unfold startWatch
  split <;> rfl

theorem Sink.bound_startWatch (s : Sink) (now : Nat) : (s.startWatch now).bound = s.bound := by
  unfold startWatch
  split <;> rfl

theorem Invocation.sinks_ne_nil_of_roster {v w : Invocation} (h : w.roster = v.roster)
    (hv : v.sinks ≠ []) : w.sinks ≠ [] := by
  intro hnil
  have hlength := congrArg (·.2.length) h
  simp only [Invocation.roster, rosterOf, List.length_map, hnil] at hlength
  exact hv (List.length_eq_zero_iff.mp hlength.symm)

namespace Lifecycle

variable {l m : Lifecycle} {i : Nat}

/-- What was registered for every invocation. -/
def rosters (l : Lifecycle) : List (CommandIds × List (String × Nat)) :=
  l.invocations.map Invocation.roster

theorem getElem?_rosters (l : Lifecycle) (i : Nat) :
    l.rosters[i]? = (l.invocation? i).map Invocation.roster := List.getElem?_map

theorem rosters_of_onward (h : Forall₂ Invocation.Onward l.invocations m.invocations) :
    m.rosters = l.rosters := by
  unfold rosters
  generalize l.invocations = vs at h
  generalize m.invocations = ws at h
  induction h with
  | nil => rfl
  | cons hvw _ ih => rw [List.map_cons, List.map_cons, ih, hvw.roster]

theorem rosters_publish (l : Lifecycle) (i : Nat) (mode : UploadMode) :
    (l.publish i mode).rosters = l.rosters := by
  have hone (v : Invocation) : ({ v with mode := mode }.withSinks
      (v.sinks.map (Sink.startWatch · l.now))).roster = v.roster := by
    have hsinks : rosterOf (v.sinks.map (Sink.startWatch · l.now)) = rosterOf v.sinks := by
      simp only [rosterOf, List.map_map]
      refine List.map_congr_left fun s _ => ?_
      simp only [Function.comp_apply, Sink.name_startWatch, Sink.bound_startWatch]
    exact congrArg (Prod.mk v.ids) hsinks
  unfold rosters publish update
  refine List.ext_getElem? fun j => ?_
  rw [List.getElem?_map, List.getElem?_map, List.getElem?_modify]
  cases l.invocations[j]? with
  | none => rfl
  | some v =>
    split
    · exact congrArg some (hone v)
    · rfl

theorem rosters_closeAndPublish (l : Lifecycle) (i : Nat) (mode : UploadMode) (ending : Option Ending) :
    (l.closeAndPublish i mode ending).rosters = l.rosters :=
  (rosters_publish _ i mode).trans (rosters_of_onward (quiet_closeStream l i ending).invocations)

/-- The invocation that has ended has the sinks that it had. -/
theorem exists_ended {v : Invocation} (hv : l.invocation? i = some v) (mode : UploadMode) :
    ∃ w, (l.ended i mode).invocation? i = some w ∧ w.roster = v.roster := by
  refine ⟨_, invocation?_ended hv mode, ?_⟩
  have hrosters : (l.ended i mode).rosters = l.rosters :=
    rosters_closeAndPublish { l with phase := .closing, active := none } i mode none
  have hsame := congrArg (·[i]?) hrosters
  simpa only [getElem?_rosters, invocation?_ended hv mode, hv, Option.map_some, Option.some.injEq] using
    hsame

theorem rosters_check (l : Lifecycle) (call : Call) : (l.check call).1.rosters = l.rosters :=
  rosters_of_onward (passes_check l call).onward

theorem rosters_settleWithin (l : Lifecycle) (grace : Nat) (ending : Ending) :
    (l.settleWithin grace ending).1.rosters = l.rosters := by
  unfold settleWithin
  split
  · exact rosters_check l _
  · dsimp only
    split <;> rfl

theorem rosters_abortActive (l : Lifecycle) (ending : Ending) :
    (l.abortActive ending).rosters = l.rosters := by
  unfold abortActive
  split
  · rfl
  · exact rosters_closeAndPublish { l with active := none } _ _ _

theorem rosters_finish (l : Lifecycle) (mode : UploadMode) : (l.finish mode).1.rosters = l.rosters := by
  unfold finish
  split
  · rfl
  · split
    · rfl
    · next i _ =>
      have hclosed := rosters_closeAndPublish { l with phase := .closing, active := none } i mode none
      have hleave (n : Lifecycle) : n.leaveClosing.rosters = n.rosters :=
        rosters_of_onward (passes_leaveClosing n).onward
      dsimp only
      split
      · exact (hleave _).trans hclosed
      · next v _ =>
        split
        · exact (rosters_check _ _).trans hclosed
        · have hnoticed := foldl_keeps rosters (f := fun l s =>
            l.tell (.invocation i) (.notice (.closed s.name))) (fun _ _ => rfl) v.sinks
          exact (hleave _).trans ((hnoticed _).trans hclosed)

/-- Only an invocation that starts is registered. -/
theorem rosters_make (c : HostCall) (l : Lifecycle) : (c.make l).1.rosters = l.rosters ∨
    ∃ ids sinks, c = .start ids sinks ∧ l.phase = .waitingPrevious ∧
      (c.make l).1.rosters = l.rosters ++ [(ids, rosterOf sinks)] := by
  cases c with
  | before =>
    refine .inl ?_
    show l.before.1.rosters = l.rosters
    unfold before
    split
    · rfl
    · dsimp only
      split
      · rfl
      · exact rosters_check { l with phase := .waitingPrevious } _
  | start ids sinks =>
    by_cases hp : l.phase = .waitingPrevious
    · refine .inr ⟨ids, sinks, rfl, hp, ?_⟩
      show (l.start ids sinks).1.rosters = _
      unfold start
      rw [if_neg (by simp [hp, Operation.phase])]
      show (l.invocations ++ [_]).map Invocation.roster = _
      rw [List.map_append]
      rfl
    · have hrefused : l.start ids sinks = (l.letGo sinks, l.refuse .start) := if_pos hp
      exact .inl (congrArg (fun p : Lifecycle × Progress => p.1.rosters) hrefused)
  | finish mode => exact .inl (rosters_finish l mode)
  | abandon =>
    refine .inl ?_
    show l.abandon.1.rosters = l.rosters
    unfold abandon
    split <;> rfl
  | crash =>
    refine .inl ?_
    show l.crash.1.rosters = l.rosters
    unfold crash
    split
    · rfl
    · exact (rosters_settleWithin _ _ _).trans (rosters_abortActive { l with phase := .crashed } .crash)
  | shutdown =>
    refine .inl ?_
    show l.shutdown.1.rosters = l.rosters
    unfold shutdown
    split
    · rfl
    · exact (rosters_settleWithin _ _ _).trans (rosters_abortActive l .shutdown)

end Lifecycle

namespace Run

variable {r s : Run} {i : Nat} {v : Invocation}

/-- The host has started an invocation with a call, and this has come of it. -/
structure StartedWith (r₀ : Run) (ids : CommandIds) (sinks : List Sink) (r : Run) (i : Nat) : Prop where
  hasty : r₀.Hasty
  admits : r₀.Admits (.start ids sinks)
  fresh : ∀ s ∈ sinks, s.Fresh
  phase : r₀.lifecycle.phase = .waitingPrevious
  index : r₀.lifecycle.invocations.length = i
  later : ReflTransGen Proceeds (r₀.call (HostCall.start ids sinks).make none) r

theorem StartedWith.proceeds {r₀ : Run} {ids : CommandIds} {sinks : List Sink}
    (h : r₀.StartedWith ids sinks r i) (hs : r.Proceeds s) : r₀.StartedWith ids sinks s i :=
  { h with later := h.later.tail hs }

/-- One thing that happens registers nothing, or it is a call that starts an invocation. -/
theorem Proceeds.rosters (h : r.Proceeds s) (hr : r.Hasty) : s.lifecycle.rosters = r.lifecycle.rosters ∨
    ∃ ids sinks, r.StartedWith ids sinks s r.lifecycle.invocations.length ∧
      s.lifecycle.rosters = r.lifecycle.rosters ++ [(ids, rosterOf sinks)] := by
  cases h with
  | idles hs => exact .inl (rosters_of_onward hs.onward)
  | drop hrole hd =>
    rw [(hd.finish hrole).1]
    exact .inl (rosters_of_onward (passes_leaveClosing _).onward)
  | call c hc hfresh =>
    rw [lifecycle_call]
    refine (rosters_make c r.lifecycle).imp_right ?_
    rintro ⟨ids, sinks, rfl, hphase, hrosters⟩
    exact ⟨ids, sinks, ⟨hr, hc, hfresh, hphase, rfl, .refl⟩, hrosters⟩

/-- What was registered for an invocation stays registered. -/
theorem Hasty.roster_of_proceeds (h : r.Hasty) (hs : ReflTransGen Proceeds r s)
    (hv : r.lifecycle.invocation? i = some v) :
    ∃ w, s.lifecycle.invocation? i = some w ∧ w.roster = v.roster := by
  induction hs with
  | refl => exact ⟨v, hv, rfl⟩
  | @tail t s hrt hs ih =>
    obtain ⟨u, hu, huv⟩ := ih
    have hroster : t.lifecycle.rosters[i]? = some v.roster := by
      rw [getElem?_rosters, hu, ← huv]
      rfl
    have hkept : s.lifecycle.rosters[i]? = some v.roster := by
      rcases hs.rosters (h.of_proceeds hrt) with hsame | ⟨ids, sinks, -, hmore⟩
      · rw [hsame]
        exact hroster
      · rw [hmore, List.getElem?_append_left (List.getElem?_eq_some_iff.mp hroster).1]
        exact hroster
    rw [getElem?_rosters] at hkept
    exact Option.map_eq_some_iff.mp hkept

/-- **What was registered** was handed over: every invocation was started by the host with just these
sinks, in this order. -/
theorem Hasty.registered (h : r.Hasty) (hv : r.lifecycle.invocation? i = some v) :
    ∃ r₀ ids sinks, StartedWith r₀ ids sinks r i ∧ v.roster = (ids, rosterOf sinks) := by
  have hroster : r.lifecycle.rosters[i]? = some v.roster := by
    rw [getElem?_rosters, hv]
    rfl
  refine h.induct (P := fun r => ∀ roster, r.lifecycle.rosters[i]? = some roster →
    ∃ r₀ ids sinks, StartedWith r₀ ids sinks r i ∧ roster = (ids, rosterOf sinks)) ?_ ?_ _ hroster
  · exact fun _ _ roster hi => absurd hi (by simp [ofLifecycle, Lifecycle.new, Lifecycle.rosters])
  · intro r s hr ih hs roster hi
    have hlater (hi : r.lifecycle.rosters[i]? = some roster) :
        ∃ r₀ ids sinks, StartedWith r₀ ids sinks s i ∧ roster = (ids, rosterOf sinks) := by
      obtain ⟨r₀, ids, sinks, hstarted, heq⟩ := ih roster hi
      exact ⟨r₀, ids, sinks, hstarted.proceeds hs, heq⟩
    rcases hs.rosters hr with hsame | ⟨ids, sinks, hstarted, hmore⟩
    · exact hlater (hsame ▸ hi)
    · rw [hmore] at hi
      have hlength : r.lifecycle.rosters.length = r.lifecycle.invocations.length := List.length_map _
      by_cases hlt : i < r.lifecycle.rosters.length
      · exact hlater (List.getElem?_append_left hlt ▸ hi)
      · -- It is the one that has just started.
        rw [List.getElem?_append_right (Nat.not_lt.mp hlt)] at hi
        have hlast : i - r.lifecycle.rosters.length < 1 := (List.getElem?_eq_some_iff.mp hi).1
        obtain rfl : i = r.lifecycle.invocations.length := by omega
        exact ⟨r, ids, sinks, hstarted, List.mem_singleton.mp (List.mem_of_getElem? hi)⟩

end Run

end EventUpload
