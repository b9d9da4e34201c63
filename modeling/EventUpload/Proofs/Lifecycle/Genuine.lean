import EventUpload.Proofs.Lifecycle.Schedule
import EventUpload.Proofs.Sink.Sound

/-!
# Genuine runs

A run is `Genuine` if its sinks do what sinks do and its host makes its calls one after another: it
idles, or the host makes a call that is admitted, over fresh sinks. The process may crash or end at any
time. This is wider than what nothing disturbs (`Run.Undisturbed`), where there are only channels and no
end of the process, and narrower than `Run.Reachable`, where a sink may go anywhere.

What the sinks of a genuine run have gone through is not in the run. It is in `Sound`, which says of
every sink that it has been somewhere by its own moves; a run that was merely written down need not have
sound sinks, and then hardly anything can be said about its warnings. `Sound.allDone_giveUp` is the
reason for asking: giving up ends a sink only if its entries and its work are as sinks have them.

Genuine runs are orderly, and they cover everything that a host goes through (`Genuine.perform`,
`Genuine.pass`, `Genuine.deed`). The host of a genuine run never drops a call: `Run.Admits` has no case
for it, and `Genuine.patient` says so of the calls that are waiting. Runs in which calls are dropped are
the subject of `Lifecycle/DroppedCalls`.

The last section has the runs on which the theorems about genuine runs are tried: a first invocation
that has been ended, over sinks that answer at an instant that is laid down (`responders`), or never.
-/

set_option autoImplicit false

namespace EventUpload

open Relation (ReflTransGen)

/-- The sinks that a call hands over, if it does, are fresh. -/
def HostCall.Fresh : HostCall → Prop
  | start _ sinks => ∀ s ∈ sinks, s.Fresh
  | before | finish _ | abandon | crash | shutdown => True

open Lifecycle

namespace Run

/-! ## Patience -/

/-- A call gives way to another one with which nobody loses patience. -/
theorem Patient.replace {earlier later : List Pending} {p q : Pending}
    (hp : Patient (earlier ++ p :: later))
    (hq : ∀ call patience, q = .waiting call patience → patience = none) :
    Patient (earlier ++ q :: later) := by
  intro call patience hmem
  rcases List.mem_append.mp hmem with hmem | hmem
  · exact hp call patience (List.mem_append_left _ hmem)
  · rcases List.mem_cons.mp hmem with rfl | hmem
    · exact hq call patience rfl
    · exact hp call patience (List.mem_append_right _ (List.mem_cons_of_mem _ hmem))

theorem patience_after (l : Lifecycle) (progress : Progress) (call : Call) (patience : Option Nat)
    (heq : (after l progress none).2 = .waiting call patience) : patience = none := by
  cases progress <;> cases heq
  rfl

theorem Patient.call {r : Run} (hp : Patient r.calls) (c : HostCall) :
    Patient (r.call c.make none).calls := by
  intro call patience hmem
  rcases List.mem_append.mp hmem with hmem | hmem
  · exact hp call patience hmem
  · exact patience_after _ _ call patience (List.mem_singleton.mp hmem).symm

theorem Idles.patient {r s : Run} (h : r.Idles s) (hp : Patient r.calls) : Patient s.calls := by
  cases h with
  | stirs _ => exact hp
  | look hcalls =>
    rw [hcalls] at hp
    exact hp.replace (patience_after _ _)
  | word hcalls =>
    rw [hcalls] at hp
    exact hp.replace fun call patience heq => by cases heq; rfl
  | refused _ _ => exact hp.call _
  | forget => exact fun call patience hmem => hp call patience (List.mem_of_mem_filter hmem)

/-! ## Genuine runs -/

/-- The run began with a new lifecycle, its sinks do what sinks do, and its host makes its calls one
after another. -/
inductive Genuine : Run → Prop where
  | new (limits : Limits) (outside : Outside) : Genuine (ofLifecycle (.new limits outside))
  | idles {r s : Run} : Genuine r → r.Idles s → Genuine s
  | call {r : Run} (c : HostCall) : Genuine r → r.Admits c → c.Fresh → Genuine (r.call c.make none)

namespace Genuine

variable {r s : Run} {l : Lifecycle} {calls : List Pending}

theorem of_idles (h : r.Genuine) (hs : ReflTransGen Idles r s) : s.Genuine := by
  induction hs with
  | refl => exact h
  | tail _ hs ih => exact ih.idles hs

/-- **Every genuine run is orderly.** -/
theorem orderly (h : r.Genuine) : Orderly r.lifecycle r.roles := by
  induction h with
  | new limits outside => exact .new limits outside
  | idles _ hs ih => exact hs.orderly ih
  | call c _ hc _ ih =>
    rw [lifecycle_call, roles_call]
    exact hc.orderly ih

/-- What goes on by itself does not lead out of the genuine runs. -/
theorem closed : Closed Genuine where
  nodup := fun h => h.orderly.drains.1
  sinks := fun h => h.of_idles (idles_afterSinks _ _)
  drain := fun hi h => h.idles (.stirs (.drain hi))
  time := fun hle h => h.idles (.stirs (.time hle))
  look := fun h => h.idles (.look rfl)
  word := fun h => h.idles (.word rfl)
  forget := fun h => h.idles .forget

/-- **Making a call and waiting for its reply** leads from a genuine run to a genuine run. -/
theorem perform {c : HostCall} (h : (Run.ofLifecycle l).Genuine)
    (hc : (Run.ofLifecycle l).Admits c) (hfresh : c.Fresh) :
    (Run.ofLifecycle (Run.perform l c.make none).1).Genuine :=
  closed.perform (h.call c hc hfresh)

/-- **Letting time pass** leads from a genuine run to a genuine run. -/
theorem pass (h : (Run.ofLifecycle l).Genuine) (span : Nat) :
    (Run.ofLifecycle (Run.pass l span)).Genuine := closed.pass h span

/-- **What a host does between its calls** leads from a genuine run to a genuine run. -/
theorem deed (h : Genuine ⟨l, calls⟩) (i : Nat) (d : StreamDeed) :
    Genuine ⟨l.updateStream i (d.apply · l.now), calls⟩ := h.idles (.stirs (.deed i d))

/-- No call is ever made by a host that may lose patience. -/
theorem patient (h : r.Genuine) : Patient r.calls := by
  induction h with
  | new limits outside => exact fun _ _ h => absurd h (by simp [ofLifecycle])
  | idles _ hs ih => exact hs.patient ih
  | call c _ _ _ ih => exact ih.call c

/-- Everything that happens at an instant leads to a genuine run. -/
theorem settle (h : r.Genuine) : r.settle.Genuine := (closed.settleRounds _ h h.patient).1

theorem atInstant (h : r.Genuine) {t : Nat} (ht : r.lifecycle.now ≤ t) : (r.atInstant t).Genuine :=
  closed.time ht h

end Genuine

/-! ## A first invocation -/

/-- Sinks that answer by themselves, each with its name, its bound and when it is done, if ever. -/
def responders (plans : List (String × Nat × Option (Nat × Outcome))) : List Sink :=
  plans.map fun (name, bound, answer) => .new bound (.responder (.new name none answer))

theorem fresh_responders (plans : List (String × Nat × Option (Nat × Outcome))) :
    ∀ s ∈ responders plans, s.Fresh := by
  intro s hs
  obtain ⟨⟨name, bound, answer⟩, -, rfl⟩ := List.mem_map.mp hs
  exact .responder bound name none answer

/-- The first invocation has started with the given sinks, and its end has been asked for. -/
def firstEnded (limits : Limits) (sinks : List Sink) (mode : UploadMode) : Run :=
  let r := ofLifecycle (.new limits .fresh)
  let r := r.call (HostCall.before).make none
  let r := r.call (HostCall.start ⟨"b", "i"⟩ sinks).make none
  r.call (HostCall.finish mode).make none

theorem genuine_firstEnded {sinks : List Sink} (h : ∀ s ∈ sinks, s.Fresh) (limits : Limits)
    (mode : UploadMode) : (firstEnded limits sinks mode).Genuine := by
  have h₀ := Genuine.new limits .fresh
  have h₁ := h₀.call .before (isFree_of_waitingCount rfl) trivial
  have h₂ := h₁.call (.start ⟨"b", "i"⟩ sinks)
    ⟨isFree_of_waitingCount rfl, fun s hs => (h s hs).unwatched⟩ h
  exact h₂.call (.finish mode) (isFree_of_waitingCount rfl) trivial

end Run

namespace Lifecycle

/-! ## Sound sinks -/

/-- The sinks of every invocation are sound. -/
def Sound (l : Lifecycle) : Prop := ∀ i v, l.invocation? i = some v → ∀ s ∈ v.sinks, s.Sound

variable {l m : Lifecycle} {i : Nat} {v : Invocation}

theorem Sound.of_invocations (h : l.Sound) (hm : m.invocations = l.invocations) : m.Sound := by
  intro i v hv
  rw [invocation?, hm] at hv
  exact h i v hv

/-- One invocation was changed, and its sinks are sound afterwards. -/
theorem Sound.update {f : Invocation → Invocation} (h : l.Sound)
    (hf : ∀ v, l.invocation? i = some v → ∀ s ∈ (f v).sinks, s.Sound) : (l.update i f).Sound := by
  intro j w hw
  rw [invocation?_update] at hw
  split at hw
  · next hij =>
    subst hij
    obtain ⟨v, hv, rfl⟩ := Option.map_eq_some_iff.mp hw
    exact hf v hv
  · exact h j w hw

theorem Sound.deed (h : l.Sound) (i : Nat) (d : StreamDeed) :
    (l.updateStream i (d.apply · l.now)).Sound := by
  refine h.update fun v hv => ?_
  exact d.keeps (fun hs => hs.accept) (fun hs => hs.close) (fun hs => hs.resolve) (h i v hv) l.now

theorem Sound.publish (h : l.Sound) (i : Nat) (mode : UploadMode) : (l.publish i mode).Sound := by
  refine Sound.of_invocations (l := l.update i fun v =>
    { v with mode := mode }.withSinks (v.sinks.map (Sink.startWatch · l.now))) ?_ rfl
  refine h.update fun v hv s hs => ?_
  obtain ⟨s, hmem, rfl⟩ := List.mem_map.mp hs
  exact (h i v hv s hmem).startWatch l.now

/-- What is kept when sinks are given up one after the other. -/
theorem forall_overSinks {P Q : Sink → Prop} {f : Sink → Outside → Sink × Outside}
    (hf : ∀ {s : Sink}, P s → ∀ outside, Q (f s outside).1) {sinks : List Sink} (h : ∀ s ∈ sinks, P s)
    (outside : Outside) : ∀ t ∈ (overSinks f sinks outside).1, Q t := by
  induction sinks generalizing outside with
  | nil => exact fun t ht => absurd ht (by simp [overSinks])
  | cons s rest ih =>
    intro t ht
    rcases List.mem_cons.mp ht with rfl | ht
    · exact hf (h s (by simp)) outside
    · exact ih (fun s hs => h s (List.mem_cons_of_mem _ hs)) _ t ht

theorem giveUp_of_none (hv : l.invocation? i = none) : l.giveUp i = l := by
  simp only [giveUp, hv]

theorem giveUp_of_some (hv : l.invocation? i = some v) : l.giveUp i =
    { l.update i (·.withSinks (overSinks Sink.giveUp v.sinks l.outside).1) with
      outside := (overSinks Sink.giveUp v.sinks l.outside).2 } := by
  simp only [giveUp, hv]

theorem Sound.giveUp (h : l.Sound) (i : Nat) : (l.giveUp i).Sound := by
  cases hv : l.invocation? i with
  | none =>
    rw [giveUp_of_none hv]
    exact h
  | some v =>
    rw [giveUp_of_some hv]
    refine Sound.of_invocations (l := l.update i
      (·.withSinks (overSinks Sink.giveUp v.sinks l.outside).1)) ?_ rfl
    exact h.update fun w _ => forall_overSinks (fun hs => hs.giveUp) (h i v hv) l.outside

/-- **Whoever is given up is done**, for everybody who looks. -/
theorem Sound.allDone_giveUp (h : l.Sound) {w : Invocation}
    (hw : (l.giveUp i).invocation? i = some w) : w.allDone = true := by
  cases hv : l.invocation? i with
  | none =>
    rw [giveUp_of_none hv, hv] at hw
    exact absurd hw (by simp)
  | some v =>
    rw [giveUp_of_some hv] at hw
    cases hw.symm.trans (invocation?_update_self hv _)
    exact List.all_eq_true.mpr (forall_overSinks (fun hs => hs.done_giveUp) (h i v hv) l.outside)

end Lifecycle

namespace Invocation

variable {v w : Invocation}

/-- What is done stays done. -/
theorem Onward.allDone (h : v.Onward w) (hv : v.allDone = true) : w.allDone = true := by
  refine List.all_eq_true.mpr fun t ht => ?_
  obtain ⟨s, hs, hst⟩ := forall₂_exists_left h.sinks ht
  exact hst.seen.done_isSome (List.all_eq_true.mp hv s hs)

/-- An invocation that is done has the outcomes that it will have. -/
theorem Onward.filterMap_seen (h : v.Onward w) (hv : v.allDone = true) {β : Type}
    (f : Signal → Option β) :
    (w.sinks.filterMap fun s => f s.seen.done) = v.sinks.filterMap fun s => f s.seen.done := by
  have hsinks := h.sinks
  have hdone := List.all_eq_true.mp hv
  generalize v.sinks = ss at hsinks hdone
  generalize w.sinks = ts at hsinks
  induction hsinks with
  | nil => rfl
  | @cons s t ss ts hst _ ih =>
    obtain ⟨o, ho⟩ := Option.isSome_iff_exists.mp (hdone s (by simp))
    have hrest := ih fun s hs => hdone s (List.mem_cons_of_mem _ hs)
    rw [List.filterMap_cons, List.filterMap_cons, hrest, ho, hst.seen.done o ho]

end Invocation

end EventUpload
