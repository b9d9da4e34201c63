import EventUpload.Proofs.Lifecycle.DroppedCalls
import EventUpload.Proofs.Stream.Deed

/-!
# Bounds of sinks

The bound of a sink counts from the instant at which its uploads were published, and nobody has to wait
for them. When a run has come to that instant the sink is over (`over_of_bound`). Unless it was given
up, it is over as it has ended itself, or because its bound has passed: `Sink.Timely` says so of what
its watch has seen, and `timely_of_idles` that this stays true when nobody waits who might give it up.

The two halves need different hypotheses. That the sink is over holds of any run, whoever is waiting: a
bound is one of the instants that are due, and the look of the watch at that instant ends it if nothing
else has. How it is over is a matter of who could have interfered, so there the run only idles.

`Lifecycle.Timely` is about some places among the sinks of an invocation, not about all of them. A sink
that had already been cancelled when the waiting stopped is not timely and never will be; those that
were open then are, and the places tell the two apart for good.
-/

set_option autoImplicit false

namespace EventUpload

open List (Forall₂)
open Relation (ReflTransGen)
open Lifecycle

namespace Sink

variable {now : Nat} {s t : Sink} {errors : List SinkError}

/-- What a watch has seen of the end of a sink is how the sink has ended, or that its bound has passed. -/
def Timely (now : Nat) (s : Sink) : Prop :=
  ∀ w o, s.watch = some w → w.seen.done = some o →
    s.signals.done = some o ∨ o = .failed s.timeout ∧ w.deadline ≤ now

theorem timely_of_none (h : s.seen.done = none) : s.Timely now := by
  intro w o hw ho
  rw [seen_of_watch hw] at h
  exact absurd (h.symm.trans ho) (by simp)

theorem Timely.later {next : Nat} (h : s.Timely now) (hle : now ≤ next) : s.Timely next :=
  fun w o hw ho => (h w o hw ho).imp_right fun hbound => ⟨hbound.1, Nat.le_trans hbound.2 hle⟩

/-- A sink that goes on, while its watch sees nothing new of its end. -/
theorem Timely.onward (h : s.Timely now) (hst : s.Onward t)
    (hdone : ∀ w, s.watch = some w → t.seen.done = s.seen.done) : t.Timely now := by
  intro w' o hw' ho
  obtain ⟨w, hw, hdeadline⟩ := shape_eq_of_watch hst.shape hw'
  have hseen : w.seen.done = some o := by
    have hsame := hdone w hw
    rw [seen_of_watch hw, seen_of_watch hw'] at hsame
    exact hsame.symm.trans ho
  have htimeout : t.timeout = s.timeout := by
    have hshape := hst.shape
    simp only [shape, Prod.mk.injEq] at hshape
    rw [timeout, timeout, hshape.1, hshape.2.1]
  refine (h w o hw hseen).imp (hst.signals.done o) fun hbound => ⟨?_, ?_⟩
  · rw [htimeout]
    exact hbound.1
  · exact hdeadline ▸ hbound.2

theorem Timely.of_watch (h : s.Timely now) (hst : s.Onward t) (hwatch : t.watch = s.watch) :
    t.Timely now :=
  h.onward hst fun w hw => by rw [seen_of_watch hw, seen_of_watch (hwatch.trans hw)]

/-- The watch passes on what has happened, or sees the bound; it makes up nothing else. -/
theorem Timely.watchDone (h : s.Timely now) (outside : Outside) :
    (s.watchDone outside now).1.Timely now := by
  intro w' o hw' ho
  have hst := s.onward_watchDone outside now
  obtain ⟨w, hw, hdeadline⟩ := shape_eq_of_watch hst.shape hw'
  have hdone := done_watchDone hw outside now
  rw [seen_of_watch hw', ho] at hdone
  cases hseen : w.seen.done with
  | some o' =>
    have hsame : (s.watchDone outside now).1.seen.done = s.seen.done := by
      rw [seen_of_watch hw', seen_of_watch hw, hseen, ho, hdone, hseen]
    exact h.onward hst (fun _ _ => hsame) w' o hw' ho
  | none =>
    rw [hseen] at hdone
    cases hown : s.signals.done with
    | some o' =>
      rw [hown] at hdone
      exact .inl (hst.signals.done o (hown.trans hdone.symm))
    | none =>
      rw [hown] at hdone
      dsimp only at hdone
      split at hdone
      · exact absurd hdone (by simp)
      · next hnow =>
        have hshape := hst.shape
        simp only [shape, Prod.mk.injEq] at hshape
        refine .inr ⟨?_, hdeadline ▸ Nat.not_lt.mp hnow⟩
        rw [timeout, hshape.1, hshape.2.1]
        exact Option.some.inj hdone

theorem Timely.stirs (h : s.Timely now) (hs : Stirs now s t errors) : t.Timely now := by
  have hst := hs.onward
  cases hs with
  | answers hb => exact h.of_watch hst rfl
  | works hb hstep => exact h.of_watch hst rfl
  | watchesDone outside => exact h.watchDone outside
  | watchesHalf outside _ => exact h.onward hst fun _ _ => done_watchHalf s outside now

theorem GoesOn.timely (h : GoesOn now s t errors) (hs : s.Timely now) : t.Timely now := by
  induction h with
  | rest => exact hs
  | step _ hstirs ih => exact ih.stirs hstirs

theorem AllGoOn.timely {ss ts : List Sink} (h : AllGoOn now ss ts errors) :
    Forall₂ (fun s t => s.Timely now → t.Timely now) ss ts := by
  induction h with
  | nil => exact .nil
  | cons hgo _ ih => exact .cons hgo.timely ih

theorem Timely.obeyAll (h : s.Timely now) (calls : List SinkCall) : (s.obeyAll calls).Timely now := by
  induction calls generalizing s with
  | nil => exact h
  | cons call calls ih =>
    refine ih (s := s.obey call) ?_
    obtain ⟨bound, body, watch⟩ := s
    cases call with
    | accept e =>
      refine h.of_watch (onward_accept _ e) ?_
      cases body <;> rfl
    | close time =>
      refine h.of_watch (onward_close _ time) ?_
      cases body <;> rfl

theorem Timely.resolve (h : s.Timely now) (half : Bool) (o : Outcome) :
    (s.resolve half o).Timely now := by
  obtain ⟨bound, body, watch⟩ := s
  refine h.of_watch (onward_resolve _ half o) ?_
  cases body <;> rfl

end Sink

theorem StreamDeed.timely (d : StreamDeed) (s : Stream) (now : Nat) :
    Forall₂ (fun a b => a.Timely now → b.Timely now) s.sinks (d.apply s now).sinks := by
  have hcalls : Forall₂ (fun a b : Sink => a.Timely now → b.Timely now) s.sinks
      (s.sinks.map (·.obeyAll (d.calls s now))) := by
    refine List.forall₂_map_right_iff.mpr (List.forall₂_same.mpr fun a _ ha => ?_)
    exact ha.obeyAll _
  rw [d.apply_eq s now]
  cases d with
  | resolve sink half outcome =>
    refine List.forall₂_iff_get.mpr ⟨by simp [touch], fun j hj hj' ha => ?_⟩
    have hkept := (List.forall₂_iff_get.mp hcalls).2 j hj (by simpa using hj) ha
    simp only [touch, List.get_eq_getElem, List.getElem_modify] at hkept ⊢
    split
    · exact hkept.resolve half outcome
    · exact hkept
  | post e => exact hcalls
  | attach listener => exact hcalls
  | write channel bytes => exact hcalls
  | flush => exact hcalls
  | close reason => exact hcalls

namespace Run

variable {r s : Run} {i d start : Nat} {v w : Invocation}

/-! ## Over when the bound is

The deadline of a watch is among the instants that are due as long as the watch has not seen the end of
its sink, so a run that goes beyond it has stopped over there. A run that begins after the deadline has
nothing to stop for, but settles first. -/

theorem mem_settleSinks {now : Nat} {sinks : List Sink} {outside : Outside} {t : Sink}
    (h : t ∈ (settleSinks now sinks outside).1) :
    ∃ s ∈ sinks, ∃ outside, t = (s.settle outside now).1 := by
  induction sinks generalizing outside with
  | nil => exact absurd h (by simp [settleSinks])
  | cons s rest ih =>
    rcases List.mem_cons.mp h with rfl | h
    · exact ⟨s, by simp, outside, rfl⟩
    · obtain ⟨u, hu, o, rfl⟩ := ih h
      exact ⟨u, List.mem_cons_of_mem _ hu, o, rfl⟩

/-- At an instant at which its bound has passed a sink is over. -/
theorem over_of_settle {t : Sink} {k : Watch} (hw : r.settle.lifecycle.invocation? i = some w)
    (ht : t ∈ w.sinks) (hk : t.watch = some k) (hle : k.deadline ≤ r.lifecycle.now) :
    t.seen.done.isSome = true := by
  have hpasses := (passes_checkCalls r.calls r.lifecycle.settle).trans (passes_round r)
  obtain ⟨v, hv, hvw⟩ := hpasses.of_invocation? hw
  obtain ⟨u, hu, hut⟩ := forall₂_exists_left hvw.onward.sinks ht
  obtain ⟨v₀, hv₀, -⟩ := (passes_settle r.lifecycle).of_invocation? hv
  rw [settle_invocation? hv₀] at hv
  cases hv
  obtain ⟨s, -, outside, rfl⟩ := mem_settleSinks hu
  obtain ⟨k', hk', hdeadline'⟩ := Sink.shape_eq_of_watch hut.shape hk
  obtain ⟨k₀, hk₀, hdeadline⟩ := Sink.shape_eq_of_watch (s.onward_settle outside _).shape hk'
  refine hut.seen.done_isSome ?_
  rw [Sink.done_settle hk₀]
  split
  · rfl
  · rfl
  · rw [if_neg (by omega)]
    rfl

theorem invocations_endInstant (calls : List Pending) (l : Lifecycle) :
    (endInstant l calls).1.invocations = l.invocations := by
  induction calls generalizing l with
  | nil => rfl
  | cons p rest ih =>
    cases p with
    | finished reply => exact ih l
    | waiting call patience =>
      have hone : (l.endInstant call).1.invocations = l.invocations := by
        obtain ⟨posts, hposts⟩ := says_endInstant l call
        rw [hposts]
      exact (ih _).trans hone

/-- **A sink whose bound has passed is over**, whoever waits for it or does not. -/
theorem over_of_bound {t : Sink} {k : Watch}
    (hw : (r.arrival d).settle.lifecycle.invocation? i = some w) (ht : t ∈ w.sinks)
    (hk : t.watch = some k) (hle : k.deadline ≤ r.lifecycle.now + d) : t.seen.done.isSome = true := by
  by_contra hnot
  have hopen : t.seen.done = none := by simpa using hnot
  have hdue : k.deadline ∈ t.dueInstants := by
    rw [Sink.seen_of_watch hk] at hopen
    refine List.mem_append_right _ ?_
    rw [hk]
    simp [hopen]
  refine hnot (over_of_settle hw ht hk (due_of_arrival ?_ hle))
  refine List.mem_append_left _ (List.mem_flatMap.mpr ⟨t, List.mem_append_left _ ?_, hdue⟩)
  rw [leaveInstant, invocations_endInstant]
  exact List.mem_flatMap.mpr ⟨w, List.mem_of_getElem? hw, ht⟩

/-! ## Nobody gives it up

Giving a sink up cancels it, and what its watch sees then is neither its own end nor its bound. As long
as the run idles this can only come from a call that has been waiting, and here there is none. -/

end Run

namespace Lifecycle

variable {l m : Lifecycle} {i : Nat} {places : Nat → Prop}

/-- What the watches of some sinks of an invocation have seen is timely. -/
def Timely (l : Lifecycle) (i : Nat) (places : Nat → Prop) : Prop :=
  ∃ v, l.invocation? i = some v ∧ ∀ k s, places k → v.sinks[k]? = some s → s.Timely l.now

theorem Timely.same (h : l.Timely i places) (hinvocations : m.invocations = l.invocations)
    (hle : l.now ≤ m.now) : m.Timely i places := by
  obtain ⟨v, hv, hall⟩ := h
  refine ⟨v, ?_, fun k s hk hs => (hall k s hk hs).later hle⟩
  rw [invocation?, hinvocations]
  exact hv

theorem Timely.sayErrors (h : l.Timely i places) (whom : Addressee) (errors : List SinkError) :
    (l.sayErrors whom errors).Timely i places :=
  h.same (invocations_sayErrors l whom errors) (Nat.le_of_eq (quiet_sayErrors l whom errors).now.symm)

/-- The sinks of one invocation change. -/
theorem Timely.update {j : Nat} {f : Invocation → Invocation} (h : l.Timely i places)
    (hf : ∀ v, l.invocation? j = some v →
      Forall₂ (fun a b => a.Timely l.now → b.Timely l.now) v.sinks (f v).sinks) :
    (l.update j f).Timely i places := by
  obtain ⟨v, hv, hall⟩ := h
  by_cases hij : j = i
  · subst hij
    refine ⟨f v, invocation?_update_self hv f, fun k t hk ht => ?_⟩
    obtain ⟨s, hs, hst⟩ := forall₂_getElem? (hf v hv).flip ht
    exact hst (hall k s hk hs)
  · refine ⟨v, ?_, hall⟩
    rw [invocation?_update, if_neg hij]
    exact hv

theorem Stirs.timely (h : l.Stirs m) (ht : l.Timely i places) : m.Timely i places := by
  cases h with
  | @sinks j u sinks errors outside hu hgo =>
    have hupdated : (l.update j (·.withSinks sinks)).Timely i places := by
      refine ht.update fun v hv => ?_
      cases hu.symm.trans hv
      exact hgo.timely
    exact (hupdated.same (m := { l.update j (·.withSinks sinks) with outside := outside }) rfl
      (Nat.le_refl _)).sayErrors _ _
  | strays strays outside errors =>
    exact (ht.same (m := { l with strays := strays, outside := outside }) rfl
      (Nat.le_refl _)).sayErrors _ _
  | deed j d => exact ht.update fun v _ => d.timely v.stream l.now
  | @drain j _ =>
    exact ht.same (invocations_settleDrain l j) (Nat.le_of_eq (calm_settleDrain l j).now.symm)
  | time hle => exact ht.same rfl hle
  | limits limits => exact ht.same rfl (Nat.le_refl _)

end Lifecycle

namespace Run

variable {r s : Run} {i : Nat} {places : Nat → Prop}

theorem roles_eq_nil_of_idles (hs : ReflTransGen Idles r s) (hroles : r.roles = []) : s.roles = [] := by
  refine List.eq_nil_iff_forall_not_mem.mpr fun role hrole => ?_
  have hmem := roles_of_idles hs role hrole
  rw [hroles] at hmem
  exact absurd hmem (by simp)

/-- **As long as nobody waits**, what watches see is that their sinks have ended, or that their bounds have
passed. -/
theorem timely_of_idles (hs : ReflTransGen Idles r s) (hroles : r.roles = [])
    (ht : r.lifecycle.Timely i places) : s.lifecycle.Timely i places := by
  induction hs with
  | refl => exact ht
  | @tail s t hrs hst ih =>
    have hnobody {call : Call} {earlier later : List Pending}
        (hcalls : s.calls = earlier ++ .waiting call none :: later) : False := by
      have hrole := role_mem_roles hcalls
      rw [roles_eq_nil_of_idles hrs hroles] at hrole
      exact absurd hrole (by simp)
    cases hst with
    | stirs hstirs => exact hstirs.timely ih
    | look hcalls => exact (hnobody hcalls).elim
    | word hcalls => exact (hnobody hcalls).elim
    | refused hc hp =>
      obtain ⟨⟨strays, heq⟩, -⟩ := refused_call hc hp
      exact ih.same (heq ▸ rfl) (heq ▸ Nat.le_refl _)
    | forget => exact ih

end Run

end EventUpload
