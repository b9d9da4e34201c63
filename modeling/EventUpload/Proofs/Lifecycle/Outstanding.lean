import EventUpload.Proofs.Lifecycle.SettledRuns
import EventUpload.Proofs.Lifecycle.WarnedOnce

/-!
# What is outstanding

The pending place is to hold uploads as long as they are going on, and no longer. Nothing is given out
of it before its sinks are done, so when it is empty everything that was published is over. The other
way round somebody has to clear it: `Tended` says of uploads that are pending who will do so. That is
their drain, or a call that is waiting for them. There is nobody any more once the cap has cut the wait
for a blocking invocation; then the uploads stay there after they are over, until the next invocation.
`Genuine.outstanding_iff` says so of every run at rest.

The equivalence is asked for at rest because within an instant it cannot hold: a sink completes, and its
drain has its turn a moment later. `Run.Rests` is about the end of the instant, with nothing left to be
done before the next one, and that is when a host can look.

Uploads without sinks are over from the beginning and need nobody, so `Tended.tender` leaves them out.
`OverOnceCleared` is proved for itself before `Tended`, since it does not mention anybody who takes
care; the two inductions run over the same preparations and conclusions as the one in
`Lifecycle/Ledger`.

`LeftBehind` is exactly what remains of `Tender.cut` at rest. That such uploads exist is
`not_outstanding_iff_lateUpload`: the upload has come to its end, and the pending place still holds it.
-/

set_option autoImplicit false

namespace EventUpload

open List (Forall₂)
open Lifecycle

namespace Lifecycle

variable {l : Lifecycle} {i : Nat} {v : Invocation} {call : Call}

/-- Who waits until all sinks are done does not wait longer. -/
theorem HasToWait.not_allDone (h : l.HasToWait call) (hi : call.errand.1 = i)
    (hv : l.invocation? i = some v) (hmode : v.mode = .blocking) : v.allDone = false := by
  cases call with
  | reconcile j grace deadline =>
    obtain rfl := hi
    obtain ⟨w, hw, hverdict⟩ := h
    cases hv.symm.trans hw
    by_contra hdone
    have hall : v.awaited.all Option.isSome = true := by
      rw [Invocation.awaited, hmode, List.all_map]
      exact (by simpa using hdone : v.allDone = true)
    unfold reconcileVerdict? at hverdict
    split at hverdict
    · exact absurd hverdict (by simp)
    · rw [if_pos hall] at hverdict
      exact absurd hverdict (by simp)
  | finish j start deadline noticed longest nextWord =>
    obtain rfl := hi
    obtain ⟨w, hw, hdone, -⟩ := h
    cases hv.symm.trans hw
    exact hdone
  | settle j grace deadline ending =>
    obtain rfl := hi
    obtain ⟨w, hw, hdone, -⟩ := h
    cases hv.symm.trans hw
    exact hdone

end Lifecycle

/-! ## Who clears the pending place

`Tender` lists who takes care of uploads. The third case is nobody: it is there because the cap of a
wait leaves uploads behind. -/

/-- Who takes care of uploads that are pending. -/
inductive Tender (l : Lifecycle) (es : List (Nat × Retirer)) (i : Nat) (v : Invocation) : Prop where
  | drain : i ∈ l.drains → Tender l es i v
  | call {who : Retirer} : v.mode = .blocking → (i, who) ∈ es → Tender l es i v
  /-- Nobody does any more: the wait for them was cut. -/
  | cut : v.mode = .blocking → (∃ cap, capReached cap ∈ l.warningsTo (.invocation i)) →
      Tender l es i v

/-- Everything that was published is over or pending, and what is pending has somebody who takes care of
it. -/
structure Tended (l : Lifecycle) (es : List (Nat × Retirer)) : Prop where
  settled : ∀ i v, .published i ∈ l.journal → l.invocation? i = some v → l.pending ≠ some i →
    v.allDone = true
  tender : ∀ i v, l.pending = some i → l.invocation? i = some v → v.sinks ≠ [] → Tender l es i v

theorem Invocation.Onward.sinks_eq_nil {v w : Invocation} (h : v.Onward w) (hv : v.sinks = []) :
    w.sinks = [] := by
  have hlength := h.sinks.length_eq
  rw [hv] at hlength
  exact List.length_eq_zero_iff.mp hlength.symm

theorem Invocation.Onward.sinks_ne_nil {v w : Invocation} (h : v.Onward w) (hv : v.sinks ≠ []) :
    w.sinks ≠ [] := fun hnil => hv (List.length_eq_zero_iff.mp (by rw [h.sinks.length_eq, hnil]; rfl))

/-! ### What was cleared away

This half has nothing to do with who has cleared it away. -/

/-- What was published and is not pending any more is over. -/
def Lifecycle.OverOnceCleared (l : Lifecycle) : Prop :=
  ∀ i v, .published i ∈ l.journal → l.invocation? i = some v → l.pending ≠ some i → v.allDone = true

namespace Lifecycle.OverOnceCleared

variable {l m : Lifecycle} {es : List (Nat × Retirer)} {ws : List Warning} {i : Nat} {who : Retirer}
  {texts : List String}

theorem new (limits : Limits) (outside : Outside) : OverOnceCleared (.new limits outside) :=
  fun i v hi => absurd hi (by simp [Lifecycle.new])

theorem hush (h : l.OverOnceCleared) (hm : l.Hush m) : m.OverOnceCleared := by
  intro i w hi hw hp
  rw [hm.journal] at hi
  rw [hm.pending] at hp
  obtain ⟨v, hv, hvw⟩ := hm.of_invocation? hw
  exact hvw.allDone (h i v hi hv hp)

theorem start (h : l.OverOnceCleared) (hl : Voiced l es ws) (v : Invocation) :
    OverOnceCleared { l with invocations := l.invocations ++ [v] } := by
  intro i w hi hw hp
  have hw' : (l.invocations ++ [v])[i]? = some w := hw
  rw [List.getElem?_append_left (hl.started i hi)] at hw'
  exact h i w hi hw' hp

/-- Whatever was pending before had no sinks. -/
theorem publish {mode : UploadMode} {drains : List Nat} (h : l.OverOnceCleared)
    (hover : ∀ j, l.pending = some j → l.IsHollow j) :
    OverOnceCleared { l.publish i mode with drains := l.drains ++ drains } := by
  intro j w hj hw hp
  have hji : j ≠ i := by
    rintro rfl
    exact hp rfl
  have hj' : .published j ∈ l.journal := by
    rcases List.mem_append.mp hj with hj | hj
    · exact hj
    · cases List.mem_singleton.mp hj
      exact absurd rfl hji
  have hw' : l.invocation? j = some w := by
    have hsame := invocation?_publish l i mode j
    rw [if_neg (Ne.symm hji)] at hsame
    exact hsame.symm.trans hw
  by_cases hpending : l.pending = some j
  · rw [Invocation.allDone, hover j hpending w hw']
    rfl
  · exact h j w hj' hw' hpending

/-- What is retired is over, and nothing has changed for others. -/
theorem retire (h : l.OverOnceCleared) (hl : l.Sound) (hr : l.Retires i who texts m) :
    m.OverOnceCleared := by
  intro j w hj hw hp
  by_cases hji : j = i
  · subst hji
    exact hr.settled hl w hw
  · obtain ⟨v, hv, hvw⟩ := Voiced.of_retired hr hw
    refine hvw.allDone (h j v ((Voiced.published_retired hr).mp hj) hv fun hpending => hp ?_)
    rw [hr.pending, hpending, if_neg (by simpa using hji)]

theorem prepares {p q : Lifecycle × List (Nat × Retirer)} (h : p.1.OverOnceCleared)
    (hl : Voiced p.1 p.2 ws) (hp : Prepares p q) : q.1.OverOnceCleared := by
  cases hp with
  | hush hm => exact h.hush hm
  | start _ => exact h.start hl _
  | publish _ _ hover _ => exact h.publish hover
  | ask _ _ => exact h

theorem concludes {p q : Lifecycle × List (Nat × Retirer)} {more : List Warning}
    (h : p.1.OverOnceCleared) (hl : p.1.Sound) (hc : Concludes p q more) : q.1.OverOnceCleared := by
  cases hc with
  | hush hm => exact h.hush hm
  | drain _ hr => exact h.retire hl hr
  | errand _ hr => exact h.retire hl hr
  | @cut l m n earlier later i cap hm hn =>
    have hbefore : m.OverOnceCleared := h.hush hm
    have hsaid : (m.say (.invocation i) .warning (capReached cap)).OverOnceCleared := hbefore
    exact hsaid.hush hn
  | vacuous _ hm => exact h.hush hm

end Lifecycle.OverOnceCleared

/-! ### Who takes care

A tender stays one as long as it has not retired the uploads, whatever others do. -/

namespace Tended

variable {l m n : Lifecycle} {es es' : List (Nat × Retirer)} {ws : List Warning} {i : Nat}
  {who : Retirer} {texts : List String}

theorem new (limits : Limits) (outside : Outside) : Tended (.new limits outside) [] where
  settled := OverOnceCleared.new limits outside
  tender := fun i v hi => absurd hi (by simp [Lifecycle.new])

/-- Nobody is warned and nothing is retired, and whoever takes care of uploads goes on to do so. -/
theorem hush (h : Tended l es) (hm : l.Hush m)
    (hes : ∀ i v who, l.invocation? i = some v → (i, who) ∈ es → (i, who) ∈ es') : Tended m es' where
  settled := OverOnceCleared.hush h.settled hm
  tender := fun i w hp hw hsinks => by
    rw [hm.pending] at hp
    obtain ⟨v, hv, hvw⟩ := hm.of_invocation? hw
    cases h.tender i v hp hv fun hnil => hsinks (hvw.sinks_eq_nil hnil) with
    | drain hi => exact .drain (hm.drains ▸ hi)
    | call hmode hi => exact .call (hvw.mode.trans hmode) (hes i v _ hv hi)
    | cut hmode hi =>
      rw [← hm.warnings] at hi
      exact .cut (hvw.mode.trans hmode) hi

/-! ### Preparations

Publishing gives the new uploads a tender, and those that were pending before had no sinks. -/

theorem start (h : Tended l es) (hl : Voiced l es ws) (v : Invocation) :
    Tended { l with invocations := l.invocations ++ [v] } es where
  settled := OverOnceCleared.start h.settled hl v
  tender := fun i w hp hw hsinks => by
    have hw' : (l.invocations ++ [v])[i]? = some w := hw
    rw [List.getElem?_append_left (hl.started i (hl.recorded.mem_of_pending hp))] at hw'
    cases h.tender i w hp hw' hsinks with
    | drain hi => exact .drain hi
    | call hmode hi => exact .call hmode hi
    | cut hmode hi => exact .cut hmode hi

/-- Uploads that are published have somebody from the start. -/
theorem publish {mode : UploadMode} {drains : List Nat} (h : Tended l [])
    (hover : ∀ j, l.pending = some j → l.IsHollow j) (hheir : l.Heir i mode drains es) :
    Tended { l.publish i mode with drains := l.drains ++ drains } es where
  settled := OverOnceCleared.publish h.settled hover
  tender := fun j w hp hw hsinks => by
    cases hp
    have hmode : w.mode = mode := by
      have hsame := invocation?_publish l i mode i
      rw [if_pos rfl] at hsame
      obtain ⟨v, -, rfl⟩ := Option.map_eq_some_iff.mp (hsame.symm.trans hw)
      rfl
    cases hheir with
    | wait => exact .call hmode (List.mem_singleton.mpr rfl)
    | drain _ => exact .drain (List.mem_append_right _ (List.mem_singleton.mpr rfl))
    | ending => exact .call hmode (List.mem_singleton.mpr rfl)
    | nobody hollow =>
      exact absurd ((Orderly.isHollow_publish l i .blocking i).mpr hollow w hw) hsinks

theorem prepares {p q : Lifecycle × List (Nat × Retirer)} (h : Tended p.1 p.2)
    (hl : Voiced p.1 p.2 ws) (hp : Prepares p q) : Tended q.1 q.2 := by
  cases hp with
  | hush hm => exact h.hush hm fun _ _ _ _ hi => hi
  | start _ => exact h.start hl _
  | publish _ _ hover hheir => exact h.publish hover hheir
  | ask _ _ => exact h.hush (.refl _) fun _ _ _ _ hi => List.mem_append_left _ hi

/-! ### Conclusions

A conclusion ends the errand of one call. If it was the tender of uploads, these have been retired, or
the call was cut by its cap. -/

theorem mem_errands_of_ne {earlier later : List (Nat × Retirer)} {j : Nat} {who' : Retirer}
    (hji : j ≠ i) (hj : (j, who') ∈ earlier ++ (i, who) :: later) : (j, who') ∈ earlier ++ later := by
  rcases List.mem_append.mp hj with hj | hj
  · exact List.mem_append_left _ hj
  · refine List.mem_append_right _ ((List.mem_cons.mp hj).resolve_left ?_)
    rintro ⟨⟩
    exact hji rfl

/-- Uploads that are retired are over, and nothing has changed for others. -/
theorem retire (h : Tended l es) (hl : Voiced l es ws) (hr : l.Retires i who texts m)
    (hes : ∀ j who', j ≠ i → (j, who') ∈ es → (j, who') ∈ es') : Tended m es' where
  settled := OverOnceCleared.retire h.settled hl.sound hr
  tender := fun j w hp hw hsinks => by
    have hpending : l.pending = some j ∧ j ≠ i := by
      rw [hr.pending] at hp
      split at hp
      · exact absurd hp (by simp)
      · next hnot =>
        refine ⟨hp, ?_⟩
        rintro rfl
        exact hnot hp
    obtain ⟨hp, hji⟩ := hpending
    obtain ⟨v, hv, hvw⟩ := Voiced.of_retired hr hw
    cases h.tender j v hp hv fun hnil => hsinks (hvw.sinks_eq_nil hnil) with
    | drain hj =>
      refine .drain ?_
      rw [hr.drains]
      split
      · exact List.mem_filter.mpr ⟨hj, by simpa using hji⟩
      · exact hj
    | call hmode hj => exact .call (hvw.mode.trans hmode) (hes j _ hji hj)
    | cut hmode hj =>
      obtain ⟨cap, hcap⟩ := hj
      refine .cut (hvw.mode.trans hmode) ⟨cap, ?_⟩
      rw [hr.warnings]
      exact List.mem_append_left _ hcap

/-- After the cap of a wait was reached nobody takes care of the uploads. -/
theorem cut {earlier later : List (Nat × Retirer)} (h : Tended l (earlier ++ (i, .wait) :: later))
    (hl : Voiced l (earlier ++ (i, .wait) :: later) ws) (cap : Nat) :
    Tended (l.say (.invocation i) .warning (capReached cap)) (earlier ++ later) where
  settled := h.settled
  tender := fun j v hp hv hsinks => by
    have hmode := (hl.waits i (List.mem_append_right _ (List.mem_cons_self ..))).2.2
    have hwarned := warningsTo_warn (.invocation i) l (.invocation i) (capReached cap)
    rw [if_pos rfl] at hwarned
    by_cases hji : j = i
    · subst hji
      refine .cut (hmode v hv) ⟨cap, ?_⟩
      rw [hwarned]
      exact List.mem_append_right _ (List.mem_singleton.mpr rfl)
    · cases h.tender j v hp hv hsinks with
      | drain hj => exact .drain hj
      | call hmode hj =>
        exact .call hmode (mem_errands_of_ne hji hj)
      | cut hmode hj =>
        obtain ⟨cap', hcap⟩ := hj
        refine .cut hmode ⟨cap', ?_⟩
        rw [warningsTo_warn]
        exact List.mem_append_left _ hcap

theorem concludes {p q : Lifecycle × List (Nat × Retirer)} {more : List Warning}
    (h : Tended p.1 p.2) (hl : Voiced p.1 p.2 ws) (hc : Concludes p q more) : Tended q.1 q.2 := by
  cases hc with
  | hush hm => exact h.hush hm fun _ _ _ _ hi => hi
  | drain _ hr => exact h.retire hl hr fun _ _ _ hj => hj
  | errand _ hr => exact h.retire hl hr fun _ _ hji hj => mem_errands_of_ne hji hj
  | @cut l m n earlier later i cap hm hn =>
    have hcut := (h.hush hm fun _ _ _ _ hi => hi).cut (hl.hush hm) cap
    exact hcut.hush hn fun _ _ _ _ hi => hi
  | @vacuous l m earlier later i who hnone hm =>
    refine h.hush hm fun j v who' hv hj => mem_errands_of_ne ?_ hj
    rintro rfl
    exact absurd (hnone.symm.trans hv) (by simp)

end Tended

/-! ## What the pending place tells

At rest every call has been looked at and has found that it has to wait, and a drain likewise. So a
tender that is still there has something to wait for. -/

/-- Everything that was published is over. -/
def Lifecycle.AllOver (l : Lifecycle) : Prop :=
  ∀ i v, .published i ∈ l.journal → l.invocation? i = some v → v.allDone = true

namespace Run

variable {r : Run} {i : Nat} {v : Invocation}

/-- The uploads of a blocking invocation stay pending since its wait was cut, and nobody is waiting for
them. -/
structure LeftBehind (r : Run) (i : Nat) (v : Invocation) : Prop where
  outstanding : r.lifecycle.outstanding? = some (i, v)
  mode : v.mode = .blocking
  cut : ∃ cap, capReached cap ∈ r.lifecycle.warningsTo (.invocation i)
  nobody : ∀ who, (i, who) ∉ r.errands

theorem Genuine.voiced (h : r.Genuine) : ∃ ws, Voiced r.lifecycle r.errands ws := by
  obtain ⟨ws, hws⟩ := h.exists_history
  exact ⟨ws, hws.voiced⟩

theorem Genuine.tended (h : r.Genuine) : Tended r.lifecycle r.errands := by
  obtain ⟨ws, hws⟩ := h.exists_history
  have hboth : Voiced r.lifecycle r.errands ws ∧ Tended r.lifecycle r.errands := by
    refine hws.keeps (P := fun p ws => Voiced p.1 p.2 ws ∧ Tended p.1 p.2)
      (fun limits outside => ⟨.new limits outside, .new limits outside⟩) ?_ ?_
    · exact fun h hp => ⟨h.1.prepares hp, h.2.prepares h.1 hp⟩
    · exact fun h hc => ⟨h.1.concludes hc, h.2.concludes h.1 hc⟩
  exact hboth.2

/-- At rest nobody is waiting for blocking uploads that are over. -/
theorem Rests.not_allDone (h : r.Rests) {who : Retirer} (hi : (i, who) ∈ r.errands)
    (hv : r.lifecycle.invocation? i = some v) (hmode : v.mode = .blocking) : v.allDone = false := by
  obtain ⟨p, hp, herrand⟩ := List.mem_filterMap.mp hi
  cases p with
  | finished reply => exact absurd herrand (by simp [Pending.errand?])
  | waiting call patience =>
    have hcall : call.errand = (i, who) := Option.some.inj herrand
    exact (h.calls call patience hp).not_allDone (by rw [hcall]) hv hmode

/-- **What is outstanding.** When nothing can be done before the next instant, the pending place is empty
if and only if everything that was published is over, but for uploads that were left behind when the
wait for them was cut: these stay there. -/
theorem Genuine.outstanding_iff (h : r.Genuine) (hrest : r.Rests) :
    r.lifecycle.outstanding? = none ↔ r.lifecycle.AllOver ∧ ¬ ∃ i v, r.LeftBehind i v := by
  have htended := h.tended
  constructor
  · intro hnone
    refine ⟨fun i v hi hv => ?_, ?_⟩
    · by_cases hp : r.lifecycle.pending = some i
      · rw [Invocation.allDone, outstanding?_eq_none.mp hnone i hp v hv]
        rfl
      · exact htended.settled i v hi hv hp
    · rintro ⟨i, v, hleft⟩
      exact absurd (hnone.symm.trans hleft.outstanding) (by simp)
  · rintro ⟨hover, hleft⟩
    by_contra hne
    obtain ⟨⟨i, v⟩, ho⟩ := Option.ne_none_iff_exists'.mp hne
    obtain ⟨hp, hv, hsinks⟩ := outstanding?_eq_some.mp ho
    obtain ⟨ws, hvoiced⟩ := h.voiced
    have hdone := hover i v (hvoiced.recorded.mem_of_pending hp) hv
    have hnobody (hmode : v.mode = .blocking) (who : Retirer) : (i, who) ∉ r.errands := fun hi =>
      absurd (hdone.symm.trans (hrest.not_allDone hi hv hmode)) (by simp)
    cases htended.tender i v hp hv hsinks with
    | drain hi => exact absurd (hdone.symm.trans (hrest.drains i hi v hv)) (by simp)
    | call hmode hi => exact hnobody hmode _ hi
    | cut hmode hcut => exact hleft ⟨i, v, ho, hmode, hcut, hnobody hmode⟩

/-- A sink that is done some time after its stream was closed. -/
def slowSinks : List Sink := responders [("s", 0, some (50, .done))]

theorem fresh_slowSinks : ∀ s ∈ slowSinks, s.Fresh := fresh_responders _

/-- The drain of an invocation has come to its end. -/
def drainedUpload : Run :=
  ((firstEnded .standard slowSinks .nonBlocking).atInstant 50).settle

theorem outstanding_iff_drainedUpload : drainedUpload.Genuine ∧ drainedUpload.Rests ∧
    .published 0 ∈ drainedUpload.lifecycle.journal ∧ drainedUpload.lifecycle.AllOver := by
  have hended := genuine_firstEnded fresh_slowSinks .standard .nonBlocking
  have hlater := hended.atInstant (t := 50) (by decide)
  have hover := (hlater.settle.outstanding_iff (rests_settle _)).mp rfl
  exact ⟨hlater.settle, rests_settle _, by decide, hover.1⟩

/-- The wait for an upload was cut at its cap, and the upload has come to its end since. -/
def lateUpload : Run :=
  (((firstEnded ⟨0, 0, 0, 20⟩ slowSinks .blocking).atInstant 20).settle.atInstant 50).settle

/-- What was left behind is over and stays pending all the same. -/
theorem not_outstanding_iff_lateUpload : lateUpload.Genuine ∧ lateUpload.Rests ∧
    lateUpload.lifecycle.AllOver ∧ lateUpload.lifecycle.outstanding? ≠ none := by
  have hended := genuine_firstEnded fresh_slowSinks ⟨0, 0, 0, 20⟩ .blocking
  have hcut := (hended.atInstant (t := 20) (by decide)).settle
  have hlater := hcut.atInstant (t := 50) (by decide)
  refine ⟨hlater.settle, rests_settle _, fun i v hi hv => ?_, by decide⟩
  have hjournal : lateUpload.lifecycle.journal = [.published 0] := rfl
  rw [hjournal] at hi
  cases List.mem_singleton.mp hi
  cases hv
  rfl

end Run

end EventUpload
