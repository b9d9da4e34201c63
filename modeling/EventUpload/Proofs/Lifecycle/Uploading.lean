import EventUpload.Proofs.Lifecycle.Closing
import EventUpload.Proofs.Lifecycle.Turns

/-!
# The uploads that the end of an invocation waits for

The end of a blocking invocation waits until every upload has ended, but no longer than a cap.
`waitSpan` is how long that takes and `cappedReport` is what is reported of the uploads then; both only
depend on the uploads and the cap. `Lifecycle.Uploading` ties the sinks of an invocation to their
uploads, and `check_finish_report` says that this is what a look at the waiting call finds.

Most reports are made before the cap. They are what would have been reported at the cap, because a wait
ends early only if every upload has ended.

`Uploading` has the property of a sink and its upload as a parameter, and three are put in for it as an
instant goes on: what has arrived, what is settled, what shows (`Upload.Arrived`, `Upload.Settled`,
`Upload.Shows`). A look that comes first at an instant is the delicate one. It finds the sinks as they
have arrived and not settled, and `shows_at_once` says when that makes no difference: if everything is
over already, or if nothing ends at that very instant.

`waitSpan` is a maximum over the uploads, each cut at the cap, and not the instant of some event. In
this form it can be computed, and `waitSpan_eq` is the only place where it is compared with what a wait
does.
-/

set_option autoImplicit false

namespace EventUpload

open List (Forall₂)

/-! ## How long a wait with a cap takes -/

/-- How long a wait for uploads takes: until the last of them has ended, but no longer than the
cap. -/
def waitSpan (cap : Nat) (us : List Upload) : Nat :=
  us.foldr (fun u span => max (min cap (u.ending.elim cap Prod.fst)) span) 0

section WaitSpan

variable {cap d : Nat} {us : List Upload}

theorem waitSpan_le :
    waitSpan cap us ≤ d ↔ ∀ u ∈ us, min cap (u.ending.elim cap Prod.fst) ≤ d := by
  induction us with
  | nil => simp [waitSpan]
  | cons u us ih =>
    have hcons : waitSpan cap (u :: us) =
        max (min cap (u.ending.elim cap Prod.fst)) (waitSpan cap us) := rfl
    rw [hcons, Nat.max_le, ih, List.forall_mem_cons]

theorem Upload.endedBy_iff {u : Upload} (h : d < cap) :
    u.EndedBy d ↔ min cap (u.ending.elim cap Prod.fst) ≤ d := by
  constructor
  · rintro ⟨t, o, he, hle⟩
    rw [he]
    exact Nat.le_trans (Nat.min_le_right _ _) hle
  · intro hle
    cases he : u.ending with
    | none =>
      rw [he] at hle
      exact absurd hle (by simp [h])
    | some p =>
      rw [he, Option.elim_some] at hle
      exact ⟨p.1, p.2, he, by omega⟩

/-- A wait that goes on while some upload has not ended, and ends when all have or at the cap, takes
that long. -/
theorem waitSpan_eq (hle : d ≤ cap) (hwait : ∀ e < d, ¬ ∀ u ∈ us, u.EndedBy e)
    (hover : d = cap ∨ ∀ u ∈ us, u.EndedBy d) : waitSpan cap us = d := by
  refine Nat.le_antisymm (waitSpan_le.mpr fun u hu => ?_) (Nat.not_lt.mp fun hlt => ?_)
  · rcases Nat.lt_or_eq_of_le hle with hlt | heq
    · rcases hover with heq | hall
      · omega
      · exact (Upload.endedBy_iff hlt).mp (hall u hu)
    · rw [heq]
      exact Nat.min_le_left _ _
  · -- Otherwise every upload would have ended at `waitSpan`, while the wait still went on.
    have hcap : waitSpan cap us < cap := by omega
    refine hwait _ hlt fun u hu => (Upload.endedBy_iff hcap).mpr ?_
    exact waitSpan_le.mp (Nat.le_refl _) u hu

end WaitSpan

/-- How an upload is reported under a cap: it is pending unless it has ended by then. -/
def Upload.statusAt (u : Upload) (cap : Nat) : SinkStatus :=
  match u.ending with
  | some (t, o) => if t ≤ cap then .ofOutcome? (some o) else .pending
  | none => .pending

/-- The report of a blocking invocation. -/
def cappedReport (cap : Nat) (us : List Upload) : Report :=
  ⟨.blocking, us.map fun u => ⟨u.name, u.statusAt cap⟩⟩

/-- When the wait is over, every upload stands as it is reported. -/
theorem Upload.ofOutcome?_seenAt {u : Upload} {cap d : Nat} (hle : d ≤ cap)
    (hover : d = cap ∨ u.EndedBy d) : .ofOutcome? (u.seenAt d) = u.statusAt cap := by
  unfold statusAt
  cases he : u.ending with
  | none =>
    rw [seenAt_of_not_ended]
    · rfl
    · rintro ⟨t, o, ht, _⟩
      rw [he] at ht
      exact absurd ht (by simp)
  | some p =>
    obtain ⟨t, o⟩ := p
    dsimp only
    by_cases ht : t ≤ d
    · rw [seenAt_of_ended he ht, if_pos (Nat.le_trans ht hle)]
    · -- It has not ended, so the wait has lasted until the cap.
      have hd : d = cap := hover.resolve_right fun ⟨t', o', ht', hle'⟩ => by
        rw [he] at ht'
        cases ht'
        exact ht hle'
      rw [seenAt_of_lt he (Nat.not_le.mp ht), if_neg (hd ▸ ht)]
      rfl

/-! ## The uploads of an invocation -/

namespace Upload

/-- What is seen of the sink is what is to be seen of the upload at a time. -/
structure Shows (u : Upload) (time : Nat) (s : Sink) : Prop where
  name : s.name = u.name
  seen : s.seen.done = u.seenAt time

theorem Settled.shows {u : Upload} {base time : Nat} {s : Sink} (h : u.Settled base time s) :
    u.Shows time s := ⟨h.describes.name, h.seen⟩

/-- What is seen of a sink before it has done anything at the instant at which its upload begins: if
its end is there already, then it had come before; and if it is not there, nothing may end now. -/
theorem Arrived.shows {u : Upload} {base : Nat} {s : Sink} {outside : Outside}
    (h : u.Arrived base 0 s) (hown : u.Agrees 0 (s.advance outside base).1.signals.done)
    (hnow : s.seen.done.isSome = true ∨ ∀ o, u.ending ≠ some (0, o)) : u.Shows 0 s := by
  refine ⟨h.describes.name, ?_⟩
  cases hseen : s.seen.done with
  | some o =>
    -- A watch that has just begun has seen nothing, so there is none.
    have hb : u.bound = 0 := by
      by_contra hb
      rw [h.unseen hb fun _ _ _ => Nat.zero_le _] at hseen
      exact absurd hseen (by simp)
    have hw : s.watch = none := by
      have := h.describes.watch
      rw [if_pos hb] at this
      exact Option.map_eq_none_iff.mp this
    rw [Sink.seen_of_unwatched hw] at hseen
    have hsignal := (s.onward_advance outside base).signals.done o hseen
    rw [hsignal] at hown
    have he := ending_of_unbounded hb
    cases hc : u.completion with
    | none => exact absurd (hown.never hc) (by simp)
    | some p =>
      obtain ⟨t, o'⟩ := p
      rw [hc] at he
      rcases Nat.eq_zero_or_pos t with rfl | hpos
      · rw [seenAt_of_ended he (Nat.le_refl 0)]
        exact hown.at_ 0 o' hc rfl
      · exact absurd (hown.before t o' hc hpos) (by simp)
  | none =>
    rw [seenAt_of_not_ended]
    rintro ⟨t, o, he, hle⟩
    obtain rfl := Nat.le_zero.mp hle
    exact hnow.elim (fun hsome => absurd hsome (by simp [hseen])) fun hlate => hlate o he

end Upload

namespace Lifecycle

variable {l m : Lifecycle} {i base time : Nat} {us : List Upload}

/-- The blocking invocation has these uploads, one for each of its sinks, and this holds of them. -/
def Uploading (l : Lifecycle) (i : Nat) (us : List Upload) (P : Upload → Sink → Prop) : Prop :=
  ∃ v, l.invocation? i = some v ∧ v.mode = .blocking ∧ Forall₂ (fun s u => P u s) v.sinks us

theorem Uploading.of_invocations {P : Upload → Sink → Prop} (h : l.Uploading i us P)
    (hm : m.invocations = l.invocations) : m.Uploading i us P := by
  obtain ⟨v, hv, hrest⟩ := h
  refine ⟨v, ?_, hrest⟩
  rw [invocation?, hm]
  exact hv

theorem Uploading.imp {P Q : Upload → Sink → Prop} (h : l.Uploading i us P)
    (hpq : ∀ s, ∀ u ∈ us, P u s → Q u s) : l.Uploading i us Q := by
  obtain ⟨v, hv, hmode, hall⟩ := h
  have hflip := (List.forall₂_and_left (p := (· ∈ us)) us v.sinks).mpr ⟨fun u hu => hu, hall.flip⟩
  exact ⟨v, hv, hmode, hflip.flip.imp fun s u hs => hpq s u hs.1 hs.2⟩

/-- One instant of all uploads. -/
theorem Uploading.settle (h : l.Uploading i us (Upload.Arrived · base time))
    (hnow : l.now = base + time)
    (hown : Forall₂ (fun own u => u.InTime time → Upload.Agrees u time own) (l.completions i) us) :
    l.settle.Uploading i us (Upload.Settled · base time) := by
  obtain ⟨v, hv, hmode, hall⟩ := h
  refine ⟨_, settle_invocation? hv, hmode, ?_⟩
  rw [completions, hv] at hown
  refine forall₂_settleSinks (fun s u outside harrived hagrees => ?_) hall
    (List.forall₂_map_left_iff.mp hown)
  rw [hnow] at hagrees ⊢
  exact harrived.settle hagrees

/-- What looks after the bounds never cancels more than they allow. -/
theorem Uploading.spares_settle
    (h : l.Uploading i us fun u s => u.Describes base s ∧ u.Spares time s)
    (hnow : l.now = base + time) : l.settle.Uploading i us (Upload.Spares · time) := by
  obtain ⟨v, hv, hmode, hall⟩ := h
  refine ⟨_, settle_invocation? hv, hmode, ?_⟩
  have htrue : Forall₂ (fun (_ : Sink) (_ : Upload) => True)
      (turns l.now v.sinks (l.outsideAt i)) us :=
    List.forall₂_iff_get.mpr
      ⟨(length_turns _ _ _).trans hall.length_eq, fun _ _ _ => trivial⟩
  refine forall₂_settleSinks (fun s u outside hs _ => ?_) hall htrue
  rw [hnow]
  exact hs.2.settle hs.1

/-- What a look that comes before everything else at an instant finds, if it does not matter that
nothing has been done at this instant yet. -/
theorem Uploading.shows_at_once (h : l.Uploading i us (Upload.Arrived · l.now 0))
    (hown : Forall₂ (fun own u => u.InTime 0 → Upload.Agrees u 0 own) (l.completions i) us)
    (hnow : (∀ v, l.invocation? i = some v → v.allDone = true) ∨
      ∀ u ∈ us, ∀ o, u.ending ≠ some (0, o)) : l.Uploading i us (Upload.Shows · 0) := by
  obtain ⟨v, hv, hmode, hall⟩ := h
  refine ⟨v, hv, hmode, ?_⟩
  rw [completions, hv] at hown
  have hboth : Forall₂ (fun (s : Sink) (u : Upload) => u.Arrived l.now 0 s ∧
      (s.seen.done.isSome = true ∨ ∀ o, u.ending ≠ some (0, o))) v.sinks us := by
    rcases hnow with hdone | hlate
    · have hsome : ∀ s ∈ v.sinks, s.seen.done.isSome = true := List.all_eq_true.mp (hdone v hv)
      exact ((List.forall₂_and_left _ _).mpr ⟨hsome, hall⟩).imp fun s u hs => ⟨hs.2, .inl hs.1⟩
    · have hflip := (List.forall₂_and_left _ _).mpr ⟨hlate, hall.flip⟩
      exact hflip.flip.imp fun s u hs => ⟨hs.2, .inr hs.1⟩
  refine forall₂_of_turns (fun s u outside hs hagrees => ?_) hboth
    (List.forall₂_map_left_iff.mp hown)
  exact hs.1.shows (hagrees Upload.inTime_zero) hs.2

/-- The end of a bound is due as long as the upload has not ended. -/
theorem Uploading.due {u : Upload}
    (h : l.Uploading i us (Upload.Settled · base time)) (hu : u ∈ us) (hb : u.bound ≠ 0)
    (hended : ¬ u.EndedBy time) : base + u.bound ∈ l.dueInstants := by
  obtain ⟨v, hv, _, hall⟩ := h
  obtain ⟨s, hs, hsettled⟩ := forall₂_exists_left hall hu
  have hwatch := hsettled.describes.watch
  rw [if_neg hb] at hwatch
  obtain ⟨w, hw, hdeadline⟩ := Option.map_eq_some_iff.mp hwatch
  have hseen : w.seen.done = none := by
    rw [← Sink.seen_of_watch hw, hsettled.seen, Upload.seenAt_of_not_ended hended]
  have hmem : base + u.bound ∈ s.dueInstants := by
    rw [← hdeadline]
    simp [Sink.dueInstants, hw, hseen]
  refine List.mem_flatMap.mpr ⟨s, List.mem_append_left _ ?_, hmem⟩
  exact List.mem_flatMap.mpr ⟨v, List.mem_of_getElem? hv, hs⟩

theorem Uploading.allDone {v : Invocation} (h : l.Uploading i us (Upload.Shows · time))
    (hv : l.invocation? i = some v) :
    v.allDone = true ↔ ∀ u ∈ us, u.EndedBy time := by
  obtain ⟨w, hw, _, hall⟩ := h
  rw [hv] at hw
  cases hw
  unfold Invocation.allDone
  generalize v.sinks = sinks at hall
  induction hall with
  | nil => simp
  | @cons s u sinks us hs _ ih =>
    rw [List.all_cons, Bool.and_eq_true, ih, List.forall_mem_cons, hs.seen, Upload.isSome_seenAt]

/-- The report says how every upload stands at the cap. -/
theorem Uploading.report {v : Invocation} {cap : Nat}
    (h : l.Uploading i us (Upload.Shows · time)) (hv : l.invocation? i = some v)
    (hle : time ≤ cap) (hover : time = cap ∨ ∀ u ∈ us, u.EndedBy time) :
    reportOf v = .report (cappedReport cap us) := by
  obtain ⟨w, hw, hmode, hall⟩ := h
  rw [hv] at hw
  cases hw
  unfold reportOf Report.ofOutcomes cappedReport Invocation.outcomes
  rw [hmode, List.map_map]
  congr 2
  generalize v.sinks = sinks at hall
  induction hall with
  | nil => rfl
  | @cons s u sinks us hs _ ih =>
    have hu := Upload.ofOutcome?_seenAt hle (hover.imp_right fun hall => hall u (by simp))
    have hrest := ih (hover.imp_right fun hall u hu => hall u (List.mem_cons_of_mem _ hu))
    rw [List.map_cons, List.map_cons, Function.comp_apply, hs.name, hs.seen, hrest, ← hu]

/-! ## Looking at the call -/

theorem invocations_leaveClosing (l : Lifecycle) :
    l.leaveClosing.invocations = l.invocations := by
  unfold leaveClosing
  split <;> rfl

theorem invocations_noticeClosed (l : Lifecycle) (i : Nat) (v : Invocation)
    (noticed : List Bool) : (l.noticeClosed i v noticed).invocations = l.invocations := by
  refine foldl_keeps invocations (fun l s => ?_) _ l
  rfl

theorem dueInstants_noticeClosed (l : Lifecycle) (i : Nat) (v : Invocation)
    (noticed : List Bool) : (l.noticeClosed i v noticed).dueInstants = l.dueInstants := by
  refine foldl_keeps dueInstants (fun l s => ?_) _ l
  rfl

variable {v : Invocation} (start deadline : Nat) (noticed : List Bool) (longest nextWord : Nat)

theorem check_finish_waiting (hv : l.invocation? i = some v) (hdone : ¬ v.allDone = true)
    (hlt : l.now < deadline) :
    l.check (.finish i start deadline noticed longest nextWord) =
      (l.noticeClosed i v noticed, .waiting (.finish i start deadline
        (v.sinks.map fun s => s.seen.done.isSome) longest nextWord)) := by
  have hnow : ¬ deadline ≤ (l.noticeClosed i v noticed).now := by
    rw [(quiet_noticeClosed l i v noticed).now]
    exact Nat.not_le.mpr hlt
  simp only [check, hv, if_neg hdone, if_neg hnow]

theorem check_finish_answered (hv : l.invocation? i = some v)
    (h : v.allDone = true ∨ deadline ≤ l.now) :
    (l.check (.finish i start deadline noticed longest nextWord)).2 = .answered (reportOf v) ∧
      (l.check (.finish i start deadline noticed longest nextWord)).1.invocations =
        l.invocations := by
  have hnotice := invocations_noticeClosed l i v noticed
  simp only [check, hv]
  split
  · refine ⟨rfl, ?_⟩
    rw [invocations_leaveClosing]
    exact (invocations_sayAll _ _ _ _).trans hnotice
  · next hdone =>
    have hnow : deadline ≤ (l.noticeClosed i v noticed).now := by
      rw [(quiet_noticeClosed l i v noticed).now]
      exact h.resolve_left hdone
    rw [if_pos hnow]
    refine ⟨rfl, ?_⟩
    rw [invocations_leaveClosing]
    exact hnotice

theorem invocations_check_finish (l : Lifecycle) (i : Nat) :
    (l.check (.finish i start deadline noticed longest nextWord)).1.invocations =
      l.invocations := by
  cases hv : l.invocation? i with
  | none =>
    simp only [check, hv]
    exact invocations_leaveClosing l
  | some v =>
    by_cases hover : v.allDone = true ∨ deadline ≤ l.now
    · exact (check_finish_answered start deadline noticed longest nextWord hv hover).2
    · obtain ⟨hdone, hlt⟩ := not_or.mp hover
      rw [check_finish_waiting start _ noticed longest nextWord hv hdone (Nat.not_le.mp hlt)]
      exact invocations_noticeClosed l i v noticed

/-- Whether the call is answered is whether its wait is over. -/
theorem over_of_check_finish {a : Answer} (hv : l.invocation? i = some v)
    (h : (l.check (.finish i start deadline noticed longest nextWord)).2 = .answered a) :
    v.allDone = true ∨ deadline ≤ l.now := by
  by_contra hn
  obtain ⟨hdone, hlt⟩ := not_or.mp hn
  rw [check_finish_waiting start _ noticed longest nextWord hv hdone (Nat.not_le.mp hlt)] at h
  exact absurd h (by simp)

theorem not_over_of_check_finish {next : Call} (hv : l.invocation? i = some v)
    (h : (l.check (.finish i start deadline noticed longest nextWord)).2 = .waiting next) :
    ¬ v.allDone = true ∧ l.now < deadline := by
  rw [← Nat.not_le, ← not_or]
  intro hor
  have hanswer := (check_finish_answered start _ noticed longest nextWord hv hor).1
  exact absurd (hanswer.symm.trans h) (by simp)

/-- A look that answers the call finds how the uploads stand at the cap, and that all the time that
the wait can take has passed. -/
theorem check_finish_report {cap : Nat} {a : Answer} (h : l.Uploading i us (Upload.Shows · time))
    (hnow : l.now = base + time) (hle : time ≤ cap)
    (hwait : ∀ e < time, ¬ ∀ u ∈ us, u.EndedBy e)
    (ha : (l.check (.finish i start (base + cap) noticed longest nextWord)).2 = .answered a) :
    a = .report (cappedReport cap us) ∧ waitSpan cap us = time ∧
      (l.check (.finish i start (base + cap) noticed longest nextWord)).1.invocations =
        l.invocations := by
  have ⟨v, hv, _⟩ := h
  have hover := over_of_check_finish start (base + cap) noticed longest nextWord hv ha
  obtain ⟨hanswer, hinv⟩ := check_finish_answered start _ noticed longest nextWord hv hover
  have hended : time = cap ∨ ∀ u ∈ us, u.EndedBy time := by
    rcases hover with hdone | hdue
    · exact .inr ((h.allDone hv).mp hdone)
    · exact .inl (by omega)
  refine ⟨?_, waitSpan_eq hle hwait hended, hinv⟩
  rw [ha] at hanswer
  cases hanswer
  exact h.report hv hle hended

theorem endInstant_finish (l : Lifecycle) (i : Nat) :
    ∃ word, (l.endInstant (.finish i start deadline noticed longest nextWord)).2 =
        .finish i start deadline noticed longest word ∧
      (l.endInstant (.finish i start deadline noticed longest nextWord)).1.invocations =
        l.invocations := by
  unfold endInstant
  dsimp only
  split
  · exact ⟨_, rfl, rfl⟩
  · exact ⟨_, rfl, rfl⟩

end Lifecycle

end EventUpload
