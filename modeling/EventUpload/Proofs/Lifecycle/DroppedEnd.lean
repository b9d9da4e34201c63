import EventUpload.Proofs.Lifecycle.Accounts
import EventUpload.Proofs.Lifecycle.Reconcile
import EventUpload.Proofs.Lifecycle.Registered
import EventUpload.Proofs.Lifecycle.Timers
import EventUpload.Proofs.Lifecycle.WaitingMessages

/-!
# The end of an invocation is dropped

A host may drop the end of an invocation while it waits. Nothing but the phase changes then, so the
lifecycle is left as it is left by a wait that has reached its cap: the uploads are pending with all
their sinks, whose bounds run on, the invocation hears nothing more of the wait, and the next invocation
is accepted and waits for what is left. `Hasty.dropped_finish` says so of every hasty run, at whatever
point of the wait the host drops it.

The comparison with a cap is made at the instant of the drop. `says_check_capped` has the look at a call
whose deadline has come, and the same call with its deadline put to now is what `DroppedFinish.leftover`
compares with; the posts are left out, because the cap gives a warning and a drop gives none.

A crash may have come before the drop. Then the phase stays what it is and the uploads may have been
retired, so the fields of `DroppedFinish` that are about the next invocation ask for an idle lifecycle.
`BoundsRunOn` is about what comes later: that a bound ends its sink holds whatever is waiting, while how
the sink is over is only known as long as nobody waits (`Lifecycle/Timers`).
-/

set_option autoImplicit false

namespace EventUpload

open Relation (ReflTransGen)
open Lifecycle

/-- Making posts and leaving the closing phase do not get in each other's way. -/
theorem Lifecycle.Says.leaveClosing {l m : Lifecycle} (h : l.Says m) :
    l.leaveClosing.Says m.leaveClosing := by
  obtain ⟨posts, rfl⟩ := h
  unfold Lifecycle.leaveClosing
  dsimp only
  split
  · exact ⟨posts, rfl⟩
  · exact ⟨posts, rfl⟩

theorem Lifecycle.leaveClosing_of_phase {l : Lifecycle}
    (h : l.phase = .closing ∨ l.phase = .idle ∨ l.phase = .crashed) : l.leaveClosing =
      { l with phase := if l.phase = .crashed then .crashed else .idle } := by
  unfold leaveClosing
  rcases h with hp | hp | hp
  · rw [if_pos hp, if_neg (by simp [hp])]
  · rw [if_neg (by simp [hp]), if_neg (by simp [hp]), ← hp]
  · rw [if_neg (by simp [hp]), if_pos hp, ← hp]

/-- A wait that is cut by its cap only makes posts and leaves the closing phase. -/
theorem Lifecycle.says_check_capped {l : Lifecycle} {i start deadline longest word : Nat}
    {noticed : List Bool} {v : Invocation} (hv : l.invocation? i = some v)
    (hopen : v.allDone = false) (hcap : deadline ≤ l.now) :
    l.leaveClosing.Says (l.check (.finish i start deadline noticed longest word)).1 := by
  have hnotice := says_noticeClosed l i v noticed
  simp only [check, hv, hopen, Bool.false_eq_true, if_false]
  rw [if_pos (by obtain ⟨posts, hposts⟩ := hnotice; rw [hposts]; exact hcap)]
  exact (hnotice.trans ((says_say _ _ _ _).trans (says_note _ _ _))).leaveClosing

namespace Run

variable {r s : Run} {i start deadline longest word : Nat} {noticed : List Bool} {v : Invocation}

/-! ## Until the next call -/

theorem idle_of_idles (hs : ReflTransGen Idles r s) (hp : r.lifecycle.phase = .idle) :
    s.lifecycle.phase = .idle := by
  induction hs with
  | refl => exact hp
  | tail _ hs ih =>
    rcases hs.phase_or with hsame | ⟨-, hidle⟩
    · exact hsame.trans ih
    · exact hidle

theorem onward_of_idles (hs : ReflTransGen Idles r s) (hv : r.lifecycle.invocation? i = some v) :
    ∃ w, s.lifecycle.invocation? i = some w ∧ v.Onward w := by
  induction hs with
  | refl => exact ⟨v, hv, .refl v⟩
  | tail _ hst ih =>
    obtain ⟨u, hu, hvu⟩ := ih
    obtain ⟨w, hw, huw⟩ := forall₂_getElem? hst.onward hu
    exact ⟨w, hw, hvu.trans huw⟩

/-- As long as nobody waits, nobody but their drain retires uploads. -/
theorem Idles.pending_or (h : r.Idles s) (hroles : r.roles = [])
    (hp : r.lifecycle.pending = some i) : s.lifecycle.pending = some i ∨
      i ∈ r.lifecycle.drains ∧ .retired i .drain true ∈ s.lifecycle.journal := by
  obtain ⟨ws, hws⟩ := h.concludes
  rw [errands_eq_nil hroles] at hws
  generalize s.errands = es at hws
  generalize heq : ([] : List (Nat × Retirer)) = none at hws
  cases hws with
  | hush hm => exact .inl (hm.pending.trans hp)
  | @drain _ _ _ j _ hj hr =>
    by_cases hpj : r.lifecycle.pending = some j
    · obtain rfl : i = j := Option.some.inj (hp.symm.trans hpj)
      refine .inr ⟨hj, ?_⟩
      rw [hr.journal]
      exact List.mem_append_right _ (List.mem_singleton.mpr (by simp [isPending, hp]))
    · left
      rw [hr.pending, if_neg hpj]
      exact hp
  | errand => exact absurd heq (by simp)
  | cut => exact absurd heq (by simp)
  | vacuous => exact absurd heq (by simp)

/-- What was published with a wait has no drain. -/
theorem Idles.pending (h : r.Idles s) (hr : r.Hasty) (hroles : r.roles = [])
    (hp : r.lifecycle.pending = some i)
    (hmode : ∀ v, r.lifecycle.invocation? i = some v → v.mode = .blocking) :
    s.lifecycle.pending = some i ∧
      ∀ v, s.lifecycle.invocation? i = some v → v.mode = .blocking := by
  refine ⟨(h.pending_or hroles hp).resolve_right fun hdrain => ?_, fun w hw => ?_⟩
  · obtain ⟨⟨_, hledger⟩, -⟩ := hr.voiced
    obtain ⟨hpub, hne⟩ := hledger.drains i hdrain.1
    obtain ⟨v, hv⟩ := hledger.exists_invocation hpub
    exact hne v hv (hmode v hv)
  · obtain ⟨v, hv, hvw⟩ := forall₂_getElem? h.onward.flip hw
    exact hvw.mode.trans (hmode v hv)

theorem pending_of_idles (hs : ReflTransGen Idles r s) (hr : r.Hasty) (hroles : r.roles = [])
    (hp : r.lifecycle.pending = some i)
    (hmode : ∀ v, r.lifecycle.invocation? i = some v → v.mode = .blocking) :
    s.lifecycle.pending = some i ∧
      ∀ v, s.lifecycle.invocation? i = some v → v.mode = .blocking := by
  induction hs with
  | refl => exact ⟨hp, hmode⟩
  | tail hrs hst ih =>
    exact hst.pending (hr.of_idles hrs) (roles_eq_nil_of_idles hrs hroles) ih.1 ih.2

/-! ## What is left -/

/-- The bounds of the sinks of an invocation run on, counting from an instant. -/
structure BoundsRunOn (s : Run) (i start : Nat) (v : Invocation) : Prop where
  watched : v.WatchedSince start
  /-- A sink whose bound has passed is over. -/
  expired : ∀ d w, (s.arrival d).settle.lifecycle.invocation? i = some w → ∀ t ∈ w.sinks,
    t.bound ≠ 0 → start + t.bound ≤ s.lifecycle.now + d → t.seen.done.isSome = true
  /-- If nobody waits who might give it up, a sink is over as it has ended itself, or because its bound
  has passed. -/
  timely : s.roles = [] → ∀ t, ReflTransGen Idles s t →
    ∃ w, t.lifecycle.invocation? i = some w ∧ ∀ (k : Nat) a b, v.sinks[k]? = some a →
      a.seen.done = none → w.sinks[k]? = some b → b.Timely t.lifecycle.now

theorem boundsRunOn {start : Nat} (hv : s.lifecycle.invocation? i = some v)
    (hwatched : v.WatchedSince start) : s.BoundsRunOn i start v where
  watched := hwatched
  expired := by
    intro d w hw t ht hb hle
    obtain ⟨u, hu, huw⟩ := ((passes_arrival s d).trans (passes_settleRounds _ _)).invocation? hv
    cases hw.symm.trans hu
    have hwatch := hwatched.onward huw.onward t ht
    rw [if_neg hb] at hwatch
    obtain ⟨k, hk, hdeadline⟩ := Option.map_eq_some_iff.mp hwatch
    exact over_of_bound hw ht hk (hdeadline ▸ hle)
  timely := by
    intro hroles t ht
    have hopen : s.lifecycle.Timely i fun k => ∃ a, v.sinks[k]? = some a ∧ a.seen.done = none := by
      refine ⟨v, hv, fun k a ⟨a', ha', hopen⟩ ha => ?_⟩
      cases ha.symm.trans ha'
      exact Sink.timely_of_none hopen
    obtain ⟨w, hw, hall⟩ := timely_of_idles ht hroles hopen
    exact ⟨w, hw, fun k a b ha hopen hb => hall k b ⟨a, ha, hopen⟩ hb⟩

/-- How a lifecycle is left when the host has dropped the end of an invocation. -/
structure DroppedFinish (r : Run) (i start longest word : Nat) (noticed : List Bool) (s : Run)
    (v : Invocation) : Prop where
  /-- Nothing but the phase has changed: it is idle, unless the process has crashed. -/
  idle : s.lifecycle = { r.lifecycle with
    phase := if r.lifecycle.phase = .crashed then .crashed else .idle }
  /-- The uploads are pending, unless somebody has retired them. -/
  current : s.lifecycle.pending = some i ∧ clearings i s.lifecycle.journal = 0 ∨
    s.lifecycle.pending ≠ some i ∧ clearings i s.lifecycle.journal = 1
  /-- The sinks are the ones that were handed over when the invocation started, in this order. -/
  registered : ∃ r₀ ids sinks, StartedWith r₀ ids sinks s i ∧ v.roster = (ids, rosterOf sinks)
  /-- Whatever happens, the invocation is not given a word any more. -/
  silent : ∀ t, ReflTransGen Proceeds s t → t.lifecycle.wordsTo i = s.lifecycle.wordsTo i
  bounds : s.BoundsRunOn i start v
  /-- It would have been left the same, but for the posts, if the cap had been reached at this instant. -/
  leftover : v.allDone = false → s.lifecycle.Says
    (r.lifecycle.check (.finish i start r.lifecycle.now noticed longest word)).1
  /-- The next invocation is accepted, whenever it is asked for. -/
  accepted : r.lifecycle.phase ≠ .crashed → ∀ t, ReflTransGen Idles s t →
    ∀ f, (HostCall.before.make t.lifecycle).2 ≠ .answered (.refused f)
  /-- If nobody else waits, what is left is still pending by then; and if it is, the next invocation
  reconciles it. -/
  reconciled : r.lifecycle.phase ≠ .crashed → ∀ t, ReflTransGen Idles s t →
    (s.roles = [] → s.lifecycle.pending = some i → t.lifecycle.pending = some i) ∧
      (t.lifecycle.pending = some i → ∃ d m, t.lifecycle.Reconciles i d m)

/-- **The end of an invocation is dropped.** At whatever point of its wait the host drops it, the lifecycle
is idle, or has crashed; the uploads are pending unless they were retired before, with all the sinks that
were registered, whose bounds run on; nobody posts a word about the wait any more; and the next invocation
is accepted and reconciles what is left as it does after a wait that has reached its cap. -/
theorem Hasty.dropped_finish (h : r.Hasty)
    (hd : r.Drops (.finish i start deadline noticed longest word) s) :
    ∃ v, s.lifecycle.invocation? i = some v ∧ r.DroppedFinish i start longest word noticed s v := by
  have hs : s.Hasty := h.proceeds (.drop rfl hd)
  obtain ⟨hdropped, earlier, later, hcalls, hleft⟩ := hd.split
  obtain ⟨v, hv⟩ := h.awaited (hcalls ▸ List.mem_append_right _ (List.mem_cons_self ..))
  have hidle : s.lifecycle = { r.lifecycle with
      phase := if r.lifecycle.phase = .crashed then .crashed else .idle } :=
    hdropped.trans (leaveClosing_of_phase hv.phase)
  have hfree (hp : r.lifecycle.phase ≠ .crashed) : s.lifecycle.phase = .idle := by
    rw [hidle]
    exact if_neg hp
  have hinvocation : s.lifecycle.invocation? i = some v := hidle ▸ hv.invocation
  have hpub : .published i ∈ s.lifecycle.journal := hidle ▸ hv.published
  have hnobody : (i, .wait) ∉ s.errands := by
    obtain ⟨⟨ws, hledger⟩, -⟩ := h.voiced
    rw [errands_split hcalls] at hledger
    rw [errands_split hleft]
    exact hledger.alone i
  refine ⟨v, hinvocation, {
    idle := hidle
    current := (hs.orderly.accounted.once i v hinvocation hv.sinks hpub).2
    registered := hs.registered hinvocation
    silent := fun t ht => silent_of_proceeds hs ⟨hpub, hnobody⟩ ht
    bounds := boundsRunOn hinvocation hv.watched
    leftover := fun hopen => hdropped ▸ says_check_capped hv.invocation hopen (Nat.le_refl _)
    accepted := fun hp t ht => HostCall.not_refused_of_phase_eq (c := .before) rfl
      (idle_of_idles ht (hfree hp))
    reconciled := fun hp t ht => ⟨fun hroles hpending => ?_, fun hpending => ?_⟩ }⟩
  · refine (pending_of_idles ht hs hroles hpending fun w hw => ?_).1
    cases hinvocation.symm.trans hw
    exact hv.mode
  · obtain ⟨w, hw, hvw⟩ := onward_of_idles ht hinvocation
    have hout : t.lifecycle.outstanding? = some (i, w) :=
      outstanding?_eq_some.mpr ⟨hpending, hw, hvw.sinks_ne_nil hv.sinks⟩
    exact exists_reconciles (idle_of_idles ht (hfree hp)) hout

/-- A run in which the host waits for a sink that is never done, and has a bound. -/
def boundedUpload : Run := firstEnded .standard (responders [("s", 20, none)]) .blocking

theorem hasty_boundedUpload : boundedUpload.Hasty :=
  (genuine_firstEnded (fresh_responders [("s", 20, none)]) .standard .blocking).hasty

theorem dropped_finish_boundedUpload : ∃ s v,
    boundedUpload.Drops (.finish 0 0 3600000 [false] 20 1000) s ∧
      s.lifecycle.invocation? 0 = some v ∧ v.allDone = false ∧ s.lifecycle.phase = .idle ∧
      s.lifecycle.pending = some 0 ∧ boundedUpload.DroppedFinish 0 0 20 1000 [false] s v := by
  have hcalls : boundedUpload.calls =
      boundedUpload.calls.take 2 ++ .waiting (.finish 0 0 3600000 [false] 20 1000) none :: [] := rfl
  have hd := Drops.drop hcalls
  obtain ⟨v, hv, hleft⟩ := hasty_boundedUpload.dropped_finish hd
  refine ⟨_, v, hd, hv, ?_, rfl, rfl, hleft⟩
  cases hv
  rfl

end Run

end EventUpload
