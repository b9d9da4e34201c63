import EventUpload.Proofs.Lifecycle.DroppedEnd

/-!
# The wait for previous uploads is dropped

A host may also drop the wait before an invocation. Nothing at all changes then: the lifecycle goes on
waiting for an invocation to start. So the next invocation is refused, until the host abandons the one
that it has dropped (`Hasty.dropped_reconcile`). A host that starts an invocation instead is not
refused, but has skipped the wait: the uploads stay pending, and are forgotten when the new ones are
published.

The end of an invocation is different in that dropping it leaves its phase (`Lifecycle/DroppedEnd`).
There is nothing of the kind here, and `not_accepted_abandonedWait` has a host that comes to feel it: it
drops the wait for an upload that is never done, and is refused ever after.

`Forgets` is what happens to the uploads of a host that starts all the same: they leave the pending
place without being given up or cleared away. The lifecycle holds one set of uploads at a time, and it
is the wait before an invocation that makes room.
-/

set_option autoImplicit false

namespace EventUpload

open Relation (ReflTransGen)
open Lifecycle

namespace Lifecycle

variable {l m n : Lifecycle} {i j : Nat} {v : Invocation}

/-- Uploads are forgotten: they are not pending any more, but nobody has given them up or cleared them
away. -/
structure Forgets (l : Lifecycle) (i : Nat) (m : Lifecycle) : Prop where
  pending : m.pending ≠ some i
  untouched : m.invocation? i = l.invocation? i
  uncleared : clearings i m.journal = clearings i l.journal

namespace Forgets

theorem same (h : l.Forgets i m) (hpending : n.pending = m.pending)
    (hinvocations : n.invocations = m.invocations) (hjournal : n.journal = m.journal) :
    l.Forgets i n where
  pending := hpending ▸ h.pending
  untouched := by
    rw [← h.untouched, invocation?, hinvocations]
    rfl
  uncleared := hjournal ▸ h.uncleared

theorem posted (h : l.Forgets i m) (hsaid : m.Says n) : l.Forgets i n := by
  obtain ⟨posts, rfl⟩ := hsaid
  exact h.same rfl rfl rfl

theorem leaveClosing (h : l.Forgets i m) : l.Forgets i m.leaveClosing :=
  h.same (hush_leaveClosing m).pending (invocations_leaveClosing m) (hush_leaveClosing m).journal

/-- The wait for the uploads of another invocation clears away only these. -/
theorem check_finish (h : l.Forgets i m) (hji : j ≠ i) (start deadline longest word : Nat)
    (noticed : List Bool) :
    l.Forgets i (m.check (.finish j start deadline noticed longest word)).1 := by
  refine ⟨fun hp => ?_, ?_, ?_⟩
  · rcases (passes_check m (.finish j start deadline noticed longest word)).pending with hsame | hnone
    · exact h.pending (hsame.symm.trans hp)
    · exact absurd (hnone.symm.trans hp) (by simp)
  · rw [← h.untouched, invocation?, invocations_check_finish]
    rfl
  · rw [← h.uncleared]
    have hlooks := looks_check m (.finish j start deadline noticed longest word)
    generalize (m.check (.finish j start deadline noticed longest word)).1 = n at hlooks
    generalize (m.check (.finish j start deadline noticed longest word)).2 = p at hlooks
    cases hlooks with
    | goesOn hq _ => rw [hq.journal]
    | finished hq =>
      have hretired : (m.retire j .wait false).journal =
          m.journal ++ [.retired j .wait (m.isPending j)] := rfl
      rw [(hush_leaveClosing _).journal, hq.journal, hretired, clearings, List.countP_append]
      simp [Move.clears, hji, clearings]
    | cut hq _ => rw [(hush_leaveClosing _).journal, hq.journal]

end Forgets

/-- When an invocation ends and is published, uploads that were pending are forgotten. -/
theorem forgets_ended (hji : j ≠ i) (mode : UploadMode) : l.Forgets i (l.ended j mode) := by
  have hclosed := (quiet_closeStream { l with phase := .closing, active := none } j none).journal
  refine ⟨fun hp => hji (Option.some.inj hp), ?_, ?_⟩
  · rw [ended, closeAndPublish, invocation?_publish, if_neg hji, updateStream, invocation?_update,
      if_neg hji, invocation?, invocations_noteOpen]
    rfl
  · show clearings i (_ ++ [Move.published j]) = _
    rw [hclosed, clearings, List.countP_append]
    rfl

theorem forgets_finish (hp : l.phase = .active) (ha : l.active = some j)
    (hv : l.invocation? j = some v) (hji : j ≠ i) (mode : UploadMode) :
    l.Forgets i (l.finish mode).1 := by
  have hended := forgets_ended (l := l) hji mode
  rcases finish_cases hp ha mode (invocation?_ended hv mode) with
    ⟨start, deadline, noticed, longest, word, heq⟩ | ⟨m, n, a, hm, hn, heq⟩
  · rw [heq]
    exact hended.check_finish hji start deadline longest word noticed
  · rw [heq]
    have hdrains := (hended.posted hm).same (n := { m with drains := m.drains ++ [j] }) rfl rfl rfl
    exact (hdrains.posted hn).leaveClosing

/-- An invocation that starts while uploads are still pending makes the lifecycle forget them when it
ends. -/
theorem forgets_start (hp : l.phase = .waitingPrevious) (hv : l.invocation? i = some v)
    (ids : CommandIds) (sinks : List Sink) (mode : UploadMode) :
    l.Forgets i ((l.start ids sinks).1.finish mode).1 := by
  obtain ⟨hlt, -⟩ := List.getElem?_eq_some_iff.mp hv
  obtain ⟨posts, hstarted⟩ : ({ l with
      phase := .active
      active := some l.invocations.length
      invocations := l.invocations ++ [⟨ids, .new sinks, .blocking⟩] } : Lifecycle).Says
        (l.start ids sinks).1 := by
    rw [start, if_neg (by simp [hp, Operation.phase])]
    exact (says_note _ _ _).trans (says_tell _ _ _)
  have hlast : (l.start ids sinks).1.invocation? l.invocations.length =
      some ⟨ids, .new sinks, .blocking⟩ := by
    rw [hstarted]
    exact List.getElem?_concat_length
  have hother : (l.start ids sinks).1.invocation? i = l.invocation? i := by
    rw [hstarted]
    exact List.getElem?_append_left hlt
  have hforgets := forgets_finish (hstarted ▸ rfl) (hstarted ▸ rfl) hlast (Nat.ne_of_gt hlt) mode
  refine ⟨hforgets.pending, hforgets.untouched.trans hother, hforgets.uncleared.trans ?_⟩
  rw [hstarted]

end Lifecycle

namespace Run

variable {r s t u : Run} {i grace deadline : Nat}

/-- As long as nobody waits and nothing is accepted, the lifecycle goes on waiting for an invocation to
start. -/
theorem waitingPrevious_of_idles (hs : ReflTransGen Idles r s) (hroles : r.roles = [])
    (hp : r.lifecycle.phase = .waitingPrevious) : s.lifecycle.phase = .waitingPrevious := by
  have hunending : r.Unending := fun role hrole => absurd hrole (by simp [hroles])
  rcases phase_of_idles hs hunending with hsame | ⟨hclosing, -⟩
  · exact hsame.trans hp
  · exact absurd (hclosing.symm.trans hp) (by simp)

/-- Meanwhile the next invocation is refused. -/
theorem before_refused_of_idles (hs : ReflTransGen Idles r s) (hroles : r.roles = [])
    (hp : r.lifecycle.phase = .waitingPrevious) : HostCall.before.make s.lifecycle =
      (s.lifecycle, .answered (.refused (.outOfOrder .before .waitingPrevious))) := by
  have hphase := waitingPrevious_of_idles hs hroles hp
  have hrefused : HostCall.before.make s.lifecycle = (s.lifecycle, s.lifecycle.refuse .before) :=
    if_pos (by simp [hphase, Operation.phase])
  rw [hrefused, refuse, hphase]

/-- Uploads that are pending stay so until their drain has retired them. -/
theorem pending_or_of_idles (hs : ReflTransGen Idles r s) (hroles : r.roles = [])
    (hp : r.lifecycle.pending = some i) : s.lifecycle.pending = some i ∨
      .retired i .drain true ∈ s.lifecycle.journal := by
  induction hs with
  | refl => exact .inl hp
  | @tail s t hrs hst ih =>
    rcases ih with hpending | hretired
    · exact (hst.pending_or (roles_eq_nil_of_idles hrs hroles) hpending).imp_right And.right
    · refine .inr ?_
      rcases hst.step_or with hstep | ⟨⟨strays, heq⟩, -⟩
      · exact hstep.journal.subset hretired
      · exact heq ▸ hretired

/-- How a lifecycle is left when the host has dropped the wait before an invocation. -/
structure DroppedReconcile (r : Run) (i : Nat) (s : Run) : Prop where
  unchanged : s.lifecycle = r.lifecycle
  phase : s.lifecycle.phase = .waitingPrevious ∨ s.lifecycle.phase = .idle ∨
    s.lifecycle.phase = .crashed
  /-- Unless the process has come to its end meanwhile, the next invocation is refused. -/
  refused : s.lifecycle.phase = .waitingPrevious → s.roles = [] → ∀ t, ReflTransGen Idles s t →
    HostCall.before.make t.lifecycle =
      (t.lifecycle, .answered (.refused (.outOfOrder .before .waitingPrevious)))
  /-- If nobody waits, the uploads stay pending until their drain has retired them. -/
  kept : s.roles = [] → s.lifecycle.pending = some i → ∀ t, ReflTransGen Idles s t →
    t.lifecycle.pending = some i ∨ .retired i .drain true ∈ t.lifecycle.journal
  /-- The host may abandon the invocation. Then the next one is accepted, and reconciles what is still
  pending. -/
  abandoned : s.lifecycle.phase = .waitingPrevious → s.roles = [] → ∀ t, ReflTransGen Idles s t →
    HostCall.abandon.make t.lifecycle = ({ t.lifecycle with phase := .idle }, .answered .ok) ∧
      ∀ u, ReflTransGen Idles (t.call HostCall.abandon.make none) u →
        (∀ f, (HostCall.before.make u.lifecycle).2 ≠ .answered (.refused f)) ∧
          (u.lifecycle.pending = some i → ∃ d m, u.lifecycle.Reconciles i d m)
  /-- It may also start it. Then what is still pending is forgotten when that ends. -/
  forgotten : s.lifecycle.phase = .waitingPrevious → s.roles = [] → ∀ t, ReflTransGen Idles s t →
    ∀ ids sinks mode, t.lifecycle.Forgets i ((t.lifecycle.start ids sinks).1.finish mode).1

/-- **The wait for previous uploads is dropped.** At whatever point of it the host drops the wait before an
invocation, nothing changes. So the lifecycle refuses the next one until the host has abandoned this one,
and nobody reconciles the uploads if it starts this one without asking again. -/
theorem Hasty.dropped_reconcile (h : r.Hasty) (hd : r.Drops (.reconcile i grace deadline) s) :
    r.DroppedReconcile i s := by
  obtain ⟨hdropped, earlier, later, hcalls, -⟩ := hd.split
  have hsame : s.lifecycle = r.lifecycle := hdropped
  obtain ⟨hphase, v, hv, hsinks⟩ : r.lifecycle.Apt (.reconcile i grace deadline) :=
    h.apt (hcalls ▸ List.mem_append_right _ (List.mem_cons_self ..))
  rw [← hsame] at hphase hv
  refine {
    unchanged := hsame
    phase := hphase
    refused := fun hp hroles t ht => before_refused_of_idles ht hroles hp
    kept := fun hroles hpending t ht => pending_or_of_idles ht hroles hpending
    abandoned := fun hp hroles t ht => ?_
    forgotten := fun hp hroles t ht ids sinks mode => ?_ }
  · have hwaiting := waitingPrevious_of_idles ht hroles hp
    have habandon : HostCall.abandon.make t.lifecycle =
        ({ t.lifecycle with phase := .idle }, .answered .ok) :=
      if_neg (by simp [hwaiting, Operation.phase])
    refine ⟨habandon, fun u hu => ?_⟩
    have hcalled : (t.call HostCall.abandon.make none).lifecycle =
        { t.lifecycle with phase := .idle } := by
      rw [lifecycle_call, habandon]
    have hidle : u.lifecycle.phase = .idle := idle_of_idles hu (by rw [hcalled])
    refine ⟨HostCall.not_refused_of_phase_eq (c := .before) rfl hidle, fun hpending => ?_⟩
    obtain ⟨w, hw, hvw⟩ := onward_of_idles ht hv
    obtain ⟨x, hx, hwx⟩ := onward_of_idles hu (by rw [hcalled]; exact hw)
    exact exists_reconciles hidle
      (outstanding?_eq_some.mpr ⟨hpending, hx, hwx.sinks_ne_nil (hvw.sinks_ne_nil hsinks)⟩)
  · obtain ⟨w, hw, -⟩ := onward_of_idles ht hv
    exact forgets_start (waitingPrevious_of_idles ht hroles hp) hw ids sinks mode

/-- A run in which the host waits for previous uploads that are never done. -/
def haltedHost : Run :=
  (firstEnded .standard (responders [("a", 0, none)]) .nonBlocking).call HostCall.before.make none

theorem hasty_haltedHost : haltedHost.Hasty :=
  ((genuine_firstEnded (fresh_responders [("a", 0, none)]) .standard .nonBlocking).call .before
    (isFree_of_waitingCount rfl) trivial).hasty

/-- The same run when the host has dropped its wait. -/
def abandonedWait : Run :=
  ⟨haltedHost.lifecycle, haltedHost.calls.take 3 ++ [.finished (.dropped 0)]⟩

theorem drops_haltedHost : haltedHost.Drops (.reconcile 0 5000 5000) abandonedWait :=
  have hcalls : haltedHost.calls =
    haltedHost.calls.take 3 ++ .waiting (.reconcile 0 5000 5000) none :: [] := rfl
  .drop hcalls

theorem dropped_reconcile_haltedHost : haltedHost.Hasty ∧
    haltedHost.Drops (.reconcile 0 5000 5000) abandonedWait ∧
    abandonedWait.lifecycle.phase = .waitingPrevious ∧ abandonedWait.roles = [] ∧
    abandonedWait.lifecycle.pending = some 0 ∧ haltedHost.DroppedReconcile 0 abandonedWait :=
  ⟨hasty_haltedHost, drops_haltedHost, rfl, rfl, rfl,
    hasty_haltedHost.dropped_reconcile drops_haltedHost⟩

/-- The uploads are still pending, and the next invocation is refused, however long the host waits. -/
theorem not_accepted_abandonedWait : haltedHost.Hasty ∧
    haltedHost.Drops (.reconcile 0 5000 5000) abandonedWait ∧
    abandonedWait.lifecycle.pending = some 0 ∧
    ∀ t, ReflTransGen Idles abandonedWait t → (HostCall.before.make t.lifecycle).2 =
      .answered (.refused (.outOfOrder .before .waitingPrevious)) :=
  ⟨hasty_haltedHost, drops_haltedHost, rfl, fun _ ht =>
    congrArg Prod.snd (before_refused_of_idles ht rfl rfl)⟩

end Run

end EventUpload
