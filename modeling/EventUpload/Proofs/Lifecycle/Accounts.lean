import EventUpload.Proofs.Lifecycle.Orderly

/-!
# What becomes of uploads

Four of them clear the pending place: the wait at the end of a blocking invocation, the drain, the wait
before the next invocation, and the wait at the end of the process. They do so at any time and in any
order, and none of them asks the others. `Reachable.uploads_accounted` says that nothing is lost and
nothing is cleared away twice all the same. It is about the journal, which `Step.journal` shows to be
the history of the pending place: no step takes anything back.

The invocation behind a journal entry keeps the number of its sinks, so it does not matter whether that
is counted when it was published or at the end.

Nothing here is proved by going through the ways in which the four may meet. What they do is the same
move, and that the moves are in order is part of the invariant (`Orderly.recorded`), where a step is
looked at by itself. `Accounted` is what a list of moves in order says, read at each of its places
(`Recorded.beginning`, `Recorded.of_concat`); in which way it came about does not matter any more.

That uploads are cleared away means that nobody has to wait for them. It does not mean that they are
over, or that anybody was told; a wait that is cut by its cap clears nothing away, for instance. What
becomes of the outcomes is said in `Proofs.Lifecycle.SilentLoss` and `Proofs.Lifecycle.WarnedOnce`.
-/

set_option autoImplicit false

namespace EventUpload

namespace Lifecycle

variable {l m : Lifecycle}

/-! ## The journal grows -/

theorem journal_retire (l : Lifecycle) (i : Nat) (who : Retirer) :
    l.journal <+: (l.retire i who false).journal := List.prefix_append _ _

theorem Quiet.journal_le (h : l.Quiet m) : l.journal <+: m.journal :=
  h.journal ▸ List.prefix_refl _

theorem journal_leaveClosing (l : Lifecycle) : l.journal <+: l.leaveClosing.journal := by
  unfold leaveClosing
  split <;> exact List.prefix_refl _

theorem Drift.journal (h : l.Drift m) : l.journal <+: m.journal := by
  cases h with
  | quiet hq => exact hq.journal_le
  | @drain i _ =>
    unfold settleDrain
    split
    · split
      · rw [(quiet_endDrain l i _).journal]
        exact journal_retire { l with drains := l.drains.filter (· ≠ i) } i .drain
      · exact List.prefix_refl _
    · exact List.prefix_refl _
  | time _ => exact List.prefix_refl _
  | limits _ => exact List.prefix_refl _

theorem Looks.journal {call : Call} {p : Progress} (h : l.Looks call m p) :
    l.journal <+: m.journal := by
  cases h with
  | goesOn hq _ => exact hq.journal_le
  | reconciled hq => exact (journal_retire l _ _).trans hq.journal_le
  | vacuous _ => exact List.prefix_refl _
  | finished hq =>
    exact ((journal_retire l _ _).trans hq.journal_le).trans (journal_leaveClosing _)
  | cut hq _ => exact hq.journal_le.trans (journal_leaveClosing _)
  | settled hq => exact (journal_retire l _ _).trans hq.journal_le

theorem journal_check (l : Lifecycle) (call : Call) : l.journal <+: (l.check call).1.journal :=
  (looks_check l call).journal

theorem journal_closeAndPublish (l : Lifecycle) (i : Nat) (mode : UploadMode)
    (ending : Option Ending) : l.journal <+: (l.closeAndPublish i mode ending).journal := by
  have hq := (quiet_closeStream l i ending).journal
  refine ⟨[.published i], ?_⟩
  rw [closeAndPublish, publish, hq]

theorem journal_abortActive (l : Lifecycle) (ending : Ending) :
    l.journal <+: (l.abortActive ending).journal := by
  unfold abortActive
  split
  · exact List.prefix_refl _
  · exact journal_closeAndPublish { l with active := none } _ _ _

theorem journal_settleWithin (l : Lifecycle) (grace : Nat) (ending : Ending) :
    l.journal <+: (l.settleWithin grace ending).1.journal := by
  unfold settleWithin
  split
  · exact journal_check l _
  · dsimp only
    split <;> exact List.prefix_refl _

/-- The end of an invocation only adds to the journal. -/
theorem journal_finish (l : Lifecycle) (mode : UploadMode) :
    l.journal <+: (l.finish mode).1.journal := by
  unfold finish
  split
  · exact List.prefix_refl _
  · split
    · exact List.prefix_refl _
    · next i _ =>
      refine (journal_closeAndPublish { l with phase := .closing, active := none } i mode
        none).trans ?_
      generalize ({ l with phase := .closing, active := none } : Lifecycle).closeAndPublish i mode
        none = n
      dsimp only
      split
      · exact journal_leaveClosing n
      · next v _ =>
        split
        · exact journal_check n _
        · have hq : n.Quiet (v.sinks.foldl (fun l s =>
              l.tell (.invocation i) (.notice (.closed s.name))) n) :=
            Quiet.foldl (fun l s => quiet_tell l (.invocation i) (.notice (.closed s.name))) v.sinks n
          refine List.IsPrefix.trans ?_ (journal_leaveClosing _)
          exact hq.journal_le

end Lifecycle

/-- No call takes anything back that the journal says. -/
theorem HostCall.journal (c : HostCall) (l : Lifecycle) : l.journal <+: (c.make l).1.journal := by
  cases c with
  | before =>
    simp only [make, Lifecycle.before]
    split
    · exact List.prefix_refl _
    · split
      · exact List.prefix_refl _
      · exact Lifecycle.journal_check { l with phase := .waitingPrevious } _
  | start ids sinks =>
    simp only [make, Lifecycle.start]
    split <;> exact List.prefix_refl _
  | finish mode => exact Lifecycle.journal_finish l mode
  | abandon =>
    simp only [make, Lifecycle.abandon]
    split <;> exact List.prefix_refl _
  | crash =>
    simp only [make, Lifecycle.crash]
    split
    · exact List.prefix_refl _
    · exact (Lifecycle.journal_abortActive { l with phase := .crashed } .crash).trans
        (Lifecycle.journal_settleWithin _ _ _)
  | shutdown =>
    simp only [make, Lifecycle.shutdown]
    split
    · exact List.prefix_refl _
    · exact (Lifecycle.journal_abortActive l .shutdown).trans
        (Lifecycle.journal_settleWithin _ _ _)

/-- No step takes anything out of the journal. -/
theorem Run.Step.journal {r s : Run} (h : r.Step s) :
    r.lifecycle.journal <+: s.lifecycle.journal := by
  cases h with
  | drift hd => exact hd.journal
  | look _ =>
    rw [Run.after_none]
    exact Lifecycle.journal_check _ _
  | word _ => exact (Lifecycle.quiet_endInstant _ _).journal_le
  | call c _ =>
    rw [Run.lifecycle_call]
    exact c.journal _
  | forget => exact List.prefix_refl _

/-! ## The accounts -/

/-- Every upload of a lifecycle is accounted for. -/
structure Lifecycle.Accounted (l : Lifecycle) : Prop where
  /-- What is pending is what the journal says. -/
  pending : pendingAfter l.journal = l.pending
  /-- Nothing was ever published over uploads that were pending: the invocation had no sinks. -/
  kept : ∀ before i after, l.journal = before ++ .published i :: after →
    ∀ j, pendingAfter before = some j → ∃ v, l.invocation? j = some v ∧ v.sinks = []
  /-- Whoever retires uploads, it is these and no others that are cleared away, if they are still
  pending; what else is pending stays so. -/
  exact : ∀ before i who cleared after, l.journal = before ++ .retired i who cleared :: after →
    (cleared = true ↔ pendingAfter before = some i) ∧
    ∀ j, pendingAfter before = some j → j ≠ i →
      pendingAfter (before ++ [.retired i who cleared]) = some j
  /-- What was published was published once, and is either pending and was never cleared away, or is
  not pending and was cleared away once. -/
  once : ∀ i v, l.invocation? i = some v → v.sinks ≠ [] → .published i ∈ l.journal →
    l.journal.count (.published i) = 1 ∧
      (l.pending = some i ∧ clearings i l.journal = 0 ∨
        l.pending ≠ some i ∧ clearings i l.journal = 1)
  /-- Every invocation that has started has been published, but for the active one. -/
  published : ∀ i v, l.invocation? i = some v → (.published i ∈ l.journal ↔ l.active ≠ some i)

/-- Orderly lifecycles account for their uploads: all of it can be read off the journal, whose moves
are in order. -/
theorem Orderly.accounted {l : Lifecycle} {roles : List Role} (h : Orderly l roles) :
    l.Accounted where
  pending := h.recorded.pendingAfter_eq
  kept := by
    intro before i after hl j hj
    have hrec := hl ▸ h.recorded
    -- It was published before, so it has started, and has no more sinks now than it had then.
    have hmem : .published j ∈ l.journal := by
      rw [hl]
      exact List.mem_append_left _ (hrec.beginning.mem_of_pending hj)
    have hv := List.getElem?_eq_getElem (h.started j hmem)
    exact ⟨_, hv, hrec.hollow_of_published hj _ hv⟩
  exact := by
    intro before i who cleared after hl
    have hcleared := (hl ▸ h.recorded).cleared_iff
    refine ⟨hcleared, fun j hj hne => ?_⟩
    cases cleared with
    | true =>
      rw [hcleared.mp rfl] at hj
      exact absurd (Option.some.inj hj).symm hne
    | false =>
      rw [pendingAfter, List.foldl_append]
      exact hj
  once := by
    intro i v hv hs hi
    have hfull : ¬ l.IsHollow i := fun hh => hs (hh v hv)
    refine ⟨h.recorded.count_published hi, ?_⟩
    have hc := h.recorded.clearings hi hfull
    by_cases hp : l.pending = some i
    · exact .inl ⟨hp, by rw [hc, if_pos hp]⟩
    · exact .inr ⟨hp, by rw [hc, if_neg hp]⟩
  published := by
    intro i v hv
    constructor
    · intro hi ha
      exact (h.active i ha).2.2.1 hi
    · intro ha
      obtain ⟨hlt, _⟩ := List.getElem?_eq_some_iff.mp hv
      exact (h.published i hlt).resolve_left ha

namespace Run

/-- **Uploads are accounted for.** In every run nothing is published over pending uploads, and uploads
that were published are pending or were cleared away once; nobody clears away what somebody else
published. -/
theorem Reachable.uploads_accounted {r : Run} (h : r.Reachable) :
    r.lifecycle.Accounted ∧ ∀ s, r.Step s → r.lifecycle.journal <+: s.lifecycle.journal :=
  ⟨h.orderly.accounted, fun _ hs => hs.journal⟩

/-- A run in which a drain retires the uploads of an invocation. -/
def drainedUploads : Run :=
  let sink := Sink.new 0 (.responder (.new "quick" none (some (0, .done))))
  let r := ofLifecycle (.new .standard .fresh)
  let r := r.call (HostCall.before).make none
  let r := r.call (HostCall.start ⟨"b", "i"⟩ [sink]).make none
  let r := r.call (HostCall.finish .nonBlocking).make none
  { r with lifecycle := r.lifecycle.settleDrain 0 }

theorem uploads_accounted_drainedUploads : drainedUploads.Reachable ∧
    drainedUploads.lifecycle.pending = none ∧
    clearings 0 drainedUploads.lifecycle.journal = 1 := by
  have hsinks : ∀ s ∈ [Sink.new 0 (.responder (.new "quick" none (some (0, .done))))],
      s.watch = none := by
    intro s hs
    rw [List.mem_singleton.mp hs]
    rfl
  have h₀ := Reachable.new .standard .fresh
  have h₁ := h₀.step (.call .before (isFree_of_waitingCount rfl))
  have h₂ := h₁.step (.call (.start ⟨"b", "i"⟩ _) ⟨isFree_of_waitingCount rfl, hsinks⟩)
  have h₃ := h₂.step (.call (.finish .nonBlocking) (isFree_of_waitingCount rfl))
  have h : drainedUploads.Reachable :=
    h₃.step (.drift (.drain (List.mem_singleton.mpr (Eq.refl 0))))
  have hp : drainedUploads.lifecycle.pending = none := by decide
  obtain ⟨_, hc⟩ := h.uploads_accounted.1.once 0 _ rfl (by decide) (by decide)
  rcases hc with ⟨hp', _⟩ | ⟨_, hc⟩
  · exact absurd (hp.symm.trans hp') (by simp)
  · exact ⟨h, hp, hc⟩

end Run

end EventUpload
