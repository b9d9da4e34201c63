import EventUpload.Proofs.Lifecycle.Journal
import EventUpload.Proofs.Lifecycle.Step

/-!
# The invariant of the lifecycle

`Orderly` ties together the phase, the active invocation, the pending place with its journal, and the
calls that are waiting. Its heart is that nothing is pending while an invocation is active: before an
invocation starts the pending place has been cleared, and while it is active nobody fills it. The rest
says who is responsible for the phases that pass: every closing phase has a call that will leave it, and
so has an active phase whose invocation has been taken away.

`Run.Reachable.orderly` is that every reachable run is orderly. Every step goes through one of four
lemmas: a quiet change, a call that is looked at (`Orderly.look`), uploads that are published
(`Orderly.publish`), and an invocation that starts (`Orderly.start`).

Calls enter as a list of roles and not as a list of calls. A look takes one role out of the list and
puts the roles that are left in its place, and a call that is answered leaves none; so `Orderly.look`
has to show that whatever a role vouches for is true without it. `dismiss` says this once for all roles,
with one hypothesis for each of the things that a role can vouch for, and the three roles differ in
which of these is not vacuous (`dismissReconcile`, `dismissFinish`, `dismissSettle`).

The fields are what the proof needs and no more. `alone`, for instance, is there because a crash while a
host waits must not find an active invocation that would be published a second time, and `unwatched`
within `active` because only a sink that nobody watches can be given its watch when it is published.
Fields that are about the future, such as that a closing phase will be left, are put as there being
somebody who does it; that he comes to do it is shown for runs of the program
(`Proofs.Lifecycle.ProcessEnd`).
-/

set_option autoImplicit false

namespace EventUpload

open List (Forall₂)

namespace Lifecycle

/-- An invocation without sinks. -/
def IsHollow (l : Lifecycle) (i : Nat) : Prop := ∀ v, l.invocation? i = some v → v.sinks = []

/-- There is nothing in the pending place that could be lost. -/
def Vacant (l : Lifecycle) : Prop := ∀ i, l.pending = some i → l.IsHollow i

/-- No sink of an invocation has a watch. -/
def Unwatched (l : Lifecycle) (i : Nat) : Prop :=
  ∀ v, l.invocation? i = some v → ∀ s ∈ v.sinks, s.watch = none

theorem outstanding?_eq_some {l : Lifecycle} {i : Nat} {v : Invocation} :
    l.outstanding? = some (i, v) ↔
      l.pending = some i ∧ l.invocation? i = some v ∧ v.sinks ≠ [] := by
  unfold outstanding?
  constructor
  · intro h
    obtain ⟨j, hj, h⟩ := Option.bind_eq_some_iff.mp h
    obtain ⟨w, hw, h⟩ := Option.bind_eq_some_iff.mp h
    split at h
    · exact absurd h (by simp)
    · next he =>
      cases h
      exact ⟨hj, hw, fun hs => he (by rw [hs]; rfl)⟩
  · rintro ⟨hi, hv, hs⟩
    simp [hi, hv, hs]

theorem outstanding?_eq_none {l : Lifecycle} : l.outstanding? = none ↔ l.Vacant := by
  constructor
  · intro h i hi v hv
    by_contra hs
    have := outstanding?_eq_some.mpr ⟨hi, hv, hs⟩
    rw [h] at this
    exact absurd this (by simp)
  · intro h
    cases ho : l.outstanding? with
    | none => rfl
    | some p =>
      obtain ⟨hi, hv, hs⟩ := outstanding?_eq_some.mp (show l.outstanding? = some (p.1, p.2) from ho)
      exact absurd (h _ hi _ hv) hs

namespace Quiet

variable {l m : Lifecycle}

theorem isHollow (h : l.Quiet m) (i : Nat) : m.IsHollow i ↔ l.IsHollow i := by
  constructor
  · intro hm v hv
    obtain ⟨w, hw, hvw⟩ := h.invocation? hv
    have := hvw.sinks.length_eq
    rw [hm w hw] at this
    exact List.length_eq_zero_iff.mp this
  · intro hl w hw
    obtain ⟨v, hv, hvw⟩ := h.of_invocation? hw
    have := hvw.sinks.length_eq
    rw [hl v hv] at this
    exact List.length_eq_zero_iff.mp this.symm

theorem vacant (h : l.Quiet m) (hv : l.Vacant) : m.Vacant := by
  intro i hi
  rw [h.pending] at hi
  exact (h.isHollow i).mpr (hv i hi)

theorem unwatched {i : Nat} (h : l.Quiet m) (hu : l.Unwatched i) : m.Unwatched i := by
  intro w hw t ht
  obtain ⟨v, hv, hvw⟩ := h.of_invocation? hw
  obtain ⟨s, hs, hst⟩ := forall₂_exists_left hvw.sinks ht
  have hshape := congrArg (fun p : String × Nat × Option Nat => p.2.2) hst.shape
  simp only [Sink.shape, hu v hv s hs, Option.map_none, Option.map_eq_none_iff] at hshape
  exact hshape

end Quiet

end Lifecycle

open Lifecycle

/-- The phase, the active invocation, the pending place and the waiting calls fit together. -/
structure Orderly (l : Lifecycle) (roles : List Role) : Prop where
  recorded : Recorded l.IsHollow l.journal l.pending
  /-- Only invocations that have started are published, and all of them but the active one. -/
  started : ∀ i, .published i ∈ l.journal → i < l.invocations.length
  published : ∀ i, i < l.invocations.length → l.active = some i ∨ .published i ∈ l.journal
  active : ∀ i, l.active = some i →
    l.phase = .active ∧ i < l.invocations.length ∧ .published i ∉ l.journal ∧ l.Unwatched i
  /-- The active invocation is taken away as soon as anybody starts to wait. -/
  alone : roles ≠ [] → l.active = none
  vacant : l.active ≠ none → l.Vacant
  activePhase : l.phase = .active → l.active ≠ none ∨ .settle .shutdown ∈ roles
  closing : l.phase = .closing → .finish ∈ roles
  waitingPrevious : l.phase = .waitingPrevious → l.Vacant ∨ ∃ i, .reconcile i ∈ roles
  reconcile : ∀ i, .reconcile i ∈ roles → l.Vacant ∨ l.pending = some i
  crashed : .settle .crash ∈ roles → l.phase = .crashed
  drains : l.drains.Nodup ∧ ∀ i ∈ l.drains, .published i ∈ l.journal

namespace Orderly

variable {l m : Lifecycle} {roles roles' : List Role}

theorem new (limits : Limits) (outside : Outside) : Orderly (.new limits outside) [] where
  recorded := .nil
  started := fun i hi => absurd hi (by simp [Lifecycle.new])
  published := fun i hi => absurd hi (by simp [Lifecycle.new])
  active := fun i hi => absurd hi (by simp [Lifecycle.new])
  alone := fun h => absurd rfl h
  vacant := fun h => absurd rfl h
  activePhase := fun h => absurd h (by simp [Lifecycle.new])
  closing := fun h => absurd h (by simp [Lifecycle.new])
  waitingPrevious := fun h => absurd h (by simp [Lifecycle.new])
  reconcile := fun i hi => absurd hi (by simp)
  crashed := fun h => absurd h (by simp)
  drains := ⟨List.nodup_nil, fun i hi => absurd hi (by simp [Lifecycle.new])⟩

/-- A quiet change keeps everything. -/
theorem quiet (h : Orderly l roles) (hq : l.Quiet m) : Orderly m roles where
  recorded := by
    rw [hq.journal, hq.pending]
    exact h.recorded.mono fun i _ => (hq.isHollow i).mpr
  started := fun i hi => by
    rw [hq.journal] at hi
    rw [hq.length]
    exact h.started i hi
  published := fun i hi => by
    rw [hq.length] at hi
    rw [hq.active, hq.journal]
    exact h.published i hi
  active := fun i hi => by
    rw [hq.active] at hi
    obtain ⟨hp, hlt, hnew, hu⟩ := h.active i hi
    rw [hq.phase, hq.length, hq.journal]
    exact ⟨hp, hlt, hnew, hq.unwatched hu⟩
  alone := fun hr => hq.active.trans (h.alone hr)
  vacant := fun ha => hq.vacant (h.vacant (by rwa [hq.active] at ha))
  activePhase := fun hp => by
    rw [hq.active]
    exact h.activePhase (hq.phase.symm.trans hp)
  closing := fun hp => h.closing (hq.phase.symm.trans hp)
  waitingPrevious := fun hp =>
    (h.waitingPrevious (hq.phase.symm.trans hp)).imp_left hq.vacant
  reconcile := fun i hi => by
    rw [hq.pending]
    exact (h.reconcile i hi).imp_left hq.vacant
  crashed := fun hc => hq.phase.trans (h.crashed hc)
  drains := by
    rw [hq.drains, hq.journal]
    exact h.drains

/-- Retiring keeps everything, whoever does it and whatever is pending. -/
theorem retire (h : Orderly l roles) (i : Nat) (who : Retirer) :
    Orderly (l.retire i who false) roles := by
  have hvacant (hv : l.Vacant) : (l.retire i who false).Vacant := by
    intro j hj
    rw [retire_pending] at hj
    split at hj
    · exact absurd hj (by simp)
    · exact hv j hj
  have hmem (j : Nat) : .published j ∈ (l.retire i who false).journal ↔
      .published j ∈ l.journal := by simp
  exact {
    recorded := by
      rw [retire_journal, retire_pending]
      exact h.recorded.retire i who
    started := fun j hj => h.started j ((hmem j).mp hj)
    published := fun j hj => (h.published j hj).imp_right (hmem j).mpr
    active := fun j hj => by
      obtain ⟨hp, hlt, hnew, hu⟩ := h.active j hj
      exact ⟨hp, hlt, fun hm => hnew ((hmem j).mp hm), hu⟩
    alone := h.alone
    vacant := fun ha => hvacant (h.vacant ha)
    activePhase := h.activePhase
    closing := h.closing
    waitingPrevious := fun hp => (h.waitingPrevious hp).imp_left hvacant
    -- Another actor may retire what a call waits for; the place is empty then, which is as good.
    reconcile := fun j hj => by
      by_cases hp : l.pending = some i
      · refine .inl fun k hk => absurd hk ?_
        rw [retire_pending, if_pos hp]
        simp
      · rw [retire_pending, if_neg hp]
        exact (h.reconcile j hj).imp_left hvacant
    crashed := h.crashed
    drains := ⟨h.drains.1, fun j hj => (hmem j).mpr (h.drains.2 j hj)⟩ }

/-- A call may go when it has done what it was there for. -/
theorem dismiss {roles₁ roles₂ : List Role} {role : Role}
    (h : Orderly l (roles₁ ++ role :: roles₂)) (hr : ∀ i, role = .reconcile i → l.Vacant)
    (hf : role = .finish → l.phase ≠ .closing)
    (hs : role = .settle .shutdown → l.phase ≠ .active) : Orderly l (roles₁ ++ roles₂) := by
  have hsub (r : Role) (hr : r ∈ roles₁ ++ roles₂) : r ∈ roles₁ ++ role :: roles₂ := by
    rcases List.mem_append.mp hr with hr | hr
    · exact List.mem_append_left _ hr
    · exact List.mem_append_right _ (List.mem_cons_of_mem _ hr)
  have hleft (r : Role) (hne : r ≠ role) (hr : r ∈ roles₁ ++ role :: roles₂) :
      r ∈ roles₁ ++ roles₂ := by
    rcases List.mem_append.mp hr with hr | hr
    · exact List.mem_append_left _ hr
    · exact List.mem_append_right _ ((List.mem_cons.mp hr).resolve_left hne)
  exact { h with
    alone := fun _ => h.alone (by simp)
    activePhase := fun hp => (h.activePhase hp).imp_right (hleft _ fun he => hs he.symm hp)
    closing := fun hp => hleft _ (fun he => hf he.symm hp) (h.closing hp)
    -- If it was this call that answered for what is pending, nothing is left to answer for.
    waitingPrevious := fun hp => by
      rcases h.waitingPrevious hp with hv | ⟨i, hi⟩
      · exact .inl hv
      · by_cases he : role = .reconcile i
        · exact .inl (hr i he)
        · exact .inr ⟨i, hleft _ (Ne.symm he) hi⟩
    reconcile := fun i hi => h.reconcile i (hsub _ hi)
    crashed := fun hc => h.crashed (hsub _ hc) }

/-- While nothing is active the lifecycle may go back to its idle phase, unless it has crashed. -/
theorem toIdle (h : Orderly l roles) (ha : l.active = none) (hc : l.phase ≠ .crashed) :
    Orderly { l with phase := .idle } roles :=
  { h with
    active := fun i hi => absurd (ha.symm.trans hi) (by simp)
    activePhase := fun hp => absurd hp (by simp)
    closing := fun hp => absurd hp (by simp)
    waitingPrevious := fun hp => absurd hp (by simp)
    crashed := fun hm => absurd (h.crashed hm) hc }

theorem leaveClosing (h : Orderly l roles) : Orderly l.leaveClosing roles := by
  unfold Lifecycle.leaveClosing
  split
  · next hp =>
    refine h.toIdle ?_ (by rw [hp]; simp)
    cases ha : l.active with
    | none => rfl
    | some i =>
      have := (h.active i ha).1
      rw [hp] at this
      exact absurd this (by simp)
  · exact h

theorem leaveClosing_phase (l : Lifecycle) : l.leaveClosing.phase ≠ .closing := by
  unfold Lifecycle.leaveClosing
  split
  · simp
  · assumption

/-- The lifecycle is left in its idle phase by a shutdown, and as it is by a crash. -/
theorem phaseAfter (h : Orderly l roles) (ending : Ending) (ha : l.active = none) :
    Orderly { l with phase := ending.phaseAfter l.phase } roles := by
  unfold Ending.phaseAfter
  split
  · next he =>
    simp only [Bool.and_eq_true, decide_eq_true_eq] at he
    exact h.toIdle ha he.2
  · exact h

theorem phaseAfter_shutdown (phase : Phase) : Ending.shutdown.phaseAfter phase ≠ .active := by
  simp only [Ending.phaseAfter]
  split
  · simp
  · next hc =>
    intro hp
    simp [hp] at hc

section Dismiss

variable (earlier later : List Role)

/-- A call before an invocation may go when nothing is left that could be lost. -/
theorem dismissReconcile {i : Nat} (h : Orderly l (earlier ++ .reconcile i :: later))
    (hv : l.Vacant) : Orderly l (earlier ++ later) := by
  refine h.dismiss (fun _ _ => hv) ?_ ?_
  · intro hr
    exact absurd hr (by simp)
  · intro hr
    exact absurd hr (by simp)

/-- A call at the end of an invocation leaves the closing phase when it goes. -/
theorem dismissFinish (h : Orderly l (earlier ++ .finish :: later)) :
    Orderly l.leaveClosing (earlier ++ later) := by
  refine h.leaveClosing.dismiss ?_ ?_ ?_
  · intro i hr
    exact absurd hr (by simp)
  · intro _
    exact leaveClosing_phase l
  · intro hr
    exact absurd hr (by simp)

/-- A call at the end of the process leaves its phase behind when it goes. -/
theorem dismissSettle {ending : Ending} (h : Orderly l (earlier ++ .settle ending :: later)) :
    Orderly { l with phase := ending.phaseAfter l.phase } (earlier ++ later) := by
  refine (h.phaseAfter ending (h.alone (by simp))).dismiss ?_ ?_ ?_
  · intro i hr
    exact absurd hr (by simp)
  · intro hr
    exact absurd hr (by simp)
  · intro hr
    cases hr
    exact phaseAfter_shutdown l.phase

end Dismiss

/-- Looking at a waiting call keeps everything; if it is answered it has done what it was there
for. -/
theorem look {roles₁ roles₂ : List Role} {call : Call} {p : Progress}
    (h : Orderly l (roles₁ ++ call.role :: roles₂)) (hl : l.Looks call m p) :
    Orderly m (roles₁ ++ (p.roles ++ roles₂)) := by
  cases hl with
  | goesOn hq hrole =>
    simp only [Progress.roles, hrole]
    exact h.quiet hq
  | @reconciled index _ _ _ hq =>
    -- The uploads that it has retired were the pending ones, if anything was pending.
    have hv : (l.retire index .newcomer false).Vacant := by
      intro j hj
      rw [retire_pending] at hj
      split at hj
      · exact absurd hj (by simp)
      · next hne =>
        rcases h.reconcile index (by simp [Call.role]) with hv | hp
        · exact hv j hj
        · exact absurd hp hne
    exact ((h.retire index .newcomer).quiet hq).dismissReconcile roles₁ roles₂ (hq.vacant hv)
  | @vacuous index _ _ hnone =>
    -- An invocation that does not exist has no sinks that could be lost.
    have hv : l.Vacant := by
      rcases h.reconcile index (by simp [Call.role]) with hv | hp
      · exact hv
      · intro j hj v hw
        rw [hp] at hj
        cases hj
        exact absurd (hnone.symm.trans hw) (by simp)
    exact h.dismissReconcile roles₁ roles₂ hv
  | @finished index _ _ _ _ _ _ _ hq =>
    exact ((h.retire index .wait).quiet hq).dismissFinish roles₁ roles₂
  | cut hq _ => exact (h.quiet hq).dismissFinish roles₁ roles₂
  | @settled index _ _ _ _ hq =>
    exact ((h.retire index .ending).quiet hq).dismissSettle roles₁ roles₂

/-- The same when the call that is looked at was made last. -/
theorem lookLast (earlier : List Role) {call : Call} {p : Progress}
    (h : Orderly l (earlier ++ [call.role])) (hl : l.Looks call m p) :
    Orderly m (earlier ++ p.roles) := by
  have hlook := look h hl
  rwa [List.append_nil] at hlook

/-! ## Publishing and starting

These two are the only changes that touch the pending place and the active invocation together. They are
stated without any waiting call, since a host that publishes or starts is not waiting for anything else;
the calls that begin to wait by doing so are put in afterwards. -/

theorem isHollow_publish (l : Lifecycle) (i : Nat) (mode : UploadMode) (j : Nat) :
    (l.publish i mode).IsHollow j ↔ l.IsHollow j := by
  simp only [IsHollow, invocation?_publish]
  split
  · simp [Option.map_eq_some_iff, Invocation.withSinks, Invocation.sinks]
  · exact Iff.rfl

/-- The uploads of the active invocation are published, while somebody answers for the phase that
follows. Nothing was pending. -/
theorem publish {i : Nat} {phase : Phase} (h : Orderly l []) (ha : l.active = some i)
    (hq : Quiet { l with phase := phase, active := none } m) (mode : UploadMode)
    (hactive : phase = .active → .settle .shutdown ∈ roles)
    (hclosing : phase = .closing → .finish ∈ roles) (hwaiting : phase ≠ .waitingPrevious)
    (hcrashed : .settle .crash ∈ roles → phase = .crashed)
    (hreconcile : ∀ j, .reconcile j ∉ roles) : Orderly (m.publish i mode) roles := by
  obtain ⟨_, hlt, hnew, _⟩ := h.active i ha
  have hphase : (m.publish i mode).phase = phase := hq.phase
  have hnone : (m.publish i mode).active = none := hq.active
  have hlen : (m.publish i mode).invocations.length = l.invocations.length := by
    rw [← hq.length]
    simp [Lifecycle.publish, Lifecycle.update]
  have hjournal : (m.publish i mode).journal = l.journal ++ [.published i] := by
    rw [← hq.journal]
    rfl
  -- What was pending may only be replaced because it has been hollow before, and closing the stream
  -- changes no sink.
  have hvacant : ∀ j, l.pending = some j → (m.publish i mode).IsHollow j := fun j hj =>
    (isHollow_publish m i mode j).mpr ((hq.isHollow j).mpr (h.vacant (by simp [ha]) j hj))
  have hbefore : Recorded (m.publish i mode).IsHollow l.journal l.pending :=
    h.recorded.mono fun j _ hj => (isHollow_publish m i mode j).mpr ((hq.isHollow j).mpr hj)
  exact {
    -- This is where nothing may be lost: what was pending before is hollow.
    recorded := by
      rw [hjournal]
      exact .published hbefore hvacant hnew
    started := fun j hj => by
      rw [hjournal] at hj
      rw [hlen]
      rcases List.mem_append.mp hj with hj | hj
      · exact h.started j hj
      · cases List.mem_singleton.mp hj
        exact hlt
    published := fun j hj => by
      rw [hlen] at hj
      rw [hjournal]
      rcases h.published j hj with hj | hj
      · cases ha.symm.trans hj
        exact .inr (by simp)
      · exact .inr (List.mem_append_left _ hj)
    active := fun j hj => absurd (hnone.symm.trans hj) (by simp)
    alone := fun _ => hnone
    vacant := fun hne => absurd hnone hne
    activePhase := fun hp => .inr (hactive (hphase.symm.trans hp))
    closing := fun hp => hclosing (hphase.symm.trans hp)
    waitingPrevious := fun hp => absurd (hphase.symm.trans hp) hwaiting
    reconcile := fun j hj => absurd hj (hreconcile j)
    crashed := fun hc => hphase.trans (hcrashed hc)
    drains := by
      have hdrains : (m.publish i mode).drains = l.drains := hq.drains
      rw [hdrains, hjournal]
      exact ⟨h.drains.1, fun j hj => List.mem_append_left _ (h.drains.2 j hj)⟩ }

/-- An invocation starts while nothing is pending. -/
theorem start (h : Orderly l []) (hp : l.phase = .waitingPrevious) (v : Invocation)
    (hv : ∀ s ∈ v.sinks, s.watch = none) :
    Orderly { l with
      phase := .active
      active := some l.invocations.length
      invocations := l.invocations ++ [v] } [] := by
  have hold (j : Nat) (hj : j < l.invocations.length) :
      (l.invocations ++ [v])[j]? = l.invocations[j]? := List.getElem?_append_left hj
  have hlast : (l.invocations ++ [v])[l.invocations.length]? = some v := by simp
  have hpending (j : Nat) (hj : l.pending = some j) : j < l.invocations.length :=
    h.started j (h.recorded.mem_of_pending hj)
  have hvacant : l.Vacant := by
    rcases h.waitingPrevious hp with hv | ⟨i, hi⟩
    · exact hv
    · exact absurd hi (by simp)
  have hnone : l.active = none := by
    cases ha : l.active with
    | none => rfl
    | some i =>
      have := (h.active i ha).1
      rw [hp] at this
      exact absurd this (by simp)
  -- Old invocations keep their indices, so whatever was said of them stays true.
  exact {
    recorded := h.recorded.mono fun j hj hhollow w hw => by
      simp only [Lifecycle.invocation?, hold j (h.started j hj)] at hw
      exact hhollow w hw
    started := fun j hj => by
      rw [List.length_append]
      exact Nat.lt_succ_of_lt (h.started j hj)
    published := fun j hj => by
      rw [List.length_append] at hj
      rcases Nat.lt_succ_iff_lt_or_eq.mp hj with hj | hj
      · rcases h.published j hj with ha | hm
        · exact absurd (hnone.symm.trans ha) (by simp)
        · exact .inr hm
      · exact .inl (by rw [hj])
    active := fun j hj => by
      cases hj
      refine ⟨rfl, by simp, fun hm => absurd (h.started _ hm) (Nat.lt_irrefl _), ?_⟩
      intro w hw
      simp only [Lifecycle.invocation?, hlast, Option.some.injEq] at hw
      rw [← hw]
      exact hv
    alone := fun hr => absurd rfl hr
    vacant := fun _ j hj w hw => by
      simp only [Lifecycle.invocation?, hold j (hpending j hj)] at hw
      exact hvacant j hj w hw
    activePhase := fun _ => .inl (by simp)
    closing := fun hc => absurd hc (by simp)
    waitingPrevious := fun hc => absurd hc (by simp)
    reconcile := fun j hj => absurd hj (by simp)
    crashed := fun hc => absurd hc (by simp)
    drains := h.drains }

/-! ## What the host asks for

One lemma for each call of the host. While a call waits the host makes no other one but that at the end
of the process, except that the wait after a crash may go on beside anything; hence the hypothesis that
all roles are those of a crash (`roles_eq_nil`). A call that is refused leaves everything as it was. -/

/-- A host that waits for nothing has made no call that still waits, unless there was a crash. -/
theorem roles_eq_nil (h : Orderly l roles) (hf : ∀ r ∈ roles, r = .settle .crash)
    (hp : l.phase ≠ .crashed) : roles = [] := by
  cases roles with
  | nil => rfl
  | cons r rest =>
    have hr : r = .settle .crash := hf r (by simp)
    exact absurd (h.crashed (by simp [hr])) hp

theorem refused (h : Orderly l roles) (operation : Operation) :
    Orderly l (roles ++ (l.refuse operation).roles) := by
  simpa [refuse, Progress.roles] using h

/-- The call before an invocation is orderly, whether it has to wait for uploads or not. -/
theorem before (h : Orderly l roles) (hf : ∀ r ∈ roles, r = .settle .crash) :
    Orderly l.before.1 (roles ++ l.before.2.roles) := by
  unfold Lifecycle.before
  split
  · exact h.refused .before
  · next hp =>
    have hidle : l.phase = .idle := Decidable.not_not.mp hp
    obtain rfl := h.roles_eq_nil hf (by rw [hidle]; simp)
    have hnone : l.active = none := by
      cases ha : l.active with
      | none => rfl
      | some i => exact absurd (hidle.symm.trans (h.active i ha).1) (by simp)
    -- Nobody waits while the manager is idle, so only the phase and the new wait have to be looked at.
    have hnow (roles : List Role) (hc : .settle .crash ∉ roles)
        (hw : l.Vacant ∨ ∃ i, Role.reconcile i ∈ roles)
        (hr : ∀ i, Role.reconcile i ∈ roles → l.Vacant ∨ l.pending = some i) :
        Orderly { l with phase := .waitingPrevious } roles :=
      { h with
        active := fun i hi => absurd (hnone.symm.trans hi) (by simp)
        alone := fun _ => hnone
        activePhase := fun hp => absurd hp (by simp)
        closing := fun hp => absurd hp (by simp)
        waitingPrevious := fun _ => hw
        reconcile := hr
        crashed := fun hm => absurd hm hc }
    dsimp only
    split
    · next ho =>
      have hv : l.Vacant := outstanding?_eq_none.mp ho
      exact hnow [] (by simp) (.inl hv) fun i hi => absurd hi (by simp)
    · next i v ho =>
      have hi : l.pending = some i := (outstanding?_eq_some.mp ho).1
      have hwait := hnow [.reconcile i] (by simp) (.inr ⟨i, by simp⟩) fun j hj => by
        cases List.mem_singleton.mp hj
        exact .inr hi
      exact lookLast [] hwait (looks_check _
        (.reconcile i l.limits.previous (l.now + l.limits.previous)))

theorem startCall (h : Orderly l roles) (hf : ∀ r ∈ roles, r = .settle .crash)
    (ids : CommandIds) {sinks : List Sink} (hs : ∀ s ∈ sinks, s.watch = none) :
    Orderly (l.start ids sinks).1 (roles ++ (l.start ids sinks).2.roles) := by
  unfold Lifecycle.start
  split
  · exact (h.quiet (quiet_letGo l sinks)).refused .start
  · next hp =>
    have hwaiting : l.phase = .waitingPrevious := Decidable.not_not.mp hp
    obtain rfl := h.roles_eq_nil hf (by rw [hwaiting]; simp)
    have hstart := h.start hwaiting ⟨ids, Stream.new sinks, .blocking⟩ hs
    exact hstart.quiet ((quiet_note _ _ _).trans (quiet_tell _ _ _))

theorem active_of_phase (h : Orderly l []) (hp : l.phase = .active) :
    ∃ i v, l.active = some i ∧ l.invocation? i = some v := by
  cases ha : l.active with
  | none =>
    rcases h.activePhase hp with hne | hm
    · exact absurd ha hne
    · exact absurd hm (by simp)
  | some i =>
    obtain ⟨_, hlt, _, _⟩ := h.active i ha
    exact ⟨i, l.invocations[i], rfl, List.getElem?_eq_getElem hlt⟩

/-- The drain of uploads that have just been published has nothing to do with the rest. -/
theorem drained {i : Nat} (h : Orderly l roles) (hi : .published i ∈ l.journal)
    (hd : i ∉ l.drains) : Orderly { l with drains := l.drains ++ [i] } roles :=
  { h with
    drains := by
      refine ⟨List.nodup_append.mpr ⟨h.drains.1, by simp, ?_⟩, ?_⟩
      · intro j hj k hk hjk
        rw [List.mem_singleton.mp hk] at hjk
        exact hd (hjk ▸ hj)
      · intro j hj
        rcases List.mem_append.mp hj with hj | hj
        · exact h.drains.2 j hj
        · cases List.mem_singleton.mp hj
          exact hi }

/-- The call at the end of an invocation is orderly in every mode. Only a blocking one waits; the
others hand the uploads to a drain. -/
theorem finish (h : Orderly l roles) (hf : ∀ r ∈ roles, r = .settle .crash) (mode : UploadMode) :
    Orderly (l.finish mode).1 (roles ++ (l.finish mode).2.roles) := by
  unfold Lifecycle.finish
  split
  · exact h.refused .finish
  · next hp =>
    have hactive : l.phase = .active := Decidable.not_not.mp hp
    obtain rfl := h.roles_eq_nil hf (by rw [hactive]; simp)
    obtain ⟨i, v, ha, hv⟩ := h.active_of_phase hactive
    have hclose := quiet_closeStream { l with phase := .closing, active := none } i none
    have hpub : Orderly (({ l with phase := .closing, active := none } :
        Lifecycle).closeAndPublish i mode none) [.finish] :=
      h.publish ha hclose mode (fun hc => absurd hc (by simp)) (fun _ => by simp) (by simp)
        (fun hc => absurd hc (by simp)) (fun j hj => absurd hj (by simp))
    rw [ha]
    dsimp only
    have hmem : .published i ∈
        (({ l with phase := .closing, active := none }).closeAndPublish i mode none).journal := by
      exact List.mem_append_right _ (by simp)
    -- What has not been published yet has no drain.
    have hdrain : i ∉
        (({ l with phase := .closing, active := none }).closeAndPublish i mode none).drains := by
      intro hd
      have hold : ((({ l with phase := .closing, active := none }).closeAndPublish i mode
        none).drains) = l.drains := hclose.drains
      rw [hold] at hd
      exact (h.active i ha).2.2.1 (h.drains.2 i hd)
    generalize ({ l with phase := .closing, active := none }).closeAndPublish i mode none = n
      at hpub hmem hdrain
    -- Whatever comes next, the call has left the closing phase when it is answered.
    have hleave {n' : Lifecycle} (hn : Orderly n' [.finish]) : Orderly n'.leaveClosing [] :=
      hn.dismissFinish [] []
    cases hw : n.invocation? i with
    | none => exact hleave hpub
    | some w =>
      have hback : Orderly ((({ w.sinks.foldl (fun l s =>
          l.tell (.invocation i) (.notice (.closed s.name))) n with
            drains := (w.sinks.foldl (fun l s =>
              l.tell (.invocation i) (.notice (.closed s.name))) n).drains ++ [i] } :
            Lifecycle).noteFinished i w).leaveClosing) [] := by
        have hq : n.Quiet (w.sinks.foldl (fun l s =>
            l.tell (.invocation i) (.notice (.closed s.name))) n) := by
          refine Quiet.foldl (fun l s => ?_) w.sinks n
          exact quiet_tell l (.invocation i) (.notice (.closed s.name))
        refine hleave (((hpub.quiet hq).drained ?_ ?_).quiet (quiet_noteFinished _ i w))
        · rw [hq.journal]
          exact hmem
        · rw [hq.drains]
          exact hdrain
      cases mode with
      | blocking =>
        exact lookLast [] hpub (looks_check n (.finish i n.now
          (n.now + n.limits.blocking) (w.sinks.map fun _ => false)
          (expectedWait n.limits.blocking w.sinks) (n.now + 1000)))
      | nonBlocking => exact hback
      | fullyAsync => exact hback

theorem abandon (h : Orderly l roles) : Orderly l.abandon.1 (roles ++ l.abandon.2.roles) := by
  unfold Lifecycle.abandon
  split
  · exact h.refused .abandon
  · next hp =>
    have hwaiting : l.phase = .waitingPrevious := Decidable.not_not.mp hp
    have hnone : l.active = none := by
      cases ha : l.active with
      | none => rfl
      | some i => exact absurd (hwaiting.symm.trans (h.active i ha).1) (by simp)
    have hidle := h.toIdle hnone (by rw [hwaiting]; simp)
    simpa [Progress.roles] using hidle

/-- Without an active invocation anybody may wait for the end of the process, after a crash in the
phase that says so. -/
theorem awaitEnd (h : Orderly l roles) (ha : l.active = none) (ending : Ending)
    (hc : ending = .crash → l.phase = .crashed) : Orderly l (roles ++ [.settle ending]) :=
  { h with
    alone := fun _ => ha
    activePhase := fun hp => (h.activePhase hp).imp_right (List.mem_append_left _)
    closing := fun hp => List.mem_append_left _ (h.closing hp)
    waitingPrevious := fun hp => (h.waitingPrevious hp).imp_right fun ⟨i, hi⟩ =>
      ⟨i, List.mem_append_left _ hi⟩
    reconcile := fun i hi => by
      rcases List.mem_append.mp hi with hi | hi
      · exact h.reconcile i hi
      · exact absurd (List.mem_singleton.mp hi) (by simp)
    crashed := fun hm => by
      rcases List.mem_append.mp hm with hm | hm
      · exact h.crashed hm
      · exact hc (by cases List.mem_singleton.mp hm; rfl) }

/-- Without an active invocation the lifecycle may crash at any time. -/
theorem toCrashed (h : Orderly l roles) (ha : l.active = none) :
    Orderly { l with phase := .crashed } roles :=
  { h with
    active := fun i hi => absurd (ha.symm.trans hi) (by simp)
    activePhase := fun hp => absurd hp (by simp)
    closing := fun hp => absurd hp (by simp)
    waitingPrevious := fun hp => absurd hp (by simp)
    crashed := fun _ => rfl }

theorem settleWithin {ending : Ending} (h : Orderly l (roles ++ [.settle ending]))
    (grace : Nat) : Orderly (l.settleWithin grace ending).1
      (roles ++ (l.settleWithin grace ending).2.roles) := by
  unfold Lifecycle.settleWithin
  cases ho : l.outstanding? with
  | some p =>
    exact lookLast roles h (looks_check l (.settle p.1 grace (l.now + grace) ending))
  | none =>
    have hd := h.dismissSettle roles []
    rw [List.append_nil] at hd
    have he : (if ending = .shutdown && l.phase ≠ .crashed then { l with phase := .idle } else l)
        = { l with phase := ending.phaseAfter l.phase } := by
      unfold Ending.phaseAfter
      split <;> rfl
    dsimp only
    rw [he, Progress.roles, List.append_nil]
    exact hd

theorem abortActive_of_none {ending : Ending} (ha : l.active = none) :
    l.abortActive ending = l := by
  unfold abortActive
  rw [ha]

theorem abortActive_of_some {i : Nat} {ending : Ending} (ha : l.active = some i) :
    l.abortActive ending =
      ({ l with active := none } : Lifecycle).closeAndPublish i .blocking (some ending) := by
  unfold abortActive
  rw [ha]

theorem roles_eq_nil_of_active {i : Nat} (h : Orderly l roles) (ha : l.active = some i) :
    roles = [] := by
  by_contra hne
  exact absurd ((h.alone hne).symm.trans ha) (by simp)

theorem crash (h : Orderly l roles) : Orderly l.crash.1 (roles ++ l.crash.2.roles) := by
  unfold Lifecycle.crash
  split
  · simpa [Progress.roles] using h
  · refine settleWithin ?_ _
    rcases Option.eq_none_or_eq_some l.active with ha | ⟨i, ha⟩
    · rw [abortActive_of_none (l := { l with phase := .crashed }) ha]
      exact (h.toCrashed ha).awaitEnd ha .crash fun _ => rfl
    · -- While an invocation is active no call waits, so nobody else answers for the phase.
      rw [abortActive_of_some (l := { l with phase := .crashed }) ha]
      obtain rfl := h.roles_eq_nil_of_active ha
      have hclose := quiet_closeStream { l with phase := .crashed, active := none } i (some .crash)
      exact h.publish ha hclose .blocking (fun hc => absurd hc (by simp))
        (fun hc => absurd hc (by simp)) (by simp) (fun _ => rfl) (fun j hj => absurd hj (by simp))

theorem shutdown (h : Orderly l roles) : Orderly l.shutdown.1 (roles ++ l.shutdown.2.roles) := by
  unfold Lifecycle.shutdown
  split
  · simpa [Progress.roles] using h
  · refine settleWithin ?_ _
    rcases Option.eq_none_or_eq_some l.active with ha | ⟨i, ha⟩
    · rw [abortActive_of_none ha]
      exact h.awaitEnd ha .shutdown fun he => absurd he (by simp)
    · -- The phase stays active until the wait is over; the call itself answers for it.
      rw [abortActive_of_some ha]
      obtain rfl := h.roles_eq_nil_of_active ha
      have hphase := (h.active i ha).1
      have hclose := quiet_closeStream { l with phase := l.phase, active := none } i
        (some .shutdown)
      exact h.publish ha hclose .blocking (fun _ => by simp)
        (fun hc => absurd (hphase.symm.trans hc) (by simp)) (by rw [hphase]; simp)
        (fun hc => absurd hc (by simp)) (fun j hj => absurd hj (by simp))

/-! ## Drains

A drain waits outside of any call, so it is in `drains` and not among the roles. When its uploads are
over it retires them, which `retire` has already shown to be harmless, and goes. -/

theorem settleDrain (h : Orderly l roles) (i : Nat) : Orderly (l.settleDrain i) roles := by
  unfold Lifecycle.settleDrain
  split
  · split
    · next v _ _ =>
      have hfewer : Orderly { l with drains := l.drains.filter (· ≠ i) } roles :=
        { h with
          drains := ⟨h.drains.1.filter _, fun j hj => h.drains.2 j (List.mem_of_mem_filter hj)⟩ }
      exact (hfewer.retire i .drain).quiet (quiet_endDrain l i v)
    · exact h
  · exact h

theorem drift (h : Orderly l roles) (hd : l.Drift m) : Orderly m roles := by
  cases hd with
  | quiet hq => exact h.quiet hq
  | drain _ => exact h.settleDrain _
  | time _ => exact { h with }
  | limits _ => exact { h with }

end Orderly

/-! ## Runs

The roles of a run are those of its waiting calls, in the order in which they were made. A step looks at
one of them in the midst of the others, and so the lemmas above have a list on either side. -/

namespace Run

theorem roles_split {r : Run} {earlier later : List Pending} {p : Pending}
    (h : r.calls = earlier ++ p :: later) : r.roles =
      earlier.filterMap Pending.role? ++
        ([p].filterMap Pending.role? ++ later.filterMap Pending.role?) := by
  rw [roles, h, ← List.filterMap_append, ← List.filterMap_append]
  rfl

theorem Admits.orderly {r : Run} {c : HostCall} (hc : r.Admits c)
    (h : Orderly r.lifecycle r.roles) :
    Orderly (c.make r.lifecycle).1 (r.roles ++ (c.make r.lifecycle).2.roles) := by
  cases c with
  | before => exact h.before hc
  | start ids sinks => exact h.startCall hc.1 ids hc.2
  | finish mode => exact h.finish hc mode
  | abandon => exact h.abandon
  | crash => exact h.crash
  | shutdown => exact h.shutdown

/-- Every step of a run keeps it orderly, one case for each kind of step. -/
theorem Step.orderly {r s : Run} (hs : r.Step s) (h : Orderly r.lifecycle r.roles) :
    Orderly s.lifecycle s.roles := by
  cases hs with
  | drift hd => exact h.drift hd
  | @look earlier later call hc =>
    rw [roles_split hc] at h
    have hl := Orderly.look h (looks_check r.lifecycle call)
    rw [roles_split (r := ⟨_, earlier ++ _ :: later⟩) rfl, roles_after_none, after_none]
    exact hl
  | @word earlier later call hc =>
    rw [roles_split hc] at h
    have hq := h.quiet (quiet_endInstant r.lifecycle call)
    rw [roles_split (r := ⟨_, earlier ++ _ :: later⟩) rfl]
    have hrole : [Pending.waiting (r.lifecycle.endInstant call).2 none].filterMap Pending.role? =
        [Pending.waiting call none].filterMap Pending.role? := by
      simp [Pending.role?, role_endInstant]
    rw [hrole]
    exact hq
  | call c hc =>
    rw [lifecycle_call, roles_call]
    exact hc.orderly h
  | forget =>
    have hroles : Run.roles { r with calls := r.calls.filter Pending.isWaiting } = r.roles := by
      simp only [roles, List.filterMap_filter]
      refine List.filterMap_congr fun p _ => ?_
      cases p <;> rfl
    rw [hroles]
    exact h

/-- **Every reachable run is orderly.** -/
theorem Reachable.orderly {r : Run} (h : r.Reachable) : Orderly r.lifecycle r.roles := by
  induction h with
  | new limits outside => exact .new limits outside
  | step _ hs ih => exact hs.orderly ih

end Run

end EventUpload
