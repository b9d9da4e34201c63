import EventUpload.Proofs.Lifecycle.DroppedCalls
import EventUpload.Proofs.Lifecycle.CheckedSinks

/-!
# The wait at the end of the process

Uploads that somebody waits for at the end of the process are pending no longer than that wait takes,
whatever else the host does and whoever else is waiting for them: `EndsBy` is kept by everything that
happens, and when the wait is over at the latest they are over as well (`EndsBy.lt`). The sinks that
were not over before are cancelled then (`EndsBy.outcomes`).

`EndsBy` is a conditional: as long as the uploads are pending somebody waits. Another call may be done
with the same uploads earlier, and then the wait at the end of the process may still be there or not.
What is never the case is that they are pending and nobody would retire them when the limit has come.

`EndsBy.outcomes` is about the one instant at which the limit is reached. How a sink stands when the
calls of this instant are looked at for the first time settles what becomes of it, however many of them
are over, because each of them leaves a sink as it was or gives it up (`Lifecycle/CheckedSinks`).
-/

set_option autoImplicit false

namespace EventUpload

open List (Forall₂)
open Relation (ReflTransGen)
open Lifecycle

/-! ## What was cleared away stays away

An invocation is published once, so what has left the pending place does not come back to it. -/

/-- The uploads of an invocation have been published, and are not pending any more. -/
def Lifecycle.Cleared (l : Lifecycle) (i : Nat) : Prop := .published i ∈ l.journal ∧ l.pending ≠ some i

namespace Lifecycle

variable {l m : Lifecycle} {i grace limit : Nat} {ending : Ending}

theorem Cleared.prepares {p q : Lifecycle × List (Nat × Retirer)} (h : p.1.Cleared i)
    (hp : Prepares p q) : q.1.Cleared i := by
  obtain ⟨hpub, hnot⟩ := h
  refine ⟨Run.published_of_prepares hp hpub, ?_⟩
  cases hp with
  | hush hm => exact hm.pending ▸ hnot
  | start _ => exact hnot
  | publish _ hnew _ _ =>
    rintro ⟨⟩
    exact hnew hpub
  | ask _ _ => exact hnot

theorem Retires.not_pending {j : Nat} {who : Retirer} {texts : List String} (h : l.Retires j who texts m)
    (hl : l.pending ≠ some i) : m.pending ≠ some i := by
  rw [h.pending]
  split
  · simp
  · exact hl

theorem Cleared.concludes {p q : Lifecycle × List (Nat × Retirer)} {ws : List Warning}
    (h : p.1.Cleared i) (hc : Concludes p q ws) : q.1.Cleared i := by
  obtain ⟨hpub, hnot⟩ := h
  refine ⟨Run.published_of_concludes hc hpub, ?_⟩
  cases hc with
  | hush hm => exact hm.pending ▸ hnot
  | drain _ hr => exact hr.not_pending hnot
  | errand _ hr => exact hr.not_pending hnot
  | cut hm hn =>
    rw [hn.pending]
    exact hm.pending ▸ hnot
  | vacuous _ hm => exact hm.pending ▸ hnot

theorem Passes.not_pending (h : l.Passes m) (hl : l.pending ≠ some i) : m.pending ≠ some i := by
  rcases h.pending with hm | hm
  · rwa [hm]
  · rw [hm]
    simp

/-- When the wait at the end of the process is over, its uploads are not pending. -/
theorem pending_check_settle (h : ¬ l.HasToWait (.settle i grace limit ending)) :
    (l.check (.settle i grace limit ending)).1.pending ≠ some i := by
  have hended (n : Lifecycle) : (n.endSettle i ending).pending ≠ some i := by
    obtain hr := retires_endSettle n i ending
    rw [hr.pending]
    split
    · simp
    · assumption
  rcases check_settle_cases l i grace limit ending with hwait | ⟨hok, -⟩
  · exact absurd (hasToWait_of_check (congrArg Prod.snd hwait)).1 h
  · simp only [check] at hok ⊢
    split at hok
    · exact hended l
    · split at hok
      · next hdue =>
        rw [if_pos hdue]
        exact hended _
      · exact absurd hok (by simp)

end Lifecycle

namespace Run

variable {r s : Run} {i d grace limit : Nat} {ending : Ending} {v w : Invocation}

theorem cleared_of_proceeds (hr : r.Hasty) (hs : ReflTransGen Proceeds r s)
    (hi : r.lifecycle.Cleared i) : s.lifecycle.Cleared i := by
  induction hs with
  | refl => exact hi
  | tail hrt hs ih =>
    refine hs.keeps (P := fun p => p.1.Cleared i) (fun hp => hp.prepares) (fun hp => hp.concludes)
      (fun {l _ _ _} hp => ?_) (hr.of_proceeds hrt).orderly ih
    have hleave := hush_leaveClosing l
    exact ⟨hleave.journal.symm ▸ hp.1, hleave.pending.symm ▸ hp.2⟩

/-- Uploads that were cleared away are over. -/
theorem Hasty.allDone (h : r.Hasty) (hi : r.lifecycle.Cleared i) (hv : r.lifecycle.invocation? i = some v) :
    v.allDone = true := h.voiced.2 i v hi.1 hv hi.2

/-! ## Who waits

A call at the end of the process is not dropped, and nobody else answers it. So it is there, or its
uploads are not pending any more. -/

/-- As long as the uploads of an invocation are pending, somebody waits for them at the end of the process,
no longer than until an instant. -/
def EndsBy (r : Run) (i limit : Nat) : Prop :=
  r.lifecycle.pending = some i →
    ∃ grace ending, .waiting (.settle i grace limit ending) none ∈ r.calls

/-- The wait goes on, or its uploads are not pending any more. -/
theorem Proceeds.settling (h : r.Proceeds s)
    (hcall : .waiting (.settle i grace limit ending) none ∈ r.calls) :
    .waiting (.settle i grace limit ending) none ∈ s.calls ∨ s.lifecycle.pending ≠ some i := by
  -- Only a look at this very call can end it, and only by retiring what it has waited for.
  cases h with
  | call c _ _ => exact .inl (List.mem_append_left _ hcall)
  | drop hrole hd =>
    obtain ⟨-, earlier, later, hcalls, hleft⟩ := hd.split
    rw [hcalls] at hcall
    rw [hleft]
    rcases List.mem_append.mp hcall with hcall | hcall
    · exact .inl (List.mem_append_left _ hcall)
    · rcases List.mem_cons.mp hcall with heq | hcall
      · cases heq
        exact absurd hrole (by simp [Call.role])
      · exact .inl (List.mem_append_right _ (List.mem_cons_of_mem _ hcall))
  | idles hs =>
    cases hs with
    | stirs _ => exact .inl hcall
    | refused _ _ => exact .inl (List.mem_append_left _ hcall)
    | forget => exact .inl (List.mem_filter.mpr ⟨hcall, rfl⟩)
    | look hcalls =>
      rw [hcalls] at hcall
      rcases List.mem_append.mp hcall with hcall | hcall
      · exact .inl (List.mem_append_left _ hcall)
      · rcases List.mem_cons.mp hcall with heq | hcall
        · cases heq
          rcases check_settle_cases r.lifecycle i grace limit ending with hwait | ⟨-, hover⟩
          · rw [hwait]
            exact .inl (List.mem_append_right _ (List.mem_cons_self ..))
          · right
            rw [after_none]
            exact pending_check_settle hover
        · exact .inl (List.mem_append_right _ (List.mem_cons_of_mem _ hcall))
    | word hcalls =>
      left
      rw [hcalls] at hcall
      rcases List.mem_append.mp hcall with hcall | hcall
      · exact List.mem_append_left _ hcall
      · refine List.mem_append_right _ ?_
        rcases List.mem_cons.mp hcall with heq | hcall
        · cases heq
          exact List.mem_cons_self ..
        · exact List.mem_cons_of_mem _ hcall

theorem endsBy_of_proceeds (hr : r.Hasty) (hi : .published i ∈ r.lifecycle.journal)
    (h : r.EndsBy i limit) (hs : ReflTransGen Proceeds r s) : s.EndsBy i limit := by
  induction hs with
  | refl => exact h
  | @tail t u hrt hs ih =>
    intro hp
    -- What is pending now has been pending before.
    have hpending : t.lifecycle.pending = some i := by
      by_contra hnot
      have hcleared : t.lifecycle.Cleared i := ⟨hr.published_of_proceeds hrt hi, hnot⟩
      exact (cleared_of_proceeds (hr.of_proceeds hrt) (.single hs) hcleared).2 hp
    obtain ⟨grace, ending, hcall⟩ := ih hpending
    exact ⟨grace, ending, (hs.settling hcall).resolve_right fun hnot => hnot hp⟩

namespace EndsBy

/-- At an instant at which everything has been done, uploads that are not over are waited for. -/
theorem lt_of_rests (h : r.EndsBy i limit) (hr : r.Hasty) (hi : .published i ∈ r.lifecycle.journal)
    (hrest : r.Rests) (hv : r.lifecycle.invocation? i = some v) (hopen : v.allDone = false) :
    (∃ grace ending, .waiting (.settle i grace limit ending) none ∈ r.calls) ∧
      r.lifecycle.now < limit := by
  have hp : r.lifecycle.pending = some i := by
    by_contra hnot
    exact absurd ((hr.allDone ⟨hi, hnot⟩ hv).symm.trans hopen) (by simp)
  obtain ⟨grace, ending, hcall⟩ := h hp
  exact ⟨⟨grace, ending, hcall⟩, (hrest.calls _ none hcall).lt⟩

/-- **Uploads are over** when the wait for them at the end of the process is, at the latest. -/
theorem lt (h : r.EndsBy i limit) (hr : r.Hasty) (hi : .published i ∈ r.lifecycle.journal)
    (hv : (r.arrival d).settle.lifecycle.invocation? i = some v) (hopen : v.allDone = false) :
    r.lifecycle.now + d < limit := by
  have hs := (hr.proceeds_arrival d).trans (hr.arrival d).proceeds_settle
  obtain ⟨⟨grace, ending, hcall⟩, -⟩ := (endsBy_of_proceeds hr hi h hs).lt_of_rests
    (hr.of_proceeds hs) (hr.published_of_proceeds hs hi) (rests_settle _) hv hopen
  obtain ⟨k, hk⟩ := List.getElem?_of_mem hcall
  exact (waits_settle.mpr hk).lt

end EndsBy

/-! ## The last look -/

/-- A wait that is over when the calls are looked at leaves its uploads cleared away. -/
theorem pending_checkCalls {patience : Option Nat} {calls : List Pending} {l : Lifecycle}
    (hcall : .waiting (.settle i grace limit ending) patience ∈ calls) (hle : limit ≤ l.now) :
    (checkCalls l calls).1.pending ≠ some i := by
  induction calls generalizing l with
  | nil => exact absurd hcall (by simp)
  | cons p rest ih =>
    rcases List.mem_cons.mp hcall with rfl | hrest
    · rw [checkCalls_waiting]
      have hover : ¬ l.HasToWait (.settle i grace limit ending) := fun hwait =>
        absurd hwait.lt (Nat.not_lt.mpr hle)
      exact ((passes_after _ _ patience).trans (passes_checkCalls rest _)).not_pending
        (pending_check_settle hover)
    · cases p with
      | finished reply => exact ih hrest hle
      | waiting call patience =>
        rw [checkCalls_waiting]
        refine ih hrest ?_
        rw [now_after, check_now]
        exact hle

/-- **When the wait is over** all sinks are over as they were when the calls were looked at, and otherwise
they are cancelled. -/
theorem EndsBy.outcomes (h : r.EndsBy i limit) (hr : r.Hasty) (hi : .published i ∈ r.lifecycle.journal)
    (hle : limit ≤ r.lifecycle.now) (hv : r.lifecycle.settle.invocation? i = some v)
    (hw : r.settle.lifecycle.invocation? i = some w) : w.outcomes = v.sinks.map fun s =>
      (s.name, s.seen.done.resolve (.failed (.cancelled s.name))) := by
  have hsettled := hr.closed.settleLifecycle .refl
  have hround := (hr.closed.checkCalls r.calls _ [] hr.patient hsettled).1
  obtain ⟨⟨_, hvoiced⟩, -⟩ := (hr.of_proceeds hsettled).voiced
  have hsheds := sheds_checkCalls hvoiced.sound r.calls
  -- After the first round nothing is left that could still come to its end by itself.
  have hcleared : (checkCalls r.lifecycle.settle r.calls).1.Cleared i := by
    refine ⟨hr.published_of_proceeds hround hi, ?_⟩
    by_cases hp : r.lifecycle.pending = some i
    · obtain ⟨grace, ending, hcall⟩ := h hp
      refine pending_checkCalls hcall ?_
      rw [settle_now]
      exact hle
    · exact ((passes_settle _).trans (passes_checkCalls _ _)).not_pending hp
  obtain ⟨u, hu, huw⟩ := (passes_round r).of_invocation? hw
  have hover := (hr.of_proceeds hround).allDone hcleared hu
  rw [huw.onward.outcomes hover, hsheds.outcomes hv hu hover]

end Run

end EventUpload
