import EventUpload.Proofs.Lifecycle.DroppedCalls
import EventUpload.Proofs.Lifecycle.Posts

/-!
# Messages that a wait goes on

While the end of an invocation waits, the invocation is given a word every now and then that the wait
goes on (`Lifecycle.endInstant`). Nobody else gives such words (`Proceeds.wordsTo`): an invocation hears
one only as long as a call waits for the end of it, and once it has been published no other call ever
will (`silent_of_proceeds`).

Words are picked out of the log by their kind and by whom they are for. The lemmas on who gives none are
instances of what looking at a call and making one leave out of the log (`Lifecycle/Journal`); what is
left is the end of an instant, and there it is the errand of the call that tells for whom the word is
(`wordsTo_endInstant`).

That nobody comes to wait for the same invocation again is a matter of publishing: a wait begins
together with it, and an invocation is published once. `Unattended` is the pair of facts that is kept
for good.
-/

set_option autoImplicit false

namespace EventUpload

open Relation (ReflTransGen)
open Lifecycle

/-- A word to an invocation that its wait goes on. -/
def Posted.isWordTo (i : Nat) : Posted → Bool
  | ⟨_, .invocation j, .message ⟨.progress, _⟩⟩ => j = i
  | _ => false

/-- The words that an invocation was given. -/
def Lifecycle.wordsTo (l : Lifecycle) (i : Nat) : List Posted := l.posts (Posted.isWordTo i)

theorem withheld_isWordTo (i : Nat) : Withheld (Posted.isWordTo i) where
  remark := fun _ _ _ => by simp [Posted.isWordTo]
  error := fun _ _ _ => by simp [Posted.isWordTo]
  warning := fun _ _ _ => by simp [Posted.isWordTo]
  notice := fun _ whom _ => by cases whom <;> rfl
  newcomer := fun _ _ => rfl

namespace Lifecycle

variable {i : Nat}

/-! ## Who gives no words -/

theorem wordsTo_leaveClosing (l : Lifecycle) : l.leaveClosing.wordsTo i = l.wordsTo i :=
  posts_leaveClosing l

/-- **Looking at a call** gives no words. -/
theorem wordsTo_check (l : Lifecycle) (call : Call) : (l.check call).1.wordsTo i = l.wordsTo i :=
  posts_check (withheld_isWordTo i) l call

/-- **Making a call** gives no words. -/
theorem wordsTo_make (c : HostCall) (l : Lifecycle) : (c.make l).1.wordsTo i = l.wordsTo i :=
  posts_make (withheld_isWordTo i) c l

theorem Stirs.wordsTo {l m : Lifecycle} (h : l.Stirs m) : m.wordsTo i = l.wordsTo i := by
  cases h with
  | sinks outside hv hgo => exact posts_sayErrors (withheld_isWordTo i).toApart _ _ _
  | strays strays outside errors => exact posts_sayErrors (withheld_isWordTo i).toApart _ _ _
  | deed j d => rfl
  | drain hi => exact posts_settleDrain (withheld_isWordTo i).toApart l _
  | time hle => rfl
  | limits limits => rfl

/-- Only the wait at the end of an invocation has a word to say to it. -/
theorem wordsTo_endInstant (l : Lifecycle) {call : Call} (h : call.errand ≠ (i, .wait)) :
    (l.endInstant call).1.wordsTo i = l.wordsTo i := by
  cases call with
  | finish index start deadline noticed longest nextWord =>
    have hne : index ≠ i := fun heq => h (congrArg (·, Retirer.wait) heq)
    simp only [endInstant]
    split
    · exact posts_tell_of_false (by simpa [Posted.isWordTo] using hne)
    · rfl
  | reconcile index grace deadline => rfl
  | settle index grace deadline ending => rfl

end Lifecycle

namespace Run

variable {r s : Run} {i : Nat}

/-! ## Silence -/

/-- **Words are given by waits.** Nothing that happens gives an invocation a word unless a call waits for
the end of it. -/
theorem Proceeds.wordsTo (h : r.Proceeds s) (hes : (i, .wait) ∉ r.errands) :
    s.lifecycle.wordsTo i = r.lifecycle.wordsTo i := by
  cases h with
  | idles hs =>
    cases hs with
    | stirs hs => exact hs.wordsTo
    | look _ =>
      rw [after_none]
      exact wordsTo_check _ _
    | word hcalls =>
      refine wordsTo_endInstant _ fun herrand => hes ?_
      rw [errands_split hcalls]
      exact List.mem_append_right _ (List.mem_append_left _ (List.mem_singleton.mpr herrand.symm))
    | @refused c _ _ _ => rw [lifecycle_call]; exact wordsTo_make c r.lifecycle
    | forget => rfl
  | call c _ _ =>
    rw [lifecycle_call]
    exact wordsTo_make c r.lifecycle
  | drop hrole hd =>
    rw [(hd.finish hrole).1]
    exact wordsTo_leaveClosing r.lifecycle

/-- An invocation has been published, and no call waits for the end of it. -/
def Unattended (i : Nat) (p : Lifecycle × List (Nat × Retirer)) : Prop :=
  .published i ∈ p.1.journal ∧ (i, .wait) ∉ p.2

theorem Unattended.prepares {p q : Lifecycle × List (Nat × Retirer)} (h : Unattended i p)
    (hp : Prepares p q) : Unattended i q := by
  obtain ⟨hpub, hes⟩ := h
  refine ⟨published_of_prepares hp hpub, fun hmem => ?_⟩
  cases hp with
  | hush _ => exact hes hmem
  | start _ => exact hes hmem
  | publish _ hnew _ heir =>
    cases heir with
    | wait =>
      cases List.mem_singleton.mp hmem
      exact hnew hpub
    | drain _ => exact absurd hmem (by simp)
    | ending => exact absurd hmem (by simp)
    | nobody _ => exact absurd hmem (by simp)
  | ask errand hwho =>
    rcases List.mem_append.mp hmem with hmem | hmem
    · exact hes hmem
    · rw [← List.mem_singleton.mp hmem] at hwho
      rcases hwho with hwho | hwho <;> exact absurd hwho (by simp)

theorem Unattended.concludes {p q : Lifecycle × List (Nat × Retirer)} {ws : List Warning}
    (h : Unattended i p) (hc : Concludes p q ws) : Unattended i q := by
  obtain ⟨hpub, hes⟩ := h
  refine ⟨published_of_concludes hc hpub, fun hmem => hes ?_⟩
  cases hc with
  | hush _ => exact hmem
  | drain _ _ => exact hmem
  | errand _ _ => exact Voiced.sublist_errands.subset hmem
  | cut _ _ => exact Voiced.sublist_errands.subset hmem
  | vacuous _ _ => exact Voiced.sublist_errands.subset hmem

/-- Nobody comes to wait for the end of an invocation that has ended. -/
theorem Proceeds.unattended (h : r.Proceeds s) (hr : r.Hasty)
    (hi : Unattended i (r.lifecycle, r.errands)) : Unattended i (s.lifecycle, s.errands) :=
  h.keeps (P := Unattended i) (fun hp => hp.prepares) (fun hp => hp.concludes)
    (fun {l _ _ _} hp => ⟨(hush_leaveClosing l).journal.symm ▸ hp.1, fun hmem =>
      hp.2 (Voiced.sublist_errands.subset hmem)⟩) hr.orderly hi

theorem unattended_of_proceeds (hr : r.Hasty) (hi : Unattended i (r.lifecycle, r.errands))
    (hs : ReflTransGen Proceeds r s) : Unattended i (s.lifecycle, s.errands) := by
  induction hs with
  | refl => exact hi
  | tail hrt hs ih => exact hs.unattended (hr.of_proceeds hrt) ih

/-- **An invocation that nobody waits for any more is not given a word again**, whatever happens. -/
theorem silent_of_proceeds (hr : r.Hasty) (hi : Unattended i (r.lifecycle, r.errands))
    (hs : ReflTransGen Proceeds r s) : s.lifecycle.wordsTo i = r.lifecycle.wordsTo i := by
  induction hs with
  | refl => rfl
  | tail hrt hs ih => exact (hs.wordsTo (unattended_of_proceeds hr hi hrt).2).trans ih

end Run

end EventUpload
