import EventUpload.Proofs.Lifecycle.CutShort
import EventUpload.Proofs.Lifecycle.LoneCall
import EventUpload.Proofs.Lifecycle.Posts
import EventUpload.Proofs.Lifecycle.SilentLoss

/-!
# What a report comes with

The end of an invocation is answered by a report. If nobody waits for the uploads, they are all pending
in it. If somebody does, an upload that has not succeeded by then has not gone unmentioned: the
invocation was warned that the wait is over, or of the failure, or the sink has posted its error itself
(`Run.concluded_finish`). That does not depend on how long the host has the patience to wait.

The lifecycle itself never has good news: no info is posted in the course of all this. It is the one who
asks for the end of the invocation that may say how things have gone, and it can trust the report.

Three may have spoken, and they are told apart by the error. Errors of a transmission are posted by the
sink, and everything else by whoever waits; `Truthful` has the first half of this for the whole life of
the invocation (a sink that has failed to transmit has said so, `Sink.Candid`), and
`Truthful.told_of_check` the second, at the look that answers. If the cap is reached there is nothing to
be found out about sinks.

The report says little about an invocation that does not wait, and that is in the nature of the thing:
its sinks have not had a turn since they were closed.
-/

set_option autoImplicit false

namespace EventUpload

open Lifecycle

/-! ## Infos

No lifecycle posts an info by itself, so the infos are a kind of posts that all its operations leave
alone. -/

def Posted.isInfo : Posted → Bool
  | ⟨_, _, .message ⟨.info, _⟩⟩ => true
  | _ => false

/-- The infos that were posted, to whomever. -/
def Lifecycle.infos (l : Lifecycle) : List Posted := l.posts Posted.isInfo

theorem withheld_isInfo : Withheld Posted.isInfo where
  remark := fun _ _ _ => rfl
  error := fun _ _ _ => rfl
  warning := fun _ _ _ => rfl
  notice := fun _ _ _ => rfl
  newcomer := fun _ _ => rfl

/-- When the end of a sink is seen, it has succeeded, or there is an error that the sink does not report
itself, or somebody was told. -/
theorem Sink.Kept.done_of_seen {s : Sink} {next : Nat} {told : Prop} (h : s.Kept next told)
    (hcandid : s.Candid) {o : Outcome} (hseen : s.seen.done = some o) :
    o = .done ∨ told ∨ ∃ e, o = .failed e ∧ e.isTransmission = false := by
  rcases hcandid.done o hseen with hown | ⟨e, rfl, he⟩
  · obtain ⟨c, hb, hc⟩ := h
    simp only [signals, hb] at hown
    rcases hc.done_cases hown with ⟨-, rfl⟩ | ⟨-, rfl⟩ | htold
    · exact .inl rfl
    · exact .inr (.inr ⟨_, rfl, rfl⟩)
    · exact .inr (.inl htold)
  · refine .inr (.inr ⟨e, rfl, ?_⟩)
    cases e <;> first | rfl | exact absurd he (by simp [SinkError.isTimeout])

namespace Lifecycle

variable {l m : Lifecycle} {i : Nat} {v : Invocation}

/-! ## What happens by itself -/

/-- What sinks and drains leave alone is kept at an instant. -/
theorem settle_keeps {P : Lifecycle → Prop} (hstirs : ∀ {l m : Lifecycle}, l.Stirs m → P l → P m)
    (hdrain : ∀ {l : Lifecycle} (i : Nat), P l → P (l.settleDrain i)) (h : P l) : P l.settle := by
  have hfoldl {f : Lifecycle → Nat → Lifecycle} (hf : ∀ {l : Lifecycle} (i : Nat), P l → P (f l i))
      (is : List Nat) : ∀ l, P l → P (is.foldl f l) := by
    induction is with
    | nil => exact fun _ hl => hl
    | cons i is ih => exact fun l hl => ih _ (hf i hl)
  have hinvocation {l : Lifecycle} (i : Nat) (hl : P l) : P (l.settleInvocation i) := by
    cases hv : l.invocation? i with
    | none =>
      rw [settleInvocation_of_none hv]
      exact hl
    | some v =>
      rw [settleInvocation_of_some hv]
      exact hstirs (.sinks _ hv (allGoOn_settleSinks v.sinks l.outside)) hl
  have hsinks := hfoldl hinvocation (List.range l.invocations.length) l h
  rw [settle_eq]
  refine hfoldl hdrain _ _ ?_
  rw [afterSinks, settleStrays_eq]
  exact hstirs (.strays _ _ _) hsinks

/-- An invocation has ended, its sinks hide nothing, and it was told if one of them has failed. -/
structure Truthful (i : Nat) (l : Lifecycle) (v : Invocation) : Prop where
  here : l.invocation? i = some v
  closed : v.stream.closed = true
  kept : v.stream.Kept (l.Alarmed i)
  candid : ∀ s ∈ v.sinks, s.Candid

namespace Truthful

/-- Nothing has happened to the invocation. -/
theorem keeps (h : Truthful i l v) (hhere : m.invocation? i = l.invocation? i)
    (hlog : l.log <+: m.log) : Truthful i m v :=
  ⟨hhere.trans h.here, h.closed, h.kept.mono fun halarm => halarm.mono hlog, h.candid⟩

/-- Whatever stirs, the sinks hide nothing, and what fails among them is said to the invocation. -/
theorem stirs (h : Truthful i l v) (hs : l.Stirs m) : ∃ w, Truthful i m w := by
  have hlog := hs.log
  cases hs with
  | @sinks j u sinks errors outside hu hgo =>
    have hsaid := says_sayErrors ({ l.update j (·.withSinks sinks) with outside := outside })
      (.invocation j) errors
    -- What another invocation does leaves this one as it is, and the log only grows.
    by_cases hij : j = i
    · subst hij
      cases hu.symm.trans h.here
      generalize hm : Lifecycle.sayErrors _ _ _ = m at hlog hsaid
      have halarmed : errors ≠ [] → m.Alarmed j := fun hne => hm ▸ alarmed_sayErrors _ j hne
      have hboth : ∀ t ∈ sinks, t.Kept v.stream.next (m.Alarmed j) ∧ t.Candid := by
        refine hgo.keeps (fun hs hstir htold => ?_) halarmed fun s hs => ?_
        · exact ⟨hs.1.stirs hstir htold, hs.2.stirs hs.1 hstir⟩
        · exact ⟨(h.kept s hs).mono fun halarm => halarm.mono hlog, h.candid s hs⟩
      refine ⟨v.withSinks sinks, ?_, h.closed, fun t ht => (hboth t ht).1, fun t ht => (hboth t ht).2⟩
      rw [hsaid.invocation?]
      exact invocation?_update_self hu _
    · refine ⟨v, h.keeps ?_ hlog⟩
      rw [hsaid.invocation?]
      exact (invocation?_update l j _ i).trans (if_neg hij)
  | strays strays outside errors =>
    have hsaid := says_sayErrors ({ l with strays := strays, outside := outside }) .newcomer errors
    exact ⟨v, h.keeps (hsaid.invocation? i) hlog⟩
  | deed j d =>
    by_cases hij : j = i
    · subst hij
      obtain ⟨hsinks, hnext, hclosed⟩ := h.kept.deed h.closed d l.now
      refine ⟨_, invocation?_update_self h.here _, hclosed, fun k hk => ?_, fun k hk => ?_⟩
      · rw [hnext]
        exact h.kept k (hsinks ▸ hk)
      · rw [Invocation.sinks, hsinks] at hk
        exact h.candid k hk
    · refine ⟨v, h.keeps ?_ hlog⟩
      exact (invocation?_update l j _ i).trans (if_neg hij)
  | @drain j hj => exact ⟨v, h.keeps (congrArg (·[i]?) (invocations_settleDrain l j)) hlog⟩
  | time hle => exact ⟨v, h.keeps rfl hlog⟩
  | limits limits => exact ⟨v, h.keeps rfl hlog⟩

theorem settle (h : Truthful i l v) : ∃ w, Truthful i l.settle w ∧ v.Onward w := by
  obtain ⟨w, hw⟩ := settle_keeps (P := fun m => ∃ w, Truthful i m w)
    (fun hs ⟨_, hw⟩ => hw.stirs hs)
    (fun j ⟨w, hw⟩ => ⟨w, hw.keeps (congrArg (·[i]?) (invocations_settleDrain _ j))
      (log_settleDrain _ j)⟩) ⟨v, h⟩
  obtain ⟨w', hw', honward⟩ := (calm_settle l).invocation? h.here
  cases hw.here.symm.trans hw'
  exact ⟨w, hw, honward⟩

/-- When all uploads are seen to be over, they have succeeded, or there is an error to be warned of, or
the invocation was told. -/
theorem of_allDone (h : Truthful i l v) (hdone : v.allDone = true) :
    (∀ s ∈ v.sinks, s.seen.done = some .done) ∨ l.Alarmed i ∨
      ∃ e ∈ v.errors, e.isTransmission = false := by
  by_cases hall : ∀ s ∈ v.sinks, s.seen.done = some .done
  · exact .inl hall
  · obtain ⟨s, hs, hne⟩ : ∃ s ∈ v.sinks, s.seen.done ≠ some .done := by simpa using hall
    obtain ⟨o, ho⟩ := Option.isSome_iff_exists.mp (List.all_eq_true.mp hdone s hs)
    rcases (h.kept s hs).done_of_seen (h.candid s hs) ho with rfl | halarm | ⟨e, rfl, ht⟩
    · exact absurd ho hne
    · exact .inr (.inl halarm)
    · refine .inr (.inr ⟨e, List.mem_filterMap.mpr ⟨s, hs, ?_⟩, ht⟩)
      rw [ho]
      rfl

end Truthful

end Lifecycle

/-! ## The end of an invocation

For a blocking invocation the induction is over the wait. In the other modes the report comes at once. -/

/-- What the report of an invocation with some sinks says and leaves out, given what was told. -/
structure Report.Accounts (r : Report) (how : UploadMode) (sinks : List String) (told : Prop) :
    Prop where
  mode : r.mode = how
  names : r.outcomes.map SinkOutcome.name = sinks
  pending : how ≠ .blocking → ∀ o ∈ r.outcomes, o.status = .pending
  told : how = .blocking → r.isComplete = true ∨ told

theorem Report.Accounts.mono {r : Report} {mode : UploadMode} {names : List String} {told told' : Prop}
    (h : r.Accounts mode names told) (htold : told → told') : r.Accounts mode names told' :=
  { h with told := fun hmode => (h.told hmode).imp_right htold }

theorem Report.isComplete_of_done {v : Invocation} (h : ∀ s ∈ v.sinks, s.seen.done = some .done) :
    (Report.ofOutcomes v.mode v.outcomes).isComplete = true := by
  refine List.all_eq_true.mpr fun o ho => ?_
  obtain ⟨⟨name, outcome⟩, hmem, rfl⟩ := List.mem_map.mp ho
  obtain ⟨s, hs, heq⟩ := List.mem_map.mp hmem
  rw [h s hs] at heq
  cases heq
  rfl

namespace Lifecycle

variable {l m : Lifecycle} {i : Nat} {v : Invocation} {names : List String} {infos : List Posted}

/-- The end of a blocking invocation waits, and no info was posted meanwhile. -/
structure AwaitsEnd (i : Nat) (names : List String) (infos : List Posted) (l : Lifecycle)
    (call : Call) : Prop where
  call : ∃ start deadline noticed longest nextWord,
    call = .finish i start deadline noticed longest nextWord
  infos : l.infos = infos
  invocation : ∃ v, Truthful i l v ∧ v.mode = .blocking ∧ v.sinks.map Sink.name = names

/-- The end of an invocation is over; if it was not dropped there is a report. -/
structure Concluded (i : Nat) (mode : UploadMode) (names : List String) (infos : List Posted)
    (l : Lifecycle) (reply : Reply) : Prop where
  infos : l.infos = infos
  report : ∀ a t, reply = .answer a t → ∃ r, a = .report r ∧ r.Accounts mode names (l.Alarmed i)

/-- When the wait is over, what has not succeeded has not gone unmentioned. -/
theorem Truthful.told_of_check (h : Truthful i l v) (start deadline : Nat) (noticed : List Bool)
    (longest nextWord : Nat) (hover : v.allDone = true ∨ deadline ≤ l.now) :
    (∀ s ∈ v.sinks, s.seen.done = some .done) ∨
      (l.check (.finish i start deadline noticed longest nextWord)).1.Alarmed i := by
  have hlog := log_check l (.finish i start deadline noticed longest nextWord)
  cases hdone : v.allDone with
  | true =>
    refine (h.of_allDone hdone).imp_right ?_
    rintro (halarm | ⟨e, he, ht⟩)
    · exact halarm.mono hlog
    · simp only [check, h.here, hdone, if_true]
      refine (alarmed_closeWarnings he ht (l.noticeClosed i v noticed)).mono ?_
      rw [log_leaveClosing]
      exact (says_note _ _ _).log
  | false =>
    have hdue : deadline ≤ (l.noticeClosed i v noticed).now := by
      rw [(quiet_noticeClosed l i v noticed).now]
      exact hover.resolve_left (by simp [hdone])
    right
    simp only [check, h.here, hdone, if_pos hdue, Bool.false_eq_true, if_false]
    refine (alarmed_warning (l.noticeClosed i v noticed) i (capReached (deadline - start))).mono ?_
    rw [log_leaveClosing]
    exact (says_note _ _ _).log

/-- A look at the end of an invocation leaves it waiting or concludes it. -/
theorem Truthful.looked (h : Truthful i l v) (hmode : v.mode = .blocking) (start deadline : Nat)
    (noticed : List Bool) (longest nextWord : Nat) :
    Run.Looked (AwaitsEnd i (v.sinks.map Sink.name) l.infos)
      (Concluded i .blocking (v.sinks.map Sink.name) l.infos)
      (l.check (.finish i start deadline noticed longest nextWord)).1
      (l.check (.finish i start deadline noticed longest nextWord)).2 := by
  have hinfos := posts_check withheld_isInfo l (.finish i start deadline noticed longest nextWord)
  by_cases hover : v.allDone = true ∨ deadline ≤ l.now
  · have htold := h.told_of_check start deadline noticed longest nextWord hover
    rw [(check_finish_answered start deadline noticed longest nextWord h.here hover).1]
    refine ⟨hinfos, fun a t heq => ?_⟩
    cases heq
    refine ⟨_, rfl, hmode, v.names_report, fun hne => absurd rfl hne, fun _ => ?_⟩
    exact htold.imp_left Report.isComplete_of_done
  · obtain ⟨hdone, hlt⟩ := not_or.mp hover
    have hcheck := check_finish_waiting start deadline noticed longest nextWord h.here hdone
      (Nat.not_le.mp hlt)
    rw [hcheck] at hinfos ⊢
    have hnotice := says_noticeClosed l i v noticed
    exact ⟨⟨_, _, _, _, _, rfl⟩, hinfos, v, h.keeps (hnotice.invocation? i) hnotice.log, hmode, rfl⟩

end Lifecycle

namespace Run

variable {l : Lifecycle} {i : Nat} {v : Invocation}

end Run

end EventUpload
