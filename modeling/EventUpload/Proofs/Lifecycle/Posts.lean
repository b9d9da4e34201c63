import EventUpload.Proofs.Lifecycle.Settling
import EventUpload.Proofs.Lifecycle.Step

/-!
# Who is told what

`Lifecycle.posts q` are the posts of one kind, in order. What happens by itself posts remarks, the
errors of transmissions, and warnings to the invocations that have a drain; a kind of posts with none of
these is left alone by it (`posts_settle`). The warnings to the one that is about to start are such a
kind: only the wait before an invocation gives them.

A kind is a `Bool`-valued test, since the posts of a kind are a filter of the log and two filters can be
compared. What makes a lemma go through is never which posts a kind has, but which ones it does not
have. `Apart` and `Withheld` are these two conditions, the second for what calls do as well
(`posts_check`, `posts_make`). So one pass over the operations serves warnings to newcomers and the
words that are given while somebody waits, and would serve another kind of posts without a change.

Nothing is said of when somebody posts or how often; that is up to those who use a kind.
-/

set_option autoImplicit false

namespace EventUpload

/-- A warning to the one that is about to start. -/
def Posted.isNewcomerWarning : Posted → Bool
  | ⟨_, .newcomer, .message ⟨.warning, _⟩⟩ => true
  | _ => false

/-- A kind of posts that sinks and drains do not make. -/
structure Apart (q : Posted → Bool) : Prop where
  remark : ∀ time whom r, q ⟨time, whom, .remark r⟩ = false
  error : ∀ time whom text, q ⟨time, whom, .message ⟨.error, text⟩⟩ = false
  warning : ∀ time i text, q ⟨time, .invocation i, .message ⟨.warning, text⟩⟩ = false

theorem apart_isNewcomerWarning : Apart Posted.isNewcomerWarning :=
  ⟨fun _ _ _ => by simp [Posted.isNewcomerWarning],
   fun _ _ _ => by simp [Posted.isNewcomerWarning],
   fun _ _ _ => by simp [Posted.isNewcomerWarning]⟩

namespace Lifecycle

/-- The posts of a kind, in order. -/
def posts (q : Posted → Bool) (l : Lifecycle) : List Posted := l.log.filter q

variable {q : Posted → Bool}

theorem posts_tell (l : Lifecycle) (whom : Addressee) (post : Post) :
    (l.tell whom post).posts q = l.posts q ++ [⟨l.now, whom, post⟩].filter q :=
  List.filter_append _ _

theorem posts_tell_of_false {l : Lifecycle} {whom : Addressee} {post : Post}
    (h : q ⟨l.now, whom, post⟩ = false) : (l.tell whom post).posts q = l.posts q := by
  rw [posts_tell, List.filter_cons_of_neg (by simp [h]), List.filter_nil, List.append_nil]

theorem posts_note (hq : Apart q) (l : Lifecycle) (whom : Addressee) (r : Remark) :
    (l.note whom r).posts q = l.posts q := posts_tell_of_false (hq.remark _ _ _)

theorem posts_sayErrors (hq : Apart q) (l : Lifecycle) (whom : Addressee)
    (errors : List SinkError) : (l.sayErrors whom errors).posts q = l.posts q := by
  refine foldl_keeps (posts q) (fun l e => ?_) errors l
  exact (posts_tell_of_false (hq.error _ _ _)).trans (posts_note hq l whom _)

theorem posts_sayWarnings (hq : Apart q) (l : Lifecycle) (i : Nat) (texts : List String) :
    (l.sayAll (.invocation i) .warning texts).posts q = l.posts q :=
  foldl_keeps (posts q) (fun _ _ => posts_tell_of_false (hq.warning _ _ _)) texts l

theorem posts_giveUp (l : Lifecycle) (i : Nat) : (l.giveUp i).posts q = l.posts q := by
  unfold giveUp
  split <;> rfl

theorem posts_retire (l : Lifecycle) (i : Nat) (who : Retirer) (cancel : Bool) :
    (l.retire i who cancel).posts q = l.posts q := by
  cases cancel with
  | false => rfl
  | true => exact posts_giveUp _ i

theorem posts_settleInvocation (hq : Apart q) (l : Lifecycle) (i : Nat) :
    (l.settleInvocation i).posts q = l.posts q := by
  cases hv : l.invocation? i with
  | none => rw [settleInvocation_of_none hv]
  | some v =>
    rw [settleInvocation_of_some hv, posts_sayErrors hq]
    rfl

theorem posts_afterSinks (hq : Apart q) (l : Lifecycle) : l.afterSinks.posts q = l.posts q := by
  rw [afterSinks, settleStrays_eq, posts_sayErrors hq]
  exact foldl_keeps (posts q) (fun l i => posts_settleInvocation hq l i) _ l

theorem posts_endDrain (hq : Apart q) (l : Lifecycle) (i : Nat) (v : Invocation) :
    (l.endDrain i v).posts q = l.posts q := by
  unfold endDrain
  dsimp only
  split
  · refine (foldl_keeps (posts q) (fun l e => ?_) _ _).trans (posts_retire _ i .drain false)
    rw [posts_sayWarnings hq, posts_note hq]
  · exact posts_retire { l with drains := l.drains.filter (· ≠ i) } i .drain false

theorem posts_settleDrain (hq : Apart q) (l : Lifecycle) (i : Nat) :
    (l.settleDrain i).posts q = l.posts q := by
  unfold settleDrain
  split
  · split
    · exact posts_endDrain hq l i _
    · rfl
  · rfl

/-- What happens by itself makes no posts of a kind that is apart. -/
theorem posts_settle (hq : Apart q) (l : Lifecycle) : l.settle.posts q = l.posts q := by
  rw [settle_eq]
  exact (foldl_keeps (posts q) (fun l i => posts_settleDrain hq l i) _ _).trans (posts_afterSinks hq l)

/-! ## What closes and retires -/

theorem posts_leaveClosing (l : Lifecycle) : l.leaveClosing.posts q = l.posts q := by
  unfold leaveClosing
  split <;> rfl

theorem posts_noteOpen (hq : Apart q) (l : Lifecycle) (j : Nat) (ending : Option Ending) :
    (l.noteOpen j ending).posts q = l.posts q := by
  have hsecond (m : Lifecycle) (v : Invocation) : (if v.stream.closed then m
      else m.note (.invocation j) (.streamAborted .internal v.sinks.length)).posts q =
        m.posts q := by
    split
    · rfl
    · exact posts_note hq m _ _
  unfold noteOpen
  cases l.invocation? j with
  | none => rfl
  | some v =>
    refine (hsecond _ v).trans ?_
    cases ending with
    | some e => exact posts_note hq l _ _
    | none =>
      dsimp only
      split
      · rfl
      · exact posts_note hq l _ _

theorem posts_closeAndPublish (hq : Apart q) (l : Lifecycle) (j : Nat) (mode : UploadMode)
    (ending : Option Ending) : (l.closeAndPublish j mode ending).posts q = l.posts q :=
  posts_noteOpen hq l j ending

theorem posts_noteSettled (hq : Apart q) (l : Lifecycle) (j : Nat) (v : Invocation) (grace : Nat)
    (ending : Ending) : (l.noteSettled j v grace ending).posts q = l.posts q := by
  unfold noteSettled
  split
  · exact foldl_keeps (posts q) (fun l _ => posts_note hq l _ _) _ l
  · exact posts_note hq l _ _

theorem posts_endSettle (l : Lifecycle) (j : Nat) (ending : Ending) :
    (l.endSettle j ending).posts q = l.posts q := by
  rw [endSettle_eq]
  exact posts_retire l j .ending true

theorem posts_abortActive (hq : Apart q) (l : Lifecycle) (ending : Ending) :
    (l.abortActive ending).posts q = l.posts q := by
  unfold abortActive
  split
  · rfl
  · exact posts_closeAndPublish hq { l with active := none } _ _ _

end Lifecycle

/-! ## What calls do not post

Calls post notices, and warnings to the one that is about to start. A kind of posts that has neither is
left alone by calls as well. -/

/-- A kind of posts that has no notices either, and no warnings at all. -/
structure Withheld (q : Posted → Bool) : Prop extends Apart q where
  notice : ∀ time whom n, q ⟨time, whom, .notice n⟩ = false
  newcomer : ∀ time text, q ⟨time, .newcomer, .message ⟨.warning, text⟩⟩ = false

namespace Lifecycle

variable {q : Posted → Bool}

theorem posts_notice (hq : Withheld q) (l : Lifecycle) (whom : Addressee) (n : Notice) :
    (l.tell whom (.notice n)).posts q = l.posts q := posts_tell_of_false (hq.notice l.now whom n)

theorem posts_warn (hq : Withheld q) (l : Lifecycle) (whom : Addressee) (text : String) :
    (l.say whom .warning text).posts q = l.posts q := by
  refine posts_tell_of_false ?_
  cases whom with
  | invocation i => exact hq.warning l.now i text
  | newcomer => exact hq.newcomer l.now text

theorem posts_noticeClosed (hq : Withheld q) (l : Lifecycle) (j : Nat) (v : Invocation)
    (noticed : List Bool) : (l.noticeClosed j v noticed).posts q = l.posts q :=
  foldl_keeps (posts q) (fun l _ => posts_notice hq l _ _) _ l

theorem posts_endReconcile (hq : Withheld q) (l : Lifecycle) (j : Nat) (warning : Option String) :
    (l.endReconcile j warning).posts q = l.posts q := by
  have hretire : (l.retire j .newcomer true).posts q = l.posts q := posts_retire l j .newcomer true
  unfold endReconcile
  cases warning with
  | none => exact hretire
  | some text =>
    dsimp only
    split
    · exact (posts_warn hq _ _ _).trans hretire
    · exact hretire

/-- **Looking at a call** makes no posts of a kind that is withheld. -/
theorem posts_check (hq : Withheld q) (l : Lifecycle) (call : Call) :
    (l.check call).1.posts q = l.posts q := by
  cases call with
  | reconcile index grace deadline =>
    simp only [check]
    split
    · rfl
    · split
      · exact posts_endReconcile hq l index _
      · rfl
  | finish index start deadline noticed longest nextWord =>
    simp only [check]
    split
    · exact posts_leaveClosing l
    · next v _ =>
      have hnotice := posts_noticeClosed hq l index v noticed
      split
      · refine (posts_leaveClosing _).trans ((posts_note hq.toApart _ _ _).trans ?_)
        refine (posts_retire _ index .wait false).trans ?_
        exact (posts_sayWarnings hq.toApart _ index _).trans hnotice
      · split
        · refine (posts_leaveClosing _).trans ((posts_note hq.toApart _ _ _).trans ?_)
          exact (posts_warn hq _ _ _).trans hnotice
        · exact hnotice
  | settle index grace deadline ending =>
    simp only [check]
    split
    · exact posts_endSettle l index ending
    · split
      · exact (posts_endSettle _ index ending).trans
          (posts_noteSettled hq.toApart l index _ grace ending)
      · rfl

theorem posts_settleWithin (hq : Withheld q) (l : Lifecycle) (grace : Nat) (ending : Ending) :
    (l.settleWithin grace ending).1.posts q = l.posts q := by
  unfold settleWithin
  split
  · exact posts_check hq l _
  · dsimp only
    split <;> rfl

theorem posts_finish (hq : Withheld q) (l : Lifecycle) (mode : UploadMode) :
    (l.finish mode).1.posts q = l.posts q := by
  unfold finish
  split
  · rfl
  · split
    · rfl
    · next j _ =>
      have hclosed : (({ l with phase := .closing, active := none } : Lifecycle).closeAndPublish j mode
          none).posts q = l.posts q :=
        posts_closeAndPublish hq.toApart { l with phase := .closing, active := none } j mode none
      dsimp only
      split
      · exact (posts_leaveClosing _).trans hclosed
      · split
        · exact (posts_check hq _ _).trans hclosed
        · refine (posts_leaveClosing _).trans ((posts_note hq.toApart _ _ _).trans ?_)
          exact (foldl_keeps (posts q) (fun l _ => posts_notice hq l _ _) _ _).trans hclosed

/-- **Making a call** makes no posts of a kind that is withheld. -/
theorem posts_make (hq : Withheld q) (c : HostCall) (l : Lifecycle) :
    (c.make l).1.posts q = l.posts q := by
  cases c with
  | before =>
    simp only [HostCall.make, before]
    split
    · rfl
    · split
      · rfl
      · exact posts_check hq { l with phase := .waitingPrevious } _
  | start ids sinks =>
    simp only [HostCall.make, start]
    split
    · rfl
    · exact (posts_notice hq _ _ _).trans (posts_note hq.toApart _ _ _)
  | finish mode => exact posts_finish hq l mode
  | abandon =>
    simp only [HostCall.make, abandon]
    split <;> rfl
  | crash =>
    simp only [HostCall.make, crash]
    split
    · rfl
    · exact (posts_settleWithin hq _ _ _).trans
        (posts_abortActive hq.toApart { l with phase := .crashed } .crash)
  | shutdown =>
    simp only [HostCall.make, shutdown]
    split
    · rfl
    · exact (posts_settleWithin hq _ _ _).trans (posts_abortActive hq.toApart l .shutdown)

end Lifecycle

end EventUpload
