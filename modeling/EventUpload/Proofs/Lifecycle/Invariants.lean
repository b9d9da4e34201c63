import EventUpload.Proofs.Lifecycle.Passing
import EventUpload.Proofs.Sink.Invariants

/-!
# What is known of a lifecycle for good

From one instant to the next a lifecycle settles its sinks, retires uploads, posts something and changes
its phase. What does not change by any of these is known for good (`Lifecycle.Abides`): it is still
known when time has passed (`Abides.pass`) and when a call has been answered or dropped
(`Abides.perform`), whoever else is waiting and whatever came before.

What is known of the channels of its sinks and of the outside is of this kind, if every channel leaves
it alone (`Lifecycle.Keeping`, `abides_keeping`). It outlives the end of an invocation, a crash and a
shutdown as well, if a channel may take events and be closed (`Channel.Takes`).

The fields of `Abides` are the parts of which an instant is made. They are few, and everything else that
happens at an instant is one of them or does nothing but post, so whoever has something that abides
proves the seven fields once and has it for whole waits. Calls are not among them: some of what is known
for good does not survive a new invocation, which brings sinks that nobody knows.

`Keeping` has a property for every invocation and one for the sinks that were let go, since these are
given by different configurations and may write to different places. What is known of the outside is one
property, as everything that is written goes there.
-/

set_option autoImplicit false

namespace EventUpload

namespace Lifecycle

variable {P : Lifecycle → Prop} {l m : Lifecycle}

/-- What is known of a lifecycle does not change by anything that happens at an instant. -/
structure Abides (P : Lifecycle → Prop) : Prop where
  posts : ∀ {l m : Lifecycle}, P l → l.Says m → P m
  now : ∀ {l : Lifecycle} (t : Nat), P l → P { l with now := t }
  phase : ∀ {l : Lifecycle} (phase : Phase), P l → P { l with phase := phase }
  drains : ∀ {l : Lifecycle} (drains : List Nat), P l → P { l with drains := drains }
  retire : ∀ {l : Lifecycle} (i : Nat) (who : Retirer) (cancel : Bool),
    P l → P (l.retire i who cancel)
  settleInvocation : ∀ {l : Lifecycle} (i : Nat), P l → P (l.settleInvocation i)
  settleStrays : ∀ {l : Lifecycle}, P l → P l.settleStrays

namespace Abides

theorem foldl {α : Type} {f : Lifecycle → α → Lifecycle} (h : ∀ {l : Lifecycle} (a : α), P l → P (f l a))
    (as : List α) (hl : P l) : P (as.foldl f l) := by
  induction as generalizing l with
  | nil => exact hl
  | cons a as ih => exact ih (h a hl)

/-! ## At an instant

Each of these is one of the fields of `Abides`, or several in a row. `settleRounds` is stated for a run
whose sinks have had their first turn, because this is what a call that begins to wait leaves behind. -/

theorem settleDrain (h : Abides P) (i : Nat) (hl : P l) : P (l.settleDrain i) := by
  unfold Lifecycle.settleDrain
  split
  · split
    · exact h.posts (h.retire i .drain false (h.drains _ hl)) (says_endDrain l i _)
    · exact hl
  · exact hl

theorem settle (h : Abides P) (hl : P l) : P l.settle := by
  have hsinks : P l.afterSinks := h.settleStrays (foldl h.settleInvocation _ hl)
  rw [settle_eq]
  exact foldl h.settleDrain _ hsinks

theorem leaveClosing (h : Abides P) (hl : P l) : P l.leaveClosing := by
  unfold Lifecycle.leaveClosing
  split
  · exact h.phase .idle hl
  · exact hl

theorem endSettle (h : Abides P) (i : Nat) (ending : Ending) (hl : P l) : P (l.endSettle i ending) := by
  rw [endSettle_eq]
  exact h.phase _ (h.retire i .ending true hl)

/-- What is abided by survives looking at a call, whichever branch is taken. -/
theorem check (h : Abides P) (call : Call) (hl : P l) : P (l.check call).1 := by
  cases call with
  | reconcile i grace deadline =>
    simp only [Lifecycle.check]
    split
    · exact hl
    · split
      · exact h.posts (h.retire i .newcomer true hl) (says_endReconcile l i _)
      · exact hl
  | finish i start deadline noticed longest nextWord =>
    simp only [Lifecycle.check]
    split
    · exact h.leaveClosing hl
    · next v _ =>
      have hnoticed := h.posts hl (says_noticeClosed l i v noticed)
      split
      · have hsaid := h.posts hnoticed
          (says_sayAll _ (.invocation i) .warning (closeWarnings v.errors))
        exact h.leaveClosing (h.posts (h.retire i .wait false hsaid) (says_note _ _ _))
      · split
        · have hsaid := h.posts hnoticed
            (says_say _ (.invocation i) .warning (capReached (deadline - start)))
          exact h.leaveClosing (h.posts hsaid (says_note _ _ _))
        · exact hnoticed
  | settle i grace deadline ending =>
    simp only [Lifecycle.check]
    split
    · exact h.endSettle i ending hl
    · split
      · exact h.endSettle i ending (h.posts hl (says_noteSettled l i _ grace ending))
      · exact hl

/-- Asking for the next invocation only looks at what is outstanding. -/
theorem before (h : Abides P) (hl : P l) : P l.before.1 := by
  unfold Lifecycle.before
  split
  · exact hl
  · dsimp only
    split
    · exact h.phase .waitingPrevious hl
    · exact h.check _ (h.phase .waitingPrevious hl)

theorem drop (h : Abides P) (call : Call) (hl : P l) : P (l.drop call) := by
  cases call with
  | finish i start deadline noticed longest nextWord => exact h.leaveClosing hl
  | reconcile i grace deadline => exact hl
  | settle i grace deadline ending => exact hl

end Abides

end Lifecycle

namespace Lifecycle.Abides

open Run

variable {P : Lifecycle → Prop} {l m : Lifecycle}

theorem after (h : Abides P) (progress : Progress) (patience : Option Nat) (hl : P l) :
    P (Run.after l progress patience).1 := by
  cases progress with
  | answered a => exact hl
  | waiting call =>
    show P (Run.giveUp l call patience).1
    unfold Run.giveUp
    split
    · exact h.drop call hl
    · exact hl

theorem checkCalls (h : Abides P) (calls : List Pending) (hl : P l) :
    P (Run.checkCalls l calls).1 := by
  induction calls generalizing l with
  | nil => exact hl
  | cons p rest ih =>
    cases p with
    | finished reply => exact ih hl
    | waiting call patience =>
      rw [checkCalls_waiting]
      exact ih (h.after _ patience (h.check call hl))

/-- What is known when the sinks have had their first turn is known when the instant is over. -/
theorem settleRounds (h : Abides P) (rounds : Nat) {r : Run} (hr : P r.lifecycle.settle) :
    P (Run.settleRounds rounds r).lifecycle := by
  induction rounds generalizing r with
  | zero => exact hr
  | succ rounds ih =>
    have hnext := h.checkCalls r.calls hr
    unfold Run.settleRounds
    dsimp only
    split
    · exact ih (r := ⟨_, _⟩) (h.settle hnext)
    · exact hnext

theorem leaveInstant (h : Abides P) {r : Run} (hr : P r.lifecycle) : P r.leaveInstant.lifecycle := by
  have hcalls (calls : List Pending) : ∀ l, P l → P (Run.endInstant l calls).1 := by
    induction calls with
    | nil => exact fun l hl => hl
    | cons p rest ih =>
      intro l hl
      cases p with
      | finished reply => exact ih l hl
      | waiting call patience => exact ih _ (h.posts hl (says_endInstant l call))
  exact hcalls r.calls r.lifecycle hr

/-! ## From one instant to the next

Waiting and letting time pass are the same loop with different ends, and `go` is about the loop. -/

theorem go (h : Abides P) (horizon : Nat) (wish : Run → Bool) (moves : Nat) {r : Run}
    (hr : P r.lifecycle.settle) : P (Run.go horizon wish moves r).lifecycle := by
  induction moves generalizing r with
  | zero => exact h.settleRounds _ hr
  | succ moves ih =>
    have hsettled : P r.settle.lifecycle := h.settleRounds _ hr
    unfold Run.go
    dsimp only
    split
    · exact hsettled
    · split
      · exact ih (h.settle (h.now _ (h.leaveInstant hsettled)))
      · exact hsettled

/-- **When a call has been answered or dropped**, everything that abides is still known. -/
theorem perform (h : Abides P) (operation : Lifecycle → Lifecycle × Progress)
    (hmade : P (operation l).1) (patience : Option Nat) :
    P (Run.perform l operation patience).1 := by
  have hcalled : P ((ofLifecycle l).call operation patience).lifecycle := h.after _ patience hmade
  unfold Run.perform
  dsimp only
  split
  · exact hcalled
  · exact h.go _ _ _ (h.settle hcalled)

/-- A call that has to wait gives the sinks a turn first. -/
theorem perform_waiting (h : Abides P) (operation : Lifecycle → Lifecycle × Progress) {call : Call}
    (hmade : operation l = (m, .waiting call)) (hm : P m.settle) :
    P (Run.perform l operation none).1 := by
  have hcall : (ofLifecycle l).call operation none = awaiting m call := by
    unfold Run.call ofLifecycle
    rw [hmade]
    rfl
  have hcount : (awaiting m call).waitingCount ≠ 0 := by
    simp [waitingCount, awaiting, Pending.isWaiting]
  unfold Run.perform
  rw [hcall]
  dsimp only
  rw [if_neg hcount]
  exact h.go _ _ _ hm

/-- **When time has passed**, everything that abides is still known. -/
theorem pass (h : Abides P) (hl : P l) (span : Nat) : P (Run.pass l span) := h.go _ _ _ (h.settle hl)

end Lifecycle.Abides

namespace Lifecycle

/-! ## Invocations

The first example of something that abides: of every invocation it is known what it was and that its
sinks have been asked for nothing since. -/

/-- As long as nobody makes a call, the sinks of an invocation are asked for nothing. -/
theorem abides_unasked (invocations : List Invocation) :
    Abides fun l => List.Forall₂ Invocation.Unasked invocations l.invocations where
  posts := by
    rintro l m h ⟨posts, rfl⟩
    exact h
  now := fun _ h => h
  phase := fun _ h => h
  drains := fun _ h => h
  retire := fun i who cancel h =>
    forall₂_trans h (passes_retire _ i who cancel).invocations .trans
  settleInvocation := fun i h => forall₂_trans h (passes_settleInvocation _ i).invocations .trans
  settleStrays := by
    intro l h
    obtain ⟨posts, heq⟩ := says_sayErrors { l with
      strays := (settleSinks l.now l.strays l.outside).1
      outside := (settleSinks l.now l.strays l.outside).2.1 } .newcomer
      (settleSinks l.now l.strays l.outside).2.2
    rw [settleStrays_eq, heq]
    exact h

/-! ## Channels and the outside

What is known of a channel may speak of its destination, and what is known of the outside of what the
destinations have left there. A step of a channel has to keep both at once, which is `Channel.Abides`. -/

/-- What is known of the channels of each invocation, of the channels that were let go, and of the
outside. -/
structure Keeping (Cs : List (Channel → Prop)) (S : Channel → Prop) (O : Outside → Prop)
    (l : Lifecycle) : Prop where
  invocations : List.Forall₂ (fun C (v : Invocation) => ∀ s ∈ v.sinks, s.Has C) Cs l.invocations
  strays : ∀ s ∈ l.strays, s.Has S
  outside : O l.outside

variable {Cs : List (Channel → Prop)} {S : Channel → Prop} {O : Outside → Prop} {l m : Lifecycle}
  {i : Nat}

theorem forall₂_modify_right {α β : Type} {R : α → β → Prop} {f : β → β} {as : List α} {bs : List β}
    (h : List.Forall₂ R as bs) (i : Nat)
    (hf : ∀ a b, as[i]? = some a → bs[i]? = some b → R a b → R a (f b)) :
    List.Forall₂ R as (bs.modify i f) := by
  induction h generalizing i with
  | nil =>
    rw [List.modify_nil]
    exact .nil
  | @cons a b as bs hab htail ih =>
    cases i with
    | zero => exact .cons (hf a b rfl rfl hab) htail
    | succ i => exact .cons hab (ih i fun a b ha hb => hf a b ha hb)

/-- Something is done to one invocation. -/
theorem Keeping.update (h : l.Keeping Cs S O) {f : Invocation → Invocation}
    (hf : ∀ C v, Cs[i]? = some C → l.invocation? i = some v → (∀ s ∈ v.sinks, s.Has C) →
      ∀ s ∈ (f v).sinks, s.Has C) : (l.update i f).Keeping Cs S O :=
  ⟨forall₂_modify_right h.invocations i hf, h.strays, h.outside⟩

/-- What is known of one invocation. -/
theorem Keeping.exists_invocation (h : l.Keeping Cs S O) {v : Invocation}
    (hv : l.invocation? i = some v) : ∃ C, Cs[i]? = some C ∧ ∀ s ∈ v.sinks, s.Has C :=
  forall₂_getElem? h.invocations.flip hv

/-- New sinks for one invocation. -/
theorem Keeping.withSinks (h : l.Keeping Cs S O) {sinks : List Sink}
    (hsinks : ∀ C, Cs[i]? = some C → ∀ s ∈ sinks, s.Has C) {outside : Outside} (ho : O outside) :
    Keeping Cs S O { l.update i (·.withSinks sinks) with outside := outside } := by
  have hupdated : (l.update i (·.withSinks sinks)).Keeping Cs S O :=
    h.update fun C _ hC _ _ => hsinks C hC
  exact ⟨hupdated.invocations, hupdated.strays, ho⟩

/-- **What every channel leaves alone abides.** -/
theorem abides_keeping (hC : ∀ C ∈ Cs, Channel.Abides C O) (hS : Channel.Abides S O) :
    Abides (Keeping Cs S O) where
  posts := by
    rintro l m h ⟨posts, rfl⟩
    exact ⟨h.invocations, h.strays, h.outside⟩
  now := fun _ h => ⟨h.invocations, h.strays, h.outside⟩
  phase := fun _ h => ⟨h.invocations, h.strays, h.outside⟩
  drains := fun _ h => ⟨h.invocations, h.strays, h.outside⟩
  retire := by
    -- Retiring touches the sinks only where the uploads are given up as well.
    intro l i who cancel h
    have hretired : Keeping Cs S O (l.retire i who false) := ⟨h.invocations, h.strays, h.outside⟩
    cases cancel with
    | false => exact hretired
    | true =>
      show Keeping Cs S O ((l.retire i who false).giveUp i)
      unfold giveUp
      split
      · exact hretired
      · next v hv =>
        obtain ⟨C, hi, hsinks⟩ := hretired.exists_invocation hv
        obtain ⟨hgiven, ho⟩ := (hC C (List.mem_of_getElem? hi)).giveUpSinks hsinks hretired.outside
        refine hretired.withSinks (fun D hj => ?_) ho
        cases hi.symm.trans hj
        exact hgiven
  settleInvocation := by
    intro l i h
    cases hv : l.invocation? i with
    | none =>
      rw [settleInvocation_of_none hv]
      exact h
    | some v =>
      obtain ⟨C, hi, hsinks⟩ := h.exists_invocation hv
      obtain ⟨hsettled, ho⟩ :=
        (hC C (List.mem_of_getElem? hi)).settleSinks l.now hsinks h.outside
      have hkept := h.withSinks (i := i) (fun D hj => by
        cases hi.symm.trans hj
        exact hsettled) ho
      -- Reporting the errors only posts messages, so the sinks and the world are as settling left
      -- them.
      obtain ⟨posts, heq⟩ := says_sayErrors { l.update i (·.withSinks
        (settleSinks l.now v.sinks l.outside).1) with
          outside := (settleSinks l.now v.sinks l.outside).2.1 } (.invocation i)
        (settleSinks l.now v.sinks l.outside).2.2
      rw [settleInvocation_of_some hv, heq]
      exact ⟨hkept.invocations, hkept.strays, hkept.outside⟩
  settleStrays := by
    intro l h
    obtain ⟨hstrays, ho⟩ := hS.settleSinks l.now h.strays h.outside
    obtain ⟨posts, heq⟩ := says_sayErrors { l with
      strays := (settleSinks l.now l.strays l.outside).1
      outside := (settleSinks l.now l.strays l.outside).2.1 } .newcomer
      (settleSinks l.now l.strays l.outside).2.2
    rw [settleStrays_eq, heq]
    exact ⟨h.invocations, hstrays, ho⟩

/-- What is known of the outside alone abides if every channel leaves it alone. -/
theorem abides_outside {C : Channel → Prop} (hC : ∀ c, C c) (h : Channel.Abides C O) :
    Abides fun l => O l.outside :=
  have habides (l : Lifecycle) : Abides (Keeping (l.invocations.map fun _ => C) C O) :=
    abides_keeping (fun D hD => by
      obtain ⟨_, -, rfl⟩ := List.mem_map.mp hD
      exact h) h
  have hkeeping {l : Lifecycle} (hl : O l.outside) : Keeping (l.invocations.map fun _ => C) C O l :=
    ⟨List.forall₂_map_left_iff.mpr (List.forall₂_same.mpr fun _ _ _ _ c _ => hC c),
      fun _ _ c _ => hC c, hl⟩
  { posts := fun hl hm => ((habides _).posts (hkeeping hl) hm).outside
    now := fun t hl => hl
    phase := fun _ hl => hl
    drains := fun _ hl => hl
    retire := fun i who cancel hl => ((habides _).retire i who cancel (hkeeping hl)).outside
    settleInvocation := fun i hl => ((habides _).settleInvocation i (hkeeping hl)).outside
    settleStrays := fun hl => ((habides _).settleStrays (hkeeping hl)).outside }

end Lifecycle

/-! ## What is asked of channels

Here the calls of the host come in. They hand events to channels and close them, and `Channel.Takes`
says that this is harmless too; then what is known survives the end of an invocation, a crash and a
shutdown. -/

/-- What is known of a channel does not change either when it takes an event or is closed. -/
structure Channel.Takes (C : Channel → Prop) : Prop where
  accept : ∀ {c : Channel} (e : Event), C c → C (c.accept e)
  close : ∀ {c : Channel}, C c → C c.close

theorem Channel.Takes.obeyAll {C : Channel → Prop} (h : Channel.Takes C) {k : Sink} (hk : k.Has C)
    (calls : List SinkCall) : (k.obeyAll calls).Has C := by
  induction calls generalizing k with
  | nil => exact hk
  | cons call calls ih =>
    refine ih (k := k.obey call) ?_
    obtain ⟨bound, body, watch⟩ := k
    cases body with
    | responder r => cases call <;> exact Sink.has_of_responder rfl
    | channel c =>
      cases call with
      | accept e =>
        intro d heq
        cases heq
        exact h.accept e (hk c rfl)
      | close t =>
        intro d heq
        cases heq
        exact h.close (hk c rfl)

/-- Whatever a stream does, its sinks take events and are closed. -/
theorem Channel.Takes.apply {C : Channel → Prop} (h : Channel.Takes C) {s : Stream}
    (hs : ∀ k ∈ s.sinks, k.Has C) (now : Nat) (d : StreamDeed) :
    ∀ k ∈ (d.apply s now).sinks, k.Has C := by
  have hasked : ∀ k ∈ s.sinks.map (·.obeyAll (d.calls s now)), k.Has C := by
    intro k hk
    obtain ⟨k, hmem, rfl⟩ := List.mem_map.mp hk
    exact h.obeyAll (hs k hmem) _
  rw [d.apply_eq]
  cases d with
  | resolve sink half outcome =>
    intro k hk
    obtain ⟨n, hn⟩ := List.mem_iff_getElem?.mp hk
    rw [StreamDeed.touch, List.getElem?_modify] at hn
    obtain ⟨⟨bound, body, watch⟩, hmem, rfl⟩ := Option.map_eq_some_iff.mp hn
    have hk := hasked _ (List.mem_of_getElem? hmem)
    split
    · cases body with
      | responder r => exact Sink.has_of_responder rfl
      | channel c => exact hk
    · exact hk
  | _ => exact hasked

namespace Lifecycle.Keeping

variable {Cs : List (Channel → Prop)} {S : Channel → Prop} {O : Outside → Prop} {l : Lifecycle}

theorem deed (h : l.Keeping Cs S O) (htakes : ∀ C ∈ Cs, Channel.Takes C) (i : Nat) (d : StreamDeed) :
    (l.updateStream i (d.apply · l.now)).Keeping Cs S O :=
  h.update fun C _ hC _ hv => (htakes C (List.mem_of_getElem? hC)).apply hv l.now d

theorem closeAndPublish (h : l.Keeping Cs S O) (habides : Abides (Keeping Cs S O))
    (htakes : ∀ C ∈ Cs, Channel.Takes C) (i : Nat) (mode : UploadMode) (ending : Option Ending) :
    (l.closeAndPublish i mode ending).Keeping Cs S O := by
  have hclosed : Keeping Cs S O ((l.noteOpen i ending).updateStream i
      (·.close l.now (some .internal))) := by
    have hnow : (l.noteOpen i ending).now = l.now := (quiet_noteOpen l i ending).now
    rw [← hnow]
    exact (habides.posts h (says_noteOpen l i ending)).deed htakes i (.close (some .internal))
  have hwatched := hclosed.update (i := i) (f := fun v => { v with mode := mode }.withSinks
      (v.sinks.map (Sink.startWatch · (l.noteOpen i ending).now))) (fun C v _ _ hv s hs => by
    obtain ⟨s, hmem, rfl⟩ := List.mem_map.mp hs
    intro c hc
    refine hv s hmem c ?_
    unfold Sink.startWatch at hc
    split at hc <;> exact hc)
  exact ⟨hwatched.invocations, hwatched.strays, hwatched.outside⟩

variable (habides : Abides (Keeping Cs S O)) (htakes : ∀ C ∈ Cs, Channel.Takes C)
include habides htakes

theorem finish (h : l.Keeping Cs S O) (mode : UploadMode) : (l.finish mode).1.Keeping Cs S O := by
  unfold Lifecycle.finish
  split
  · exact h
  · split
    · exact habides.phase _ h
    · next i _ =>
      have hactive : Keeping Cs S O { l with phase := .closing, active := none } :=
        ⟨h.invocations, h.strays, h.outside⟩
      have hclosed := hactive.closeAndPublish habides htakes i mode none
      dsimp only
      split
      · exact habides.leaveClosing hclosed
      · next v _ =>
        split
        · exact habides.check _ hclosed
        · have hnoticed := Abides.foldl (P := Keeping Cs S O) (f := fun l (s : Sink) =>
            l.tell (.invocation i) (.notice (.closed s.name)))
            (fun s hl => habides.posts hl (says_tell _ _ _)) v.sinks hclosed
          exact habides.leaveClosing (habides.posts (habides.drains _ hnoticed) (says_note _ _ _))

theorem abortActive (h : l.Keeping Cs S O) (ending : Ending) :
    (l.abortActive ending).Keeping Cs S O := by
  unfold Lifecycle.abortActive
  split
  · exact h
  · next i _ =>
    have hinactive : Keeping Cs S O { l with active := none } :=
      ⟨h.invocations, h.strays, h.outside⟩
    exact hinactive.closeAndPublish habides htakes i .blocking (some ending)

omit htakes in
theorem settleWithin (h : l.Keeping Cs S O) (grace : Nat) (ending : Ending) :
    (l.settleWithin grace ending).1.Keeping Cs S O := by
  unfold Lifecycle.settleWithin
  split
  · exact habides.check _ h
  · dsimp only
    split
    · exact habides.phase _ h
    · exact h

theorem crash (h : l.Keeping Cs S O) : l.crash.1.Keeping Cs S O := by
  unfold Lifecycle.crash
  split
  · exact h
  · exact ((habides.phase .crashed h).abortActive habides htakes .crash).settleWithin habides _ _

theorem shutdown (h : l.Keeping Cs S O) : l.shutdown.1.Keeping Cs S O := by
  unfold Lifecycle.shutdown
  split
  · exact h
  · exact (h.abortActive habides htakes .shutdown).settleWithin habides _ _

end Lifecycle.Keeping

end EventUpload
