import EventUpload.Proofs.Lifecycle.Conclusions

/-!
# The ledger of warnings

A warning about uploads is posted to the invocation whose they are, or to the one that is about to
start; the log does not say who has posted it, nor, to a newcomer, about whose uploads.
`Lifecycle.warned` reads this off two successive states: what was retired in between, and what was said
to the addressee of the one who retired it. `Run.History r ws` is that a genuine run has come to `r`,
and that these are the warnings of all its steps.

The ledger is part of the history and not of the run, as no lifecycle has one. `Concludes.warned_eq` is
why it can be trusted: what is read off two states is what the conclusion between them has said,
whatever was prepared before. `Genuine.exists_history` adds that there is a ledger for every genuine
run, so a statement about histories leaves none out.

`Voiced` is what holds of the ledger throughout: before uploads are published nobody has said anything
about them; a call that waits for the end of a blocking invocation has said nothing yet; and about the
uploads of any other invocation there is what their drain has said, if it was the one who has cleared
them away, and at most one warning to a newcomer, if that was the wait before the next invocation. The
journal decides between the two: nothing is cleared away twice (`Recorded.clearings_le`,
`Recorded.cleared_by_one`), and that is the whole reason why nobody is warned twice.
-/

set_option autoImplicit false

namespace EventUpload

open List (Forall₂)
open Relation (ReflTransGen)

/-! ## Clearings

What the journal says of the moves of one invocation, counted. What is cleared away was published
before. -/

namespace Recorded

variable {hollow : Nat → Prop} {moves : List Move} {pending : Option Nat} {i : Nat}

/-- What is cleared away was published once, so it is cleared away at most once; as long as it is
pending it was not. -/
theorem clearings_le (h : Recorded hollow moves pending) :
    EventUpload.clearings i moves ≤ 1 ∧ (pending = some i → EventUpload.clearings i moves = 0) := by
  induction h with
  | nil => exact ⟨Nat.zero_le _, fun hp => absurd hp (by simp)⟩
  -- What is pending now was just published, so nobody has cleared it away.
  | @published before current j hrec _ hnew ih =>
    have hsame : EventUpload.clearings i (before ++ [.published j]) =
        EventUpload.clearings i before := by
      simp [EventUpload.clearings, Move.clears]
    rw [hsame]
    refine ⟨ih.1, fun hp => ?_⟩
    cases hp
    exact hrec.clearings_of_unpublished hnew
  -- It was pending, so this is the first time that it is cleared away.
  | @cleared before j who hrec ih =>
    refine ⟨?_, fun hp => absurd hp (by simp)⟩
    by_cases hj : j = i
    · have hzero := ih.2 (by rw [hj])
      simp only [EventUpload.clearings] at hzero
      simp [EventUpload.clearings, hzero, Move.clears, hj]
    · have hle := ih.1
      simp only [EventUpload.clearings] at hle
      simpa [EventUpload.clearings, Move.clears, hj] using hle
  | @missed before current j who _ _ ih =>
    have hsame : EventUpload.clearings i (before ++ [.retired j who false]) =
        EventUpload.clearings i before := by
      simp [EventUpload.clearings, Move.clears]
    rw [hsame]
    exact ih

/-- Whoever has cleared something away is found among the clearings. -/
theorem count_le_clearings (moves : List Move) (i : Nat) (who : Retirer) :
    moves.count (.retired i who true) ≤ EventUpload.clearings i moves := by
  refine List.countP_mono_left fun move _ heq => ?_
  rw [beq_iff_eq.mp heq]
  simp [Move.clears]

theorem not_mem_of_clearings (h : EventUpload.clearings i moves = 0) (who : Retirer) :
    .retired i who true ∉ moves := by
  refine List.count_eq_zero.mp (Nat.le_zero.mp ?_)
  rw [← h]
  exact count_le_clearings moves i who

/-- Nobody has cleared away what is pending. -/
theorem not_mem_of_pending (h : Recorded hollow moves pending) (hp : pending = some i)
    (who : Retirer) : .retired i who true ∉ moves :=
  not_mem_of_clearings (h.clearings_le.2 hp) who

/-- Nobody has cleared away what was not published. -/
theorem not_mem_of_unpublished (h : Recorded hollow moves pending) (hnew : .published i ∉ moves)
    (who : Retirer) : .retired i who true ∉ moves :=
  not_mem_of_clearings (h.clearings_of_unpublished hnew) who

/-- Two do not clear away the same. -/
theorem cleared_by_one (h : Recorded hollow moves pending) {who who' : Retirer}
    (hm : .retired i who true ∈ moves) (hm' : .retired i who' true ∈ moves) : who = who' := by
  by_contra hne
  obtain ⟨before, after, rfl⟩ := List.append_of_mem hm
  have hle := (h.clearings_le (i := i)).1
  have hrest : .retired i who' true ∈ before ++ after := by
    rcases List.mem_append.mp hm' with hm' | hm'
    · exact List.mem_append_left _ hm'
    · rcases List.mem_cons.mp hm' with heq | hm'
      · cases heq
        exact absurd rfl hne
      · exact List.mem_append_right _ hm'
  have hpos : 0 < EventUpload.clearings i (before ++ after) :=
    List.countP_pos_iff.mpr ⟨_, hrest, by simp [Move.clears]⟩
  simp only [EventUpload.clearings, List.countP_append, List.countP_cons, Move.clears] at hle hpos
  simp at hle
  omega

end Recorded

/-! ## Reading off who has warned

Warnings are posted in the same step as the move of the journal that they go with. That there is only
one move with warnings in a step is what makes reading them off unambiguous. -/

namespace Lifecycle

/-- The warnings that came with a move from one state to another: what was said to the addressee of the
one who has retired uploads. -/
def warnedBy (l m : Lifecycle) : Move → List Warning
  | .published _ => []
  | .retired i who _ => ((m.warningsTo (who.addressee i)).drop
      (l.warningsTo (who.addressee i)).length).map (⟨i, who, ·⟩)

/-- The warnings about uploads that were given from one state to another. -/
def warned (l m : Lifecycle) : List Warning :=
  (m.journal.drop l.journal.length).flatMap (l.warnedBy m)

variable {l m n : Lifecycle} {i : Nat} {who : Retirer} {texts : List String}
  {es es' : List (Nat × Retirer)} {p q : Lifecycle × List (Nat × Retirer)} {ws : List Warning}

/-- Preparing something only publishes. -/
theorem Prepares.silent (h : Prepares p q) : (∀ whom, q.1.warningsTo whom = p.1.warningsTo whom) ∧
    ∃ is : List Nat, q.1.journal = p.1.journal ++ is.map Move.published := by
  cases h with
  | hush hq => exact ⟨hq.warnings, [], by rw [hq.journal]; simp⟩
  | start _ => exact ⟨fun _ => rfl, [], by simp⟩
  | @publish l i mode drains es _ _ _ _ => exact ⟨fun _ => rfl, [i], rfl⟩
  | ask _ _ => exact ⟨fun _ => rfl, [], by simp⟩

theorem silent_of_prepares (h : ReflTransGen Prepares p q) :
    (∀ whom, q.1.warningsTo whom = p.1.warningsTo whom) ∧
      ∃ is : List Nat, q.1.journal = p.1.journal ++ is.map Move.published := by
  induction h with
  | refl => exact ⟨fun _ => rfl, [], by simp⟩
  | tail _ hs ih =>
    obtain ⟨hwarnings, is, hjournal⟩ := ih
    obtain ⟨hwarnings', js, hjournal'⟩ := hs.silent
    refine ⟨fun whom => (hwarnings' whom).trans (hwarnings whom), is ++ js, ?_⟩
    rw [hjournal', hjournal, List.map_append, List.append_assoc]

/-- Whatever was prepared before, what is concluded is read off. -/
theorem Concludes.warned_eq (h : Concludes p q ws)
    (hwarnings : ∀ whom, p.1.warningsTo whom = l.warningsTo whom) {is : List Nat}
    (hjournal : p.1.journal = l.journal ++ is.map Move.published) : l.warned q.1 = ws := by
  have hpublished (m : Lifecycle) : (is.map Move.published).flatMap (l.warnedBy m) = [] := by
    refine List.flatMap_eq_nil_iff.mpr fun move hmove => ?_
    obtain ⟨j, -, rfl⟩ := List.mem_map.mp hmove
    rfl
  have hsilent (m : Lifecycle) (hm : m.journal = p.1.journal) : l.warned m = [] := by
    rw [warned, hm, hjournal, List.drop_left]
    exact hpublished m
  have hretires {m : Lifecycle} {i : Nat} {who : Retirer} {texts : List String}
      (hr : p.1.Retires i who texts m) : l.warned m = texts.map (⟨i, who, ·⟩) := by
    have hsaid := hr.warnings (who.addressee i)
    rw [if_pos rfl, hwarnings] at hsaid
    rw [warned, hr.journal, hjournal, List.append_assoc, List.drop_left, List.flatMap_append,
      hpublished, List.nil_append, List.flatMap_singleton, warnedBy, hsaid, List.drop_left]
  cases h with
  | hush hm => exact hsilent _ hm.journal
  | drain _ hr => exact hretires hr
  | errand _ hr => exact hretires hr
  | cut hm hn => exact hsilent _ (hn.journal.trans hm.journal)
  | vacuous _ hm => exact hsilent _ hm.journal

end Lifecycle

open Lifecycle

/-- What somebody has said about the uploads of an invocation. -/
def textsOf (ws : List Warning) (i : Nat) (who : Retirer) : List String :=
  (ws.filter fun w => w.index = i ∧ w.who = who).map Warning.text

namespace Run

/-- A genuine run has come here, and these are the warnings of all its steps, in order. -/
inductive History : Run → List Warning → Prop where
  | new (limits : Limits) (outside : Outside) : History (ofLifecycle (.new limits outside)) []
  | idles {r s : Run} {ws : List Warning} : History r ws → r.Idles s →
      History s (ws ++ r.lifecycle.warned s.lifecycle)
  | call {r : Run} {ws : List Warning} (c : HostCall) : History r ws → r.Admits c → c.Fresh →
      History (r.call c.make none) (ws ++ r.lifecycle.warned (r.call c.make none).lifecycle)

variable {r : Run} {ws : List Warning}

theorem History.genuine (h : r.History ws) : r.Genuine := by
  induction h with
  | new limits outside => exact .new limits outside
  | idles _ hs ih => exact ih.idles hs
  | call c _ hc hfresh ih => exact ih.call c hc hfresh

theorem Genuine.exists_history (h : r.Genuine) : ∃ ws, r.History ws := by
  induction h with
  | new limits outside => exact ⟨_, .new limits outside⟩
  | idles _ hs ih =>
    obtain ⟨ws, hws⟩ := ih
    exact ⟨_, hws.idles hs⟩
  | call c _ hc hfresh ih =>
    obtain ⟨ws, hws⟩ := ih
    exact ⟨_, hws.call c hc hfresh⟩

/-- What every preparation and every conclusion keeps holds in every genuine run. -/
theorem History.keeps {P : Lifecycle × List (Nat × Retirer) → List Warning → Prop}
    (hnew : ∀ limits outside, P (.new limits outside, []) [])
    (hprepares : ∀ {p q ws}, P p ws → Prepares p q → P q ws)
    (hconcludes : ∀ {p q ws more}, P p ws → Concludes p q more → P q (ws ++ more))
    (h : r.History ws) : P (r.lifecycle, r.errands) ws := by
  induction h with
  | new limits outside => exact hnew limits outside
  | @idles r s ws _ hs ih =>
    obtain ⟨more, hmore⟩ := hs.concludes
    have hjournal : r.lifecycle.journal =
        r.lifecycle.journal ++ ([] : List Nat).map Move.published := by simp
    rw [hmore.warned_eq (l := r.lifecycle) (fun _ => rfl) hjournal]
    exact hconcludes ih hmore
  | @call r ws c hr hc hfresh ih =>
    obtain ⟨p, more, hp, hmore⟩ := hc.comesTo hfresh hr.genuine.orderly
    obtain ⟨hwarnings, is, hjournal⟩ := silent_of_prepares hp
    rw [hmore.warned_eq hwarnings hjournal]
    refine hconcludes ?_ hmore
    clear hmore hwarnings hjournal
    induction hp with
    | refl => exact ih
    | tail _ hs ih => exact hprepares ih hs

end Run

/-! ## What the ledger says

`Drained` is what is known of uploads that were published without a wait, and `Voiced` has that and
everything else. Its first fields repeat what is known of the journal, so that the induction has it at
hand. -/

/-- The ledger about uploads that were published without a wait. -/
structure Drained (l : Lifecycle) (ws : List Warning) (i : Nat) (v : Invocation) : Prop where
  only : ∀ w ∈ ws, w.index = i → w.who = .drain ∨ w.who = .newcomer
  log : l.warningsTo (.invocation i) = textsOf ws i .drain
  cleared : .retired i .drain true ∈ l.journal →
    v.allDone = true ∧ textsOf ws i .drain = v.warnings SinkError.drainWarning?
  silent : .retired i .drain true ∉ l.journal → textsOf ws i .drain = []

/-- What the ledger says in every genuine run, with the errands that are open. -/
structure Voiced (l : Lifecycle) (es : List (Nat × Retirer)) (ws : List Warning) : Prop where
  sound : l.Sound
  recorded : Recorded l.IsHollow l.journal l.pending
  started : ∀ i, .published i ∈ l.journal → i < l.invocations.length
  drains : ∀ i ∈ l.drains, .published i ∈ l.journal ∧
    ∀ v, l.invocation? i = some v → v.mode ≠ .blocking
  /-- Whoever waits for the end of an invocation has not said anything yet. -/
  waits : ∀ i, (i, .wait) ∈ es → .published i ∈ l.journal ∧ l.warningsTo (.invocation i) = [] ∧
    ∀ v, l.invocation? i = some v → v.mode = .blocking
  single : es.countP (·.2 = .wait) ≤ 1
  fresh : ∀ i, .published i ∉ l.journal →
    l.warningsTo (.invocation i) = [] ∧ ∀ w ∈ ws, w.index ≠ i
  drained : ∀ i v, .published i ∈ l.journal → l.invocation? i = some v → v.mode ≠ .blocking →
    Drained l ws i v
  taken : ∀ i, (textsOf ws i .newcomer).length ≤ l.journal.count (.retired i .newcomer true)
  newcomers : l.warningsTo .newcomer = (ws.filter (·.who = .newcomer)).map Warning.text

section Texts

variable {i j : Nat} {who who' : Retirer} (ws : List Warning) (texts : List String)

theorem textsOf_append (more : List Warning) :
    textsOf (ws ++ more) i who = textsOf ws i who ++ textsOf more i who := by
  rw [textsOf, List.filter_append, List.map_append]
  rfl

@[simp] theorem textsOf_self : textsOf (texts.map (⟨i, who, ·⟩)) i who = texts := by
  simp [textsOf, List.filter_map, Function.comp_def]

theorem textsOf_of_ne (h : i ≠ j ∨ who ≠ who') : textsOf (texts.map (⟨j, who', ·⟩)) i who = [] := by
  simp only [textsOf, List.map_eq_nil_iff, List.filter_eq_nil_iff, List.mem_map, decide_eq_true_eq]
  rintro w ⟨text, -, rfl⟩ ⟨hi, hw⟩
  rcases h with h | h
  · exact h hi.symm
  · exact h hw.symm

theorem textsOf_of_index {ws : List Warning} (h : ∀ w ∈ ws, w.index ≠ i) : textsOf ws i who = [] := by
  simp only [textsOf, List.map_eq_nil_iff, List.filter_eq_nil_iff, decide_eq_true_eq]
  exact fun w hw hand => h w hw hand.1

end Texts

namespace Voiced

variable {l m n : Lifecycle} {es es' : List (Nat × Retirer)} {ws : List Warning} {i : Nat}
  {who : Retirer} {texts : List String}

theorem new (limits : Limits) (outside : Outside) : Voiced (.new limits outside) [] [] where
  sound := fun i v hv => absurd hv (by simp [Lifecycle.new, invocation?])
  recorded := .nil
  started := fun i hi => absurd hi (by simp [Lifecycle.new])
  drains := fun i hi => absurd hi (by simp [Lifecycle.new])
  waits := fun i hi => absurd hi (by simp)
  single := by simp
  fresh := fun i _ => ⟨rfl, fun w hw => absurd hw (by simp)⟩
  drained := fun i v hi => absurd hi (by simp [Lifecycle.new])
  taken := fun i => by simp [textsOf]
  newcomers := rfl

/-- An errand that is given up changes nothing in the ledger. -/
theorem fewer (h : Voiced l es ws) (hes : es'.Sublist es) : Voiced l es' ws :=
  { h with
    waits := fun i hi => h.waits i (hes.subset hi)
    single := Nat.le_trans (hes.countP_le) h.single }

theorem hush (h : Voiced l es ws) (hq : l.Hush m) : Voiced m es ws where
  -- None of the fields looks at more than the journal, the pending place, the drains and what the
  -- sinks have come to, and of all that only the sinks go on.
  sound := hq.sound h.sound
  recorded := by
    rw [hq.journal, hq.pending]
    exact h.recorded.mono fun i _ => (hq.isHollow i).mpr
  started := fun i hi => by
    rw [hq.journal] at hi
    rw [← hq.invocations.length_eq]
    exact h.started i hi
  drains := fun i hi => by
    rw [hq.drains] at hi
    rw [hq.journal]
    refine ⟨(h.drains i hi).1, fun w hw => ?_⟩
    obtain ⟨v, hv, hvw⟩ := hq.of_invocation? hw
    exact hvw.mode ▸ (h.drains i hi).2 v hv
  waits := fun i hi => by
    rw [hq.journal, hq.warnings]
    obtain ⟨hpub, hnone, hmode⟩ := h.waits i hi
    refine ⟨hpub, hnone, fun w hw => ?_⟩
    obtain ⟨v, hv, hvw⟩ := hq.of_invocation? hw
    exact hvw.mode ▸ hmode v hv
  single := h.single
  fresh := fun i hi => by
    rw [hq.journal] at hi
    rw [hq.warnings]
    exact h.fresh i hi
  drained := fun i w hi hw hmode => by
    rw [hq.journal] at hi
    obtain ⟨v, hv, hvw⟩ := hq.of_invocation? hw
    have hd := h.drained i v hi hv (hvw.mode ▸ hmode)
    refine ⟨hd.only, (hq.warnings _).trans hd.log, fun hc => ?_, fun hc => ?_⟩
    · rw [hq.journal] at hc
      obtain ⟨hdone, htexts⟩ := hd.cleared hc
      exact ⟨hvw.allDone hdone, htexts.trans (hvw.filterMap_seen hdone _).symm⟩
    · rw [hq.journal] at hc
      exact hd.silent hc
  taken := fun i => by
    rw [hq.journal]
    exact h.taken i
  newcomers := (hq.warnings _).trans h.newcomers

/-! ### Preparations

A preparation warns nobody and clears nothing away, so the ledger gets no new entry. -/

/-- An invocation that starts is not in the journal, so nothing is said of it yet. -/
theorem start (h : Voiced l es ws) {v : Invocation} (hv : ∀ s ∈ v.sinks, s.Sound) :
    Voiced { l with invocations := l.invocations ++ [v] } es ws := by
  -- What was published keeps its index, and nothing else is known of anything.
  have hold {i : Nat} {w : Invocation} (hi : .published i ∈ l.journal)
      (hw : (l.invocations ++ [v])[i]? = some w) : l.invocation? i = some w := by
    rwa [List.getElem?_append_left (h.started i hi)] at hw
  exact { h with
    sound := fun i w hw => by
      rcases Nat.lt_or_ge i l.invocations.length with hlt | hge
      · exact h.sound i w ((List.getElem?_append_left hlt).symm.trans hw)
      · have hw' : [v][i - l.invocations.length]? = some w :=
          (List.getElem?_append_right hge).symm.trans hw
        rw [List.mem_singleton.mp (List.mem_of_getElem? hw')]
        exact hv
    recorded := h.recorded.mono fun i hi hhollow w hw => hhollow w (hold hi hw)
    started := fun i hi => by
      rw [List.length_append]
      exact Nat.lt_succ_of_lt (h.started i hi)
    drains := fun i hi => ⟨(h.drains i hi).1, fun w hw =>
      (h.drains i hi).2 w (hold (h.drains i hi).1 hw)⟩
    waits := fun i hi => by
      obtain ⟨hpub, hnone, hmode⟩ := h.waits i hi
      exact ⟨hpub, hnone, fun w hw => hmode w (hold hpub hw)⟩
    drained := fun i w hi hw hmode =>
      have hd := h.drained i w hi (hold hi hw) hmode
      ⟨hd.only, hd.log, hd.cleared, hd.silent⟩ }

theorem ask (h : Voiced l es ws) {errand : Nat × Retirer}
    (hwho : errand.2 = .newcomer ∨ errand.2 = .ending) : Voiced l (es ++ [errand]) ws := by
  have hne : errand.2 ≠ .wait := by
    rcases hwho with hw | hw <;> rw [hw] <;> simp
  exact { h with
    waits := fun i hi => by
      rcases List.mem_append.mp hi with hi | hi
      · exact h.waits i hi
      · rw [← List.mem_singleton.mp hi] at hne
        exact absurd rfl hne
    single := by
      rw [List.countP_append, List.countP_singleton, if_neg (by simpa using hne)]
      exact h.single }

/-- Publishing opens an account for the uploads: nobody has warned of them, and whoever answers for
them is the heir. -/
theorem publish {mode : UploadMode} {drains : List Nat} (h : Voiced l [] ws)
    (hlt : i < l.invocations.length) (hnew : .published i ∉ l.journal)
    (hover : ∀ j, l.pending = some j → l.IsHollow j) (hheir : l.Heir i mode drains es) :
    Voiced { l.publish i mode with drains := l.drains ++ drains } es ws := by
  obtain ⟨hnone, hws⟩ := h.fresh i hnew
  have hjournal : ∀ move, move ∈ (l.publish i mode).journal ↔
      move ∈ l.journal ∨ move = .published i := fun move => by
    show move ∈ l.journal ++ [.published i] ↔ _
    rw [List.mem_append, List.mem_singleton]
  -- The one that is published has the mode that it was given, and all others are as they were.
  have hmode (v : Invocation) (hv : (l.publish i mode).invocation? i = some v) : v.mode = mode := by
    rw [invocation?_publish, if_pos rfl] at hv
    obtain ⟨w, -, rfl⟩ := Option.map_eq_some_iff.mp hv
    rfl
  have hother {j : Nat} (hj : .published j ∈ l.journal) :
      (l.publish i mode).invocation? j = l.invocation? j := by
    rw [invocation?_publish, if_neg]
    rintro rfl
    exact hnew hj
  exact {
    sound := (h.sound.publish i mode).of_invocations rfl
    recorded := by
      refine .published (h.recorded.mono fun j _ => (Orderly.isHollow_publish l i mode j).mpr) ?_ hnew
      exact fun j hj => (Orderly.isHollow_publish l i mode j).mpr (hover j hj)
    started := fun j hj => by
      have hlength : (l.publish i mode).invocations.length = l.invocations.length := by
        simp [Lifecycle.publish, Lifecycle.update]
      show j < (l.publish i mode).invocations.length
      rw [hlength]
      rcases (hjournal _).mp hj with hj | hj
      · exact h.started j hj
      · cases hj
        exact hlt
    drains := fun j hj => by
      rcases List.mem_append.mp hj with hold | hlast
      · obtain ⟨hpub, hne⟩ := h.drains j hold
        exact ⟨(hjournal _).mpr (.inl hpub), fun w hw => hne w ((hother hpub).symm.trans hw)⟩
      · cases hheir with
        | drain hne =>
          cases List.mem_singleton.mp hlast
          exact ⟨(hjournal _).mpr (.inr rfl), fun w hw => hmode w hw ▸ hne⟩
        | wait => exact absurd hlast (by simp)
        | ending => exact absurd hlast (by simp)
        | nobody _ => exact absurd hlast (by simp)
    waits := fun j hj => by
      cases hheir with
      | wait =>
        cases List.mem_singleton.mp hj
        exact ⟨(hjournal _).mpr (.inr rfl), hnone, hmode⟩
      | drain _ => exact absurd hj (by simp)
      | ending => exact absurd hj (by simp)
      | nobody _ => exact absurd hj (by simp)
    single := by cases hheir <;> simp
    fresh := fun j hj => h.fresh j fun hm => hj ((hjournal _).mpr (.inl hm))
    drained := fun j w hj hw hne => by
      have hcleared (who : Retirer) : .retired j who true ∈ (l.publish i mode).journal ↔
          .retired j who true ∈ l.journal := by
        rw [hjournal]
        exact or_iff_left (by simp)
      by_cases hij : j = i
      · subst hij
        have hnever := h.recorded.not_mem_of_unpublished hnew .drain
        refine ⟨fun w hw hi => absurd hi (hws w hw), ?_, fun hc => ?_, fun _ => ?_⟩
        · exact hnone.trans (textsOf_of_index hws).symm
        · exact absurd ((hcleared _).mp hc) hnever
        · exact textsOf_of_index hws
      · have hpub : .published j ∈ l.journal :=
          ((hjournal _).mp hj).resolve_right fun heq => hij (by cases heq; rfl)
        have hd := h.drained j w hpub ((hother hpub).symm.trans hw) hne
        refine ⟨hd.only, hd.log, fun hc => ?_, fun hc => ?_⟩
        · exact hd.cleared ((hcleared _).mp hc)
        · exact hd.silent fun hm => hc ((hcleared _).mpr hm)
    taken := fun j => by
      show _ ≤ (l.journal ++ [Move.published i]).count _
      rw [List.count_append]
      exact Nat.le_add_right_of_le (h.taken j)
    newcomers := h.newcomers }

theorem prepares {p q : Lifecycle × List (Nat × Retirer)} (h : Voiced p.1 p.2 ws)
    (hp : Prepares p q) : Voiced q.1 q.2 ws := by
  cases hp with
  | hush hq => exact h.hush hq
  | start hv => exact h.start hv
  | publish hlt hnew hover hheir => exact h.publish hlt hnew hover hheir
  | ask _ hwho => exact h.ask hwho

end Voiced

end EventUpload
