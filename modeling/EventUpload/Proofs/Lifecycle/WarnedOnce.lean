import EventUpload.Proofs.Lifecycle.Ledger

/-!
# Who warns of an upload

An invocation that was ended without a wait leaves its uploads to its drain and to the wait before the
next invocation. Both may see an upload fail at the same instant, in either order, and when one of them
cancels the rest, the other one sees errors as well. `History.warned_once` says that all the same at
most one of them warns, namely the one who has cleared the uploads away; what the drain says, if it says
anything, is fixed by how the sinks have ended.

The module has the rest of the induction that `Lifecycle/Ledger` begins. There preparations were shown
to keep `Voiced`, here it is the conclusions: `Voiced.retire` for all ways in which uploads are retired,
with the one who retires them as a parameter, and `Voiced.cut` for a wait that reaches its cap and
retires nothing.

Which of the two comes first is left open by a history. A step may be the turn of a drain or the look at
a call, in any order, and the theorem is about all histories, so every order that a scheduler may choose
is among them.
-/

set_option autoImplicit false

namespace EventUpload

open Lifecycle

/-! ## Conclusions

A conclusion takes an errand off the list and adds its warnings to the ledger. The entry that it makes
in the journal decides who may have warned. -/

namespace Voiced

variable {l m n : Lifecycle} {es es' : List (Nat × Retirer)} {ws : List Warning} {i j : Nat}
  {who : Retirer} {texts : List String}

/-- An invocation that was published has started. -/
theorem exists_invocation (h : Voiced l es ws) (hi : .published i ∈ l.journal) :
    ∃ v, l.invocation? i = some v := ⟨_, List.getElem?_eq_getElem (h.started i hi)⟩

theorem mem_retired (hr : l.Retires i who texts m) {move : Move} :
    move ∈ m.journal ↔ move ∈ l.journal ∨ move = .retired i who (l.isPending i) := by
  rw [hr.journal, List.mem_append, List.mem_singleton]

theorem mem_cleared (hr : l.Retires i who texts m) {who' : Retirer} :
    .retired j who' true ∈ m.journal ↔
      .retired j who' true ∈ l.journal ∨ j = i ∧ who' = who ∧ l.isPending i = true := by
  rw [mem_retired hr, Move.retired.injEq, eq_comm (a := true)]

theorem published_retired (hr : l.Retires i who texts m) :
    .published j ∈ m.journal ↔ .published j ∈ l.journal := by
  rw [mem_retired hr]
  exact or_iff_left (by simp)

theorem of_retired (hr : l.Retires i who texts m) {w : Invocation} (hw : m.invocation? j = some w) :
    ∃ v, l.invocation? j = some v ∧ v.Onward w := forall₂_getElem? hr.invocations.flip hw

/-- Who says something has published uploads before him. -/
theorem published_of_voices (h : Voiced l es ws) (hr : l.Retires i who texts m)
    (hpub : who = .drain ∨ who = .wait → .published i ∈ l.journal) (hne : texts ≠ []) :
    .published i ∈ l.journal := by
  have hvoices := hr.voices
  cases who with
  | drain => exact hpub (.inl rfl)
  | wait => exact hpub (.inr rfl)
  | newcomer =>
    have hp : l.isPending i = true := by
      by_contra hp
      exact hne (hvoices.2 (by simpa using hp))
    exact h.recorded.mem_of_pending (by simpa [isPending] using hp)
  | ending => exact absurd hvoices hne

/-- The ledger about other uploads stays as it is. -/
theorem Drained.of_ne {v w : Invocation} (hd : Drained l ws j v) (hr : l.Retires i who texts m)
    (hij : i ≠ j) (hvw : v.Onward w) : Drained m (ws ++ texts.map (⟨i, who, ·⟩)) j w := by
  have htexts (who' : Retirer) :
      textsOf (ws ++ texts.map (⟨i, who, ·⟩)) j who' = textsOf ws j who' := by
    rw [textsOf_append, textsOf_of_ne _ (.inl (Ne.symm hij)), List.append_nil]
  have hmem : .retired j .drain true ∈ m.journal ↔ .retired j .drain true ∈ l.journal := by
    rw [mem_cleared hr]
    exact or_iff_left fun heq => hij heq.1.symm
  refine ⟨?_, ?_, fun hc => ?_, fun hc => ?_⟩
  · intro w hw hi
    rcases List.mem_append.mp hw with hw | hw
    · exact hd.only w hw hi
    · obtain ⟨text, -, rfl⟩ := List.mem_map.mp hw
      exact absurd hi hij
  · rw [hr.warnings, htexts, hd.log, if_neg, List.append_nil]
    cases who <;> simp [Retirer.addressee, Ne.symm hij]
  · obtain ⟨hdone, hsaid⟩ := hd.cleared (hmem.mp hc)
    exact ⟨hvw.allDone hdone, (htexts _).trans (hsaid.trans (hvw.filterMap_seen hdone _).symm)⟩
  · exact (htexts _).trans (hd.silent fun hm => hc (hmem.mpr hm))

/-- The drain clears its uploads away, or finds that somebody else has. -/
theorem Drained.drain {v w : Invocation} (hd : Drained l ws i v) (h : Voiced l es ws)
    (hv : l.invocation? i = some v) (hr : l.Retires i .drain texts m) (hvw : v.Onward w) :
    Drained m (ws ++ texts.map (⟨i, .drain, ·⟩)) i w := by
  obtain ⟨v', hv', hdone, htexts⟩ := hr.voices
  cases hv.symm.trans hv'
  have happend : textsOf (ws ++ texts.map (⟨i, .drain, ·⟩)) i .drain = textsOf ws i .drain ++ texts := by
    rw [textsOf_append, textsOf_self]
  have hsaid : m.warningsTo (.invocation i) = textsOf ws i .drain ++ texts := by
    have hwarnings := hr.warnings (.invocation i)
    rw [Retirer.addressee, if_pos rfl, hd.log] at hwarnings
    exact hwarnings
  have honly : ∀ w ∈ ws ++ texts.map (⟨i, .drain, ·⟩), w.index = i →
      w.who = .drain ∨ w.who = .newcomer := by
    intro w hw hi
    rcases List.mem_append.mp hw with hw | hw
    · exact hd.only w hw hi
    · obtain ⟨text, -, rfl⟩ := List.mem_map.mp hw
      exact .inl rfl
  have hseen : w.warnings SinkError.drainWarning? = v.warnings SinkError.drainWarning? :=
    hvw.filterMap_seen hdone _
  cases hp : l.isPending i with
  | true =>
    -- It was still pending, so nobody has cleared it away before and the drain has said nothing.
    have hpending : l.pending = some i := by simpa [isPending] using hp
    have hsilent := hd.silent (h.recorded.not_mem_of_pending hpending .drain)
    rw [if_pos hp] at htexts
    rw [hsilent, List.nil_append] at happend hsaid
    refine ⟨honly, hsaid.trans happend.symm, fun _ => ⟨hvw.allDone hdone, ?_⟩, fun hc => ?_⟩
    · rw [happend, htexts, hseen]
    · exact absurd ((mem_cleared hr).mpr (.inr ⟨rfl, rfl, hp⟩)) hc
  | false =>
    -- Somebody else has cleared it away, so the drain is silent and the ledger stays as it was.
    have hmem : .retired i .drain true ∈ m.journal ↔ .retired i .drain true ∈ l.journal := by
      rw [mem_cleared hr]
      exact or_iff_left fun heq => absurd (hp.symm.trans heq.2.2) (by simp)
    rw [hp, if_neg (by simp)] at htexts
    rw [htexts, List.append_nil] at hsaid
    rw [htexts] at happend honly ⊢
    rw [List.append_nil] at happend
    refine ⟨honly, hsaid.trans happend.symm, fun hc => ?_, fun hc => ?_⟩
    · obtain ⟨-, htold⟩ := hd.cleared (hmem.mp hc)
      exact ⟨hvw.allDone hdone, happend.trans (htold.trans hseen.symm)⟩
    · exact happend.trans (hd.silent fun hm => hc (hmem.mpr hm))

/-- Somebody else retires the uploads, and says nothing to the invocation. -/
theorem Drained.taken {v w : Invocation} (hd : Drained l ws i v) (hr : l.Retires i who texts m)
    (hwho : who = .newcomer ∨ who = .ending) (hvw : v.Onward w) :
    Drained m (ws ++ texts.map (⟨i, who, ·⟩)) i w := by
  have hne : who ≠ .drain := by
    rcases hwho with rfl | rfl <;> simp
  have htexts : textsOf (ws ++ texts.map (⟨i, who, ·⟩)) i .drain = textsOf ws i .drain := by
    rw [textsOf_append, textsOf_of_ne _ (.inr (Ne.symm hne)), List.append_nil]
  have hmem : .retired i .drain true ∈ m.journal ↔ .retired i .drain true ∈ l.journal := by
    rw [mem_cleared hr]
    exact or_iff_left fun heq => hne heq.2.1.symm
  refine ⟨?_, ?_, fun hc => ?_, fun hc => ?_⟩
  · intro w hw hi
    rcases List.mem_append.mp hw with hw | hw
    · exact hd.only w hw hi
    · obtain ⟨text, htext, rfl⟩ := List.mem_map.mp hw
      rcases hwho with rfl | rfl
      · exact .inr rfl
      · rw [show texts = [] from hr.voices] at htext
        exact absurd htext (by simp)
  · rw [hr.warnings, htexts, hd.log]
    rcases hwho with rfl | rfl
    · rw [if_neg (by simp [Retirer.addressee]), List.append_nil]
    · rw [show texts = [] from hr.voices, ite_self, List.append_nil]
  · obtain ⟨hdone, hsaid⟩ := hd.cleared (hmem.mp hc)
    exact ⟨hvw.allDone hdone, htexts.trans (hsaid.trans (hvw.filterMap_seen hdone _).symm)⟩
  · exact htexts.trans (hd.silent fun hm => hc (hmem.mpr hm))

/-- Nothing is said about what was not published, and nothing to those who still wait. -/
theorem unsaid (hr : l.Retires i who texts m) (hij : who = .drain ∨ who = .wait → j ≠ i) :
    m.warningsTo (.invocation j) = l.warningsTo (.invocation j) := by
  have hvoices := hr.voices
  rw [hr.warnings]
  cases who with
  | drain => rw [if_neg (by simpa [Retirer.addressee] using hij (.inl rfl)), List.append_nil]
  | wait => rw [if_neg (by simpa [Retirer.addressee] using hij (.inr rfl)), List.append_nil]
  | newcomer => rw [if_neg (by simp [Retirer.addressee]), List.append_nil]
  | ending => rw [show texts = [] from hvoices, ite_self, List.append_nil]

/-- **Uploads are retired**, by a drain of an invocation without a wait or by a call whose errand is over.
Nobody else waits for them as that call did. -/
theorem retire (h : Voiced l es ws) (hr : l.Retires i who texts m) (hes : es'.Sublist es)
    (hdrain : who = .drain → i ∈ l.drains) (hwait : who = .wait → (i, .wait) ∈ es)
    (halone : who = .wait → ∀ j, (j, .wait) ∉ es') :
    Voiced m es' (ws ++ texts.map (⟨i, who, ·⟩)) := by
  have hpub : who = .drain ∨ who = .wait → .published i ∈ l.journal := by
    rintro (hw | hw)
    · exact (h.drains i (hdrain hw)).1
    · exact (h.waits i (hwait hw)).1
  have hmodeOf {v : Invocation} (hv : l.invocation? i = some v) :
      (who = .drain → v.mode ≠ .blocking) ∧ (who = .wait → v.mode = .blocking) :=
    ⟨fun hw => (h.drains i (hdrain hw)).2 v hv, fun hw => (h.waits i (hwait hw)).2.2 v hv⟩
  exact {
    sound := hr.sound h.sound
    -- A retirement is recorded as one, whether the uploads were still pending or not. What was hollow
    -- before the sinks went on has no sinks afterwards either.
    recorded := by
      rw [hr.journal, hr.pending]
      have hrecorded : Recorded l.IsHollow (l.journal ++ [.retired i who (l.isPending i)])
          (if l.pending = some i then none else l.pending) := h.recorded.retire i who
      refine hrecorded.mono fun j _ hhollow w hw => ?_
      obtain ⟨v, hv, hvw⟩ := of_retired hr hw
      have hlength := hvw.sinks.length_eq
      rw [hhollow v hv] at hlength
      exact List.length_eq_zero_iff.mp hlength.symm
    started := fun j hj => by
      rw [← hr.invocations.length_eq]
      exact h.started j ((published_retired hr).mp hj)
    drains := fun j hj => by
      rw [hr.drains] at hj
      -- A drain is the only one to lose its place, and by retiring.
      have hj' : j ∈ l.drains := by
        split at hj
        · exact List.mem_of_mem_filter hj
        · exact hj
      obtain ⟨hp, hmode⟩ := h.drains j hj'
      refine ⟨(published_retired hr).mpr hp, fun w hw => ?_⟩
      obtain ⟨v, hv, hvw⟩ := of_retired hr hw
      exact hvw.mode ▸ hmode v hv
    waits := fun j hj => by
      obtain ⟨hp, hnone, hmode⟩ := h.waits j (hes.subset hj)
      refine ⟨(published_retired hr).mpr hp, ?_, fun w hw => ?_⟩
      · refine (unsaid hr ?_).trans hnone
        -- If those uploads were waited for it was by this errand, and nobody waits like that any more.
        rintro hw rfl
        obtain ⟨v, hv⟩ := h.exists_invocation hp
        rcases hw with hw | hw
        · exact (hmodeOf hv).1 hw (hmode v hv)
        · exact halone hw j hj
      · obtain ⟨v, hv, hvw⟩ := of_retired hr hw
        exact hvw.mode ▸ hmode v hv
    single := Nat.le_trans hes.countP_le h.single
    fresh := fun j hj => by
      have hj' : .published j ∉ l.journal := fun hm => hj ((published_retired hr).mpr hm)
      obtain ⟨hnone, hws⟩ := h.fresh j hj'
      refine ⟨(unsaid hr ?_).trans hnone, fun w hw => ?_⟩
      -- Whoever says something has published its uploads before, so these are others.
      · rintro hw rfl
        exact hj' (hpub hw)
      · rcases List.mem_append.mp hw with hw | hw
        · exact hws w hw
        · obtain ⟨text, htext, rfl⟩ := List.mem_map.mp hw
          rintro rfl
          exact hj' (h.published_of_voices hr hpub (List.ne_nil_of_mem htext))
    drained := fun j w hj hw hmode => by
      obtain ⟨v, hv, hvw⟩ := of_retired hr hw
      have hmode' : v.mode ≠ .blocking := hvw.mode ▸ hmode
      have hd := h.drained j v ((published_retired hr).mp hj) hv hmode'
      -- About its own uploads somebody who is no drain leaves the drain's account as it was.
      by_cases hij : i = j
      · subst hij
        cases who with
        | drain => exact Drained.drain hd h hv hr hvw
        | wait => exact absurd ((hmodeOf hv).2 rfl) hmode'
        | newcomer => exact Drained.taken hd hr (.inl rfl) hvw
        | ending => exact Drained.taken hd hr (.inr rfl) hvw
      · exact Drained.of_ne hd hr hij hvw
    taken := fun j => by
      have hvoices := hr.voices
      rw [textsOf_append, List.length_append, hr.journal, List.count_append]
      -- A warning to a newcomer comes with a retirement that clears, and only then.
      refine Nat.add_le_add (h.taken j) ?_
      by_cases hsame : j = i ∧ Retirer.newcomer = who
      · obtain ⟨rfl, rfl⟩ := hsame
        rw [textsOf_self]
        cases hp : l.isPending j with
        | true => simpa using hvoices.1
        | false => simp [hvoices.2 hp]
      · rw [textsOf_of_ne _ (not_and_or.mp hsame)]
        exact Nat.zero_le _
    newcomers := by
      rw [hr.warnings, h.newcomers, List.filter_append, List.map_append]
      congr 1
      cases who <;> simp [Retirer.addressee, List.filter_map, Function.comp_def] }

/-- The cap of a wait is reached, and the invocation is told so. -/
theorem cut (h : Voiced l es ws) (text : String) (hes : es'.Sublist es) (hwait : (i, .wait) ∈ es)
    (halone : ∀ j, (j, .wait) ∉ es') :
    Voiced (l.say (.invocation i) .warning text) es' ws := by
  obtain ⟨hpub, hnone, hmode⟩ := h.waits i hwait
  -- The warning at the cap is the invocation's own, and counts neither for another one nor for a
  -- newcomer.
  have hother {j : Nat} (hij : j ≠ i) : (l.say (.invocation i) .warning text).warningsTo
      (.invocation j) = l.warningsTo (.invocation j) := by
    rw [warningsTo_warn, if_neg (by simpa using hij), List.append_nil]
  have hnewcomer : (l.say (.invocation i) .warning text).warningsTo .newcomer =
      l.warningsTo .newcomer := by
    rw [warningsTo_warn, if_neg (by simp), List.append_nil]
  exact {
    sound := h.sound.of_invocations rfl
    recorded := h.recorded
    started := h.started
    drains := h.drains
    waits := fun j hj => absurd hj (halone j)
    single := Nat.le_trans hes.countP_le h.single
    fresh := fun j hj => by
      obtain ⟨hn, hws⟩ := h.fresh j hj
      refine ⟨(hother ?_).trans hn, hws⟩
      rintro rfl
      exact hj hpub
    drained := fun j v hj hv hne => by
      have hd := h.drained j v hj hv hne
      refine ⟨hd.only, (hother ?_).trans hd.log, hd.cleared, hd.silent⟩
      rintro rfl
      exact hne (hmode v hv)
    taken := h.taken
    newcomers := hnewcomer.trans h.newcomers }

/-- When the errand of a wait is over, nobody waits like that any more. -/
theorem alone {earlier later : List (Nat × Retirer)}
    (h : Voiced l (earlier ++ (i, .wait) :: later) ws) (j : Nat) : (j, .wait) ∉ earlier ++ later := by
  intro hj
  have hsingle := h.single
  have hpos : 0 < (earlier ++ later).countP (·.2 = .wait) :=
    List.countP_pos_iff.mpr ⟨_, hj, by simp⟩
  simp only [List.countP_append, List.countP_cons] at hsingle hpos
  simp at hsingle
  omega

theorem sublist_errands {earlier later : List (Nat × Retirer)} {errand : Nat × Retirer} :
    (earlier ++ later).Sublist (earlier ++ errand :: later) :=
  (List.Sublist.refl earlier).append (List.sublist_cons_self errand later)

/-- Every step keeps what is voiced, with the warnings that the step adds. -/
theorem concludes {p q : Lifecycle × List (Nat × Retirer)} {more : List Warning}
    (h : Voiced p.1 p.2 ws) (hc : Concludes p q more) : Voiced q.1 q.2 (ws ++ more) := by
  cases hc with
  | hush hm =>
    rw [List.append_nil]
    exact h.hush hm
  | drain hi hr =>
    exact h.retire hr (.refl _) (fun _ => hi) (fun hw => absurd hw (by simp)) fun hw =>
      absurd hw (by simp)
  | @errand l m earlier later i who texts hne hr =>
    refine h.retire hr sublist_errands (fun hw => absurd hw hne) (fun hw => ?_) fun hw => ?_
    · rw [hw]
      exact List.mem_append_right _ (List.mem_cons_self ..)
    · subst hw
      exact h.alone
  | @cut l m n earlier later i cap hm hn =>
    rw [List.append_nil]
    have hcut := (h.hush hm).cut (capReached cap) sublist_errands
      (List.mem_append_right _ (List.mem_cons_self ..)) h.alone
    exact hcut.hush hn
  | vacuous _ hm =>
    rw [List.append_nil]
    exact (h.hush hm).fewer sublist_errands

end Voiced

namespace Run

variable {r : Run} {ws : List Warning} {i : Nat} {v : Invocation}

/-- **The ledger of every genuine run** is in order. -/
theorem History.voiced (h : r.History ws) : Voiced r.lifecycle r.errands ws :=
  h.keeps (P := fun p ws => Voiced p.1 p.2 ws) Voiced.new (fun hv hp => hv.prepares hp)
    fun hv hc => hv.concludes hc

/-! ## Warned once -/

/-- Who has warned about the uploads of an invocation, and of what. -/
structure WarnedOnce (l : Lifecycle) (ws : List Warning) (i : Nat) (v : Invocation) : Prop where
  /-- Only the drain and the wait before the next invocation have. -/
  only : ∀ w ∈ ws, w.index = i → w.who = .drain ∨ w.who = .newcomer
  /-- All warnings that the invocation was given are from its drain. -/
  log : l.warningsTo (.invocation i) = textsOf ws i .drain
  /-- Whoever has said something has cleared the uploads away, and that was one of them. -/
  cleared : ∀ who, textsOf ws i who ≠ [] → .retired i who true ∈ l.journal
  one : ∀ who who', .retired i who true ∈ l.journal → .retired i who' true ∈ l.journal → who = who'
  once : textsOf ws i .drain = [] ∨ textsOf ws i .newcomer = []
  /-- The drain has said something only if it was the one, and then at most one thing about each sink, and
  nothing about what was cancelled or about a transmission. -/
  drain : textsOf ws i .drain =
    if .retired i .drain true ∈ l.journal then v.warnings SinkError.drainWarning? else []
  newcomer : (textsOf ws i .newcomer).length ≤ 1
  /-- If somebody else has cleared the uploads away the drain has said nothing. -/
  takenOver : ∀ who, who ≠ .drain → .retired i who true ∈ l.journal → textsOf ws i .drain = []

/-- **Every upload has one voice.** In every genuine run, about the uploads of an invocation that was
published without a wait at most one of the drain and the wait before the next invocation has warned, the
one who has cleared them away: the drain at most once for each sink, and the other one once in all.
Uploads that somebody else has cleared away give no warning from their drain. What newcomers were warned
of is what the ledger says. -/
theorem History.warned_once (h : r.History ws) (hv : r.lifecycle.invocation? i = some v)
    (hpub : .published i ∈ r.lifecycle.journal) (hmode : v.mode ≠ .blocking) :
    WarnedOnce r.lifecycle ws i v ∧
      r.lifecycle.warningsTo .newcomer = (ws.filter (·.who = .newcomer)).map Warning.text := by
  have hledger := h.voiced
  have hd := hledger.drained i v hpub hv hmode
  have hone (who who' : Retirer) (hm : .retired i who true ∈ r.lifecycle.journal)
      (hm' : .retired i who' true ∈ r.lifecycle.journal) : who = who' :=
    hledger.recorded.cleared_by_one hm hm'
  -- Nobody says anything without clearing away: of a drain that is in the ledger about it, of a
  -- newcomer in the count of its warnings.
  have hcleared (who : Retirer) (hne : textsOf ws i who ≠ []) :
      .retired i who true ∈ r.lifecycle.journal := by
    obtain ⟨text, htext⟩ := List.exists_mem_of_ne_nil _ hne
    obtain ⟨w, hw, -⟩ := List.mem_map.mp htext
    obtain ⟨hmem, hindex, rfl⟩ : w ∈ ws ∧ w.index = i ∧ w.who = who := by simpa using hw
    rcases hd.only w hmem hindex with hwho | hwho
    · rw [hwho] at hne ⊢
      by_contra hnot
      exact hne (hd.silent hnot)
    · rw [hwho] at hne ⊢
      refine List.count_pos_iff.mp (Nat.lt_of_lt_of_le ?_ (hledger.taken i))
      exact List.length_pos_iff.mpr hne
  refine ⟨⟨hd.only, hd.log, hcleared, hone, ?_, ?_, ?_, ?_⟩, hledger.newcomers⟩
  -- Two who have both said something would both have cleared it away.
  · by_contra hboth
    obtain ⟨hdrain, hnewcomer⟩ := not_or.mp hboth
    exact absurd (hone _ _ (hcleared _ hdrain) (hcleared _ hnewcomer)) (by simp)
  · split
    · next hm => exact (hd.cleared hm).2
    · next hm => exact hd.silent hm
  · refine Nat.le_trans (hledger.taken i) (Nat.le_trans (Recorded.count_le_clearings _ i _) ?_)
    exact hledger.recorded.clearings_le.1
  · intro who hwho hm
    refine hd.silent fun hm' => hwho (hone _ _ hm hm')

/-- A run in which a drain warns of an upload that has failed. -/
def abortedUpload : Run :=
  let r := firstEnded .standard (responders [("s", 0, some (0, .failed (.aborted "s")))]) .nonBlocking
  { r with lifecycle := r.lifecycle.settleDrain 0 }

theorem warned_once_abortedUpload : ∃ ws v, abortedUpload.History ws ∧
    abortedUpload.lifecycle.invocation? 0 = some v ∧ WarnedOnce abortedUpload.lifecycle ws 0 v ∧
    textsOf ws 0 .drain = [(SinkError.aborted "s").message] := by
  have hended := genuine_firstEnded
    (fresh_responders [("s", 0, some (0, .failed (.aborted "s")))]) .standard .nonBlocking
  have hgenuine : abortedUpload.Genuine :=
    hended.idles (.stirs (.drain (List.mem_singleton.mpr (Eq.refl 0))))
  obtain ⟨ws, h⟩ := hgenuine.exists_history
  have hwarned := (h.warned_once (i := 0) rfl (by decide) (by decide)).1
  refine ⟨_, _, h, rfl, hwarned, ?_⟩
  rw [hwarned.drain, if_pos (by decide)]
  rfl

end Run

end EventUpload
