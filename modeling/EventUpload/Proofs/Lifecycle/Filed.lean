import EventUpload.Proofs.Lifecycle.Invariants
import EventUpload.Proofs.Lifecycle.Replies
import EventUpload.Proofs.Sink.Filing

/-!
# The end of an invocation that files its events

At the end of a blocking invocation with some time to wait, one of whose sinks is to file its events in
a place where nobody else writes (`Lifecycle.Filing`), the sinks have a turn before the wait is over,
and in this turn the events are filed (`Filing.settle`). From then on nobody writes there any more
(`Lifecycle.Clear`), so they are there when the host has its report (`perform_finish_files`), and when
the process is gone (`Clear.release`).

It takes time to wait, but no particular amount: the first turn comes at the instant of the call, after
the first look at it. A cap of nothing is the exception. Then the call is answered by the first look,
and the sink would have its turn only if the host let time pass.

Where the others write is known beforehand and does not change (`Channel.Elsewhere`), so `Clear` is one
of the things that are known for good (`Lifecycle/Invariants`). What is not known is when they write,
and into which files of their own. That is why the store is known only up to writes in other places, and
why the lemmas speak of a store `s` that somebody had left and of what has been written since.
-/

set_option autoImplicit false

namespace EventUpload

open Lifecycle

theorem Channel.takes_elsewhere (p : Place) : Channel.Takes (Channel.Elsewhere p) where
  accept := by
    intro c e hc
    unfold Channel.accept
    split <;> exact hc
  close := fun hc => hc

namespace Lifecycle

variable {l m : Lifecycle} {p : Place} {s : FileStore} {n i : Nat} {bytes : List UInt8}

/-! ## Nobody writes to a place

`Clear` speaks of all channels of the lifecycle, also of those of invocations that are long over: they
may still be writing somewhere. -/

/-- No channel of any of so many invocations writes to a place, and since the store was as given nobody
has. -/
abbrev Clear (p : Place) (s : FileStore) (n : Nat) (l : Lifecycle) : Prop :=
  l.Keeping (List.replicate n (Channel.Elsewhere p)) (Channel.Elsewhere p) fun outside =>
    s.Writes (· ≠ p) outside.files

theorem abides_clear (p : Place) (s : FileStore) (n : Nat) : Abides (Clear p s n) :=
  abides_keeping (fun C hC => by
    obtain rfl := List.eq_of_mem_replicate hC
    exact Channel.abides_elsewhere p s) (Channel.abides_elsewhere p s)

theorem takes_clear (p : Place) (n : Nat) :
    ∀ C ∈ List.replicate n (Channel.Elsewhere p), Channel.Takes C := by
  intro C hC
  obtain rfl := List.eq_of_mem_replicate hC
  exact Channel.takes_elsewhere p

theorem forall₂_replicate_left {α β : Type} {R : α → β → Prop} {a : α} {bs : List β} :
    List.Forall₂ R (List.replicate n a) bs ↔ bs.length = n ∧ ∀ b ∈ bs, R a b := by
  induction bs generalizing n with
  | nil => cases n <;> simp
  | cons b bs ih =>
    cases n with
    | zero => simp
    | succ n => simp [List.replicate_succ, ih, and_left_comm]

/-! ## About to be filed -/

/-- A sink of one invocation is about to file its events in a place, and nobody else writes there. -/
structure Filing (l : Lifecycle) (p : Place) (i : Nat) (bytes : List UInt8) : Prop where
  others : ∀ j v, j ≠ i → l.invocation? j = some v → ∀ s ∈ v.sinks, s.Has (Channel.Elsewhere p)
  filing : ∃ v before s after, l.invocation? i = some v ∧ v.sinks = before ++ s :: after ∧
    (∀ t ∈ before, t.Has (Channel.Elsewhere p)) ∧ (∀ t ∈ after, t.Has (Channel.Elsewhere p)) ∧
    s.Files l.outside p bytes
  strays : ∀ s ∈ l.strays, s.Has (Channel.Elsewhere p)

/-- Another invocation has its turn. -/
theorem Filing.settleInvocation (h : l.Filing p i bytes) {j : Nat} (hj : j ≠ i) :
    (l.settleInvocation j).Filing p i bytes := by
  cases hv : l.invocation? j with
  | none =>
    rw [settleInvocation_of_none hv]
    exact h
  | some v =>
    obtain ⟨hsettled, hwrites⟩ := (Channel.abides_elsewhere p l.outside.files).settleSinks
      l.now (h.others j v hj hv) (.refl _)
    obtain ⟨posts, heq⟩ := says_sayErrors { l.update j (·.withSinks
      (settleSinks l.now v.sinks l.outside).1) with
        outside := (settleSinks l.now v.sinks l.outside).2.1 } (.invocation j)
      (settleSinks l.now v.sinks l.outside).2.2
    rw [settleInvocation_of_some hv, heq]
    refine ⟨?_, ?_, h.strays⟩
    · intro k w hk hw
      have hw' : (l.update j (·.withSinks (settleSinks l.now v.sinks l.outside).1)).invocation? k =
          some w := hw
      rw [invocation?_update] at hw'
      split at hw'
      · obtain ⟨v', -, rfl⟩ := Option.map_eq_some_iff.mp hw'
        exact hsettled
      · exact h.others k w hk hw'
    · obtain ⟨w, before, s, after, hw, hsinks, hbefore, hafter, hfiles⟩ := h.filing
      refine ⟨w, before, s, after, ?_, hsinks, hbefore, hafter, hfiles.elsewhere hwrites⟩
      show (l.update j (·.withSinks (settleSinks l.now v.sinks l.outside).1)).invocation? i = some w
      rw [invocation?_update, if_neg hj, hw]

theorem length_settleInvocation (l : Lifecycle) (i : Nat) :
    (l.settleInvocation i).invocations.length = l.invocations.length :=
  (passes_settleInvocation l i).invocations.length_eq.symm

theorem length_foldl_settleInvocation (is : List Nat) (l : Lifecycle) :
    (is.foldl settleInvocation l).invocations.length = l.invocations.length := by
  induction is generalizing l with
  | nil => rfl
  | cons i is ih => exact (ih _).trans (length_settleInvocation l i)

theorem Filing.foldl (h : l.Filing p i bytes) {is : List Nat} (his : i ∉ is) :
    (is.foldl Lifecycle.settleInvocation l).Filing p i bytes := by
  induction is generalizing l with
  | nil => exact h
  | cons j is ih =>
    obtain ⟨hj, his⟩ := List.ne_and_not_mem_of_not_mem_cons his
    exact ih (h.settleInvocation (Ne.symm hj)) his

/-- The invocation has its own turn. -/
theorem Filing.file (h : l.Filing p i bytes) :
    (l.settleInvocation i).outside.files.node? p = some (.file bytes) ∧
      (l.settleInvocation i).Clear p (l.settleInvocation i).outside.files l.invocations.length := by
  obtain ⟨v, before, s, after, hv, hsinks, hbefore, hafter, hfiles⟩ := h.filing
  obtain ⟨hsettled, hfiled, -⟩ := settleSinks_files l.now hbefore hfiles hafter
  rw [← hsinks] at hsettled hfiled
  obtain ⟨posts, heq⟩ := says_sayErrors { l.update i (·.withSinks
    (settleSinks l.now v.sinks l.outside).1) with
      outside := (settleSinks l.now v.sinks l.outside).2.1 } (.invocation i)
    (settleSinks l.now v.sinks l.outside).2.2
  have hlength := length_settleInvocation l i
  rw [settleInvocation_of_some hv, heq] at hlength ⊢
  refine ⟨hfiled, forall₂_replicate_left.mpr ⟨hlength, fun w hw => ?_⟩, h.strays, .refl _⟩
  obtain ⟨k, hk⟩ := List.mem_iff_getElem?.mp hw
  have hk' : (l.update i (·.withSinks (settleSinks l.now v.sinks l.outside).1)).invocation? k =
      some w := hk
  rw [invocation?_update] at hk'
  split at hk'
  · obtain ⟨v', -, rfl⟩ := Option.map_eq_some_iff.mp hk'
    exact hsettled
  · next hne => exact h.others k w (Ne.symm hne) hk'

/-- **In the first turn of the sinks** the events are filed, and from then on nobody writes there. -/
theorem Filing.settle (h : l.Filing p i bytes) : ∃ s, l.outside.files.Writes (fun _ => True) s ∧
    s.node? p = some (.file bytes) ∧ l.settle.Clear p s l.invocations.length := by
  obtain ⟨v, -, -, -, hv, -⟩ := h.filing
  have hmem : i ∈ List.range l.invocations.length :=
    List.mem_range.mpr (List.getElem?_eq_some_iff.mp hv).1
  obtain ⟨earlier, later, hrange⟩ := List.append_of_mem hmem
  have hnot : i ∉ earlier := by
    have hnodup := List.nodup_range (n := l.invocations.length)
    rw [hrange] at hnodup
    exact fun hi => (List.nodup_append.mp hnodup).2.2 i hi i List.mem_cons_self rfl
  have hfiling := h.foldl hnot
  generalize hm : earlier.foldl Lifecycle.settleInvocation l = m at hfiling
  obtain ⟨hfiled, hclear⟩ := hfiling.file
  have hwrites : Abides fun m => l.outside.files.Writes (fun _ => True) m.outside.files :=
    abides_outside (fun _ _ _ => trivial)
      (Destination.abides_writes (fun _ => True) l.outside.files).channel
  refine ⟨(m.settleInvocation i).outside.files, ?_, hfiled, ?_⟩
  · have hearlier := Abides.foldl (P := fun m => l.outside.files.Writes (fun _ => True) m.outside.files)
      hwrites.settleInvocation earlier (.refl l.outside.files)
    rw [hm] at hearlier
    exact hwrites.settleInvocation i hearlier
  · have hlength : m.invocations.length = l.invocations.length :=
      hm ▸ length_foldl_settleInvocation earlier l
    have habides := abides_clear p (m.settleInvocation i).outside.files l.invocations.length
    rw [hlength] at hclear
    rw [settle_eq]
    refine Abides.foldl habides.settleDrain _ ?_
    unfold afterSinks
    rw [hrange, List.foldl_append, hm, List.foldl_cons]
    exact habides.settleStrays (Abides.foldl habides.settleInvocation _ hclear)

/-! ## The end of an invocation

The stream has been closed before, by its last event, so the end only publishes and waits. The first
turn comes with the wait. -/

/-- What ends an invocation changes nothing else. -/
theorem ended_aside (l : Lifecycle) (i : Nat) (mode : UploadMode) :
    (l.ended i mode).outside = l.outside ∧ (l.ended i mode).strays = l.strays ∧
      (l.ended i mode).invocations.length = l.invocations.length ∧
      ∀ j, j ≠ i → (l.ended i mode).invocation? j = l.invocation? j := by
  obtain ⟨posts, heq⟩ := says_noteOpen { l with phase := .closing, active := none } i none
  unfold ended closeAndPublish
  rw [heq]
  refine ⟨rfl, rfl, ?_, fun j hj => ?_⟩
  · simp only [publish, updateStream, update, List.length_modify]
  · simp only [publish, updateStream, update, invocation?, List.getElem?_modify, if_neg (Ne.symm hj),
      id_map']

theorem Sink.has_startWatch {C : Channel → Prop} {s : Sink} (h : s.Has C) (now : Nat) :
    (s.startWatch now).Has C := by
  unfold Sink.startWatch
  split
  · exact h
  · exact fun c hc => h c hc

/-- A stream that has been closed, one of whose sinks is about to file its events. -/
theorem filing_ended {v : Invocation} {before after : List Sink} {s : Sink}
    (hv : l.invocation? i = some v) (hclosed : v.stream.closed = true)
    (hsinks : v.sinks = before ++ s :: after)
    (hbefore : ∀ t ∈ before, t.Has (Channel.Elsewhere p))
    (hafter : ∀ t ∈ after, t.Has (Channel.Elsewhere p))
    (hfiles : (s.startWatch l.now).Files l.outside p bytes)
    (hothers : ∀ j w, j ≠ i → l.invocation? j = some w → ∀ t ∈ w.sinks, t.Has (Channel.Elsewhere p))
    (hstrays : ∀ t ∈ l.strays, t.Has (Channel.Elsewhere p)) (mode : UploadMode) :
    (l.ended i mode).Filing p i bytes := by
  obtain ⟨houtside, hstrays', -, hsame⟩ := ended_aside l i mode
  have hclose : v.stream.close l.now (some .internal) = v.stream := if_pos hclosed
  have hended := invocation?_ended hv mode
  rw [hclose] at hended
  have hwatched (ts : List Sink) (hts : ∀ t ∈ ts, t.Has (Channel.Elsewhere p)) :
      ∀ t ∈ ts.map (Sink.startWatch · l.now), t.Has (Channel.Elsewhere p) := by
    intro t ht
    obtain ⟨t, hmem, rfl⟩ := List.mem_map.mp ht
    exact Sink.has_startWatch (hts t hmem) l.now
  refine ⟨fun j w hj hw => hothers j w hj ((hsame j hj).symm.trans hw), ?_, hstrays' ▸ hstrays⟩
  refine ⟨_, before.map (Sink.startWatch · l.now), s.startWatch l.now,
    after.map (Sink.startWatch · l.now), hended, ?_, hwatched before hbefore, hwatched after hafter,
    houtside ▸ hfiles⟩
  show v.sinks.map _ = _
  rw [hsinks, List.map_append, List.map_cons]

theorem Filing.posts (h : l.Filing p i bytes) (hm : l.Says m) : m.Filing p i bytes := by
  obtain ⟨posts, rfl⟩ := hm
  exact ⟨h.others, h.filing, h.strays⟩

theorem check_ne_refused (l : Lifecycle) (call : Call) (f : Failure) :
    (l.check call).2 ≠ .answered (.refused f) := by
  cases call with
  | reconcile i grace deadline =>
    simp only [check]
    split
    · simp
    · split <;> simp
  | finish i start deadline noticed longest nextWord =>
    simp only [check]
    split
    · simp
    · split
      · simp [reportOf]
      · split <;> simp [reportOf]
  | settle i grace deadline ending =>
    simp only [check]
    split
    · simp
    · split <;> simp

/-- **The end of a blocking invocation that has some time to wait** is answered by a report, and the events
have been filed. -/
theorem perform_finish_files (hp : l.phase = .active) (ha : l.active = some i)
    (hcap : 0 < l.limits.blocking) (h : (l.ended i .blocking).Filing p i bytes) :
    ∃ m a t, Run.perform l (·.finish .blocking) none = (m, .answer a t) ∧ (∀ f, a ≠ .refused f) ∧
      ∃ s, l.outside.files.Writes (fun _ => True) s ∧ s.node? p = some (.file bytes) ∧
        m.Clear p s l.invocations.length := by
  obtain ⟨houtside, -, hlength, -⟩ := ended_aside l i .blocking
  obtain ⟨v, before, s, after, hv, hsinks, -, -, hfiles⟩ := h.filing
  have hdone : ¬ v.allDone = true := by
    intro hall
    have hs := List.all_eq_true.mp hall s (by rw [hsinks]; simp)
    rw [hfiles.undone] at hs
    exact absurd hs (by simp)
  have hlt : (l.closing i).now < l.now + l.limits.blocking := by
    rw [now_closing]
    exact Nat.lt_add_of_pos_right hcap
  have hmade := (finish_blocking_eq hp ha hv).trans (check_finish_waiting _ _ _ _ _ hv hdone hlt)
  have hnoticed := says_noticeClosed (l.closing i) i v (v.sinks.map fun _ => false)
  generalize (l.closing i).noticeClosed i v (v.sinks.map fun _ => false) = m at hmade hnoticed
  obtain ⟨d, n, b, a, -, -, -, -, hanswered, hawait⟩ :=
    Run.await_awaiting _ _ (Run.le_deadline_of_make (c := .finish .blocking) hmade)
  have hperform := Run.perform_waiting (fun l => l.finish .blocking) hmade hawait
  obtain ⟨files, hwrites, hfiled, hclear⟩ := (h.posts hnoticed).settle
  have hkept := (abides_clear p files m.invocations.length).perform_waiting
    (fun l => l.finish .blocking) hmade hclear
  rw [hperform] at hkept
  obtain ⟨posts, rfl⟩ := hnoticed
  refine ⟨_, a, _, hperform, fun f heq => check_ne_refused n.settle b f (heq ▸ hanswered), files, ?_,
    hfiled, ?_⟩
  · exact houtside ▸ hwrites
  · exact hlength ▸ hkept

/-! ## The end of the process

A process that is gone has let go of its sinks, which write out what they have gathered. None of that is
for the place. -/

theorem Clear.shutdown (h : l.Clear p s n) : (Run.perform l Lifecycle.shutdown none).1.Clear p s n :=
  (abides_clear p s n).perform Lifecycle.shutdown
    (Keeping.shutdown (abides_clear p s n) (takes_clear p n) h) none

theorem writes_releaseSink {k : Sink} {outside : Outside} (hk : k.Has (Channel.Elsewhere p))
    (ho : s.Writes (· ≠ p) outside.files) : s.Writes (· ≠ p) (k.release outside).files := by
  obtain ⟨bound, body, watch⟩ := k
  cases body with
  | responder r => exact ho
  | channel c =>
    show s.Writes (· ≠ p) (c.release outside).files
    rcases hk c rfl with hstopped | hwithin
    · unfold Channel.release
      rw [hstopped]
      exact ho
    · unfold Channel.release
      split
      · exact ho
      · exact (Destination.abides_writes (· ≠ p) s).release hwithin ho

/-- **When the process is gone** the place is as it was. -/
theorem Clear.release (h : l.Clear p s n) : s.Writes (· ≠ p) l.release.files := by
  have hsinks : ∀ k ∈ l.invocations.flatMap Invocation.sinks ++ l.strays,
      k.Has (Channel.Elsewhere p) := by
    intro k hk
    rcases List.mem_append.mp hk with hk | hk
    · obtain ⟨v, hv, hk⟩ := List.mem_flatMap.mp hk
      exact (forall₂_replicate_left.mp h.invocations).2 v hv k hk
    · exact h.strays k hk
  have hall (ks : List Sink) (outside : Outside) (hks : ∀ k ∈ ks, k.Has (Channel.Elsewhere p))
      (ho : s.Writes (· ≠ p) outside.files) :
      s.Writes (· ≠ p) (ks.foldl (fun outside k => k.release outside) outside).files := by
    induction ks generalizing outside with
    | nil => exact ho
    | cons k ks ih =>
      exact ih _ (fun t ht => hks t (List.mem_cons_of_mem k ht))
        (writes_releaseSink (hks k List.mem_cons_self) ho)
  exact hall _ l.outside hsinks h.outside

end Lifecycle

end EventUpload
