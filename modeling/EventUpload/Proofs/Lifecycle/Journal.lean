import EventUpload.Proofs.Lifecycle.Frames

/-!
# The journal of the pending place

`Recorded hollow moves pending` says that the moves are in order: nothing is published over uploads that
are still pending, unless these are of an invocation without sinks (`hollow`), no invocation is
published twice, and what is retired was pending exactly if the journal says so. At the end `pending` is
what is pending.

Everything that is to be known about the fate of uploads follows from this alone, without a look at the
lifecycle: `Recorded.clearings` says that uploads which were published are either still pending and were
never cleared away, or are not and were cleared away once.

The journal is there for proofs only. The lifecycle writes it and never reads it, so it could be left
out of the program without any other change; what it makes possible is to speak of the past in a state.
A move says whether it has cleared something away because that depends on what was pending then, which
is gone by the time anybody asks.

Invocations without sinks need the exception for a reason: publishing their uploads fills the pending
place with something that is over from the beginning, and nobody waits for it or clears it away. The
predicate `hollow` is open here because only the lifecycle knows which invocations these are, and
because it may grow with the journal (`Recorded.mono`).
-/

set_option autoImplicit false

namespace EventUpload

/-- What is pending after a move. -/
def Move.apply : Option Nat → Move → Option Nat
  | _, published i => some i
  | _, retired _ _ true => none
  | pending, retired _ _ false => pending

/-- What is pending after some moves. -/
def pendingAfter (moves : List Move) : Option Nat := moves.foldl Move.apply none

/-- Whether a move cleared away the uploads of an invocation. -/
def Move.clears (i : Nat) : Move → Bool
  | published _ => false
  | retired j _ cleared => cleared && j = i

/-- How often the uploads of an invocation were cleared away. -/
def clearings (i : Nat) (moves : List Move) : Nat := moves.countP (Move.clears i)

/-- The moves are in order. -/
inductive Recorded (hollow : Nat → Prop) : List Move → Option Nat → Prop where
  | nil : Recorded hollow [] none
  | published {moves : List Move} {pending : Option Nat} {i : Nat} :
      Recorded hollow moves pending → (∀ j, pending = some j → hollow j) →
      .published i ∉ moves → Recorded hollow (moves ++ [.published i]) (some i)
  | cleared {moves : List Move} {i : Nat} (who : Retirer) :
      Recorded hollow moves (some i) → Recorded hollow (moves ++ [.retired i who true]) none
  | missed {moves : List Move} {pending : Option Nat} {i : Nat} (who : Retirer) :
      Recorded hollow moves pending → pending ≠ some i →
      Recorded hollow (moves ++ [.retired i who false]) pending

namespace Recorded

variable {hollow : Nat → Prop} {moves : List Move} {pending : Option Nat}

theorem pendingAfter_eq (h : Recorded hollow moves pending) : pendingAfter moves = pending := by
  induction h with
  | nil => rfl
  | published _ _ _ _ => simp [pendingAfter, Move.apply]
  | cleared _ _ _ => simp [pendingAfter, Move.apply]
  | missed _ _ _ ih =>
    simp only [pendingAfter, List.foldl_append] at ih ⊢
    rw [ih]
    rfl

theorem mem_of_pending {i : Nat} (h : Recorded hollow moves pending) (hp : pending = some i) :
    .published i ∈ moves := by
  induction h with
  | nil => exact absurd hp (by simp)
  | published _ _ _ _ => cases hp; simp
  | cleared _ _ _ => exact absurd hp (by simp)
  | missed _ _ _ ih => exact List.mem_append_left _ (ih hp)

/-- Only the invocations that were published matter. -/
theorem mono {hollow' : Nat → Prop} (h : Recorded hollow moves pending)
    (hmono : ∀ i, .published i ∈ moves → hollow i → hollow' i) :
    Recorded hollow' moves pending := by
  induction h with
  | nil => exact .nil
  | published hrec hover hnew ih =>
    refine .published (ih fun i hi => hmono i (List.mem_append_left _ hi)) ?_ hnew
    intro j hj
    exact hmono j (List.mem_append_left _ (hrec.mem_of_pending hj)) (hover j hj)
  | cleared who _ ih => exact .cleared who (ih fun i hi => hmono i (List.mem_append_left _ hi))
  | missed who _ hne ih =>
    exact .missed who (ih fun i hi => hmono i (List.mem_append_left _ hi)) hne

/-- Retiring keeps the moves in order. -/
theorem retire (h : Recorded hollow moves pending) (i : Nat) (who : Retirer) :
    Recorded hollow (moves ++ [.retired i who (pending = some i)])
      (if pending = some i then none else pending) := by
  by_cases hp : pending = some i
  · subst hp
    simp only [if_pos, decide_true]
    exact .cleared who h
  · simp only [hp, decide_false]
    exact .missed who h hp

/-- Nothing is published twice. -/
theorem count_published {i : Nat} (h : Recorded hollow moves pending)
    (hi : .published i ∈ moves) : moves.count (.published i) = 1 := by
  induction h with
  | nil => exact absurd hi (by simp)
  | @published before _ j hrec _ hnew ih =>
    rw [List.count_append]
    by_cases hj : i = j
    · subst hj
      rw [List.count_eq_zero_of_not_mem hnew]
      simp
    · have hb : .published i ∈ before := by
        rcases List.mem_append.mp hi with h | h
        · exact h
        · exact absurd (List.mem_singleton.mp h) (by simp [hj])
      rw [ih hb]
      simp [Ne.symm hj]
  | cleared who _ ih =>
    rw [List.count_append, ih (by simpa using hi)]
    simp
  | missed who _ _ ih =>
    rw [List.count_append, ih (by simpa using hi)]
    simp

theorem clearings_of_unpublished {i : Nat} (h : Recorded hollow moves pending)
    (hi : .published i ∉ moves) : EventUpload.clearings i moves = 0 := by
  induction h with
  | nil => rfl
  | published _ _ _ ih =>
    have hb := ih fun hm => hi (List.mem_append_left _ hm)
    simp only [EventUpload.clearings] at hb
    simp [EventUpload.clearings, hb, Move.clears]
  | @cleared before j who hrec ih =>
    have hb := ih fun hm => hi (List.mem_append_left _ hm)
    have hj : j ≠ i := fun hj => hi (List.mem_append_left _ (hrec.mem_of_pending (by rw [hj])))
    simp only [EventUpload.clearings] at hb
    simp [EventUpload.clearings, hb, Move.clears, hj]
  | missed who _ _ ih =>
    have hb := ih fun hm => hi (List.mem_append_left _ hm)
    simp only [EventUpload.clearings] at hb
    simp [EventUpload.clearings, hb, Move.clears]

/-- Uploads that were published are pending, or have been cleared away once. -/
theorem clearings {i : Nat} (h : Recorded hollow moves pending) (hi : .published i ∈ moves)
    (hfull : ¬ hollow i) : EventUpload.clearings i moves = if pending = some i then 0 else 1 := by
  induction h with
  | nil => exact absurd hi (by simp)
  | @published before current j hrec hover hnew ih =>
    by_cases hj : j = i
    · subst hj
      have hb := hrec.clearings_of_unpublished hnew
      simp only [EventUpload.clearings] at hb
      simp [EventUpload.clearings, hb, Move.clears]
    · have hb : .published i ∈ before := by
        rcases List.mem_append.mp hi with h | h
        · exact h
        · exact absurd (List.mem_singleton.mp h) (by simp [Ne.symm hj])
      -- What is published over is hollow, so `i` must have been cleared away before.
      have hne : current ≠ some i := fun hc => hfull (hover i hc)
      have hc := ih hb
      simp only [EventUpload.clearings, if_neg hne] at hc
      simp [EventUpload.clearings, hc, Move.clears, hj]
  | @cleared before j who hrec ih =>
    have hc := ih (by simpa using hi)
    simp only [EventUpload.clearings] at hc
    by_cases hj : j = i
    · subst hj
      simp only [if_pos] at hc
      simp [EventUpload.clearings, hc, Move.clears]
    · have hne : some j ≠ some i := by simpa using hj
      rw [if_neg hne] at hc
      simp [EventUpload.clearings, hc, Move.clears, hj]
  | missed who _ _ ih =>
    have hc := ih (by simpa using hi)
    simp only [EventUpload.clearings] at hc
    simp [EventUpload.clearings, hc, Move.clears]

/-! ## Reading the journal at one of its moves -/

/-- What was recorded up to the last move, and what the last move did. -/
theorem of_concat {move : Move} (h : Recorded hollow (moves ++ [move]) pending) :
    Recorded hollow moves (pendingAfter moves) ∧
      match move with
      | .published _ => ∀ j, pendingAfter moves = some j → hollow j
      | .retired i _ true => pendingAfter moves = some i
      | .retired i _ false => pendingAfter moves ≠ some i := by
  obtain ⟨all, hm⟩ : ∃ all, all = moves ++ [move] := ⟨_, rfl⟩
  rw [← hm] at h
  cases h with
  | nil => exact absurd hm (by simp)
  | published hrec hover hnew =>
    obtain ⟨rfl, hx⟩ := List.append_inj' hm rfl
    cases hx
    rw [hrec.pendingAfter_eq]
    exact ⟨hrec, hover⟩
  | cleared who hrec =>
    obtain ⟨rfl, hx⟩ := List.append_inj' hm rfl
    cases hx
    rw [hrec.pendingAfter_eq]
    exact ⟨hrec, rfl⟩
  | missed who hrec hne =>
    obtain ⟨rfl, hx⟩ := List.append_inj' hm rfl
    cases hx
    rw [hrec.pendingAfter_eq]
    exact ⟨hrec, hne⟩

/-- The beginning of a journal in order is in order. -/
theorem beginning {after : List Move} (h : Recorded hollow (moves ++ after) pending) :
    Recorded hollow moves (pendingAfter moves) := by
  induction after generalizing moves with
  | nil =>
    rw [List.append_nil] at h
    rw [h.pendingAfter_eq]
    exact h
  | cons move after ih =>
    rw [List.append_cons] at h
    exact (ih h).of_concat.1

/-- Nothing that is pending is published over, unless it is hollow. -/
theorem hollow_of_published {i j : Nat} {after : List Move}
    (h : Recorded hollow (moves ++ .published i :: after) pending)
    (hj : pendingAfter moves = some j) : hollow j := by
  rw [List.append_cons] at h
  exact h.beginning.of_concat.2 j hj

/-- What is retired is cleared away exactly if it was pending right before. -/
theorem cleared_iff {i : Nat} {who : Retirer} {cleared : Bool} {after : List Move}
    (h : Recorded hollow (moves ++ .retired i who cleared :: after) pending) :
    cleared = true ↔ pendingAfter moves = some i := by
  rw [List.append_cons] at h
  have hlast := h.beginning.of_concat.2
  cases cleared with
  | true => exact ⟨fun _ => hlast, fun _ => rfl⟩
  | false => exact ⟨fun hc => absurd hc (by simp), fun hp => absurd hp hlast⟩

end Recorded

end EventUpload
