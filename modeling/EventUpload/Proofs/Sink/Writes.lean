import EventUpload.Proofs.Sink.Invariants

/-!
# What sinks write

A sink that has been opened writes to the file that it has been opened for, and touches nothing else in
the store: files neither come nor go, and none becomes shorter (`FileStore.Writes`). That is so for
whatever work its destination does (`Destination.abides_writes`).

`Writes W s t` has the places that may be written to as a predicate `W`, so the same relation serves for
one sink, where `W` is a place, and for everybody else, where `W` is every other place. That none
becomes shorter is no more than a bound, but it is what a reader of the file relies on: what was there
before an offset is still there. What exactly is written is the subject of `Proofs.Sink.Filing`.

It is a statement about opened sinks. Opening a file may create it and cuts off what was in it before,
which `Writes` does not allow.
-/

set_option autoImplicit false

namespace EventUpload

/-- What comes of two steps comes of each of them. -/
theorem exists_of_bind_eq_ok {ε α β : Type} {x : Except ε α} {f : α → Except ε β} {b : β}
    (h : x >>= f = .ok b) : ∃ a, x = .ok a ∧ f a = .ok b := by
  cases x with
  | error e => exact absurd h (by simp [bind, Except.bind])
  | ok a => exact ⟨a, rfl, h⟩

/-! ## The store

A store is written in one place at a time, and every other place is as it was. -/

namespace FileStore

variable {W : Place → Prop} {s t u : FileStore} {p : Place}

theorem lookup_filter_of_ne {q : Place} (hq : q ≠ p) (nodes : List (Place × Node)) :
    (nodes.filter (fun m => m.1 ≠ p)).lookup q = nodes.lookup q := by
  induction nodes with
  | nil => rfl
  | cons m nodes ih =>
    obtain ⟨r, n⟩ := m
    by_cases hr : r = p
    · have hqr : (q == r) = false := by simpa [hr] using hq
      rw [List.filter_cons_of_neg (by simpa using hr), ih, List.lookup_cons, hqr]
    · rw [List.filter_cons_of_pos (by simpa using hr), List.lookup_cons, List.lookup_cons, ih]

theorem node?_put (s : FileStore) (p : Place) (n : Node) (q : Place) :
    (s.put p n).node? q = if q = p then some n else s.node? q := by
  unfold node? put
  by_cases hq : q = p
  · rw [if_pos hq, hq, List.lookup_cons, beq_self_eq_true]
  · have hqp : (q == p) = false := by simpa using hq
    rw [if_neg hq, List.lookup_cons, hqp]
    exact lookup_filter_of_ne hq s.nodes

/-- Files in some places have been written to. Nothing else has changed: files neither come nor go, and
none becomes shorter. -/
structure Writes (W : Place → Prop) (s t : FileStore) : Prop where
  here : t.here = s.here
  nodes : ∀ p, t.node? p = s.node? p ∨ W p ∧ ∃ old new : List UInt8,
    s.node? p = some (.file old) ∧ t.node? p = some (.file new) ∧ old.length ≤ new.length

theorem Writes.refl (s : FileStore) : s.Writes W s := ⟨rfl, fun _ => .inl rfl⟩

theorem Writes.trans (h : s.Writes W t) (k : t.Writes W u) : s.Writes W u where
  here := k.here.trans h.here
  nodes := by
    intro p
    rcases h.nodes p with hp | ⟨hW, old, new, hold, hnew, hle⟩
    · rw [← hp]
      exact k.nodes p
    · rcases k.nodes p with hp | ⟨-, old', new', hold', hnew', hle'⟩
      · exact .inr ⟨hW, old, new, hold, hp.trans hnew, hle⟩
      · cases hnew.symm.trans hold'
        exact .inr ⟨hW, old, new', hold, hnew', Nat.le_trans hle hle'⟩

/-- A place that is not written to is as it was. -/
theorem Writes.untouched (h : s.Writes W t) (hp : ¬ W p) : t.node? p = s.node? p :=
  (h.nodes p).resolve_right fun hwritten => hp hwritten.1

theorem length_overwrite (old : List UInt8) (offset : Nat) (bytes : List UInt8) :
    old.length ≤ (overwrite old offset bytes).length := by
  simp only [overwrite, List.length_append, List.length_take, List.length_replicate, List.length_drop]
  omega

theorem writes_writeAt (hp : W p) {offset : Nat} {bytes : List UInt8}
    (h : s.writeAt p offset bytes = .ok t) : s.Writes W t := by
  unfold writeAt at h
  split at h
  · split at h
    · cases h
      exact .refl s
    · exact absurd h (by simp)
  · next old hold =>
    cases h
    refine ⟨rfl, fun q => ?_⟩
    rw [node?_put]
    split
    · next hq =>
      subst hq
      exact .inr ⟨hp, old, _, hold, rfl, length_overwrite old offset bytes⟩
    · exact .inl rfl
  · cases h
    exact .refl s

end FileStore

/-! ## Writers -/

namespace FileWriter

variable {W : Place → Prop} {w w' : FileWriter} {files files' : FileStore} {bytes : List UInt8}

theorem writes_writeOut (hW : W w.place) (h : w.writeOut files bytes = .ok (w', files')) :
    w'.place = w.place ∧ files.Writes W files' := by
  obtain ⟨after, hwrite, hout⟩ := exists_of_bind_eq_ok h
  cases hout
  exact ⟨rfl, FileStore.writes_writeAt hW hwrite⟩

theorem writes_flush (hW : W w.place) (h : w.flush files = .ok (w', files')) :
    w'.place = w.place ∧ files.Writes W files' := by
  obtain ⟨⟨out, after⟩, hout, hflush⟩ := exists_of_bind_eq_ok h
  obtain ⟨hplace, hwrites⟩ := writes_writeOut hW hout
  cases hflush
  exact ⟨hplace, hwrites⟩

/-- Bytes are added in two steps: room is made for them, and then they are gathered or written out. -/
theorem add_eq (w : FileWriter) (files : FileStore) (bytes : List UInt8) : w.add files bytes =
    (if capacity < w.gathered.length + bytes.length then w.flush files else .ok (w, files)) >>= fun p =>
      if capacity ≤ bytes.length then p.1.writeOut p.2 bytes
      else .ok ({ p.1 with gathered := p.1.gathered ++ bytes }, p.2) := by
  unfold add
  dsimp only
  split <;> rfl

theorem writes_add (hW : W w.place) (h : w.add files bytes = .ok (w', files')) :
    w'.place = w.place ∧ files.Writes W files' := by
  rw [add_eq] at h
  obtain ⟨⟨out, after⟩, hroom, hadd⟩ := exists_of_bind_eq_ok h
  have hmade : out.place = w.place ∧ files.Writes W after := by
    split at hroom
    · exact writes_flush hW hroom
    · cases hroom
      exact ⟨rfl, .refl files⟩
  dsimp only at hadd
  split at hadd
  · obtain ⟨hplace, hwrites⟩ := writes_writeOut (hmade.1 ▸ hW) hadd
    exact ⟨hplace.trans hmade.1, hmade.2.trans hwrites⟩
  · cases hadd
    exact hmade

theorem writes_release (hW : W w.place) : files.Writes W (w.release files) := by
  unfold release
  split
  · next hflush => exact (writes_flush hW hflush).2
  · exact .refl files

end FileWriter

/-! ## Destinations

A piece of work at a destination is a write of its writer, or does not touch the store at all. -/

/-- A destination that only writes to files in some places. -/
def Destination.Within (W : Place → Prop) (d : Destination) : Prop :=
  ∀ w, d = .file w → W w.place

/-- A file's destination writes to its own place. -/
theorem Destination.writes_finishFile {W : Place → Prop} {w : FileWriter} (hW : W w.place)
    (outside : Outside) (work : Work) : (finishFile w outside work).1.Within W ∧
      outside.files.Writes W (finishFile w outside work).2.1.files := by
  have hwithin {w' : FileWriter} (hplace : w'.place = w.place) : (file w').Within W := by
    intro _ heq
    cases heq
    exact hplace ▸ hW
  have hsame : (file w).Within W ∧ outside.files.Writes W outside.files := ⟨hwithin rfl, .refl _⟩
  unfold finishFile
  dsimp only
  -- Only what is gathered and what is flushed reaches the store; a file is synchronized as it is.
  cases work with
  | write e =>
    dsimp only
    cases w.encoding.encode e with
    | error refusal => exact hsame
    | ok bytes =>
      dsimp only
      cases hadd : w.add outside.files bytes with
      | error f => exact hsame
      | ok added =>
        obtain ⟨hplace, hwrites⟩ := FileWriter.writes_add hW hadd
        exact ⟨hwithin hplace, hwrites⟩
  | flush =>
    dsimp only
    cases hflush : w.flush outside.files with
    | error f => exact hsame
    | ok flushed =>
      obtain ⟨hplace, hwrites⟩ := FileWriter.writes_flush hW hflush
      exact ⟨hwithin hplace, hwrites⟩
  | acknowledge =>
    dsimp only
    split <;> exact hsame

/-- **Whatever work a destination does**, it only writes to its file. -/
theorem Destination.abides_writes (W : Place → Prop) (s : FileStore) :
    Destination.Abides (Within W) fun outside => s.Writes W outside.files where
  begin := by
    intro d outside work hd ho
    cases d with
    | model behaviour n => exact ⟨fun _ h => (nomatch h), ho⟩
    | file w => exact ⟨hd, ho⟩
    | backend w => cases work <;> exact ⟨fun _ h => (nomatch h), ho⟩
  finish := by
    intro d outside work hd ho
    cases d with
    | model behaviour n => exact ⟨fun _ h => (nomatch h), ho⟩
    | file w =>
      obtain ⟨hwithin, hwrites⟩ := writes_finishFile (hd w rfl) outside work
      exact ⟨hwithin, ho.trans hwrites⟩
    | backend w => cases work <;> exact ⟨fun _ h => (nomatch h), ho⟩
  release := by
    intro d outside hd ho
    cases d with
    | file w => exact ho.trans (FileWriter.writes_release (hd w rfl))
    | model behaviour n => exact ho
    | backend w => exact ho

end EventUpload
