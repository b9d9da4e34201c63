import EventUpload.Proofs.Command.Connections
import EventUpload.Proofs.Lifecycle.Filed

/-!
# Opening files

Where a path leads only depends on the directories of a store, and these stay what they are while files
are written and created (`FileStore.SameTree`). So a path that could be created once can be created
again, which empties the file (`FileStore.create_of_fileable`).

Of the sinks of a command, the one for a file writes to the place of its path. If no other path of its
options leads there, no other sink writes there (`Uploader.sinksFor_filing`), whatever the backend.

Places are compared and not paths, since two paths may lead to the same place. The condition on the
other files is given in the store at the beginning (`base`), long before they are opened; `SameTree` is
what makes it good for any later time. A device in a place is no file: it is opened without being
emptied, and `Fileable` leaves it out.
-/

set_option autoImplicit false

namespace EventUpload

/-! ## The store

Resolving a path follows the directories and looks at nothing else. Whatever writes only to files can
therefore be left out of account when it is asked where a path leads (`SameTree.resolve`). -/

namespace FileStore

variable {s t u : FileStore} {W : Place → Prop} {p q : Place} {path : String}

/-- Two stores have the same directories. -/
structure SameTree (s t : FileStore) : Prop where
  here : t.here = s.here
  directories : ∀ p, t.node? p = some .directory ↔ s.node? p = some .directory

theorem SameTree.refl (s : FileStore) : s.SameTree s := ⟨rfl, fun _ => .rfl⟩

theorem SameTree.trans (h : s.SameTree t) (k : t.SameTree u) : s.SameTree u :=
  ⟨k.here.trans h.here, fun p => (k.directories p).trans (h.directories p)⟩

theorem SameTree.symm (h : s.SameTree t) : t.SameTree s :=
  ⟨h.here.symm, fun p => (h.directories p).symm⟩

theorem Writes.sameTree (h : s.Writes W t) : s.SameTree t where
  here := h.here
  directories := by
    intro p
    rcases h.nodes p with heq | ⟨-, old, new, hold, hnew, -⟩
    · rw [heq]
    · rw [hold, hnew]
      simp

/-- A path leads to the same place. -/
theorem SameTree.resolve (h : s.SameTree t) (hs : s.resolve path = .ok p) : t.resolve path = .ok p := by
  have hwalk (parts : List PathPart) : ∀ place, s.walk place parts = .ok p → t.walk place parts = .ok p := by
    induction parts with
    | nil => exact fun _ hplace => hplace
    | cons part rest ih =>
      intro place hplace
      unfold walk at hplace ⊢
      split at hplace
      · exact absurd hplace (by simp)
      · next hdirectory =>
        rw [(h.directories place).mpr hdirectory]
        cases part with
        | root => exact ih _ hplace
        | here => exact ih _ hplace
        | up => exact ih _ hplace
        | name n =>
          dsimp only at hplace ⊢
          split at hplace
          · exact absurd hplace (by simp)
          · next hlength =>
            rw [if_neg hlength]
            exact ih _ hplace
      · exact absurd hplace (by simp)
  unfold FileStore.resolve at hs ⊢
  split at hs
  · exact absurd hs (by simp)
  · split at hs
    · exact absurd hs (by simp)
    · next hnul hempty =>
      rw [if_neg hnul, if_neg hempty, h.here]
      exact hwalk _ _ hs

/-- A place where a file is or could be. -/
def Fileable (s : FileStore) (p : Place) : Prop :=
  s.node? p = none ∨ ∃ bytes, s.node? p = some (.file bytes)

/-- The store with an empty file in a place, and everything else as it was. -/
structure Emptied (s t : FileStore) (p : Place) : Prop where
  here : t.here = s.here
  nodes : ∀ q, t.node? q = if q = p then some (.file []) else s.node? q

theorem Emptied.at_place (h : s.Emptied t p) : t.node? p = some (.file []) := by
  rw [h.nodes, if_pos rfl]

theorem Emptied.elsewhere (h : s.Emptied t p) (hq : q ≠ p) : t.node? q = s.node? q := by
  rw [h.nodes, if_neg hq]

theorem Fileable.ne_directory (h : s.Fileable p) : s.node? p ≠ some .directory := by
  rcases h with h | ⟨bytes, h⟩ <;> simp [h]

theorem Emptied.sameTree (h : s.Emptied t p) (hp : s.Fileable p) : s.SameTree t where
  here := h.here
  directories := by
    intro q
    by_cases hq : q = p
    · subst hq
      rw [h.at_place]
      simp [hp.ne_directory]
    · rw [h.elsewhere hq]

/-- A file can be created where one is or could be; it is empty then. -/
theorem create_of_fileable (hresolve : s.resolve path = .ok p) (hname : namesDirectory path = false)
    (hp : s.Fileable p) : ∃ t, s.create path = .ok (t, p) ∧ s.Emptied t p := by
  rcases hp with hnone | ⟨bytes, hfile⟩
  · have hopen : s.openFile path = .ok (s.put p (.file []), p) := by
      simp only [openFile, hresolve, hnone, hname, bind, Except.bind, Bool.false_eq_true, if_false]
    have hput : (s.put p (.file [])).node? p = some (.file []) := by rw [node?_put, if_pos rfl]
    refine ⟨(s.put p (.file [])).put p (.file []), ?_, rfl, fun q => ?_⟩
    · simp only [create, hopen, hput, bind, Except.bind]
    · rw [node?_put, node?_put]
      split <;> rfl
  · have hopen : s.openFile path = .ok (s, p) := by
      simp only [openFile, hresolve, hfile, hname, bind, Except.bind, Bool.false_eq_true, if_false]
    refine ⟨s.put p (.file []), ?_, rfl, fun q => node?_put s p _ q⟩
    simp only [create, hopen, hfile, bind, Except.bind]

/-- What is created is where its path leads: there was a device, or there is an empty file. -/
theorem create_cases (h : s.create path = .ok (t, p)) : s.resolve path = .ok p ∧
    (t = s ∧ (∃ takes, s.node? p = some (.device takes)) ∨
      namesDirectory path = false ∧ s.Fileable p ∧ s.Emptied t p) := by
  -- What can be opened is a device, or a place at which a file is or may be made.
  have hopened : s.resolve path = .ok p ∧ ((∃ takes, s.node? p = some (.device takes)) ∨
      namesDirectory path = false ∧ s.Fileable p) := by
    unfold create at h
    obtain ⟨⟨opened, place⟩, hopen, h⟩ := exists_of_bind_eq_ok h
    have hplace : place = p := by
      dsimp only at h
      split at h <;> exact congrArg Prod.snd (Except.ok.inj h)
    subst hplace
    obtain ⟨resolved, hresolve, hopen⟩ := exists_of_bind_eq_ok hopen
    split at hopen
    · exact absurd hopen (by simp)
    · next takes hnode =>
      cases hopen
      exact ⟨hresolve, .inl ⟨takes, hnode⟩⟩
    · next bytes hnode =>
      split at hopen
      · exact absurd hopen (by simp)
      · next hname =>
        cases hopen
        exact ⟨hresolve, .inr ⟨by simpa using hname, .inr ⟨bytes, hnode⟩⟩⟩
    · next hnode =>
      split at hopen
      · exact absurd hopen (by simp)
      · next hname =>
        cases hopen
        exact ⟨hresolve, .inr ⟨by simpa using hname, .inl hnode⟩⟩
  obtain ⟨hresolve, ⟨takes, hdevice⟩ | ⟨hname, hp⟩⟩ := hopened
  · refine ⟨hresolve, .inl ⟨?_, takes, hdevice⟩⟩
    have hopen : s.openFile path = .ok (s, p) := by
      simp only [openFile, hresolve, hdevice, bind, Except.bind]
    simp only [create, hopen, hdevice, bind, Except.bind] at h
    exact (congrArg Prod.fst (Except.ok.inj h)).symm
  · obtain ⟨t', hcreate, hemptied⟩ := create_of_fileable hresolve hname hp
    cases hcreate.symm.trans h
    exact ⟨hresolve, .inr ⟨hname, hp, hemptied⟩⟩

/-- Creating a file leaves the directories as they are, and everything in other places. -/
theorem create_aside (h : s.create path = .ok (t, p)) :
    s.SameTree t ∧ ∀ q, q ≠ p → t.node? q = s.node? q := by
  obtain ⟨-, ⟨rfl, -⟩ | ⟨-, hp, hemptied⟩⟩ := create_cases h
  · exact ⟨.refl t, fun _ _ => rfl⟩
  · exact ⟨hemptied.sameTree hp, fun q hq => hemptied.elsewhere hq⟩

end FileStore

/-! ## Opening

The files of a command are opened one after another, and each is created in the store that the ones
before it have left. The induction is over the files, with the same tree in the hypothesis. -/

variable {base : FileStore} {p : Place} {outside : Outside}

theorem openFiles_append (files more : List (Encoding × FileOptions)) (outside : Outside) :
    (openFiles (files ++ more) outside).1 = (openFiles more (openFiles files outside).1).1 ∧
      (openFiles (files ++ more) outside).2.1 = (openFiles files outside).2.1 ++
        (openFiles more (openFiles files outside).1).2.1 := by
  induction files generalizing outside with
  | nil => exact ⟨rfl, rfl⟩
  | cons file files ih =>
    obtain ⟨encoding, file⟩ := file
    rw [List.cons_append, openFiles, openFiles]
    cases FileWriter.create outside.files file.path encoding with
    | error fault => exact ih outside
    | ok created =>
      obtain ⟨store, w⟩ := created
      obtain ⟨hout, hsinks⟩ := ih { outside with files := store }
      exact ⟨hout, congrArg (_ :: ·) hsinks⟩

theorem Sink.elsewhere_ofDestination {d : Destination} (h : d.Within (· ≠ p)) (name : String)
    (boundSecs : Nat) : (Sink.ofDestination name boundSecs d).Has (Channel.Elsewhere p) := by
  intro c hc
  cases hc
  exact .inr h

/-- Files whose paths lead elsewhere are written elsewhere. -/
theorem openFiles_elsewhere {files : List (Encoding × FileOptions)} (outside : Outside)
    (hfiles : ∀ e ∈ files, base.resolve e.2.path ≠ .ok p) (hbase : base.SameTree outside.files) :
    base.SameTree (openFiles files outside).1.files ∧
      (openFiles files outside).1.files.node? p = outside.files.node? p ∧
      ∀ s ∈ (openFiles files outside).2.1, s.Has (Channel.Elsewhere p) := by
  induction files generalizing outside with
  | nil => exact ⟨hbase, rfl, fun s hs => absurd hs (by simp [openFiles])⟩
  | cons file files ih =>
    obtain ⟨encoding, file⟩ := file
    have hrest := fun e he => hfiles e (List.mem_cons_of_mem _ he)
    rw [openFiles]
    cases hcreate : FileWriter.create outside.files file.path encoding with
    | error fault => exact ih outside hrest hbase
    | ok created =>
      obtain ⟨⟨store, place⟩, hmade, hw⟩ := exists_of_bind_eq_ok hcreate
      cases hw
      obtain ⟨hresolve, -⟩ := FileStore.create_cases hmade
      obtain ⟨htree, hsame⟩ := FileStore.create_aside hmade
      have hplace : place ≠ p := by
        rintro rfl
        exact hfiles _ List.mem_cons_self (hbase.symm.resolve hresolve)
      obtain ⟨htree', hnode, hsinks⟩ :=
        ih { outside with files := store } hrest (hbase.trans htree)
      refine ⟨htree', hnode.trans (hsame p (Ne.symm hplace)), ?_⟩
      intro s hs
      rcases List.mem_cons.mp hs with rfl | hs
      · refine Sink.elsewhere_ofDestination (fun w hw => ?_) _ _
        cases hw
        exact hplace
      · exact hsinks s hs

/-- **One file of several**, whose path leads to a place to which no other path leads. -/
theorem openFiles_filing {before after : List (Encoding × FileOptions)} {encoding : Encoding}
    {file : FileOptions} (hbefore : ∀ e ∈ before, base.resolve e.2.path ≠ .ok p)
    (hafter : ∀ e ∈ after, base.resolve e.2.path ≠ .ok p) (hbase : base.SameTree outside.files)
    (hresolve : base.resolve file.path = .ok p)
    (hname : FileStore.namesDirectory file.path = false) (hp : outside.files.Fileable p) :
    ∃ earlier later outside', (openFiles (before ++ (encoding, file) :: after) outside).1 = outside' ∧
      (openFiles (before ++ (encoding, file) :: after) outside).2.1 = earlier ++
        .ofDestination encoding.sinkName file.timeoutSecs (.file ⟨file.path, p, encoding, 0, []⟩) ::
          later ∧
      (∀ s ∈ earlier, s.Has (Channel.Elsewhere p)) ∧ (∀ s ∈ later, s.Has (Channel.Elsewhere p)) ∧
      base.SameTree outside'.files ∧ outside'.files.node? p = some (.file []) := by
  obtain ⟨hout, hsinks⟩ := openFiles_append before ((encoding, file) :: after) outside
  obtain ⟨htree, hnode, hearlier⟩ := openFiles_elsewhere outside hbefore hbase
  have hp' : (openFiles before outside).1.files.Fileable p := by
    unfold FileStore.Fileable
    rw [hnode]
    exact hp
  obtain ⟨store, hcreate, hemptied⟩ :=
    FileStore.create_of_fileable (htree.resolve hresolve) hname hp'
  have hmade : FileWriter.create (openFiles before outside).1.files file.path encoding =
      .ok (store, ⟨file.path, p, encoding, 0, []⟩) := by
    unfold FileWriter.create
    rw [hcreate]
    rfl
  obtain ⟨htree', hnode', hlater⟩ :=
    openFiles_elsewhere { (openFiles before outside).1 with files := store } hafter
      (htree.trans (hemptied.sameTree hp'))
  have hcons : openFiles ((encoding, file) :: after) (openFiles before outside).1 =
      ((openFiles after { (openFiles before outside).1 with files := store }).1,
        .ofDestination encoding.sinkName file.timeoutSecs (.file ⟨file.path, p, encoding, 0, []⟩) ::
          (openFiles after { (openFiles before outside).1 with files := store }).2.1,
        (openFiles after { (openFiles before outside).1 with files := store }).2.2) := by
    rw [openFiles, hmade]
  rw [hcons] at hout hsinks
  exact ⟨_, _, _, hout, hsinks, hearlier, hlater, htree', hnode'.trans hemptied.at_place⟩

/-! ## The sinks of a command

The sinks for the files come first, and the one for a backend is the last, if there is a connection for
it. What is needed later is where the sink of one file stands among them and that no other sink writes
to its place. -/

theorem UploadOptions.exists_files_of_jsonFile {options : UploadOptions} {file : FileOptions}
    (h : options.jsonFile = some file) : ∃ before after,
      options.files = before ++ (.json, file) :: after ∧
        (∀ e ∈ before, e.1 ≠ .json ∧ options.file? e.1 = some e.2) ∧
        ∀ e ∈ after, e.1 ≠ .json ∧ options.file? e.1 = some e.2 := by
  have hmem (encoding : Encoding) (hne : encoding ≠ .json) :
      ∀ e ∈ ((options.file? encoding).map (encoding, ·)).toList,
        e.1 ≠ .json ∧ options.file? e.1 = some e.2 := by
    intro e he
    obtain ⟨f, hf, rfl⟩ := Option.map_eq_some_iff.mp (Option.mem_toList.mp he)
    exact ⟨hne, hf⟩
  refine ⟨((options.file? .text).map (.text, ·)).toList, ((options.file? .binary).map (.binary, ·)).toList,
    ?_, hmem .text (by decide), hmem .binary (by decide)⟩
  have hjson : options.file? .json = some file := h
  unfold files
  rw [List.filterMap_cons, List.filterMap_cons, List.filterMap_cons, List.filterMap_nil, hjson]
  cases options.file? .text <;> cases options.file? .binary <;> rfl

namespace Uploader

variable {u v : Uploader} {options : UploadOptions} {ids : CommandIds}

theorem says_connect {b : BackendOptions} {connection : Option Connection}
    (h : u.connect b = (v, connection)) : u.lifecycle.Says v.lifecycle := by
  rcases u.connect_cases b with ⟨k, -, heq⟩ | ⟨-, ⟨k, -, heq⟩ | ⟨reason, -, heq⟩⟩
  · cases heq.symm.trans h
    exact .refl _
  · cases heq.symm.trans h
    exact .refl _
  · cases heq.symm.trans h
    exact Lifecycle.says_say u.lifecycle .newcomer .warning (connectWarning b reason)

/-- **One of the sinks of a command** is for its JSON file, and the others write elsewhere. -/
theorem sinksFor_filing {file : FileOptions} (hjson : options.jsonFile = some file)
    (halone : ∀ e g, e ≠ .json → options.file? e = some g → base.resolve g.path ≠ .ok p)
    (hbase : base.SameTree u.lifecycle.outside.files) (hresolve : base.resolve file.path = .ok p)
    (hname : FileStore.namesDirectory file.path = false)
    (hp : u.lifecycle.outside.files.Fileable p) (ids : CommandIds) :
    ∃ v earlier later outside', u.sinksFor options ids = (v, earlier ++
        .ofDestination (Encoding.json).sinkName file.timeoutSecs
          (.file ⟨file.path, p, .json, 0, []⟩) :: later) ∧
      (∀ s ∈ earlier, s.Has (Channel.Elsewhere p)) ∧ (∀ s ∈ later, s.Has (Channel.Elsewhere p)) ∧
      Lifecycle.Says { u.lifecycle with outside := outside' } v.lifecycle ∧
      base.SameTree outside'.files ∧ outside'.files.node? p = some (.file []) := by
  obtain ⟨before, after, hfiles, hbefore, hafter⟩ := UploadOptions.exists_files_of_jsonFile hjson
  obtain ⟨v, connection, l, hconnect, hsaid, -, heq⟩ := u.sinksFor_cases options ids
  have hconnected : u.lifecycle.Says v.lifecycle := by
    rcases hconnect with ⟨-, rfl, -⟩ | ⟨b, -, hconnect⟩
    · exact .refl _
    · exact says_connect hconnect
  obtain ⟨posts, hposts⟩ := hconnected
  have houtside : v.lifecycle.outside = u.lifecycle.outside := by rw [hposts]
  rw [← houtside] at hbase hp
  obtain ⟨earlier, later, outside', hout, hsinks, hearlier, hlater, htree, hnode⟩ :=
    openFiles_filing (fun e he => halone e.1 e.2 (hbefore e he).1 (hbefore e he).2)
      (fun e he => halone e.1 e.2 (hafter e he).1 (hafter e he).2) hbase hresolve hname hp
  rw [hfiles, hsinks, List.append_assoc, List.cons_append] at heq
  rw [hfiles, hout] at hsaid
  refine ⟨_, earlier, _, outside', heq, hearlier, ?_, ?_, htree, hnode⟩
  · intro s hs
    rcases List.mem_append.mp hs with hs | hs
    · exact hlater s hs
    · obtain ⟨b, -, hs⟩ := Option.bind_eq_some_iff.mp (Option.mem_toList.mp hs)
      obtain ⟨k, -, rfl⟩ := Option.map_eq_some_iff.mp hs
      exact Sink.elsewhere_ofDestination (fun w hw => absurd hw (by simp)) _ _
  · refine Lifecycle.Says.trans ?_ hsaid
    rw [hposts]
    exact ⟨posts, rfl⟩

end Uploader

end EventUpload
