import Mathlib.Data.List.Pairwise
import EventUpload.Proofs.Command.Opening

/-!
# Paths of the files of a command

No two files of options that may be used have paths of the same parts. Where a path leads, however, is
settled by the way from the working directory (`resolvedParts`), and this may be spelled in several
ways: with a dot in front or without, and from the root or from the directory (`Respelled`). Two files
have the same way exactly if one is such another spelling of the other.

The sinks of a command write where the paths of their files lead, directories on the way provided
(`Place.follow`). For paths that never go up this is the end of the way, so two sinks write into the
same file exactly if the two paths are spellings of one way (`UploadOptions.files_apart`).

The parts of a path are what is left when repeated slashes and dots inside it have been dropped, so the
only spellings that can still differ are in front (`Fronted`). A way is a list of parts from the root,
and not a place: parts that go up are left in it, because whether they undo what stands before them is
for the directories to say. For paths without them the way is a list of names, and then it is the place.

Symbolic links and other names of one file are outside of this. A store has one name for each place.
-/

set_option autoImplicit false

namespace EventUpload

deriving instance ReflBEq, LawfulBEq for PathPart

variable {here : Place} {p q parts : List PathPart}

/-! ## Ways

Parts are compared as they are written, without asking any store. So this section is about lists. -/

/-- The names of a place, from the root on. -/
def Place.trail (p : Place) : List PathPart := p.reverse.map .name

/-- The way from the root that parts stand for in a directory: dots do not count. -/
def wayOf (here : Place) (parts : List PathPart) : List PathPart :=
  match parts.filter (· ≠ .here) with
  | .root :: rest => rest
  | rest => here.trail ++ rest

/-- The way to which a path is resolved. -/
def resolvedParts (here : Place) (path : String) : List PathPart := wayOf here (pathParts path)

/-- Another spelling of the same way from a directory. -/
inductive Respelled (here : Place) : List PathPart → List PathPart → Prop where
  | dot (parts : List PathPart) : Respelled here (.here :: parts) parts
  | absolute (parts : List PathPart) : Respelled here (.root :: (here.trail ++ parts)) parts
  | absoluteDot (parts : List PathPart) :
      Respelled here (.root :: (here.trail ++ parts)) (.here :: parts)

/-- What may follow the first part of a path. -/
def Inner (parts : List PathPart) : Prop := ∀ part ∈ parts, part ≠ .root ∧ part ≠ .here

/-- The parts of a path: only the first one may be the root or a dot. -/
inductive Fronted : List PathPart → Prop where
  | bare {parts : List PathPart} (h : Inner parts) : Fronted parts
  | root {parts : List PathPart} (h : Inner parts) : Fronted (.root :: parts)
  | here {parts : List PathPart} (h : Inner parts) : Fronted (.here :: parts)

/-- Only the first piece of a path may stand for the root or for the directory itself. -/
theorem PathPart.inner_of_ofPiece? {piece : List Char} {part : PathPart}
    (h : PathPart.ofPiece? false piece = some part) : part ≠ .root ∧ part ≠ .here := by
  unfold PathPart.ofPiece? at h
  split at h
  · cases h
  · split at h
    · cases h
    · split at h <;> cases h <;> simp

theorem inner_pieces (pieces : List (List Char)) :
    Inner (pieces.filterMap (PathPart.ofPiece? false)) := by
  intro part hpart
  obtain ⟨piece, -, h⟩ := List.mem_filterMap.mp hpart
  exact PathPart.inner_of_ofPiece? h

/-- Pieces that say nothing are left out before the first part is looked at, so no path has a dot or a
root further on. -/
theorem fronted_pathParts (path : String) : Fronted (pathParts path) := by
  unfold pathParts
  split
  · exact .bare (by simp [Inner])
  · next first rest _ =>
    dsimp only
    split
    · exact .root (inner_pieces rest)
    · by_cases hdot : first = ['.']
      · rw [hdot]
        exact .here (inner_pieces rest)
      · have hsame : PathPart.ofPiece? true first = PathPart.ofPiece? false first := by
          simp [PathPart.ofPiece?, hdot]
        have hcons := inner_pieces (first :: rest)
        rw [List.filterMap_cons] at hcons
        rw [hsame]
        cases hfirst : PathPart.ofPiece? false first with
        | none => exact .bare (inner_pieces rest)
        | some part =>
          rw [hfirst] at hcons
          exact .bare hcons

theorem Inner.filter (h : Inner parts) : parts.filter (· ≠ .here) = parts :=
  List.filter_eq_self.mpr fun part hpart => by simp [(h part hpart).2]

theorem Inner.wayOf (h : Inner parts) : wayOf here parts = here.trail ++ parts := by
  rw [EventUpload.wayOf, h.filter]
  split
  · exact absurd rfl (h .root (by simp)).1
  · rfl

theorem Inner.wayOf_root (h : Inner parts) : EventUpload.wayOf here (.root :: parts) = parts := by
  rw [EventUpload.wayOf, List.filter_cons_of_pos (by simp), h.filter]

theorem wayOf_here (parts : List PathPart) : wayOf here (.here :: parts) = wayOf here parts := by
  rw [wayOf, List.filter_cons_of_neg (by simp)]
  rfl

theorem Inner.of_append {front : List PathPart} (h : Inner (front ++ parts)) : Inner parts :=
  fun part hpart => h part (List.mem_append_right front hpart)

/-- Another spelling stands for the same way. -/
theorem Respelled.wayOf_eq (h : Respelled here p q) (hp : Fronted p) : wayOf here p = wayOf here q := by
  cases h with
  | dot => exact wayOf_here q
  | absolute =>
    cases hp with
    | bare hinner => exact absurd rfl (hinner .root (by simp)).1
    | root hinner => rw [hinner.wayOf_root, hinner.of_append.wayOf]
  | absoluteDot parts =>
    cases hp with
    | bare hinner => exact absurd rfl (hinner .root (by simp)).1
    | root hinner => rw [hinner.wayOf_root, wayOf_here, hinner.of_append.wayOf]

/-- **Different parts** stand for the same way exactly if one is another spelling of the other. -/
theorem wayOf_eq_iff (hp : Fronted p) (hq : Fronted q) (hne : p ≠ q) :
    wayOf here p = wayOf here q ↔ Respelled here p q ∨ Respelled here q p := by
  refine ⟨fun hsame => ?_, ?_⟩
  -- One case for each pair of forms: within a form two paths differ in what follows, between forms
  -- they are respellings.
  · cases hp with
    | @bare p hp =>
      rw [hp.wayOf] at hsame
      cases hq with
      | bare hq =>
        rw [hq.wayOf] at hsame
        exact absurd (List.append_cancel_left hsame) hne
      | root hq =>
        rw [hq.wayOf_root] at hsame
        exact .inr (hsame ▸ .absolute p)
      | here hq =>
        rw [wayOf_here, hq.wayOf] at hsame
        exact .inr (List.append_cancel_left hsame ▸ .dot p)
    | @root p hp =>
      rw [hp.wayOf_root] at hsame
      cases hq with
      | bare hq =>
        rw [hq.wayOf] at hsame
        exact .inl (hsame ▸ .absolute q)
      | root hq =>
        rw [hq.wayOf_root] at hsame
        exact absurd (congrArg _ hsame) hne
      | @here q hq =>
        rw [wayOf_here, hq.wayOf] at hsame
        exact .inl (hsame ▸ .absoluteDot q)
    | @here p hp =>
      rw [wayOf_here, hp.wayOf] at hsame
      cases hq with
      | bare hq =>
        rw [hq.wayOf] at hsame
        exact .inl (List.append_cancel_left hsame ▸ .dot p)
      | root hq =>
        rw [hq.wayOf_root] at hsame
        exact .inr (hsame ▸ .absoluteDot p)
      | here hq =>
        rw [wayOf_here, hq.wayOf] at hsame
        exact absurd (congrArg _ (List.append_cancel_left hsame)) hne
  · rintro (h | h)
    · exact h.wayOf_eq hp
    · exact (h.wayOf_eq hq).symm

/-! ## Places

Following a way enters one directory after the other, and going up at the root stays there. -/

/-- The place behind a part of a path, from a place that is a directory. -/
def Place.enter (p : Place) : PathPart → Place
  | .root => []
  | .here => p
  | .up => p.tail
  | .name n => n :: p

/-- The place that parts lead to, with directories on the way. -/
def Place.follow (p : Place) (parts : List PathPart) : Place := parts.foldl Place.enter p

theorem Place.follow_append (p : Place) (parts more : List PathPart) :
    p.follow (parts ++ more) = (p.follow parts).follow more := List.foldl_append

/-- Names only lead further on. -/
theorem Place.trail_follow {p : Place} (h : ∀ part ∈ parts, ∃ n, part = .name n) :
    (p.follow parts).trail = p.trail ++ parts := by
  induction parts generalizing p with
  | nil => exact (List.append_nil _).symm
  | cons part rest ih =>
    obtain ⟨n, rfl⟩ := h part List.mem_cons_self
    have hrest := ih (p := n :: p) fun part hpart => h part (List.mem_cons_of_mem _ hpart)
    calc (Place.follow p (.name n :: rest)).trail
        = (Place.follow (n :: p) rest).trail := rfl
      _ = Place.trail (n :: p) ++ rest := hrest
      _ = p.trail ++ .name n :: rest := by simp [Place.trail]

theorem Place.trail_injective : Function.Injective Place.trail := by
  intro p q h
  exact List.reverse_injective (List.map_injective_iff.mpr (fun _ _ hn => PathPart.name.inj hn) h)

/-- The names of a place lead to it from the root. -/
theorem Place.follow_trail (p : Place) : Place.follow [] p.trail = p := by
  refine Place.trail_injective ?_
  rw [Place.trail_follow fun part hpart => ?_]
  · rfl
  · obtain ⟨n, -, rfl⟩ := List.mem_map.mp hpart
    exact ⟨n, rfl⟩

/-- Parts lead where their way leads from the root. -/
theorem Fronted.follow_wayOf (hp : Fronted p) : Place.follow [] (wayOf here p) = here.follow p := by
  cases hp with
  | bare hp => rw [hp.wayOf, Place.follow_append, Place.follow_trail]
  | root hp =>
    rw [hp.wayOf_root]
    rfl
  | @here p hp =>
    rw [wayOf_here, hp.wayOf, Place.follow_append, Place.follow_trail]
    rfl

/-- A way that never goes up consists of names. -/
theorem Fronted.names_wayOf (hp : Fronted p) (hup : .up ∉ p) :
    ∀ part ∈ wayOf here p, ∃ n, part = .name n := by
  have hinner {parts : List PathPart} (h : Inner parts) (hup : .up ∉ parts) :
      ∀ part ∈ parts, ∃ n, part = .name n := by
    intro part hpart
    cases part with
    | root => exact absurd rfl (h _ hpart).1
    | here => exact absurd rfl (h _ hpart).2
    | up => exact absurd hpart hup
    | name n => exact ⟨n, rfl⟩
  have hbehind {parts : List PathPart} (h : Inner parts) (hup : .up ∉ parts) :
      ∀ part ∈ here.trail ++ parts, ∃ n, part = .name n := by
    intro part hpart
    rcases List.mem_append.mp hpart with hpart | hpart
    · obtain ⟨n, -, rfl⟩ := List.mem_map.mp hpart
      exact ⟨n, rfl⟩
    · exact hinner h hup part hpart
  cases hp with
  | bare hp =>
    rw [hp.wayOf]
    exact hbehind hp hup
  | root hp =>
    rw [hp.wayOf_root]
    exact hinner hp fun h => hup (List.mem_cons_of_mem _ h)
  | here hp =>
    rw [wayOf_here, hp.wayOf]
    exact hbehind hp fun h => hup (List.mem_cons_of_mem _ h)

/-- **Paths that never go up** lead to the same place exactly if they are resolved to the same way. -/
theorem follow_eq_iff (hp : Fronted p) (hq : Fronted q) (hup : .up ∉ p) (hup' : .up ∉ q) :
    here.follow p = here.follow q ↔ wayOf here p = wayOf here q := by
  refine ⟨fun hsame => ?_, fun hsame => ?_⟩
  · rw [← hp.follow_wayOf, ← hq.follow_wayOf] at hsame
    have htrail := congrArg Place.trail hsame
    rw [Place.trail_follow (hp.names_wayOf hup), Place.trail_follow (hq.names_wayOf hup')] at htrail
    exact List.append_cancel_left htrail
  · rw [← hp.follow_wayOf, ← hq.follow_wayOf, hsame]

/-- Where a path is found is where its parts lead. -/
theorem FileStore.eq_of_resolve {s : FileStore} {path : String} {place : Place}
    (h : s.resolve path = .ok place) : place = s.here.follow (pathParts path) := by
  have hwalk (parts : List PathPart) :
      ∀ start, s.walk start parts = .ok place → place = start.follow parts := by
    induction parts with
    | nil => exact fun start h => (Except.ok.inj h).symm
    | cons part rest ih =>
      intro start h
      unfold walk at h
      split at h
      · cases h
      · cases part with
        | root => exact ih _ h
        | here => exact ih _ h
        | up => exact ih _ h
        | name n =>
          dsimp only at h
          split at h
          · cases h
          · exact ih _ h
      · cases h
  unfold resolve at h
  split at h
  · cases h
  · split at h
    · cases h
    · exact hwalk _ _ h

/-! ## Files of options that may be used

The check of the options compares the parts of paths. It lets two paths pass that lead to the same place
if they differ in front, and this section says exactly when. -/

namespace UploadOptions

theorem mem_files {o : UploadOptions} {e : Encoding} {f : FileOptions} :
    (e, f) ∈ o.files ↔ o.file? e = some f := by
  simp only [files, List.mem_filterMap, Option.map_eq_some_iff, Prod.mk.injEq]
  refine ⟨?_, fun h => ⟨e, by cases e <;> simp, f, h, rfl, rfl⟩⟩
  rintro ⟨e, -, f, h, rfl, rfl⟩
  exact h

/-- Files without problems have paths of different parts, none of which is taken. -/
theorem pairwise_of_fileProblems {files : List (Encoding × FileOptions)} {taken : List (List PathPart)}
    (h : fileProblems taken files = []) :
    (∀ m ∈ files, pathParts m.2.path ∉ taken) ∧
      files.Pairwise fun m n => pathParts m.2.path ≠ pathParts n.2.path := by
  induction files generalizing taken with
  | nil => exact ⟨by simp, .nil⟩
  | cons m files ih =>
    obtain ⟨e, f⟩ := m
    unfold fileProblems at h
    split at h
    · cases h
    · dsimp only at h
      split at h
      · cases h
      · next htaken =>
        obtain ⟨hnot, hpairwise⟩ := ih h
        refine ⟨List.forall_mem_cons.mpr ⟨by simpa using htaken, fun m hm hmem => ?_⟩,
          .cons (fun m hm heq => ?_) hpairwise⟩
        · exact hnot m hm (List.mem_cons_of_mem _ hmem)
        · exact hnot m hm (heq ▸ List.mem_cons_self)

/-- **Files of options that may be used** have paths of different parts. -/
theorem pathParts_ne_of_check {o : UploadOptions} {e e' : Encoding} {f g : FileOptions}
    (hcheck : o.check = .ok ()) (hf : o.file? e = some f) (hg : o.file? e' = some g) (hne : e ≠ e') :
    pathParts f.path ≠ pathParts g.path := by
  have hproblems : o.problems = [] := by
    by_contra hproblems
    rw [check, if_neg (by simpa using hproblems)] at hcheck
    cases hcheck
  have hfiles : fileProblems [] o.files = [] := by
    unfold problems at hproblems
    exact (List.append_eq_nil_iff.mp (List.append_eq_nil_iff.mp hproblems).1).1
  have hsymm : Std.Symm fun m n : Encoding × FileOptions =>
      pathParts m.2.path ≠ pathParts n.2.path := ⟨fun _ _ h => h.symm⟩
  exact (pairwise_of_fileProblems hfiles).2.forall (mem_files.mpr hf) (mem_files.mpr hg)
    fun h => hne (congrArg Prod.fst h)

end UploadOptions

/-! ## Sinks for files

The writers of a command have their places from the store in which the files were opened; what was said
of paths is said of them here. -/

/-- The place of the file that a sink writes, if it writes one. -/
def Sink.place? (s : Sink) : Option Place :=
  match s.body with
  | .channel c =>
    match c.destination with
    | .file w => some w.place
    | _ => none
  | .responder _ => none

theorem Encoding.sinkName_injective : Function.Injective Encoding.sinkName := by
  intro e e' h
  cases e <;> cases e' <;> first | rfl | exact absurd h (by decide)

/-- Every sink that is opened writes where the path of its file leads. -/
theorem place_of_openFiles {files : List (Encoding × FileOptions)} {outside : Outside} {s : Sink}
    (hs : s ∈ (openFiles files outside).2.1) : ∃ m ∈ files, s.name = m.1.sinkName ∧
      s.place? = some (outside.files.here.follow (pathParts m.2.path)) := by
  induction files generalizing outside with
  | nil => exact absurd hs (by simp [openFiles])
  | cons m files ih =>
    obtain ⟨e, f⟩ := m
    rw [openFiles] at hs
    cases hcreate : FileWriter.create outside.files f.path e with
    | error fault =>
      rw [hcreate] at hs
      obtain ⟨m, hm, hfound⟩ := ih hs
      exact ⟨m, List.mem_cons_of_mem _ hm, hfound⟩
    | ok created =>
      obtain ⟨⟨store, place⟩, hmade, hw⟩ := exists_of_bind_eq_ok hcreate
      cases hw
      rw [hcreate] at hs
      rcases List.mem_cons.mp hs with rfl | hs
      · refine ⟨(e, f), List.mem_cons_self, rfl, ?_⟩
        rw [← FileStore.eq_of_resolve (FileStore.create_cases hmade).1]
        rfl
      · obtain ⟨m, hm, hname, hplace⟩ := ih hs
        have hhere : store.here = outside.files.here := (FileStore.create_aside hmade).1.here
        exact ⟨m, List.mem_cons_of_mem _ hm, hname, by rw [hplace]; simp only [hhere]⟩

namespace Uploader

/-- Every sink of a command that writes a file writes where the path of one of its files leads. -/
theorem place_of_sinksFor {u : Uploader} {o : UploadOptions} {ids : CommandIds} {s : Sink}
    {e : Encoding} {f : FileOptions} (hs : s ∈ (u.sinksFor o ids).2) (hname : s.name = e.sinkName)
    (hf : o.file? e = some f) :
    s.place? = some (u.lifecycle.outside.files.here.follow (pathParts f.path)) := by
  obtain ⟨v, connection, l, hconnect, -, -, heq⟩ := u.sinksFor_cases o ids
  have houtside : v.lifecycle.outside = u.lifecycle.outside := by
    rcases hconnect with ⟨-, rfl, -⟩ | ⟨b, -, hconnect⟩
    · rfl
    · obtain ⟨posts, hposts⟩ := says_connect hconnect
      rw [hposts]
  rw [heq, houtside] at hs
  rcases List.mem_append.mp hs with hs | hs
  · obtain ⟨⟨e', g⟩, hm, hname', hplace⟩ := place_of_openFiles hs
    obtain rfl := Encoding.sinkName_injective (hname.symm.trans hname')
    cases hf.symm.trans (UploadOptions.mem_files.mp hm)
    exact hplace
  · obtain ⟨b, -, hs⟩ := Option.bind_eq_some_iff.mp (Option.mem_toList.mp hs)
    obtain ⟨k, -, rfl⟩ := Option.map_eq_some_iff.mp hs
    have hbackend : backendSinkName = e.sinkName := hname
    cases e <;> exact absurd hbackend (by decide)

end Uploader

/-- **Two files of options that may be used**, for any working directory. Their paths are resolved to the
same way exactly if one is another spelling of the other: with a dot in front, or from the root on. The
sinks that a command opens for them write where the paths lead; so if the paths never go up, the two sinks
write into the same file in this case, and only then. -/
theorem UploadOptions.files_apart {o : UploadOptions} (hcheck : o.check = .ok ()) {e e' : Encoding}
    {f g : FileOptions} (hf : o.file? e = some f) (hg : o.file? e' = some g) (hne : e ≠ e') :
    (∀ here, resolvedParts here f.path = resolvedParts here g.path ↔
      Respelled here (pathParts f.path) (pathParts g.path) ∨
        Respelled here (pathParts g.path) (pathParts f.path)) ∧
    ∀ (u : Uploader) (ids : CommandIds), ∀ s ∈ (u.sinksFor o ids).2, ∀ t ∈ (u.sinksFor o ids).2,
      s.name = e.sinkName → t.name = e'.sinkName →
        s.place? = some (u.lifecycle.outside.files.here.follow (pathParts f.path)) ∧
        t.place? = some (u.lifecycle.outside.files.here.follow (pathParts g.path)) ∧
        (.up ∉ pathParts f.path → .up ∉ pathParts g.path → (s.place? = t.place? ↔
          resolvedParts u.lifecycle.outside.files.here f.path =
            resolvedParts u.lifecycle.outside.files.here g.path)) := by
  have hparts := pathParts_ne_of_check hcheck hf hg hne
  refine ⟨fun here => wayOf_eq_iff (fronted_pathParts _) (fronted_pathParts _) hparts, ?_⟩
  intro u ids s hs t ht hname hname'
  have hplace := Uploader.place_of_sinksFor hs hname hf
  have hplace' := Uploader.place_of_sinksFor ht hname' hg
  refine ⟨hplace, hplace', fun hup hup' => ?_⟩
  rw [hplace, hplace', Option.some.injEq]
  exact follow_eq_iff (fronted_pathParts _) (fronted_pathParts _) hup hup'

/-- Options with a text file and a JSON file. -/
def filedAt (text json : String) : UploadOptions :=
  { UploadOptions.standard with textFile := some (.at text), jsonFile := some (.at json) }

/-- The sinks of a command that writes two files. -/
def filingSinks (text json : String) : List Sink :=
  ((Uploader.new Uploader.noRoute .fresh).sinksFor (filedAt text json) ⟨"request", "first"⟩).2

/-- With one path from the directory and one from the root there are two sinks that write the same file. -/
theorem files_apart_fromRoot : (filedAt "bep.txt" "/work/here/bep.txt").check = .ok () ∧
    resolvedParts ["here", "work"] "bep.txt" = resolvedParts ["here", "work"] "/work/here/bep.txt" ∧
    ∃ s ∈ filingSinks "bep.txt" "/work/here/bep.txt", ∃ t ∈ filingSinks "bep.txt" "/work/here/bep.txt",
      s.name = "text_file" ∧ t.name = "json_file" ∧ s.place? = t.place? := by
  have hcheck : (filedAt "bep.txt" "/work/here/bep.txt").check = .ok () := by decide
  have htext : (filedAt "bep.txt" "/work/here/bep.txt").file? .text = some (.at "bep.txt") := rfl
  have hjson : (filedAt "bep.txt" "/work/here/bep.txt").file? .json =
    some (.at "/work/here/bep.txt") := rfl
  obtain ⟨hway, hplaces⟩ := UploadOptions.files_apart hcheck htext hjson nofun
  have hsame := (hway ["here", "work"]).mpr (.inr (.absolute [.name "bep.txt"]))
  obtain ⟨s, t, hsinks, hname, hname'⟩ : ∃ s t, filingSinks "bep.txt" "/work/here/bep.txt" = [s, t] ∧
      s.name = "text_file" ∧ t.name = "json_file" := ⟨_, _, rfl, rfl, rfl⟩
  have hs : s ∈ filingSinks "bep.txt" "/work/here/bep.txt" := by simp [hsinks]
  have ht : t ∈ filingSinks "bep.txt" "/work/here/bep.txt" := by simp [hsinks]
  exact ⟨hcheck, hsame, s, hs, t, ht, hname, hname',
    ((hplaces _ _ s hs t ht hname hname').2.2 (by decide) (by decide)).mpr hsame⟩

/-- A dot in front of a path keeps nobody from using the same file twice. -/
theorem not_files_apart_dotInFront :
    ¬ ∀ (o : UploadOptions) (here : Place), o.check = .ok () → ∀ (e e' : Encoding) (f g : FileOptions),
      o.file? e = some f → o.file? e' = some g → e ≠ e' →
        resolvedParts here f.path ≠ resolvedParts here g.path := by
  intro hclaim
  have hcheck : (filedAt "bep.out" "./bep.out").check = .ok () := by decide
  exact hclaim _ ["here", "work"] hcheck .text .json _ _ rfl rfl nofun (by decide)

end EventUpload
