import EventUpload.Proofs.Settings.Leaves
import EventUpload.Proofs.Settings.Unplaced

/-!
# Settings in layers

Each leaf of the settings that hold is what the highest layer says that says anything about it: the
environment, above the file of the workspace, above the one of the user, above the lowest layer
(`Settings.load_layered`). What other layers say about the leaf, and what any layer says about other
leaves, does not matter; what no layer says is left to the defaults of the records.

This is so for layers that lead to the leaf: they have tables wherever they mention its tables, and
something else at its end, put whole. A path with a number in brackets would change an item of a list
that a lower layer gives, so a layer with such a path on the way does not lead there.

A file that is named takes the place of both files. It makes the settings that its content would make as
that of the workspace, if the user had none; where the content stands shows in complaints only.

The parts are in the modules before: what layers leave at a path (`Settings/Merging`), how a record
reads its leaves (`Settings/Records`), which leaves there are (`Settings/Leaves`), and that places do
not matter (`Settings/Unplaced`). What is added here is that the lowest layer leads to every leaf,
whatever the others do, and how files and the environment come to be layers.

The lowest layer gives values for some of the leaves and none for others. A leaf that it does not
mention may still have a default, and the two need not agree on when they hold: a default of a record
that need not be there waits for its table.
-/

set_option autoImplicit false

namespace EventUpload

open Setting

theorem FileStore.optionalLayer_of_file {s : FileStore} {name : String}
    {found : String × SettingsForm} (h : s.settingsFile name = .ok found) :
    s.optionalLayer name = s.settingsLayer name := by
  unfold optionalLayer
  rw [h]

namespace Settings

/-! ## The lowest layer -/

/-- The members of the two tables that the lowest layer has data at. -/
def baseKeys : List (String × String) := [
  ("upload", "upload_mode"), ("upload", "keep_backend_connections"),
  ("upload", "previous_invocation_grace_secs"), ("upload", "crash_grace_secs"),
  ("upload", "shutdown_grace_secs"), ("upload", "max_blocking_wait_secs"), ("logging", "level")]

/-- The members of the two tables that are tables themselves. -/
def innerTables : List (String × String) := [
  ("upload", "text_file"), ("upload", "json_file"), ("upload", "binary_file"),
  ("upload", "backend"), ("logging", "modules")]

theorem exists_baseKey : ∀ e ∈ baseLayer, e.2.isTable = false
    ∧ ∃ k ∈ baseKeys, stepsTo e.1 = [.member k.1, .member k.2] := by
  decide +kernel

theorem baseKey_not_mem_innerTables :
    ∀ k ∈ baseKeys, (Text.lower k.1, Text.lower k.2) ∉ innerTables := by
  decide +kernel

theorem baseLayer_leads_member (table key : String) : baseLayer.Leads [table, key] := by
  intro e he
  obtain ⟨hdatum, k, -, hsteps⟩ := exists_baseKey e he
  rw [hsteps]
  exact fun _ _ => hdatum

theorem baseLayer_leads_inner {table inner : String} (h : (table, inner) ∈ innerTables)
    (key : String) : baseLayer.Leads [table, inner, key] := by
  intro e he
  obtain ⟨-, k, hk, hsteps⟩ := exists_baseKey e he
  rw [hsteps]
  exact fun htable hinner => absurd (htable ▸ hinner ▸ h) (baseKey_not_mem_innerTables k hk)

theorem IsLeaf.baseLayer_leads {x : Leaf Settings} (h : IsLeaf x) : baseLayer.Leads x.path := by
  cases h with
  | upload | log => exact baseLayer_leads_member _ _
  | file e => cases e <;> exact baseLayer_leads_inner (by decide +kernel) _
  | backend | module => exact baseLayer_leads_inner (by decide +kernel) _

/-! ## Layers -/

theorem IsLeaf.exists_outer {x : Leaf Settings} (h : IsLeaf x) :
    ∃ k p q, x.path = k :: p ∧ x.table = k :: q := by
  cases h <;> exact ⟨_, _, _, rfl, rfl⟩

/-- What holds is, leaf by leaf, what the highest layer gives. -/
theorem IsLeaf.holds {x : Leaf Settings} (hx : IsLeaf x) {layers : List Layer} {r : Settings}
    (hr : ofLayers layers = .ok r) (h : ∀ layer ∈ layers, layer.Leads x.path) :
    x.Holds r .standard (Layer.highest? (baseLayer :: layers)) := by
  obtain ⟨k, p, q, hpath, htable⟩ := hx.exists_outer
  have hleads : ∀ layer ∈ baseLayer :: layers, layer.Leads (k :: p) := by
    rw [← hpath]
    exact List.forall_mem_cons.mpr ⟨hx.baseLayer_leads, h⟩
  obtain ⟨hclear, hfound⟩ := Layer.stack_clear hleads
  have hholds := hx.readBy _ r (hpath ▸ hclear) hr
  have hinside : x.table <+: k :: p := hpath ▸ List.prefix_append x.table [x.key]
  have hatPath := hfound x.path (hpath ▸ List.prefix_rfl) (by simp [hpath])
  have hatTable := hfound x.table hinside (by simp [htable])
  rw [Leaf.Holds, hatPath, hatTable] at hholds
  exact hholds

/-! ## Files -/

/-- The settings of the user. -/
def userLayer (s : FileStore) (env : Environment) : Except SettingFault Layer :=
  match Environment.userFile? env with
  | some path => if s.holds path then s.optionalLayer path else .ok []
  | none => .ok []

/-- The settings of a workspace. -/
def workspaceLayer (s : FileStore) (workspace : String) : Except SettingFault Layer :=
  let path := inDirectory workspace workspaceFile
  if s.holds path then s.optionalLayer path else .ok []

theorem workspaceLayer_of_file {s : FileStore} {workspace : String}
    {found : String × SettingsForm} (hholds : s.holds (inDirectory workspace workspaceFile) = true)
    (hfound : s.settingsFile (inDirectory workspace workspaceFile) = .ok found) :
    workspaceLayer s workspace = s.settingsLayer (inDirectory workspace workspaceFile) :=
  (if_pos hholds).trans (FileStore.optionalLayer_of_file hfound)

theorem fileLayers_eq (s : FileStore) (env : Environment) (workspace : String) :
    fileLayers s env workspace = userLayer s env >>= fun user =>
      workspaceLayer s workspace >>= fun own => pure [user, own] := by
  unfold fileLayers userLayer workspaceLayer
  cases Environment.userFile? env with
  | none =>
    dsimp only
    cases s.holds (inDirectory workspace workspaceFile) <;> rfl
  | some path =>
    dsimp only
    cases s.holds path <;> cases s.holds (inDirectory workspace workspaceFile) <;> rfl

theorem load_eq (s : FileStore) (env : Environment) (workspace : String) :
    load s env workspace = userLayer s env >>= fun user => workspaceLayer s workspace >>= fun own =>
      ofLayers [user, own, Environment.layer env] := by
  simp only [load, fileLayers_eq, bind_assoc, pure_bind, List.cons_append, List.nil_append]

/-- A layer from a file and those above it: only what the file holds matters. -/
theorem ofLayers_congr {layer layer' : Except SettingFault Layer}
    (h : Layer.content layer = Layer.content layer') (above : List Layer) :
    (layer >>= fun l => ofLayers (l :: above)).mapError SettingFault.unplaced
      = (layer' >>= fun l => ofLayers (l :: above)).mapError SettingFault.unplaced := by
  have hcontent : ∀ l : Except SettingFault Layer,
      (l >>= fun l => ofLayers (l :: above)).mapError SettingFault.unplaced
        = Layer.content l >>= fun l => ofLayers (l :: above.map Layer.unplaced) := by
    intro l
    cases l with
    | error f => rfl
    | ok l => exact ofLayers_unplaced (l :: above)
  rw [hcontent, hcontent, h]

/-- A user without settings changes nothing. -/
theorem ofLayers_nil (layers : List Layer) : ofLayers ([] :: layers) = ofLayers layers := by
  have habove : ∀ root, Layer.above [] root = root := fun _ => rfl
  rw [ofLayers, ofLayers, Layer.stack, Layer.stack, List.foldl_cons, List.foldl_cons,
    List.foldl_cons, habove]

theorem load_of_no_user {s : FileStore} {env : Environment}
    (h : ∀ path ∈ Environment.userFile? env, s.holds path = false) (workspace : String) :
    load s env workspace
      = workspaceLayer s workspace >>= fun own => ofLayers [own, Environment.layer env] := by
  have huser : userLayer s env = .ok [] := by
    unfold userLayer
    cases hpath : Environment.userFile? env with
    | none => rfl
    | some path => simp [h path hpath]
  rw [load_eq, huser]
  exact congrArg (workspaceLayer s workspace >>= ·) (funext fun own => ofLayers_nil _)

theorem load_eq_loadFile {s t : FileStore} {env : Environment} {name workspace : String}
    (huser : ∀ path ∈ Environment.userFile? env, t.holds path = false)
    (hown : Layer.content (workspaceLayer t workspace) = Layer.content (s.settingsLayer name)) :
    (load t env workspace).mapError SettingFault.unplaced
      = (loadFile s env name).mapError SettingFault.unplaced := by
  rw [load_of_no_user huser]
  exact ofLayers_congr hown [Environment.layer env]

theorem content_settingsLayer {s t : FileStore} {name name' path path' : String}
    {form : SettingsForm} {bytes : List UInt8} (hfile : s.settingsFile name = .ok (path, form))
    (hread : s.read path = .ok bytes) (hfile' : t.settingsFile name' = .ok (path', form))
    (hread' : t.read path' = .ok bytes) :
    Layer.content (t.settingsLayer name') = Layer.content (s.settingsLayer name) := by
  have hs : s.settingsLayer name = form.read (s.fromHere path) (textOfFile bytes) := by
    simp only [FileStore.settingsLayer, hfile, hread, bind, Except.bind]
  have ht : t.settingsLayer name' = form.read (t.fromHere path') (textOfFile bytes) := by
    simp only [FileStore.settingsLayer, hfile', hread', bind, Except.bind]
  rw [hs, ht]
  exact form.content_read _ _ _

/-! ## Where each option comes from -/

/-- Whenever settings are loaded, every leaf of them that all layers lead to is what the highest
layer gives that gives something at its path. If none does, its default holds as soon as one of them
mentions its table, and it is as in the standard settings if none does that either.

Settings from a file that is named, whatever else there is, are those that the same content of a
workspace gives without settings of the user, up to the places that a complaint names; and the same
text in the same form is the same content. -/
theorem load_layered :
    (∀ (s : FileStore) (env : Environment) (workspace : String) (r : Settings),
      load s env workspace = .ok r →
      ∃ user own, userLayer s env = .ok user ∧ workspaceLayer s workspace = .ok own
        ∧ ∀ x, IsLeaf x → (∀ layer ∈ [user, own, Environment.layer env], layer.Leads x.path) →
          x.Holds r .standard (Layer.highest? [baseLayer, user, own, Environment.layer env]))
    ∧ (∀ (s t : FileStore) (env : Environment) (name workspace : String),
      (∀ path ∈ Environment.userFile? env, t.holds path = false) →
      Layer.content (workspaceLayer t workspace) = Layer.content (s.settingsLayer name) →
      (load t env workspace).mapError SettingFault.unplaced
        = (loadFile s env name).mapError SettingFault.unplaced)
    ∧ ∀ (s t : FileStore) (name workspace path path' : String) (form : SettingsForm)
      (bytes : List UInt8), s.settingsFile name = .ok (path, form) → s.read path = .ok bytes →
      t.holds (inDirectory workspace workspaceFile) = true →
      t.settingsFile (inDirectory workspace workspaceFile) = .ok (path', form) →
      t.read path' = .ok bytes →
      Layer.content (workspaceLayer t workspace) = Layer.content (s.settingsLayer name) := by
  refine ⟨?_, ?_, ?_⟩
  · intro s env workspace r hr
    rw [load_eq] at hr
    obtain ⟨user, huser, hr⟩ := Json.exists_of_bind hr
    obtain ⟨own, hown, hr⟩ := Json.exists_of_bind hr
    exact ⟨user, own, huser, hown, fun x hx hleads => hx.holds hr hleads⟩
  · intro s t env name workspace huser hown
    exact load_eq_loadFile huser hown
  · intro s t name workspace path path' form bytes hfile hread hholds hfile' hread'
    rw [workspaceLayer_of_file hholds hfile']
    exact content_settingsLayer hfile hread hfile' hread'

/-- The settings of a user. -/
def userText : List UInt8 := "[upload]\ncrash_grace_secs = 3\n".toUTF8.toList

def userPath : String := "/home/.config/bepstream/config.toml"

/-- A user with settings, in a workspace with others. -/
def withUser : FileStore where
  here := ["ws"]
  nodes := [([], .directory), (["home"], .directory), ([".config", "home"], .directory),
    (["bepstream", ".config", "home"], .directory),
    (["config.toml", "bepstream", ".config", "home"], .file userText), (["ws"], .directory),
    ([".bepstream.toml", "ws"], .file "[upload]\ncrash_grace_secs = 4\n".toUTF8.toList)]

/-- The settings of that user as those of a workspace. -/
def withoutUser : FileStore where
  here := ["ws"]
  nodes := [([], .directory), (["ws"], .directory), ([".bepstream.toml", "ws"], .file userText)]

def environmentAbove : Environment :=
  [("HOME", "/home"), ("BEPSTREAM__UPLOAD__SHUTDOWN_GRACE_SECS", "8")]

def crashGrace : Leaf Settings :=
  .under uploadField
    (RecordField.leaf ⟨"crash_grace_secs", false, toWord, (·.crashGraceSecs)⟩ .standard)

/-- The workspace of the user has the last word on a grace period; and what the user's file holds
does the same for a workspace without a user. -/
theorem load_layered_workspace :
    (∃ user own r, load withUser environmentAbove "" = .ok r
      ∧ (∀ layer ∈ [user, own, Environment.layer environmentAbove], layer.Leads crashGrace.path)
      ∧ crashGrace.Holds r .standard
        (Layer.highest? [baseLayer, user, own, Environment.layer environmentAbove])
      ∧ r.upload.crashGraceSecs = 4)
    ∧ (load withoutUser environmentAbove "").mapError SettingFault.unplaced
      = (loadFile withUser environmentAbove userPath).mapError SettingFault.unplaced := by
  constructor
  · have hvalue : (load withUser environmentAbove "").toOption.map (·.upload.crashGraceSecs)
        = some 4 := by decide +kernel
    have hleads : ∀ layer ∈ [(userLayer withUser environmentAbove).toOption.getD [],
        (workspaceLayer withUser "").toOption.getD [], Environment.layer environmentAbove],
        layer.Leads crashGrace.path := by decide +kernel
    cases hr : load withUser environmentAbove "" with
    | error f => rw [hr] at hvalue; cases hvalue
    | ok r =>
      obtain ⟨user, own, huser, hown, hholds⟩ := load_layered.1 _ _ _ r hr
      rw [huser, hown] at hleads
      rw [hr] at hvalue
      have hleaf : IsLeaf crashGrace := .upload (List.mem_of_getElem? (i := 3) rfl)
      exact ⟨user, own, r, rfl, hleads, hholds crashGrace hleaf hleads, Option.some.inj hvalue⟩
  · have hcontent := load_layered.2.2 withUser withoutUser userPath "" userPath
      "/ws/.bepstream.toml" .toml userText (by decide +kernel) (by decide +kernel)
      (by decide +kernel) (by decide +kernel) (by decide +kernel)
    exact load_layered.2.1 withUser withoutUser environmentAbove userPath ""
      (by decide +kernel) hcontent

end Settings

end EventUpload
