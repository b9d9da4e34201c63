import EventUpload.Proofs.Settings.Records
import EventUpload.Settings.Source

/-!
# Settings without their places

Every part of the settings remembers where it came from. Nothing that is decided depends on it: merging
keeps the places of what it merges, and readers look at them for complaints only. So the settings of two
stacks of layers that differ in no more than the places of their parts are the same, or there are none
for reasons that differ in no more than the places that they name (`Settings.ofLayers_unplaced`).

Forgetting the places is a map on settings, on layers and on faults, and every function on the way
commutes with it: what merges is carried to itself (`Layer.stack_unplaced`), and what reads is a `Blind`
decoder, record by record.

A decoder that is blind stays so when it is put into a bigger one, so there is one lemma for each way to
build decoders and a line for each record of the program. A new option needs nothing here, as long as
its decoder is built in one of these ways.

The faults differ in the place and in nothing else: the same member is at fault for the same cause, and
the path of names in front of it is the same. `Layer.content` is what two files have in common that hold
the same text in different places.
-/

set_option autoImplicit false

namespace EventUpload

/-! ## Forgetting places

The three functions go over a setting, its items and its members together, as settings do themselves.
The equations with `map` are what the other lemmas use. -/

namespace Setting

mutual

/-- A setting whose parts remember no places. -/
def unplaced : Setting → Setting
  | datum _ d => datum none d
  | list _ items => list none (unplacedItems items)
  | table _ members => table none (unplacedMembers members)

def unplacedItems : List Setting → List Setting
  | [] => []
  | v :: rest => unplaced v :: unplacedItems rest

def unplacedMembers : List (String × Setting) → List (String × Setting)
  | [] => []
  | (k, v) :: rest => (k, unplaced v) :: unplacedMembers rest

end

theorem unplacedItems_eq_map (items : List Setting) : unplacedItems items = items.map unplaced := by
  induction items with
  | nil => rfl
  | cons v rest ih => rw [unplacedItems, ih, List.map_cons]

theorem unplacedMembers_eq_map (members : List (String × Setting)) :
    unplacedMembers members = members.map fun m => (m.1, m.2.unplaced) := by
  induction members with
  | nil => rfl
  | cons m rest ih => rw [unplacedMembers, ih, List.map_cons]

end Setting

/-- A fault that names no place. -/
def SettingFault.unplaced : SettingFault → SettingFault
  | wrongType given expected key _ => .wrongType given expected key none
  | malformed cause _ => .malformed cause ""
  | shape message => .shape message
  | noFile message => .noFile message

def Layer.unplaced (layer : Layer) : Layer := Setting.unplacedMembers layer

namespace Setting

/-! ## Merging

What is put over a setting keeps its own places, and what is not touched keeps its. Which of two members
wins is decided by names alone, and this is why the places can be forgotten before or after. -/

theorem lookup_unplacedMembers (key : String) (members : List (String × Setting)) :
    (unplacedMembers members).lookup key = (members.lookup key).map unplaced := by
  induction members with
  | nil => rfl
  | cons m rest ih =>
    obtain ⟨k, v⟩ := m
    cases h : key == k <;> simp [unplacedMembers, List.lookup_cons, h, ih]

theorem unplacedMembers_setMember (key : String) (v : Setting)
    (members : List (String × Setting)) :
    unplacedMembers (setMember key v members)
      = setMember key v.unplaced (unplacedMembers members) := by
  induction members with
  | nil => rfl
  | cons m rest ih => by_cases h : m.1 = key <;> simp [setMember, unplacedMembers, h, ih]

theorem asMembers_unplaced (v : Setting) :
    v.unplaced.asMembers = (none, unplacedMembers v.asMembers.2) := by
  cases v <;> rfl

theorem unplaced_overMember {key : String} {absence : Setting} {f g : Setting → Setting}
    (h : ∀ v, (f v).unplaced = g v.unplaced) (v : Setting) :
    (overMember key absence f v).unplaced = overMember key absence.unplaced g v.unplaced := by
  have hthere : ((v.asMembers.2.lookup (Text.lower key)).getD absence).unplaced
      = ((unplacedMembers v.asMembers.2).lookup (Text.lower key)).getD absence.unplaced := by
    rw [lookup_unplacedMembers, Option.getD_map]
  simp only [overMember, unplaced, asMembers_unplaced, unplacedMembers_setMember, h, hthere]

mutual

theorem unplaced_put (key : String) (value root : Setting) :
    (put key value root).unplaced = put key value.unplaced root.unplaced := by
  cases value with
  | table origin members => exact unplaced_overMember (unplaced_putAll members) root
  | datum | list =>
    rw [put_of_not_isTable rfl, unplaced, put_of_not_isTable rfl]
    refine unplaced_overMember ?_ root
    exact fun _ => rfl

theorem unplaced_putAll (members : List (String × Setting)) (root : Setting) :
    (putAll members root).unplaced = putAll (unplacedMembers members) root.unplaced := by
  cases members with
  | nil => rfl
  | cons m rest =>
    rw [putAll, unplaced_putAll rest, unplaced_put m.1 m.2 root]
    rfl

end

theorem map_modify {h f g : Setting → Setting} (hfg : ∀ v, h (f v) = g (h v)) (i : Nat)
    (items : List Setting) : (items.modify i f).map h = (items.map h).modify i g := by
  induction items generalizing i with
  | nil => simp
  | cons v rest ih => cases i <;> simp [hfg, ih]

theorem unplaced_overItem {f g : Setting → Setting} (h : ∀ v, (f v).unplaced = g v.unplaced)
    (i : Nat) (v : Setting) : (overItem i f v).unplaced = overItem i g v.unplaced := by
  cases v <;> simp [overItem, unplaced, unplacedItems_eq_map, map_modify h, absent]

theorem unplaced_atSteps (value : Setting) (steps : List PathStep) (v : Setting) :
    (putAlong.atSteps value steps v).unplaced
      = putAlong.atSteps value.unplaced steps v.unplaced := by
  induction steps generalizing v with
  | nil => rfl
  | cons step steps ih =>
    cases step with
    | item i => exact unplaced_overItem ih i v
    | member key =>
      cases steps with
      | nil => exact unplaced_put key value v
      | cons next steps => exact unplaced_overMember ih v

theorem unplaced_putAlong (value : Setting) (key : String) (steps : List PathStep)
    (root : Setting) :
    (putAlong value key steps root).unplaced = putAlong value.unplaced key steps root.unplaced := by
  cases steps with
  | nil => exact unplaced_put key value root
  | cons step steps => exact unplaced_overMember (unplaced_atSteps value (step :: steps)) root

end Setting

theorem Layer.above_unplaced (layer : Layer) (root : Setting) :
    (Layer.above layer root).unplaced = Layer.above layer.unplaced root.unplaced := by
  induction layer generalizing root with
  | nil => rfl
  | cons e rest ih =>
    refine (ih _).trans ?_
    rw [Setting.unplaced_putAlong]
    rfl

theorem Layer.stack_unplaced (layers : List Layer) :
    (Layer.stack layers).unplaced = Layer.stack (layers.map Layer.unplaced) := by
  suffices h : ∀ root : Setting,
      (layers.foldl (fun root layer => Layer.above layer root) root).unplaced
        = (layers.map Layer.unplaced).foldl (fun root layer => Layer.above layer root)
            root.unplaced from h .emptyTable
  induction layers with
  | nil => exact fun _ => rfl
  | cons layer rest ih =>
    intro root
    rw [List.foldl_cons, ih, Layer.above_unplaced]
    rfl

/-! ## Reading

A decoder may look at places to say where something is wrong, and a fault with its place forgotten must
be the fault of the setting with its places forgotten. `Blind` is that equation. -/

section Reading

variable {δ α β : Type}

theorem mapError_bind {e e₁ : Type} (f : e → e₁) (x : Except e α) (k : α → Except e β) :
    (x >>= k).mapError f = x.mapError f >>= fun a => (k a).mapError f := by
  cases x <;> rfl

theorem mapError_map {e e₁ : Type} (f : e → e₁) (g : α → β) (x : Except e α) :
    (g <$> x).mapError f = g <$> x.mapError f := by
  cases x <;> rfl

/-- The same below a member and without a place. -/
theorem SettingFault.unplaced_below (f : SettingFault) (segment : String) (dotted : Bool) :
    (f.below segment dotted).unplaced = f.unplaced.below segment dotted := by
  cases f <;> rfl

namespace Setting

/-- A decoder that looks at places for complaints only. -/
def Blind (decode : SettingDecoder α) : Prop :=
  ∀ v, decode v.unplaced = (decode v).mapError SettingFault.unplaced

theorem blind_toFlag : Blind toFlag := by
  intro v
  cases v with
  | list | table => rfl
  | datum origin d =>
    cases d with
    | text s =>
      simp only [toFlag, unplaced]
      split
      · rfl
      · split <;> rfl
    | nothing | flag | whole | real => rfl

theorem blind_toWord : Blind toWord := by
  intro v
  cases v with
  | list | table => rfl
  | datum origin d =>
    cases d with
    | text t =>
      simp only [toWord, unplaced]
      split
      · rfl
      · split
        · rfl
        · cases wordOfText? t <;> rfl
    | whole n => cases n <;> rfl
    | nothing | flag | real => rfl

theorem blind_toText : Blind toText := by
  intro v
  cases v with
  | list | table => rfl
  | datum origin d => cases d <;> rfl

theorem Blind.toOption {some? : SettingDecoder α} (h : Blind some?) : Blind (toOption some?) := by
  intro v
  have hsome : some <$> some? v.unplaced = (some <$> some? v).mapError SettingFault.unplaced := by
    rw [h, mapError_map]
  cases v with
  | list | table => exact hsome
  | datum origin d =>
    cases d with
    | nothing => rfl
    | flag | whole | real | text => exact hsome

theorem blind_toName (kind : String) (named : List (String × α)) : Blind (toName kind named) := by
  have hfind : ∀ s, toName.find kind named s
      = (toName.find kind named s).mapError SettingFault.unplaced := by
    intro s
    unfold toName.find
    split <;> rfl
  intro v
  cases v with
  | list => rfl
  | table origin members =>
    rcases members with _ | ⟨m, _ | ⟨m', rest⟩⟩
    · rfl
    · exact hfind m.1
    · rfl
  | datum origin d =>
    cases d with
    | text s => exact hfind s
    | nothing | flag | whole | real => rfl

theorem mapM_mapError {e e₁ σ τ : Type} {fault : e → e₁} {move : σ → τ} {f : τ → Except e₁ β}
    {g : σ → Except e β} (h : ∀ a, f (move a) = (g a).mapError fault) (items : List σ) :
    (items.map move).mapM f = (items.mapM g).mapError fault := by
  induction items with
  | nil => rfl
  | cons a rest ih =>
    simp only [List.map_cons, List.mapM_cons, h, ih, mapError_bind]
    rfl

theorem foldlM_mapError {e e₁ σ τ : Type} {fault : e → e₁} {move : σ → τ}
    {f : δ → τ → Except e₁ δ} {g : δ → σ → Except e δ}
    (h : ∀ d a, f d (move a) = (g d a).mapError fault) (items : List σ) (d : δ) :
    (items.map move).foldlM f d = (items.foldlM g d).mapError fault := by
  induction items generalizing d with
  | nil => rfl
  | cons a rest ih => simp only [List.map_cons, List.foldlM_cons, h, ih, mapError_bind]

/-- Below an item or a member a blind decoder is blind. -/
theorem Blind.below {decode : SettingDecoder α} (h : Blind decode) (segment : String)
    (dotted : Bool) (v : Setting) :
    (decode v.unplaced).mapError (·.below segment dotted)
      = ((decode v).mapError (·.below segment dotted)).mapError SettingFault.unplaced := by
  rw [h]
  cases decode v with
  | error f => exact congrArg Except.error (f.unplaced_below segment dotted).symm
  | ok a => rfl

theorem Blind.toList {item : SettingDecoder α} (h : Blind item) : Blind (Setting.toList item) := by
  intro v
  cases v with
  | datum origin d => cases d <;> rfl
  | table => rfl
  | list origin items =>
    have hitems : (unplacedItems items).zipIdx
        = items.zipIdx.map (Prod.map unplaced id) := by
      rw [unplacedItems_eq_map, List.zipIdx_map]
    simp only [Setting.toList, unplaced, hitems]
    refine mapM_mapError ?_ _
    rintro ⟨v, i⟩
    exact h.below _ false v

theorem Blind.toNamed {item : SettingDecoder α} (h : Blind item) :
    Blind (Setting.toNamed item) := by
  intro v
  cases v with
  | datum origin d => cases d <;> rfl
  | list => rfl
  | table origin members =>
    simp only [Setting.toNamed, unplaced, unplacedMembers_eq_map, mapError_bind]
    refine congrArg (· >>= _) (mapM_mapError ?_ members)
    rintro ⟨k, v⟩
    rw [mapError_bind]
    exact congrArg (· >>= _) (h.below k true v)

/-! ### Records -/

theorem blind_toPositions {slots : List (Slot δ)}
    (h : ∀ s ∈ slots, ∀ d, Blind (s.put d)) (name : String) (count i : Nat) (items : List Setting)
    (d : δ) : toPositions name count i slots (items.map unplaced) d
      = (toPositions name count i slots items d).mapError SettingFault.unplaced := by
  induction slots generalizing i items d with
  | nil => cases items <;> rfl
  | cons s slots ih =>
    have hrest := fun i items d => ih (fun s hs => h s (by simp [hs])) i items d
    cases items with
    | nil =>
      simp only [toPositions, List.map_nil]
      split
      · rfl
      · exact hrest (i + 1) [] d
    | cons v items =>
      simp only [toPositions, List.map_cons, mapError_bind, hrest]
      exact congrArg (· >>= _) ((h s (by simp) d).below _ false v)

/-- A record is read blindly if its fields are. Names that it does not know are complaints, and these
may mention places. -/
theorem Blind.toRecord {slots : List (Slot δ)} (h : ∀ s ∈ slots, ∀ d, Blind (s.put d))
    (name : String) (empty : δ) : Blind (toRecord name slots empty) := by
  intro v
  cases v with
  | datum origin d => cases d <;> rfl
  | list origin items =>
    simp only [Setting.toRecord, unplaced, unplacedItems_eq_map]
    exact blind_toPositions h name _ 0 items empty
  | table origin members =>
    have hnames : (unplacedMembers members).map Prod.fst = members.map Prod.fst := by
      simp [unplacedMembers_eq_map]
    have hfill : ∀ d m, fill slots d (m.1, unplaced m.2)
        = (fill slots d m).mapError SettingFault.unplaced := by
      intro d m
      cases hs : slots.find? (·.key = m.1) with
      | some s =>
        simp only [fill, hs]
        exact (h s (List.mem_of_find?_eq_some hs) d).below m.1 true m.2
      | none =>
        simp only [fill, hs]
        rfl
    have hchecked : ∀ d, checked slots (members.map Prod.fst) d
        = (checked slots (members.map Prod.fst) d).mapError SettingFault.unplaced := by
      intro d
      unfold checked
      split <;> rfl
    rw [unplaced, toRecord_table, toRecord_table, hnames, unplacedMembers_eq_map,
      foldlM_mapError hfill, mapError_bind]
    exact congrArg _ (funext hchecked)

theorem Blind.map {decode : SettingDecoder α} (h : Blind decode) (f : α → δ) :
    Blind fun v => do return f (← decode v) := by
  intro v
  simp only [bind_pure_comp, h v, mapError_map]

end Setting

end Reading

open Setting

theorem FileOptions.blind_ofSetting : Blind FileOptions.ofSetting := by
  refine Blind.toRecord ?_ _ _
  simp only [List.forall_mem_cons, List.not_mem_nil, false_imp_iff, implies_true, and_true]
  exact ⟨fun _ => blind_toText.map _, fun _ => blind_toWord.map _⟩

theorem BackendOptions.blind_ofSetting : Blind BackendOptions.ofSetting := by
  have htext := blind_toText.toOption
  refine Blind.toRecord ?_ _ _
  simp only [List.forall_mem_cons, List.not_mem_nil, false_imp_iff, implies_true, and_true]
  exact ⟨fun _ => blind_toText.map _, fun _ => blind_toWord.map _, fun _ => htext.map _,
    fun _ => blind_toText.toList.map _, fun _ => htext.map _, fun _ => htext.map _,
    fun _ => blind_toWord.map _, fun _ => blind_toWord.map _⟩

theorem UploadOptions.blind_ofSetting : Blind UploadOptions.ofSetting := by
  have hfile := FileOptions.blind_ofSetting.toOption
  have hword := fun {δ : Type} (f : Nat → δ) => blind_toWord.map f
  refine Blind.toRecord ?_ _ _
  simp only [List.forall_mem_cons, List.not_mem_nil, false_imp_iff, implies_true, and_true]
  exact ⟨fun _ => hfile.map _, fun _ => hfile.map _, fun _ => hfile.map _,
    fun _ => BackendOptions.blind_ofSetting.toOption.map _,
    fun _ => (blind_toName _ UploadMode.named).map _, fun _ => blind_toFlag.map _,
    fun _ => hword _, fun _ => hword _, fun _ => hword _, fun _ => hword _,
    fun _ => blind_toText.toList.map _, fun _ => hword _, fun _ => hword _⟩

theorem LogOptions.blind_ofSetting : Blind LogOptions.ofSetting := by
  refine Blind.toRecord ?_ _ _
  simp only [List.forall_mem_cons, List.not_mem_nil, false_imp_iff, implies_true, and_true]
  exact ⟨fun _ => blind_toText.map _, fun _ => blind_toText.map _, fun _ => blind_toText.map _,
    fun _ => blind_toText.map _, fun _ => blind_toFlag.map _,
    fun _ => blind_toText.toNamed.map _⟩

theorem Settings.blind_ofSetting : Blind Settings.ofSetting := by
  refine Blind.toRecord ?_ _ _
  simp only [List.forall_mem_cons, List.not_mem_nil, false_imp_iff, implies_true, and_true]
  exact ⟨fun _ => UploadOptions.blind_ofSetting.map _, fun _ => LogOptions.blind_ofSetting.map _⟩

/-- Layers that differ in the places of their parts only. -/
theorem Settings.ofLayers_unplaced (layers : List Layer) :
    (Settings.ofLayers layers).mapError SettingFault.unplaced
      = Settings.ofLayers (layers.map Layer.unplaced) := by
  rw [Settings.ofLayers, ← Settings.blind_ofSetting, Layer.stack_unplaced]
  rfl

/-! ## Files

A setting that is read from a file has the file as the place of all of its parts. Two files with the
same text give the same setting up to places; a text that cannot be read gives the same complaint up to
them. -/

namespace Setting

mutual

theorem unplaced_ofToml (origin : Option String) (v : Toml) :
    (ofToml origin v).unplaced = ofToml none v := by
  cases v with
  | list items => exact congrArg (Setting.list none) (unplaced_ofTomlItems origin items)
  | table members => exact congrArg (Setting.table none) (unplaced_ofTomlMembers origin members)
  | text | whole | real | flag | moment => rfl

theorem unplaced_ofTomlItems (origin : Option String) (items : List Toml) :
    unplacedItems (ofTomlItems origin items) = ofTomlItems none items := by
  cases items with
  | nil => rfl
  | cons v rest =>
    simp only [ofTomlItems, unplacedItems, unplaced_ofToml origin v,
      unplaced_ofTomlItems origin rest]

theorem unplaced_ofTomlMembers (origin : Option String) (members : List (String × Toml)) :
    unplacedMembers (ofTomlMembers origin members) = ofTomlMembers none members := by
  cases members with
  | nil => rfl
  | cons m rest =>
    simp only [ofTomlMembers, unplacedMembers, unplaced_ofToml origin m.2,
      unplaced_ofTomlMembers origin rest]

end

mutual

theorem unplaced_ofJson (origin : Option String) (v : Json) :
    (ofJson origin v).unplaced = ofJson none v := by
  cases v with
  | arr items => exact congrArg (Setting.list none) (unplaced_ofJsonItems origin items)
  | obj members => exact congrArg (Setting.table none) (unplaced_ofJsonMembers origin members)
  | null | bool | num | str => rfl

theorem unplaced_ofJsonItems (origin : Option String) (items : List Json) :
    unplacedItems (ofJsonItems origin items) = ofJsonItems none items := by
  cases items with
  | nil => rfl
  | cons v rest =>
    simp only [ofJsonItems, unplacedItems, unplaced_ofJson origin v,
      unplaced_ofJsonItems origin rest]

theorem unplaced_ofJsonMembers (origin : Option String) (members : List (String × Json)) :
    unplacedMembers (ofJsonMembers origin members) = ofJsonMembers none members := by
  cases members with
  | nil => rfl
  | cons m rest =>
    simp only [ofJsonMembers, unplacedMembers, unplaced_ofJson origin m.2,
      unplaced_ofJsonMembers origin rest]

end

end Setting

/-- What a file of settings holds, or why not, wherever it is. -/
def Layer.content (layer : Except SettingFault Layer) : Except SettingFault Layer :=
  (layer.map Layer.unplaced).mapError SettingFault.unplaced

/-- A file that holds no table is at fault for the same reason wherever it is. -/
theorem content_members (v : Setting) (cause : String → String) (origin : String) :
    Layer.content (match v with
      | .table _ members => .ok members
      | s => .error (.malformed (cause s.describe) origin))
    = match v.unplaced with
      | .table _ members => .ok members
      | s => .error (.malformed (cause s.describe) "") := by
  cases v with
  | datum _ d => cases d <;> rfl
  | list | table => rfl

theorem SettingsForm.content_read (form : SettingsForm) (origin origin' text : String) :
    Layer.content (form.read origin text) = Layer.content (form.read origin' text) := by
  cases form with
  | toml =>
    unfold read
    cases Toml.ofText? text with
    | none => rfl
    | some v =>
      have hcontent := fun origin => content_members (ofToml (some origin) v)
        ("invalid type: " ++ ·) origin
      simp only [unplaced_ofToml] at hcontent
      exact (hcontent origin).trans (hcontent origin').symm
  | json =>
    unfold read
    cases Json.ofText text with
    | error f => rfl
    | ok v =>
      have hcontent := fun origin => content_members (ofJson (some origin) v)
        ("invalid type: " ++ · ++ ", expected a map") origin
      simp only [unplaced_ofJson] at hcontent
      exact (hcontent origin).trans (hcontent origin').symm

end EventUpload
