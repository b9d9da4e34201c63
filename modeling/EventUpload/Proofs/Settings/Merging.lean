import EventUpload.Settings.Layer

/-!
# What layers leave at a path

A layer gives settings at paths of names: at the path of every entry, at those below it that its tables
have members for, and, as tables, at those above it. Names count without their case, and what a layer
gives last at a path is what it gives there. The settings that layers leave are found by the names in
lower case, one member after the other.

Merging is followed along one path. Tables lead along it if there is a table at each of its places but
the end, and none at the end; a layer that keeps to that is laid over settings that do, and then at
every place on the way there is what the layer gives, or what was there if it gives nothing. Of a table
that it is there is all that counts, since its members are places of their own. Other paths need not be
looked at: nothing that happens to them matters here.

`Lays` is the one notion for all that changes settings along a path, be it a member that is put, a table
whose members are put one after the other, or an entry of a layer with steps to it. It is stated for
whatever is there before, or nothing, and for all prefixes of the path at once, as the induction goes
one name further on at a time.

Without the condition on tables there would be no simple rule. A layer that puts a number where another
has a table takes away all that the table has given, and one that puts a table where there was a number
starts it anew; and what holds then at a leaf depends on more than what each layer gives there.
-/

set_option autoImplicit false

namespace EventUpload

/-! ## The last of several

Layers and members are lists in which later ones win. -/

/-- The last of what the items of a list give. -/
def latest? {α β : Type} (f : α → Option β) (items : List α) : Option β :=
  items.reverse.findSome? f

@[simp]
theorem latest?_nil {α β : Type} (f : α → Option β) : latest? f [] = none := rfl

@[simp]
theorem latest?_cons {α β : Type} (f : α → Option β) (a : α) (items : List α) :
    latest? f (a :: items) = (latest? f items).or (f a) := by
  simp [latest?]

namespace Setting

/-! ## What is given and what is found

The same path is looked up in two ways. In a layer names may differ in case and occur more than once; in
what was put together they are in lower case and occur once. -/

def isTable : Setting → Bool
  | table .. => true
  | datum .. | list .. => false

/-- A setting without the members of a table. -/
def bare : Setting → Setting
  | table .. => emptyTable
  | v => v

theorem bare_of_not_isTable {v : Setting} (h : v.isTable = false) : v.bare = v := by
  cases v with
  | table => simp [isTable] at h
  | datum | list => rfl

/-- What a setting of a layer gives at a path below it. -/
def given? : Setting → List String → Option Setting
  | v, [] => some v.bare
  | table _ members, k :: q =>
    latest? (fun m => if Text.lower m.1 = k then given? m.2 q else none) members
  | datum .., _ :: _ | list .., _ :: _ => none

/-- What is found at a path in settings that were put together. -/
def found? : Setting → List String → Option Setting
  | v, [] => some v.bare
  | table _ members, k :: q => (members.lookup k).bind fun v => found? v q
  | datum .., _ :: _ | list .., _ :: _ => none

@[simp] theorem given?_nil (v : Setting) : v.given? [] = some v.bare := rfl

@[simp] theorem found?_nil (v : Setting) : v.found? [] = some v.bare := rfl

@[simp]
theorem found?_cons_table (k : String) (q : List String) (origin : Option String)
    (members : List (String × Setting)) :
    (table origin members).found? (k :: q) = (members.lookup k).bind (·.found? q) := rfl

/-- Whether the members that concern a path are tables along it and none at its end. -/
def Leads : Setting → List String → Prop
  | v, [] => v.isTable = false
  | table _ members, k :: p => ∀ m ∈ members, Text.lower m.1 = k → Leads m.2 p
  | datum .., _ :: _ | list .., _ :: _ => False

theorem leads_cons_table {k : String} {p : List String} {origin : Option String}
    {members : List (String × Setting)} : (table origin members).Leads (k :: p)
      ↔ ∀ m ∈ members, Text.lower m.1 = k → m.2.Leads p := Iff.rfl

instance Leads.decidable : (v : Setting) → (p : List String) → Decidable (v.Leads p)
  | v, [] => inferInstanceAs (Decidable (v.isTable = false))
  | table .., _ :: p =>
    have (v : Setting) : Decidable (v.Leads p) := Leads.decidable v p
    decidable_of_iff _ leads_cons_table.symm
  | datum .., _ :: _ | list .., _ :: _ => .isFalse id

/-- The same of settings that were put together; each of their tables along the path has no name
twice. -/
def Clear : Setting → List String → Prop
  | v, [] => v.isTable = false
  | table _ members, k :: p =>
    (members.map Prod.fst).Nodup ∧ ∀ v, members.lookup k = some v → Clear v p
  | datum .., _ :: _ | list .., _ :: _ => False

theorem Clear.exists_members {k : String} {p : List String} {v : Setting} (h : v.Clear (k :: p)) :
    ∃ origin members, v = table origin members ∧ (members.map Prod.fst).Nodup
      ∧ ∀ w, members.lookup k = some w → w.Clear p := by
  cases v with
  | datum | list => exact absurd h id
  | table origin members => exact ⟨origin, members, rfl, h⟩

theorem clear_emptyTable (k : String) (p : List String) : emptyTable.Clear (k :: p) :=
  ⟨List.nodup_nil, fun _ h => absurd h (by simp)⟩

/-! ## Members of a table

A member is put under its name in lower case, in the place of one of that name if there is one. -/

theorem lookup_setMember (key k : String) (v : Setting) (members : List (String × Setting)) :
    (setMember key v members).lookup k = if key = k then some v else members.lookup k := by
  induction members with
  | nil => grind [setMember]
  | cons m rest ih => by_cases hm : m.1 = key <;> grind [setMember]

theorem map_fst_setMember (key : String) (v : Setting) (members : List (String × Setting)) :
    (setMember key v members).map Prod.fst
      = if key ∈ members.map Prod.fst then members.map Prod.fst
        else members.map Prod.fst ++ [key] := by
  induction members with
  | nil => simp [setMember]
  | cons m rest ih => by_cases hm : m.1 = key <;> grind [setMember]

theorem nodup_setMember (key : String) (v : Setting) {members : List (String × Setting)}
    (h : (members.map Prod.fst).Nodup) : ((setMember key v members).map Prod.fst).Nodup := by
  rw [map_fst_setMember]
  split
  · exact h
  · next hkey =>
    refine List.nodup_append.mpr ⟨h, by simp, fun k hk k' hk' heq => ?_⟩
    exact hkey (List.mem_singleton.mp hk' ▸ heq ▸ hk)

/-! ## Laying something along a path

`Lays` is what all of the following lemmas conclude. It asks that what is there is clear along the path,
and says that it stays so, which is what lets changes be put together. -/

/-- A change lays what it gives along a path over what is there. It is made to what is there, or
else to `absence`. -/
def Lays (p : List String) (absence : Setting) (f : Setting → Setting)
    (given : List String → Option Setting) : Prop :=
  ∀ there : Option Setting, (∀ v ∈ there, v.Clear p) →
    (f (there.getD absence)).Clear p ∧
      ∀ q, q <+: p → (f (there.getD absence)).found? q = (given q).or (there.bind (·.found? q))

theorem Lays.of_clear {p : List String} {absence : Setting} {f : Setting → Setting}
    {given : List String → Option Setting} (h : Lays p absence f given) {v : Setting}
    (hv : v.Clear p) :
    (f v).Clear p ∧ ∀ q, q <+: p → (f v).found? q = (given q).or (v.found? q) :=
  h (some v) fun _ hw => Option.some_inj.mp hw ▸ hv

/-- What is given to a member is given to the table below the name. -/
def within (key : String) (given : List String → Option Setting) : List String → Option Setting
  | [] => some emptyTable
  | k :: q => if Text.lower key = k then given q else none

/-- What is there as a table: no members if it is absent. -/
theorem exists_asMembers {k : String} {p : List String} {absence : Setting} {there : Option Setting}
    (habsence : absence.asMembers.2 = []) (hthere : ∀ v ∈ there, v.Clear (k :: p)) :
    ∃ origin members, (there.getD absence).asMembers = (origin, members)
      ∧ (members.map Prod.fst).Nodup ∧ (∀ w, members.lookup k = some w → w.Clear p)
      ∧ ∀ q, there.bind (·.found? (k :: q)) = (members.lookup k).bind (·.found? q) := by
  cases there with
  | none =>
    refine ⟨absence.asMembers.1, [], ?_, List.nodup_nil, ?_, ?_⟩
    · simp [← habsence]
    · exact fun _ h => absurd h (by simp)
    · simp
  | some v =>
    obtain ⟨origin, members, rfl, hnodup, hclear⟩ := (hthere v rfl).exists_members
    exact ⟨origin, members, rfl, hnodup, hclear, fun _ => rfl⟩

/-- If a value is laid along the rest of a path, then setting a member lays it along the whole path.
-/
theorem lays_overMember {k key : String} {p : List String} {a absence : Setting}
    {f : Setting → Setting} {given : List String → Option Setting}
    (habsence : absence.asMembers.2 = []) (h : Text.lower key = k → Lays p a f given) :
    Lays (k :: p) absence (overMember key a f) (within key given) := by
  intro there hthere
  obtain ⟨origin, members, hmembers, hnodup, hclear, hfound⟩ := exists_asMembers habsence hthere
  have hover : overMember key a f (there.getD absence) = table origin
      (setMember (Text.lower key) (f ((members.lookup (Text.lower key)).getD a)) members) := by
    simp [overMember, hmembers]
  rw [hover]
  -- The change is on the path or beside it; beside it the member of the path is as it was.
  by_cases hk : Text.lower key = k
  · subst hk
    obtain ⟨hinside, hlaid⟩ := h rfl (members.lookup (Text.lower key)) hclear
    refine ⟨⟨nodup_setMember _ _ hnodup, ?_⟩, ?_⟩
    · intro w hw
      rw [lookup_setMember, if_pos rfl, Option.some_inj] at hw
      exact hw ▸ hinside
    · rintro (_ | ⟨k', q⟩) hq
      · rfl
      · obtain ⟨rfl, hqp⟩ := List.cons_prefix_cons.mp hq
        rw [found?_cons_table, lookup_setMember, if_pos rfl, Option.bind_some, hlaid q hqp,
          hfound q]
        simp [within]
  · refine ⟨⟨nodup_setMember _ _ hnodup, ?_⟩, ?_⟩
    · intro w hw
      rw [lookup_setMember, if_neg hk] at hw
      exact hclear w hw
    · rintro (_ | ⟨k', q⟩) hq
      · rfl
      · obtain ⟨rfl, -⟩ := List.cons_prefix_cons.mp hq
        rw [found?_cons_table, lookup_setMember, if_neg hk, hfound q]
        simp [within, hk]

/-! ## Putting a setting

A table is put member by member into the table that is there, and anything else replaces what is there. -/

theorem put_of_not_isTable {v : Setting} (h : v.isTable = false) (key : String) :
    put key v = overMember key absent fun _ => v := by
  funext root
  cases v with
  | table => simp [isTable] at h
  | datum | list => rfl

theorem put_table (origin : Option String) (members : List (String × Setting)) (key : String) :
    put key (table origin members) = overMember key emptyTable (putAll members) := by
  funext root
  rfl

/-- What is no table replaces what is there. -/
theorem lays_replacing {v : Setting} (h : v.isTable = false) (absence : Setting) :
    Lays [] absence (fun _ => v) v.given? := by
  intro there _
  refine ⟨h, fun q hq => ?_⟩
  obtain rfl := List.prefix_nil.mp hq
  simp

/-- The members of a table one after the other, if each is laid where it is put. -/
theorem found?_putAll {k : String} {p : List String} {members : List (String × Setting)}
    (hput : ∀ m ∈ members, Lays (k :: p) emptyTable (put m.1 m.2) (within m.1 m.2.given?))
    {root : Setting} (hroot : root.Clear (k :: p)) :
    (putAll members root).Clear (k :: p) ∧ ∀ q, q <+: p →
      (putAll members root).found? (k :: q)
        = (latest? (fun m => if Text.lower m.1 = k then m.2.given? q else none) members).or
            (root.found? (k :: q)) := by
  induction members generalizing root with
  | nil => exact ⟨hroot, fun q _ => by simp [putAll]⟩
  | cons m rest ih =>
    obtain ⟨hclear, hlaid⟩ := (hput m (by simp)).of_clear hroot
    obtain ⟨hrest, hfound⟩ := ih (fun m hm => hput m (by simp [hm])) hclear
    refine ⟨hrest, fun q hq => ?_⟩
    have hhead := hlaid (k :: q) (List.cons_prefix_cons.mpr ⟨rfl, hq⟩)
    -- What the rest gives goes before what the first member gave.
    rw [putAll, hfound q hq, hhead, latest?_cons, Option.or_assoc]
    rfl

theorem lays_putAll {k : String} {p : List String} {members : List (String × Setting)}
    (hput : ∀ m ∈ members, Lays (k :: p) emptyTable (put m.1 m.2) (within m.1 m.2.given?))
    (origin : Option String) :
    Lays (k :: p) emptyTable (putAll members) (table origin members).given? := by
  intro there hthere
  have hroot : (there.getD emptyTable).Clear (k :: p) := by
    cases there with
    | none => exact clear_emptyTable k p
    | some v => exact hthere v rfl
  obtain ⟨hclear, hfound⟩ := found?_putAll hput hroot
  refine ⟨hclear, ?_⟩
  rintro (_ | ⟨k', q⟩) hq
  · obtain ⟨_, _, hresult, -⟩ := hclear.exists_members
    rw [hresult]
    rfl
  · obtain ⟨rfl, hqp⟩ := List.cons_prefix_cons.mp hq
    rw [hfound q hqp]
    cases there <;> rfl

/-- Induction on the path: a table is put by putting its members, one name further on. -/
theorem lays_put {p : List String} {v : Setting} (absence : Setting)
    (habsence : absence.asMembers.2 = []) (key k : String) (hv : Text.lower key = k → v.Leads p) :
    Lays (k :: p) absence (put key v) (within key v.given?) := by
  induction p generalizing v absence key k with
  | nil =>
    cases v with
    | datum | list =>
      rw [put_of_not_isTable rfl]
      exact lays_overMember habsence fun hk => lays_replacing (hv hk) absent
    | table origin members =>
      rw [put_table]
      exact lays_overMember habsence fun hk => absurd (hv hk) (by simp [Leads, isTable])
  | cons k' p ih =>
    cases v with
    | datum | list =>
      rw [put_of_not_isTable rfl]
      exact lays_overMember habsence fun hk => absurd (hv hk) id
    | table origin members =>
      rw [put_table]
      refine lays_overMember habsence fun hk => lays_putAll (fun m hm => ?_) origin
      exact ih emptyTable rfl m.1 k' (leads_cons_table.mp (hv hk) m hm)

/-! ## Putting along a path

The steps of an entry lead down before its setting is put. -/

/-- What a setting gives at a path if it is put along another one. -/
def givenAlong? (v : Setting) : List PathStep → List String → Option Setting
  | [], q => v.given? q
  | _ :: _, [] => some emptyTable
  | .member key :: steps, k :: q => if Text.lower key = k then givenAlong? v steps q else none
  | .item _ :: _, _ :: _ => none

/-- Whether a setting that is put along a path of names leaves tables along another one; what stands
on the way there is put whole, never an item of a list. -/
def LeadsAlong (v : Setting) : List PathStep → List String → Prop
  | [], p => v.Leads p
  | .member key :: steps, k :: p => Text.lower key = k → LeadsAlong v steps p
  | .member _ :: _, [] | .item _ :: _, _ => False

theorem leadsAlong_member {v : Setting} {key k : String} {steps : List PathStep}
    {p : List String} : v.LeadsAlong (.member key :: steps) (k :: p)
      ↔ (Text.lower key = k → v.LeadsAlong steps p) := Iff.rfl

instance LeadsAlong.decidable (v : Setting) :
    (steps : List PathStep) → (p : List String) → Decidable (v.LeadsAlong steps p)
  | [], p => Leads.decidable v p
  | .member _ :: steps, _ :: p =>
    have := LeadsAlong.decidable v steps p
    decidable_of_iff _ leadsAlong_member.symm
  | .member _ :: _, [] | .item _ :: _, _ => .isFalse id

theorem givenAlong?_member (v : Setting) (key : String) (steps : List PathStep) :
    v.givenAlong? (.member key :: steps) = within key (v.givenAlong? steps) := by
  funext q
  cases q <;> rfl

theorem lays_atSteps {v : Setting} {step : PathStep} {steps : List PathStep} {p : List String}
    (h : v.LeadsAlong (step :: steps) p) :
    Lays p absent (putAlong.atSteps v (step :: steps)) (v.givenAlong? (step :: steps)) := by
  induction steps generalizing step p with
  | nil =>
    cases step with
    | item i => exact absurd h id
    | member key =>
      cases p with
      | nil => exact absurd h id
      | cons k p =>
        rw [givenAlong?_member]
        exact lays_put absent rfl key k h
  | cons next steps ih =>
    cases step with
    | item i => exact absurd h id
    | member key =>
      cases p with
      | nil => exact absurd h id
      | cons k p =>
        rw [givenAlong?_member]
        exact lays_overMember rfl fun hk => ih (h hk)

theorem lays_putAlong {v : Setting} {key k : String} {steps : List PathStep} {p : List String}
    (h : v.LeadsAlong (.member key :: steps) (k :: p)) :
    Lays (k :: p) emptyTable (putAlong v key steps) (v.givenAlong? (.member key :: steps)) := by
  rw [givenAlong?_member]
  cases steps with
  | nil => exact lays_put emptyTable rfl key k h
  | cons step steps => exact lays_overMember rfl fun hk => lays_atSteps (h hk)

end Setting

/-! ## Layers

A layer is a list of entries, and a stack is a list of layers; both are put one after the other. -/

/-- The steps of a path from the root on. -/
def SettingPath.fromRoot (p : SettingPath) : List PathStep := .member p.head :: p.steps

/-- The steps to an entry of a layer. -/
def stepsTo (text : String) : List PathStep := (SettingPath.ofText text).fromRoot

namespace Layer

/-- What a layer gives at a path. -/
def given? (layer : Layer) (q : List String) : Option Setting :=
  latest? (fun e => e.2.givenAlong? (stepsTo e.1) q) layer

/-- Whether a layer that mentions a table along a path gives a table there, and none at its end. -/
def Leads (layer : Layer) (p : List String) : Prop :=
  ∀ e ∈ layer, e.2.LeadsAlong (stepsTo e.1) p

instance (layer : Layer) (p : List String) : Decidable (layer.Leads p) :=
  inferInstanceAs (Decidable (∀ e ∈ layer, e.2.LeadsAlong (stepsTo e.1) p))

/-- What the highest of several layers gives, of those that give something. -/
def highest? (layers : List Layer) (q : List String) : Option Setting := latest? (·.given? q) layers

theorem above_clear {k : String} {p : List String} {layer : Layer} (h : layer.Leads (k :: p))
    {root : Setting} (hroot : root.Clear (k :: p)) :
    (Layer.above layer root).Clear (k :: p) ∧ ∀ q, q <+: k :: p →
      (Layer.above layer root).found? q = (layer.given? q).or (root.found? q) := by
  induction layer generalizing root with
  | nil => exact ⟨hroot, fun q _ => rfl⟩
  | cons e rest ih =>
    obtain ⟨hclear, hlaid⟩ := (Setting.lays_putAlong (h e (by simp))).of_clear hroot
    obtain ⟨hrest, hfound⟩ := ih (fun e he => h e (by simp [he])) hclear
    refine ⟨hrest, fun q hq => ?_⟩
    have hhead := hlaid q hq
    calc (Layer.above (e :: rest) root).found? q
      _ = (Layer.given? rest q).or ((e.2.givenAlong? (stepsTo e.1) q).or (root.found? q)) :=
          (hfound q hq).trans (congrArg _ hhead)
      _ = (Layer.given? (e :: rest) q).or (root.found? q) := by
          rw [← Option.or_assoc, given?, given?, latest?_cons]

/-- Along a path that all layers lead along there is what the highest one gives, of those that give
something. -/
theorem stack_clear {k : String} {p : List String} {layers : List Layer}
    (h : ∀ layer ∈ layers, layer.Leads (k :: p)) :
    (Layer.stack layers).Clear (k :: p) ∧ ∀ q, q <+: k :: p → q ≠ [] →
      (Layer.stack layers).found? q = highest? layers q := by
  suffices hstack : ∀ root : Setting, root.Clear (k :: p) →
      (layers.foldl (fun root layer => Layer.above layer root) root).Clear (k :: p)
        ∧ ∀ q, q <+: k :: p →
          (layers.foldl (fun root layer => Layer.above layer root) root).found? q
            = (highest? layers q).or (root.found? q) by
    obtain ⟨hclear, hfound⟩ := hstack Setting.emptyTable (Setting.clear_emptyTable k p)
    refine ⟨hclear, fun q hq hne => (hfound q hq).trans ?_⟩
    cases q with
    | nil => exact absurd rfl hne
    | cons k q => exact Option.or_none
  induction layers with
  | nil => exact fun root hroot => ⟨hroot, fun q _ => rfl⟩
  | cons layer rest ih =>
    intro root hroot
    obtain ⟨hclear, hfound⟩ := above_clear (h layer (by simp)) hroot
    obtain ⟨hrest, hstack⟩ := ih (fun l hl => h l (by simp [hl])) _ hclear
    refine ⟨hrest, fun q hq => ?_⟩
    rw [List.foldl_cons, hstack q hq, hfound q hq, ← Option.or_assoc, highest?, highest?,
      latest?_cons]

end Layer

end EventUpload
