import EventUpload.Proofs.Json.Built
import EventUpload.Proofs.Settings.Merging
import EventUpload.Settings.Basic

/-!
# Records and their leaves

A record that is read from a table has in each field what the member of that name is read as, or what
the empty record has there if there is no such member, which a required field does not allow
(`RecordField.ReadBy`). For that it is enough that one slot fills the field and that no other slot
touches it (`RecordField.In.readBy`).

Records inside of records make paths of names, and at the end of one is a leaf. A leaf is read from what
is found at its path. If nothing is found there, its default holds as soon as its table is there; if
that is missing as well, the record that it belongs to is as it is without any settings, which for a
record that need not be there is not at all.

A leaf is given by functions: how its value is read and how it is got out of the record. So leaves of
different types can be spoken of together, and going one record up is composing with the function that
gets the field (`Leaf.under`). Nothing in this module knows which records there are; `Settings/Leaves`
has the ones of the program.

A decoder that complains gives no record, and nothing is said of leaves then. Which complaint it is
depends on the order of the members, while what is read does not.
-/

set_option autoImplicit false

namespace EventUpload.Setting

section Fields

variable {δ ε α : Type}

/-- Fills the slot that a member of a table is for, if there is one. -/
def fill (slots : List (Slot δ)) (draft : δ) (m : String × Setting) : Except SettingFault δ :=
  match slots.find? (·.key = m.1) with
  | some s => (s.put draft m.2).mapError (·.inMember m.1)
  | none => .ok draft

/-- A draft, unless a required field has no member. -/
def checked (slots : List (Slot δ)) (names : List String) (draft : δ) : Except SettingFault δ :=
  match slots.find? (fun s => s.required && !names.any (· = s.key)) with
  | some s => .error (.shape (Json.missingField s.key))
  | none => .ok draft

theorem toRecord_table (name : String) (slots : List (Slot δ)) (empty : δ) (origin : Option String)
    (members : List (String × Setting)) : toRecord name slots empty (.table origin members)
      = members.foldlM (fill slots) empty >>= checked slots (members.map Prod.fst) := by
  have hany : ∀ key : String, members.any (·.1 = key) = (members.map Prod.fst).any (· = key) :=
    fun key => (List.any_map (f := Prod.fst) (p := (· = key))).symm
  simp only [toRecord, hany]
  rfl

/-! ## Fields -/

/-- A field of a record, and how it is read. -/
structure RecordField (δ : Type) where
  {Value : Type}
  key : String
  required : Bool
  read : SettingDecoder Value
  get : δ → Value

/-- A slot of a record fills a field, and no other slot touches it. -/
structure RecordField.In (x : RecordField δ) (slots : List (Slot δ)) : Prop where
  own : ∃ s, slots.find? (·.key = x.key) = some s ∧ s.required = x.required
    ∧ ∀ d v d', s.put d v = .ok d' → x.read v = .ok (x.get d')
  others : ∀ s ∈ slots, s.key ≠ x.key → ∀ d v d', s.put d v = .ok d' → x.get d' = x.get d

/-- What a decoder of a record reads a field from, and what it is if there is no such member. -/
def RecordField.ReadBy (x : RecordField δ) (empty : δ) (decode : SettingDecoder δ) : Prop :=
  ∀ origin members d, (members.map Prod.fst).Nodup → decode (.table origin members) = .ok d →
    (∀ v, members.lookup x.key = some v → x.read v = .ok (x.get d))
      ∧ (members.lookup x.key = none → x.required = false ∧ x.get d = x.get empty)

theorem map_eq_ok {e : Type} {f : α → δ} {x : Except e α} {d : δ} :
    f <$> x = .ok d ↔ ∃ a, x = .ok a ∧ f a = d := by
  cases x <;> simp [Functor.map, Except.map]

theorem of_map_eq_ok {e : Type} {f : α → δ} {x : Except e α} {P : δ → Prop} :
    (∀ d, f <$> x = .ok d → P d) ↔ ∀ a, x = .ok a → P (f a) := by
  simp only [map_eq_ok]
  exact ⟨fun h a ha => h _ ⟨a, ha, rfl⟩, fun h d ⟨a, ha, hd⟩ => hd ▸ h a ha⟩

theorem lookup_eq_none_iff {key : String} {members : List (String × α)} :
    members.lookup key = none ↔ key ∉ members.map Prod.fst := by
  simp only [List.lookup_eq_none_iff, bne_iff_ne, List.mem_map, not_exists, not_and]
  exact ⟨fun h m hm heq => h m hm heq.symm, fun h m hm heq => h m hm heq.symm⟩

/-- One member of the table after the other: the one of the field's name decides. -/
theorem get_foldlM {key : String} {read : SettingDecoder α} {get : δ → α}
    {step : δ → String × Setting → Except SettingFault δ}
    (hown : ∀ d v d', step d (key, v) = .ok d' → read v = .ok (get d'))
    (hothers : ∀ d m d', m.1 ≠ key → step d m = .ok d' → get d' = get d)
    {members : List (String × Setting)} (hnodup : (members.map Prod.fst).Nodup) {draft d : δ}
    (hd : members.foldlM step draft = .ok d) :
    (∀ v, members.lookup key = some v → read v = .ok (get d))
      ∧ (members.lookup key = none → get d = get draft) := by
  induction members generalizing draft with
  | nil =>
    cases hd
    exact ⟨fun _ hv => absurd hv (by simp), fun _ => rfl⟩
  | cons m rest ih =>
    obtain ⟨next, hnext, hrest⟩ := Json.exists_of_bind hd
    obtain ⟨k, w⟩ := m
    obtain ⟨hm, hnodup⟩ := List.nodup_cons.mp hnodup
    obtain ⟨hsome, hnone⟩ := ih hnodup hrest
    by_cases hkey : k = key
    · subst hkey
      have hother := lookup_eq_none_iff.mpr hm
      rw [List.lookup_cons_self]
      refine ⟨fun v hv => ?_, fun hv => absurd hv (by simp)⟩
      rw [← Option.some_inj.mp hv, hown draft w next hnext, hnone hother]
    · have hlookup : ((k, w) :: rest).lookup key = rest.lookup key := by
        rw [List.lookup_cons, beq_eq_false_iff_ne.mpr (Ne.symm hkey)]
      rw [hlookup, ← hothers draft (k, w) next hkey hnext]
      exact ⟨hsome, hnone⟩

/-- The reader of a record puts each of its fields as the reader of the field alone would. -/
theorem RecordField.In.readBy {x : RecordField δ} {slots : List (Slot δ)} (h : x.In slots)
    (name : String) (empty : δ) : x.ReadBy empty (toRecord name slots empty) := by
  intro origin members d hnodup hd
  obtain ⟨s, hs, hrequired, hput⟩ := h.own
  rw [toRecord_table] at hd
  obtain ⟨draft, hdraft, hd⟩ := Json.exists_of_bind hd
  have hown : ∀ d v d', fill slots d (x.key, v) = .ok d' → x.read v = .ok (x.get d') := by
    intro d v d' hd'
    simp only [fill, hs] at hd'
    exact hput _ _ _ (Json.ok_of_mapError hd')
  have hothers : ∀ d m d', m.1 ≠ x.key → fill slots d m = .ok d' → x.get d' = x.get d := by
    intro d m d' hne hd'
    unfold fill at hd'
    split at hd'
    · next s hs =>
      have hkey : s.key = m.1 := by simpa using List.find?_some hs
      exact h.others s (List.mem_of_find?_eq_some hs) (hkey ▸ hne) _ _ _ (Json.ok_of_mapError hd')
    · cases hd'
      rfl
  obtain ⟨hsome, hnone⟩ := get_foldlM hown hothers hnodup hdraft
  unfold checked at hd
  split at hd
  · cases hd
  · next hmissing =>
    cases hd
    refine ⟨hsome, fun habsent => ⟨?_, hnone habsent⟩⟩
    have hkey : s.key = x.key := by simpa using List.find?_some hs
    have hpresent := List.find?_eq_none.mp hmissing s (List.mem_of_find?_eq_some hs)
    have hname : (members.map Prod.fst).any (· = s.key) = false := by
      rw [List.any_eq_false]
      intro k hk heq
      exact lookup_eq_none_iff.mp habsent (hkey ▸ of_decide_eq_true heq ▸ hk)
    rw [← hrequired]
    simpa only [hname, Bool.not_false, Bool.and_true, Bool.not_eq_true] using hpresent

/-! ## Leaves

A leaf may lie below several records, and each of them reads the one below as a field. -/

/-- An option at the end of a path of tables; `default?` is what it is if its table is there and it
is not set. A leaf without a default is one that must be set, or one of several of any name. -/
structure Leaf (δ : Type) where
  {Value : Type}
  table : List String
  key : String
  read : SettingDecoder Value
  value? : δ → Option Value
  default? : Option Value

namespace Leaf

def path (x : Leaf δ) : List String := x.table ++ [x.key]

/-- A leaf is what stands at its path is read as; else its default if its table is there, and what
it is in the empty record if not. -/
def Holds (x : Leaf δ) (d empty : δ) (at? : List String → Option Setting) : Prop :=
  match at? x.path with
  | some v => ∃ a, x.read v = .ok a ∧ x.value? d = some a
  | none => x.value? d = if (at? x.table).isSome then x.default? else x.value? empty

def ReadBy (x : Leaf δ) (empty : δ) (decode : SettingDecoder δ) : Prop :=
  ∀ v d, v.Clear x.path → decode v = .ok d → x.Holds d empty v.found?

/-- A leaf of a record that is itself a field. -/
def under (y : RecordField δ) (x : Leaf y.Value) : Leaf δ :=
  ⟨y.key :: x.table, x.key, x.read, fun d => x.value? (y.get d), x.default?⟩

/-- A leaf of a record that need not be there. -/
def optional (x : Leaf δ) : Leaf (Option δ) :=
  ⟨x.table, x.key, x.read, (·.bind x.value?), x.default?⟩

/-- One of several data with names. -/
def named (item : SettingDecoder α) (name : String) : Leaf (List (String × α)) :=
  ⟨[], name, item, (·.lookup name), none⟩

end Leaf

/-- A field that is a leaf itself. -/
def RecordField.leaf (x : RecordField δ) (empty : δ) : Leaf δ :=
  ⟨[], x.key, x.read, fun d => some (x.get d), if x.required then none else some (x.get empty)⟩

theorem RecordField.ReadBy.leaf {x : RecordField δ} {empty : δ} {decode : SettingDecoder δ}
    (h : x.ReadBy empty decode) : (x.leaf empty).ReadBy empty decode := by
  intro v d hv hd
  obtain ⟨origin, members, rfl, hnodup, hclear⟩ := Clear.exists_members (p := []) hv
  obtain ⟨hsome, hnone⟩ := h origin members d hnodup hd
  have hfound : (Setting.table origin members).found? (x.leaf empty).path
      = members.lookup x.key := by
    cases hw : members.lookup x.key with
    | none => simp [Leaf.path, RecordField.leaf, hw]
    | some w => simp [Leaf.path, RecordField.leaf, hw, bare_of_not_isTable (hclear w hw)]
  unfold Leaf.Holds
  rw [hfound]
  cases hw : members.lookup x.key with
  | some w => exact ⟨x.get d, hsome w hw, rfl⟩
  | none =>
    obtain ⟨hrequired, hget⟩ := hnone hw
    simp [RecordField.leaf, hrequired, hget]

theorem Leaf.ReadBy.under {y : RecordField δ} {x : Leaf y.Value} {empty : δ}
    {decode : SettingDecoder δ}
    (hx : x.ReadBy (y.get empty) y.read) (hy : y.ReadBy empty decode) :
    (x.under y).ReadBy empty decode := by
  intro v d hv hd
  obtain ⟨origin, members, rfl, hnodup, hclear⟩ := Clear.exists_members hv
  obtain ⟨hsome, hnone⟩ := hy origin members d hnodup hd
  have hfound : ∀ q, (Setting.table origin members).found? (y.key :: q)
      = (members.lookup y.key).bind (·.found? q) := fun q => rfl
  unfold Leaf.Holds
  cases hw : members.lookup y.key with
  | some w =>
    have hholds := hx w (y.get d) (hclear w hw) (hsome w hw)
    simpa [Leaf.Holds, Leaf.under, Leaf.path, hfound, hw] using hholds
  | none => simp [Leaf.under, Leaf.path, hfound, hw, (hnone hw).2]

theorem Leaf.ReadBy.optional {x : Leaf δ} {empty : δ} {decode : SettingDecoder δ}
    (hx : x.ReadBy empty decode) (htable : x.table = []) :
    x.optional.ReadBy none (toOption decode) := by
  intro v d hv hd
  have hpath : x.path = [x.key] := by simp [Leaf.path, htable]
  have hvx : v.Clear x.path := hv
  obtain ⟨origin, members, rfl, -⟩ := Clear.exists_members (p := []) (hpath ▸ hvx)
  obtain ⟨r, hr, rfl⟩ := map_eq_ok.mp hd
  simpa [Leaf.Holds, Leaf.optional, Leaf.path, htable] using hx _ r hvx hr

/-! ## Data with names

Lists of named data are read from tables, member by member. -/

theorem lookup_eq_some_iff {key : String} {a : α} {members : List (String × α)}
    (hnodup : (members.map Prod.fst).Nodup) :
    members.lookup key = some a ↔ (key, a) ∈ members := by
  induction members with
  | nil => simp
  | cons m rest ih =>
    obtain ⟨k, b⟩ := m
    obtain ⟨hm, hrest⟩ := List.nodup_cons.mp hnodup
    by_cases hkey : k = key
    · subst hkey
      have hother : (k, a) ∉ rest := fun h => hm (List.mem_map.mpr ⟨(k, a), h, rfl⟩)
      simp [hother, eq_comm]
    · rw [List.lookup_cons, beq_eq_false_iff_ne.mpr (Ne.symm hkey)]
      simp [ih hrest, Ne.symm hkey]

theorem lookup_of_perm {members sorted : List (String × α)} (hperm : sorted.Perm members)
    (hnodup : (members.map Prod.fst).Nodup) (key : String) :
    sorted.lookup key = members.lookup key := by
  have hsorted : (sorted.map Prod.fst).Nodup := (hperm.map Prod.fst).nodup_iff.mpr hnodup
  ext a
  rw [lookup_eq_some_iff hsorted, lookup_eq_some_iff hnodup, hperm.mem_iff]

/-- Reading a table member by member keeps the keys, and each value is read from the member of that
key. -/
theorem lookup_mapM (item : SettingDecoder α)
    {step : String × Setting → Except SettingFault (String × α)}
    (hstep : ∀ m n, step m = .ok n → n.1 = m.1 ∧ item m.2 = .ok n.2)
    {members : List (String × Setting)} {named : List (String × α)}
    (h : members.mapM step = .ok named) :
    named.map Prod.fst = members.map Prod.fst ∧ ∀ key v, members.lookup key = some v →
      ∃ a, item v = .ok a ∧ named.lookup key = some a := by
  induction members generalizing named with
  | nil =>
    cases h
    exact ⟨rfl, fun _ _ hv => absurd hv (by simp)⟩
  | cons m rest ih =>
    rw [List.mapM_cons] at h
    obtain ⟨n, hn, h⟩ := Json.exists_of_bind h
    obtain ⟨more, hmore, h⟩ := Json.exists_of_bind h
    cases h
    obtain ⟨hnames, hfound⟩ := ih hmore
    obtain ⟨hname, hitem⟩ := hstep m n hn
    refine ⟨by simp [hname, hnames], fun key v hv => ?_⟩
    obtain ⟨k, w⟩ := m
    obtain ⟨k', a⟩ := n
    obtain rfl : k' = k := hname
    rw [List.lookup_cons] at hv ⊢
    split at hv
    · obtain rfl := Option.some_inj.mp hv
      exact ⟨a, hitem, rfl⟩
    · exact hfound key v hv

/-- A table of names is read as each of its members is. -/
theorem named_readBy (item : SettingDecoder α) (name : String) :
    (Leaf.named item name).ReadBy [] (toNamed item) := by
  intro v d hv hd
  obtain ⟨origin, members, rfl, hnodup, hclear⟩ := Clear.exists_members (p := []) hv
  obtain ⟨named, hnamed, hd⟩ := Json.exists_of_bind hd
  cases hd
  obtain ⟨hnames, hfound⟩ := lookup_mapM item (fun m n hmn => by
    obtain ⟨a, ha, hmn⟩ := Json.exists_of_bind hmn
    cases hmn
    exact ⟨rfl, Json.ok_of_mapError ha⟩) hnamed
  have hsorted := lookup_of_perm (List.mergeSort_perm named fun a b => a.1 ≤ b.1)
    (hnames ▸ hnodup) name
  have hpath : (Setting.table origin members).found? (Leaf.named item name).path
      = (members.lookup name).map bare := by
    cases hw : members.lookup name <;> simp [Leaf.path, Leaf.named, hw]
  unfold Leaf.Holds
  rw [hpath]
  cases hw : members.lookup name with
  | some w =>
    obtain ⟨a, ha, hlookup⟩ := hfound name w hw
    rw [Option.map_some, bare_of_not_isTable (hclear w hw)]
    exact ⟨a, ha, hsorted.trans hlookup⟩
  | none =>
    have hnone := lookup_eq_none_iff.mpr (hnames ▸ lookup_eq_none_iff.mp hw)
    simp [Leaf.named, hsorted, hnone]

end Fields

end EventUpload.Setting
