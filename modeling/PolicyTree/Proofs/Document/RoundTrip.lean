import PolicyTree.Proofs.Document.Format
import PolicyTree.Proofs.Policy.Nesting

namespace PolicyTree

namespace Policy

/-- A policy that would be written as a reference: its only entry is a single text under the key
that marks one. -/
def IsDisguise (p : Policy) : Prop :=
  ∃ text, p.entries = [⟨Json.referenceKey, [.string text]⟩]

/-- No policy within the policy, at any depth, would be written as a reference. -/
def Undisguised (p : Policy) : Prop :=
  ∀ path values, p.HoldsAt path values → ∀ sub, .policy sub ∈ values → ¬sub.IsDisguise

def FiniteDoubles (p : Policy) : Prop :=
  ∀ path values, p.HoldsAt path values → ∀ d, .double d ∈ values → d.isFinite = true

end Policy

section Writing

variable {v : Value} {values : List Value} {e : Entry} {es : List Entry} {p sub : Policy}
  {name above path : String} {nested : Bool}

theorem Value.toItems_eq (values : List Value) :
    Value.toItems values = values.map Value.toJson := by
  induction values with
  | nil => rfl
  | cons v values ih => rw [toItems, ih, List.map_cons]

theorem Policy.toJson_eq (p : Policy) : p.toJson = .object (p.entries.map Entry.toMember) := by
  obtain ⟨es⟩ := p
  rw [toJson]
  congr 1
  induction es with
  | nil => rfl
  | cons e es ih => rw [Entry.toMembers, ih, List.map_cons]

theorem Value.toJson_ne_array (v : Value) (items : List Json) : v.toJson ≠ .array items := by
  intro h
  cases v with
  | double d =>
    rw [toJson, Json.ofDouble] at h
    split at h <;> cases h
  | policy p =>
    rw [toJson, Policy.toJson_eq] at h
    cases h
  | undefined | bool | int | string | file => cases h

theorem Value.items_toJson (v : Value) : v.toJson.items = [v.toJson] := by
  have hne := v.toJson_ne_array
  unfold Json.items
  split
  · rename_i items hitems
    exact absurd hitems (hne items)
  · rfl

theorem Entry.toMember_several (name : String) (h : values.length ≠ 1) :
    (Entry.mk name values).toMember = (name, .array (values.map Value.toJson)) := by
  rw [toMember, Value.toItems_eq]
  split
  · rename_i item hitem
    have hlen := congrArg List.length hitem
    rw [List.length_map] at hlen
    exact absurd hlen h
  · rfl

theorem Entry.toMember_cases (e : Entry) :
    (∃ v, e.values = [v] ∧ e.toMember = (e.name, v.toJson)) ∨
      e.values.length ≠ 1 ∧ e.toMember = (e.name, .array (e.values.map Value.toJson)) := by
  obtain ⟨name, values⟩ := e
  by_cases h : values.length = 1
  · obtain ⟨v, rfl⟩ := List.length_eq_one_iff.1 h
    exact .inl ⟨v, rfl, rfl⟩
  · exact .inr ⟨h, toMember_several name h⟩

theorem Entry.fst_toMember (e : Entry) : e.toMember.1 = e.name := by
  rcases e.toMember_cases with ⟨v, -, h⟩ | ⟨-, h⟩ <;> rw [h]

theorem Entry.items_toMember (e : Entry) : e.toMember.2.items = e.values.map Value.toJson := by
  rcases e.toMember_cases with ⟨v, hv, h⟩ | ⟨-, h⟩
  · rw [h, hv]
    exact v.items_toJson
  · rw [h]
    rfl

theorem Value.toJson_eq_string_iff {text : String} :
    v.toJson = .string text ↔ v = .string text := by
  constructor
  · intro h
    cases v with
    | string s => rw [Json.string.inj h]
    | double d =>
      rw [toJson, Json.ofDouble] at h
      split at h <;> cases h
    | policy p =>
      rw [toJson, Policy.toJson_eq] at h
      cases h
    | undefined | bool | int | file => cases h
  · rintro rfl
    rfl

theorem Value.toJson_eq_object_cases {members : List (String × Json)}
    (h : v.toJson = .object members) :
    Json.IsReference members ∨ ∃ p, v = .policy p ∧ members = p.entries.map Entry.toMember := by
  cases v with
  | policy p =>
    rw [toJson, Policy.toJson_eq] at h
    exact .inr ⟨p, rfl, (Json.object.inj h).symm⟩
  | file text => exact .inl ⟨text, (Json.object.inj h).symm⟩
  | double d =>
    rw [toJson, Json.ofDouble] at h
    split at h <;> cases h
  | undefined | bool | int | string => cases h

theorem Policy.isReference_toMember_iff :
    Json.IsReference (p.entries.map Entry.toMember) ↔ p.IsDisguise := by
  constructor
  · rintro ⟨text, h⟩
    obtain ⟨⟨name, values⟩, he, hm⟩ := List.map_eq_singleton_iff.1 h
    rcases (Entry.mk name values).toMember_cases with ⟨v, rfl, hmember⟩ | ⟨-, hmember⟩
    · rw [hmember] at hm
      obtain ⟨rfl, hdoc⟩ := Prod.mk.inj hm
      rw [Value.toJson_eq_string_iff.1 hdoc] at he
      exact ⟨text, he⟩
    · rw [hmember] at hm
      cases (Prod.mk.inj hm).2
  · rintro ⟨text, h⟩
    exact ⟨text, by rw [h]; rfl⟩

/-- A value that is read again as it was written. -/
def Value.Rereads (v : Value) : Prop :=
  ∀ path nested, Value.arrayOf path nested v.toJson = .ok [v]

theorem Value.rereads (hdefined : v.kind ≠ .undefined)
    (hfinite : ∀ d, v = .double d → d.isFinite = true)
    (hsub : ∀ sub, v = .policy sub → ¬sub.IsDisguise ∧
      ∀ above, Entry.ofMembers above (sub.entries.map Entry.toMember) = .ok sub.entries) :
    v.Rereads := by
  intro path nested
  cases v with
  | undefined => exact absurd rfl hdefined
  | bool | int | string | file => rfl
  | double d =>
    rw [toJson, Json.ofDouble, if_pos (hfinite d rfl)]
    rfl
  | policy sub =>
    obtain ⟨hun, hsub⟩ := hsub sub rfl
    have hnone : Json.reference? (sub.entries.map Entry.toMember) = none := by
      rwa [Json.reference?_eq_none_iff, Policy.isReference_toMember_iff]
    obtain ⟨es⟩ := sub
    rw [toJson, Policy.toJson_eq, arrayOf, hnone]
    exact bind_eq_ok_iff.2 ⟨es, hsub path, rfl⟩

theorem Value.ofItems_toJson (h : ∀ v ∈ values, v.Rereads) :
    Value.ofItems path (values.map Value.toJson) = .ok values := by
  induction values with
  | nil => rfl
  | cons v values ih =>
    rw [List.forall_mem_cons] at h
    rw [List.map_cons, ofItems, h.1 path true, ok_bind, ih h.2]
    rfl

theorem Entry.arrayOf_toMember (h : ∀ v ∈ e.values, v.Rereads) :
    Value.arrayOf path false e.toMember.2 = .ok e.values := by
  rcases e.toMember_cases with ⟨v, hv, he⟩ | ⟨-, he⟩
  · rw [he, hv]
    exact h v (hv ▸ List.mem_singleton_self v) path false
  · rw [he]
    exact Value.ofItems_toJson h

theorem Entry.ofMember_toMember (hleaf : Name.isLeaf e.name = true) (harr : Value.IsArray e.values)
    (h : ∀ v ∈ e.values, v.Rereads) : Entry.ofMember above e.toMember = .ok (some e) := by
  have hvalues : Value.arrayOf (Name.join above e.name) false e.toMember.2 = .ok e.values :=
    Entry.arrayOf_toMember h
  have hkey := e.fst_toMember
  generalize e.toMember = m at hvalues hkey
  obtain ⟨key, doc⟩ := m
  obtain rfl : key = e.name := hkey
  have hnamed : ¬(!Name.isLeaf e.name) = true := by
    rw [hleaf]
    decide
  have hempty : ¬e.values.isEmpty = true := mt List.isEmpty_iff.1 harr.ne_nil
  rw [ofMember, if_neg hnamed, hvalues, ok_bind, if_neg hempty,
    Policy.checkArray_eq_ok_iff.2 harr]
  cases e
  rfl

theorem Entry.ofMembers_toMember (h : ∀ e ∈ es, Entry.ofMember above e.toMember = .ok (some e)) :
    Entry.ofMembers above (es.map Entry.toMember) = .ok es := by
  induction es with
  | nil => rfl
  | cons e es ih =>
    rw [List.forall_mem_cons] at h
    rw [List.map_cons, ofMembers, h.1, ok_bind, ih h.2]
    rfl

theorem Policy.WellFormed.ofMembers_toMember (h : p.WellFormed) (hfinite : p.FiniteDoubles)
    (hun : p.Undisguised) (above : String) :
    Entry.ofMembers above (p.entries.map Entry.toMember) = .ok p.entries := by
  -- by induction on the tree, since the name above changes from level to level
  induction h generalizing above with
  | @intro es unique leaf array nested ih =>
    apply Entry.ofMembers_toMember
    intro e he
    apply Entry.ofMember_toMember (leaf e he) (array e he)
    intro v hv
    refine Value.rereads ((array e he).defined v hv) ?_ ?_
    · rintro d rfl
      exact hfinite _ _ (.here he) d hv
    · rintro sub rfl
      refine ⟨hun _ _ (.here he) sub hv, ?_⟩
      apply ih e he sub hv
      · exact fun path values hp => hfinite _ values (.deeper he hv hp)
      · exact fun path values hp => hun _ values (.deeper he hv hp)

theorem Policy.WellFormed.kept_toMember (h : p.WellFormed) :
    Json.kept (p.entries.map Entry.toMember) = p.entries.map Entry.toMember := by
  rw [Json.kept, List.filter_eq_self, List.forall_mem_map]
  intro e he
  have hne := (h.storable he).ne_nil
  simpa [Entry.items_toMember] using hne

/-- What is read as it was written was written so that each value is denoted. -/
theorem Policy.WellFormed.denotes_of_holdsAt (h : p.WellFormed)
    (hdesc : Json.Describes (p.entries.map Entry.toMember) p.entries) {path : List String}
    (hp : p.HoldsAt path values) : ∀ v ∈ values, v.toJson.Denotes v := by
  have hitems (p : Policy) (h : p.WellFormed)
      (hdesc : Json.Describes (p.entries.map Entry.toMember) p.entries) :
      ∀ e ∈ p.entries, ∀ v ∈ e.values, v.toJson.Denotes v := by
    obtain ⟨-, -, hvalues⟩ := hdesc
    rw [h.kept_toMember, List.map_map, List.forall₂_map_left_iff, List.forall₂_map_right_iff,
      List.forall₂_same] at hvalues
    intro e he
    have hall := hvalues e he
    rw [Function.comp_apply, Entry.items_toMember, List.forall₂_map_left_iff,
      List.forall₂_same] at hall
    exact hall
  induction hp with
  | @here es e he => exact hitems _ h hdesc e he
  | @deeper es e sub path values he hs hp ih =>
    have hsub := hitems _ h hdesc e he _ hs
    rw [Value.toJson, Policy.toJson_eq] at hsub
    obtain ⟨members, hmembers, -, hsub⟩ := Json.denotes_policy_iff.1 hsub
    cases hmembers
    exact ih (h.nested he hs) hsub

theorem Policy.ofJson_toJson_eq_ok_iff :
    Policy.ofJson p.toJson = .ok p ↔
      Entry.ofMembers "" (p.entries.map Entry.toMember) = .ok p.entries := by
  obtain ⟨es⟩ := p
  rw [Policy.ofJson_eq_ok_iff, Policy.toJson_eq]
  constructor
  · rintro ⟨members, hmembers, es', hes, h⟩
    cases hmembers
    cases h
    exact hes
  · intro hes
    exact ⟨_, rfl, es, hes, rfl⟩

/-- Just the policies without infinite doubles and without disguised policies are read as they were
written. -/
theorem Policy.WellFormed.ofJson_toJson_iff (h : p.WellFormed) :
    Policy.ofJson p.toJson = .ok p ↔ p.FiniteDoubles ∧ p.Undisguised := by
  rw [Policy.ofJson_toJson_eq_ok_iff]
  constructor
  · intro hes
    have hdenotes {path : List String} {values : List Value} (hp : p.HoldsAt path values) :=
      h.denotes_of_holdsAt (Entry.describes_of_ofMembers hes).2 hp
    constructor
    · intro path values hp d hd
      by_contra hinf
      have hnull := hdenotes hp _ hd
      rw [Value.toJson, Json.ofDouble, if_neg hinf] at hnull
      cases hnull
    · intro path values hp sub hs hdisguise
      have hobject := hdenotes hp _ hs
      rw [Value.toJson, Policy.toJson_eq] at hobject
      obtain ⟨members, hmembers, hr, -⟩ := Json.denotes_policy_iff.1 hobject
      cases hmembers
      exact hr (Policy.isReference_toMember_iff.2 hdisguise)
  · rintro ⟨hfinite, hun⟩
    exact h.ofMembers_toMember hfinite hun ""

theorem Policy.parse_of_parse? {text : String} {doc : Json} (h : Json.parse? text = some doc) :
    Policy.parse text = Policy.ofJson doc := by
  rw [Policy.parse, h]

end Writing

namespace Json

inductive HoldsMember : List (String × Json) → String × Json → Prop
  | here {members : List (String × Json)} {m : String × Json} (hm : m ∈ members) :
      HoldsMember members m
  | deeper {members inner : List (String × Json)} {m n : String × Json} (hm : m ∈ members)
      (hi : .object inner ∈ m.2.items) (h : HoldsMember inner n) : HoldsMember members n

/-- An object that is no reference, but stands for a policy that is written as one: besides empty
arrays it has just a single text under the key that marks a reference. -/
def IsDisguise (members : List (String × Json)) : Prop :=
  ¬IsReference members ∧
    ∃ doc text, kept members = [(referenceKey, doc)] ∧ doc.items = [.string text]

def Undisguised (members : List (String × Json)) : Prop :=
  ∀ m, HoldsMember members m → ∀ inner, .object inner ∈ m.2.items → ¬IsDisguise inner

def FiniteDoubles (members : List (String × Json)) : Prop :=
  ∀ m, HoldsMember members m → ∀ d, .number (.double d) ∈ m.2.items → d.isFinite = true

variable {members inner : List (String × Json)} {m : String × Json} {es : List Entry} {e : Entry}
  {p : Policy} {v : Value} {path : List String} {values : List Value}

theorem Describes.exists_member (h : Describes members es) (he : e ∈ es) :
    ∃ m ∈ members, List.Forall₂ Denotes m.2.items e.values := by
  obtain ⟨-, -, hvalues⟩ := h
  have hflip := List.Forall₂.flip hvalues
  rw [List.forall₂_map_left_iff, List.forall₂_map_right_iff] at hflip
  obtain ⟨m, hm, hall⟩ := exists_mem_of_forall₂ hflip he
  exact ⟨m, List.mem_of_mem_filter hm, hall⟩

theorem Describes.exists_entry (h : Describes members es) (hm : m ∈ members)
    (hne : m.2.items ≠ []) : ∃ e ∈ es, List.Forall₂ Denotes m.2.items e.values := by
  obtain ⟨-, -, hvalues⟩ := h
  rw [List.forall₂_map_left_iff, List.forall₂_map_right_iff] at hvalues
  exact exists_mem_of_forall₂ hvalues (List.mem_filter.2 ⟨hm, by simpa using hne⟩)

theorem Describes.exists_holdsMember (h : Describes members p.entries)
    (hp : p.HoldsAt path values) :
    ∃ m, HoldsMember members m ∧ List.Forall₂ Denotes m.2.items values := by
  induction hp generalizing members with
  | here he =>
    obtain ⟨m, hm, hall⟩ := h.exists_member he
    exact ⟨m, .here hm, hall⟩
  | deeper he hs hp ih =>
    obtain ⟨m, hm, hall⟩ := h.exists_member he
    obtain ⟨j, hj, hdenotes⟩ := exists_denotes_of_mem hall hs
    obtain ⟨inner, rfl, -, hinner⟩ := denotes_policy_iff.1 hdenotes
    obtain ⟨n, hn, hvalues⟩ := ih hinner
    exact ⟨n, .deeper hm hj hn, hvalues⟩

theorem denotes_object_cases (h : (Json.object inner).Denotes v) :
    IsReference inner ∨ ∃ sub, v = .policy sub ∧ Describes inner sub.entries := by
  cases h with
  | reference text => exact .inl ⟨text, rfl⟩
  | policy hr h => exact .inr ⟨_, rfl, h⟩

theorem IsReference.exists_eq_string (hr : IsReference members) (h : HoldsMember members m) :
    ∃ text, m.2 = .string text := by
  obtain ⟨text, rfl⟩ := hr
  cases h with
  | here hm =>
    obtain rfl := List.mem_singleton.1 hm
    exact ⟨text, rfl⟩
  | deeper hm hi =>
    obtain rfl := List.mem_singleton.1 hm
    simp [items] at hi

theorem Describes.exists_holdsAt (h : Describes members es) (hm : HoldsMember members m)
    (hi : .object inner ∈ m.2.items) :
    ∃ path values, (Policy.mk es).HoldsAt path values ∧ List.Forall₂ Denotes m.2.items values := by
  -- on the way to the member all objects are described, for nothing is below a reference
  induction hm generalizing es with
  | here hm =>
    obtain ⟨e, he, hall⟩ := h.exists_entry hm (List.ne_nil_of_mem hi)
    exact ⟨[e.name], e.values, .here he, hall⟩
  | deeper hm hmid hn ih =>
    obtain ⟨e, he, hall⟩ := h.exists_entry hm (List.ne_nil_of_mem hmid)
    obtain ⟨v, hv, hdenotes⟩ := exists_mem_of_forall₂ hall hmid
    rcases denotes_object_cases hdenotes with hr | ⟨⟨fs⟩, rfl, hdesc⟩
    · obtain ⟨text, htext⟩ := hr.exists_eq_string hn
      simp [htext, items] at hi
    · obtain ⟨path, values, hp, hvalues⟩ := ih hdesc hi
      exact ⟨e.name :: path, values, .deeper he hv hp, hvalues⟩

theorem forall₂_denotes_string_iff {text : String} {values : List Value} :
    List.Forall₂ Denotes [.string text] values ↔ values = [.string text] := by
  rw [List.forall₂_cons_left_iff]
  constructor
  · rintro ⟨v, rest, hv, hrest, rfl⟩
    rw [List.forall₂_nil_left_iff.1 hrest]
    cases hv
    rfl
  · rintro rfl
    exact ⟨_, _, .string text, .nil, rfl⟩

theorem forall₂_denotes_iff_string {text : String} {docs : List Json} :
    List.Forall₂ Denotes docs [.string text] ↔ docs = [.string text] := by
  rw [List.forall₂_cons_right_iff]
  constructor
  · rintro ⟨j, rest, hj, hrest, rfl⟩
    rw [List.forall₂_nil_right_iff.1 hrest]
    cases hj
    rfl
  · rintro rfl
    exact ⟨_, _, .string text, .nil, rfl⟩

theorem Describes.isDisguise_iff (h : Describes inner p.entries) : p.IsDisguise ↔
    ∃ doc text, kept inner = [(referenceKey, doc)] ∧ doc.items = [.string text] := by
  obtain ⟨hnames, -, hvalues⟩ := h
  constructor
  · rintro ⟨text, hp⟩
    rw [hp] at hnames hvalues
    obtain ⟨⟨key, doc⟩, hkept, rfl⟩ := List.map_eq_singleton_iff.1 hnames.symm
    rw [hkept, List.map_singleton, List.map_singleton, List.forall₂_cons] at hvalues
    exact ⟨doc, text, hkept, forall₂_denotes_iff_string.1 hvalues.1⟩
  · rintro ⟨doc, text, hkept, hdoc⟩
    rw [hkept] at hnames hvalues
    obtain ⟨⟨name, values⟩, hp, rfl⟩ := List.map_eq_singleton_iff.1 hnames
    rw [hp, List.map_singleton, List.map_singleton, List.forall₂_cons, hdoc,
      forall₂_denotes_string_iff] at hvalues
    obtain ⟨rfl, -⟩ := hvalues
    exact ⟨text, hp⟩

theorem Describes.undisguised_iff (h : Describes members p.entries) :
    p.Undisguised ↔ Undisguised members := by
  obtain ⟨es⟩ := p
  constructor
  · rintro hun m hm inner hi ⟨hr, hdisguise⟩
    obtain ⟨path, values, hp, hall⟩ := h.exists_holdsAt hm hi
    obtain ⟨v, hv, hdenotes⟩ := exists_mem_of_forall₂ hall hi
    rcases denotes_object_cases hdenotes with href | ⟨sub, rfl, hdesc⟩
    · exact hr href
    · exact hun path values hp sub hv (hdesc.isDisguise_iff.2 hdisguise)
  · intro hun path values hp sub hs hdisguise
    obtain ⟨m, hm, hall⟩ := h.exists_holdsMember hp
    obtain ⟨j, hj, hdenotes⟩ := exists_denotes_of_mem hall hs
    obtain ⟨inner, rfl, hr, hdesc⟩ := denotes_policy_iff.1 hdenotes
    exact hun m hm inner hj ⟨hr, hdesc.isDisguise_iff.1 hdisguise⟩

theorem Describes.finiteDoubles (h : Describes members p.entries)
    (hfinite : FiniteDoubles members) : p.FiniteDoubles := by
  intro path values hp d hd
  obtain ⟨m, hm, hall⟩ := h.exists_holdsMember hp
  obtain ⟨j, hj, hdenotes⟩ := exists_denotes_of_mem hall hd
  cases hdenotes
  exact hfinite m hm d hj

end Json

namespace Policy

/-- Written arrays have several items, at any depth: a single value is written without one. -/
theorem WellFormed.two_le_of_holdsMember {p : Policy} {m : String × Json} {items : List Json}
    (h : p.WellFormed) (hm : Json.HoldsMember (p.entries.map Entry.toMember) m)
    (hitems : m.2 = .array items) : 2 ≤ items.length := by
  generalize hmembers : p.entries.map Entry.toMember = members at hm
  induction hm generalizing p with
  | here hm =>
    subst hmembers
    obtain ⟨e, he, rfl⟩ := List.mem_map.1 hm
    have hne := (h.storable he).ne_nil
    rcases e.toMember_cases with ⟨v, hv, hmember⟩ | ⟨hlen, hmember⟩
    · rw [hmember] at hitems
      exact absurd hitems (v.toJson_ne_array items)
    · rw [hmember] at hitems
      obtain rfl := Json.array.inj hitems
      rw [List.length_map]
      have hpos := List.length_pos_iff.2 hne
      omega
  | deeper hm hi hn ih =>
    subst hmembers
    obtain ⟨e, he, rfl⟩ := List.mem_map.1 hm
    rw [Entry.items_toMember] at hi
    obtain ⟨v, hv, hobject⟩ := List.mem_map.1 hi
    rcases Value.toJson_eq_object_cases hobject with hr | ⟨sub, rfl, rfl⟩
    · obtain ⟨text, htext⟩ := hr.exists_eq_string hn
      rw [htext] at hitems
      cases hitems
    · exact ih (h.nested he hv) hitems rfl

/-- A policy is read as it was written, if its doubles are finite and no policy within it is written
as a reference. The document has the entries in their order, with an array just for several values,
and with what denotes a value for each value. -/
theorem ofJson_toJson (p : Policy) (h : p.WellFormed) (hfinite : p.FiniteDoubles)
    (hun : p.Undisguised) :
    Policy.ofJson p.toJson = .ok p ∧
    (Json.parse? p.toJson.render = some p.toJson → Policy.parse p.render = .ok p) ∧
    ∃ members, p.toJson = .object members ∧ Json.Describes members p.entries ∧
      ∀ m, Json.HoldsMember members m → ∀ items, m.2 = .array items → 2 ≤ items.length := by
  have hread : Policy.ofJson p.toJson = .ok p := h.ofJson_toJson_iff.2 ⟨hfinite, hun⟩
  refine ⟨hread, fun htext => ?_, _, p.toJson_eq, ?_, ?_⟩
  · rw [render, parse_of_parse? htext, hread]
  · exact (Entry.describes_of_ofMembers (ofJson_toJson_eq_ok_iff.1 hread)).2
  · intro m hm items hitems
    exact h.two_le_of_holdsMember hm hitems

def planTree : Policy :=
  ⟨[⟨"scale", [.double 1.5]⟩, ⟨"maps", [.file "north.json"]⟩,
    ⟨"zones", [.policy ⟨[⟨Json.referenceKey, [.string "a", .string "b"]⟩]⟩, .policy .empty]⟩]⟩

theorem finiteDoubles_planTree : planTree.FiniteDoubles := by
  unfold FiniteDoubles planTree
  rw [forall_holdsAt_iff]
  constructor
  · simpa using (by decide : (1.5 : Float).isFinite = true)
  · simp [forall_holdsAt_iff, Policy.empty]

theorem undisguised_planTree : planTree.Undisguised := by
  unfold Undisguised planTree
  rw [forall_holdsAt_iff]
  constructor
  · simp [IsDisguise, Policy.empty]
  · simp [forall_holdsAt_iff, Policy.empty]

def planParts : Json → Option (Float × List String)
  | .object [(a, .number (.double x)), (b, .object [(c, .string d)]),
      (e, .array [.object [(f, .array [.string g, .string i])], .object []])] =>
    some (x, [a, b, c, d, e, f, g, i])
  | _ => none

theorem parse?_planTree : Json.parse? planTree.toJson.render = some planTree.toJson := by
  have h : (Json.parse? planTree.toJson.render).map planParts =
      some (some (1.5, ["scale", "maps", Json.referenceKey, "north.json", "zones",
        Json.referenceKey, "a", "b"])) := by
    decide +kernel
  obtain ⟨doc, hdoc, hparts⟩ := Option.map_eq_some_iff.1 h
  rw [hdoc]
  unfold planParts at hparts
  split at hparts
  · simp only [Option.some.injEq, Prod.mk.injEq, List.cons.injEq] at hparts
    obtain ⟨rfl, rfl, rfl, rfl, rfl, rfl, rfl, rfl, rfl, -⟩ := hparts
    rfl
  · cases hparts

theorem ofJson_toJson_plan :
    planTree.WellFormed ∧ planTree.FiniteDoubles ∧ planTree.Undisguised ∧
      Policy.ofJson planTree.toJson = .ok planTree ∧
        Policy.parse planTree.render = .ok planTree := by
  have hw : planTree.WellFormed := by decide
  obtain ⟨hread, htext, -⟩ := ofJson_toJson planTree hw finiteDoubles_planTree undisguised_planTree
  exact ⟨hw, finiteDoubles_planTree, undisguised_planTree, hread, htext parse?_planTree⟩

/-- An accepted document is read again as the same policy exactly if no object in it, at any depth,
is a disguised reference. -/
theorem ofJson_toJson_iff_undisguised {members : List (String × Json)} {p : Policy}
    (hd : (Json.object members).DistinctKeys) (hfinite : Json.FiniteDoubles members)
    (h : Policy.ofJson (.object members) = .ok p) :
    (Policy.ofJson p.toJson = .ok p ↔ Json.Undisguised members) ∧
    (Json.parse? p.toJson.render = some p.toJson →
      (Policy.parse p.render = .ok p ↔ Json.Undisguised members)) := by
  have hw := wellFormed_of_ofJson h hd
  obtain ⟨members', hmembers, es, hes, rfl⟩ := ofJson_eq_ok_iff.1 h
  cases hmembers
  have hdesc := (Entry.describes_of_ofMembers hes).2
  have hiff : Policy.ofJson (Policy.mk es).toJson = .ok ⟨es⟩ ↔ Json.Undisguised members := by
    rw [hw.ofJson_toJson_iff, hdesc.undisguised_iff]
    exact and_iff_right (hdesc.finiteDoubles hfinite)
  refine ⟨hiff, fun htext => ?_⟩
  rw [render, parse_of_parse? htext, hiff]

def planDocument : List (String × Json) :=
  [("notes", .array []), ("scale", .number (.double 1.5)),
    ("maps", .object [(Json.referenceKey, .string "north.json")]),
    ("zones", .array [.object [(Json.referenceKey, .array [.string "a", .string "b"])],
      .object []])]

theorem distinctKeys_planDocument : (Json.object planDocument).DistinctKeys := by
  have hreference : (Json.object [(Json.referenceKey, .string "north.json")]).DistinctKeys := by
    apply Json.DistinctKeys.object (by decide)
    simp [Json.DistinctKeys.string]
  have htexts : (Json.array [.string "a", .string "b"]).DistinctKeys := by
    apply Json.DistinctKeys.array
    simp [Json.DistinctKeys.string]
  have hzone : (Json.object
      [(Json.referenceKey, .array [.string "a", .string "b"])]).DistinctKeys := by
    apply Json.DistinctKeys.object (by decide)
    simpa using htexts
  have hempty : (Json.object []).DistinctKeys := Json.DistinctKeys.object (by decide) (by simp)
  have hzones : (Json.array [.object [(Json.referenceKey, .array [.string "a", .string "b"])],
      .object []]).DistinctKeys := by
    apply Json.DistinctKeys.array
    simp [hzone, hempty]
  have hnotes : (Json.array []).DistinctKeys := Json.DistinctKeys.array (by simp)
  apply Json.DistinctKeys.object (by decide)
  simp [planDocument, hnotes, hreference, hzones, Json.DistinctKeys.number]

theorem holdsMember_planDocument {m : String × Json} (hm : Json.HoldsMember planDocument m) :
    m ∈ planDocument ∨ m = (Json.referenceKey, .string "north.json") ∨
      m = (Json.referenceKey, .array [.string "a", .string "b"]) := by
  cases hm with
  | here hm => exact .inl hm
  | @deeper _ inner _ _ hm hi hn =>
    have hinner : inner = [(Json.referenceKey, .string "north.json")] ∨
        inner = [(Json.referenceKey, .array [.string "a", .string "b"])] ∨ inner = [] := by
      simp only [planDocument, List.mem_cons, List.not_mem_nil, or_false] at hm
      rcases hm with rfl | rfl | rfl | rfl <;> simp_all [Json.items]
    right
    cases hn with
    | here hn => rcases hinner with rfl | rfl | rfl <;> simp_all
    | deeper hn hi => rcases hinner with rfl | rfl | rfl <;> simp_all [Json.items]

theorem finiteDoubles_planDocument : Json.FiniteDoubles planDocument := by
  intro m hm d hd
  have hfinite : (1.5 : Float).isFinite = true := by decide
  have hmember := holdsMember_planDocument hm
  simp only [planDocument, List.mem_cons, List.not_mem_nil, or_false] at hmember
  rcases hmember with (rfl | rfl | rfl | rfl) | rfl | rfl <;> simp_all [Json.items]

theorem ofJson_toJson_iff_undisguised_plan :
    (Json.object planDocument).DistinctKeys ∧ Json.FiniteDoubles planDocument ∧
      Policy.ofJson (.object planDocument) = .ok planTree ∧ Json.Undisguised planDocument ∧
        Policy.ofJson planTree.toJson = .ok planTree ∧
          Policy.parse planTree.render = .ok planTree := by
  have hread : Policy.ofJson (.object planDocument) = .ok planTree := rfl
  have hmembers : Entry.ofMembers "" planDocument = .ok planTree.entries := rfl
  have hdesc := (Entry.describes_of_ofMembers hmembers).2
  have hun : Json.Undisguised planDocument := hdesc.undisguised_iff.1 undisguised_planTree
  have h := ofJson_toJson_iff_undisguised distinctKeys_planDocument finiteDoubles_planDocument hread
  exact ⟨distinctKeys_planDocument, finiteDoubles_planDocument, hread, hun, h.1.2 hun,
    (h.2 parse?_planTree).2 hun⟩

/-- An array of one text under the key that marks a reference is written as a reference. Read
again, it is one; among other policies it is refused. -/
theorem not_reread_disguise :
    (∃ p q, Policy.ofJson (.object
        [("zone", .object [(Json.referenceKey, .array [.string "map.json"])])]) = .ok p ∧
      Policy.ofJson p.toJson = .ok q ∧ q ≠ p) ∧
    ∃ p e, Policy.ofJson (.object
        [("zones", .array [.object [(Json.referenceKey, .array [.string "map.json"])],
          .object []])]) = .ok p ∧ Policy.ofJson p.toJson = .error e := by
  constructor
  · refine ⟨⟨[⟨"zone", [.policy ⟨[⟨Json.referenceKey, [.string "map.json"]⟩]⟩]⟩]⟩,
      ⟨[⟨"zone", [.file "map.json"]⟩]⟩, rfl, rfl, ?_⟩
    simp
  · exact ⟨⟨[⟨"zones", [.policy ⟨[⟨Json.referenceKey, [.string "map.json"]⟩]⟩, .policy .empty]⟩]⟩,
      _, rfl, rfl⟩

end Policy

end PolicyTree
