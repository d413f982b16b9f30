import PolicyTree.Proofs.Document.WellFormed

namespace PolicyTree

namespace Json

/-- The documents under a key, one for each value: those in an array, or the one that is none. -/
def items : Json → List Json
  | .array items => items
  | doc => [doc]

def kept (members : List (String × Json)) : List (String × Json) :=
  members.filter fun m => !m.2.items.isEmpty

def IsReference (members : List (String × Json)) : Prop :=
  ∃ text, members = [(referenceKey, .string text)]

theorem reference?_eq_some_iff {members : List (String × Json)} {text : String} :
    reference? members = some text ↔ members = [(referenceKey, .string text)] := by
  constructor
  · intro h
    unfold reference? at h
    split at h
    · rename_i key s
      split at h
      · rename_i hkey
        rw [eq_of_beq hkey, Option.some.inj h]
      · cases h
    · cases h
  · rintro rfl
    simp [reference?]

theorem reference?_eq_none_iff {members : List (String × Json)} :
    reference? members = none ↔ ¬IsReference members := by
  simp only [Option.eq_none_iff_forall_ne_some, ne_eq, reference?_eq_some_iff, IsReference,
    not_exists]

instance (members : List (String × Json)) : Decidable (IsReference members) :=
  decidable_of_iff (¬reference? members = none) (by rw [reference?_eq_none_iff, not_not])

def kind : Json → Kind
  | .null => .undefined
  | .bool _ => .bool
  | .number (.int _) => .int
  | .number (.double _) => .double
  | .string _ => .string
  | .array _ => .undefined
  | .object members => if IsReference members then .file else .policy

mutual

/-- The documents of single values: neither null nor an array is one. -/
inductive IsItem : Json → Prop
  | bool (b : Bool) : IsItem (.bool b)
  | number (n : Number) : IsItem (.number n)
  | string (s : String) : IsItem (.string s)
  | reference (text : String) : IsItem (.object [(referenceKey, .string text)])
  | policy {members : List (String × Json)} (hr : ¬IsReference members)
      (h : ∀ m ∈ members, IsMember m) : IsItem (.object members)

/-- The members that a policy can be written with: the key can name an entry, and all items are
documents of values of one kind. -/
inductive IsMember : String × Json → Prop
  | intro {key : String} {doc : Json} (named : key ≠ "" ∧ Name.separator ∉ key.toList)
      (item : ∀ j ∈ doc.items, IsItem j)
      (alike : ∀ j ∈ doc.items, ∀ k ∈ doc.items, j.kind = k.kind) : IsMember (key, doc)

end

mutual

/-- The value that a document stands for. -/
inductive Denotes : Json → Value → Prop
  | bool (b : Bool) : Denotes (.bool b) (.bool b)
  | int (i : Int64) : Denotes (.number (.int i)) (.int i)
  | double (d : Float) : Denotes (.number (.double d)) (.double d)
  | string (s : String) : Denotes (.string s) (.string s)
  | reference (text : String) : Denotes (.object [(referenceKey, .string text)]) (.file text)
  | policy {members : List (String × Json)} {es : List Entry} (hr : ¬IsReference members)
      (h : Describes members es) : Denotes (.object members) (.policy ⟨es⟩)

/-- The entries that the members of an object stand for: their names are the keys of the members
that are kept, in the same order, each with a value for every item. -/
inductive Describes : List (String × Json) → List Entry → Prop
  | intro {members : List (String × Json)} {es : List Entry}
      (names : es.map Entry.name = (kept members).map Prod.fst)
      (counts : (es.map fun e => e.values.length) = (kept members).map fun m => m.2.items.length)
      (values : List.Forall₂ (List.Forall₂ Denotes) ((kept members).map fun m => m.2.items)
        (es.map Entry.values)) : Describes members es

end

variable {doc : Json} {items : List Json} {members rest : List (String × Json)} {v : Value}
  {values : List Value} {es fs : List Entry} {key : String}

theorem IsItem.items_eq (h : doc.IsItem) : doc.items = [doc] := by
  cases h <;> rfl

theorem Denotes.kind_eq (h : doc.Denotes v) : v.kind = doc.kind := by
  cases h with
  | bool | int | double | string => rfl
  | reference text =>
    have hr : IsReference [(referenceKey, .string text)] := ⟨text, rfl⟩
    rw [kind, if_pos hr, Value.kind]
  | policy hr => rw [kind, if_neg hr, Value.kind]

theorem Denotes.kind_ne (h : doc.Denotes v) : v.kind ≠ .undefined := by
  cases h <;> simp [Value.kind]

theorem denotes_policy_iff {p : Policy} : doc.Denotes (.policy p) ↔
    ∃ members, doc = .object members ∧ ¬IsReference members ∧ Describes members p.entries := by
  constructor
  · intro h
    cases h with
    | policy hr h => exact ⟨_, rfl, hr, h⟩
  · rintro ⟨members, rfl, hr, h⟩
    cases p
    exact .policy hr h

theorem exists_denotes_of_mem (h : List.Forall₂ Denotes items values) (hv : v ∈ values) :
    ∃ j ∈ items, j.Denotes v :=
  exists_mem_of_forall₂ (R := fun v j => Denotes j v) (List.Forall₂.flip h) hv

theorem isArray_of_denotes (h : List.Forall₂ Denotes items values) (hne : values ≠ [])
    (halike : ∀ j ∈ items, ∀ k ∈ items, j.kind = k.kind) : Value.IsArray values where
  ne_nil := hne
  kind_eq v hv w hw := by
    obtain ⟨j, hj, hjv⟩ := exists_denotes_of_mem h hv
    obtain ⟨k, hk, hkw⟩ := exists_denotes_of_mem h hw
    rw [hjv.kind_eq, hkw.kind_eq]
    exact halike j hj k hk
  defined v hv := by
    obtain ⟨j, -, hjv⟩ := exists_denotes_of_mem h hv
    exact hjv.kind_ne

theorem alike_of_isArray (h : List.Forall₂ Denotes items values) (harr : Value.IsArray values) :
    ∀ j ∈ items, ∀ k ∈ items, j.kind = k.kind := by
  intro j hj k hk
  obtain ⟨v, hv, hjv⟩ := exists_mem_of_forall₂ h hj
  obtain ⟨w, hw, hkw⟩ := exists_mem_of_forall₂ h hk
  rw [← hjv.kind_eq, ← hkw.kind_eq]
  exact harr.kind_eq v hv w hw

theorem Describes.nil : Describes [] [] :=
  .intro rfl rfl .nil

theorem Describes.append (h : Describes members es) (h' : Describes rest fs) :
    Describes (members ++ rest) (es ++ fs) := by
  obtain ⟨names, counts, values⟩ := h
  obtain ⟨names', counts', values'⟩ := h'
  have hkept : kept (members ++ rest) = kept members ++ kept rest := List.filter_append ..
  refine .intro ?_ ?_ ?_
  · rw [hkept, List.map_append, List.map_append, names, names']
  · rw [hkept, List.map_append, List.map_append, counts, counts']
  · rw [hkept, List.map_append, List.map_append]
    exact List.rel_append values values'

theorem Describes.skip (h : doc.items = []) : Describes [(key, doc)] [] := by
  have hkept : kept [(key, doc)] = [] := by simp [kept, h]
  refine .intro ?_ ?_ ?_ <;> rw [hkept]
  · rfl
  · rfl
  · exact .nil

theorem Describes.single (hne : doc.items ≠ []) (h : List.Forall₂ Denotes doc.items values) :
    Describes [(key, doc)] [⟨key, values⟩] := by
  have hkept : kept [(key, doc)] = [(key, doc)] := by simp [kept, hne]
  refine .intro ?_ ?_ ?_ <;> rw [hkept]
  · rfl
  · simp [h.length_eq]
  · exact .cons h .nil

end Json

theorem Value.items_of_arrayOf {doc : Json} {path : String} {values : List Value}
    (h : Value.arrayOf path true doc = .ok values) : doc.items = [doc] := by
  cases doc with
  | array items => cases h
  | null | bool | number | string | object => rfl

mutual

theorem Value.denotes_of_arrayOf : ∀ {doc : Json} {path : String} {nested : Bool}
    {values : List Value}, Value.arrayOf path nested doc = .ok values →
      (∀ j ∈ doc.items, j.IsItem) ∧ List.Forall₂ Json.Denotes doc.items values
  | .null, path, nested, values, h => by cases h
  | .bool b, path, nested, values, h => by
    cases h
    exact ⟨List.forall_mem_singleton.2 (.bool b), .cons (.bool b) .nil⟩
  | .number n, path, nested, values, h => by
    cases h
    refine ⟨List.forall_mem_singleton.2 (.number n), .cons ?_ .nil⟩
    cases n with
    | int i => exact .int i
    | double d => exact .double d
  | .string s, path, nested, values, h => by
    cases h
    exact ⟨List.forall_mem_singleton.2 (.string s), .cons (.string s) .nil⟩
  | .array items, path, nested, values, h => by
    rw [Value.arrayOf] at h
    split at h
    · cases h
    · exact Value.denotes_of_ofItems h
  | .object members, path, nested, values, h => by
    rw [Value.arrayOf] at h
    split at h
    · rename_i text href
      cases h
      obtain rfl := Json.reference?_eq_some_iff.1 href
      exact ⟨List.forall_mem_singleton.2 (.reference text), .cons (.reference text) .nil⟩
    · rename_i hnone
      obtain ⟨es, hes, h⟩ := bind_eq_ok_iff.1 h
      cases h
      have hr := Json.reference?_eq_none_iff.1 hnone
      obtain ⟨hall, hdesc⟩ := Entry.describes_of_ofMembers hes
      exact ⟨List.forall_mem_singleton.2 (.policy hr hall), .cons (.policy hr hdesc) .nil⟩
termination_by structural doc => doc

theorem Value.denotes_of_ofItems : ∀ {items : List Json} {path : String} {values : List Value},
    Value.ofItems path items = .ok values →
      (∀ j ∈ items, j.IsItem) ∧ List.Forall₂ Json.Denotes items values
  | [], path, values, h => by
    cases h
    exact ⟨by simp, .nil⟩
  | item :: items, path, values, h => by
    obtain ⟨first, hfirst, h⟩ := bind_eq_ok_iff.1 h
    obtain ⟨rest, hrest, h⟩ := bind_eq_ok_iff.1 h
    cases h
    have hone := Value.denotes_of_arrayOf hfirst
    have hall := Value.denotes_of_ofItems hrest
    rw [Value.items_of_arrayOf hfirst] at hone
    refine ⟨List.forall_mem_cons.2 ⟨hone.1 item (List.mem_singleton_self _), hall.1⟩, ?_⟩
    rw [← List.singleton_append]
    exact List.rel_append hone.2 hall.2
termination_by structural items => items

theorem Entry.describes_of_ofMember : ∀ {m : String × Json} {above : String} {o : Option Entry},
    Entry.ofMember above m = .ok o → Json.IsMember m ∧ Json.Describes [m] o.toList
  | (key, doc), above, o, h => by
    rw [Entry.ofMember] at h
    split at h
    · cases h
    · rename_i hleaf
      have hnamed := Name.isLeaf_iff.1 (by simpa using hleaf)
      obtain ⟨values, hvalues, h⟩ := bind_eq_ok_iff.1 h
      obtain ⟨hitem, hdenotes⟩ := Value.denotes_of_arrayOf hvalues
      split at h
      · rename_i hempty
        cases h
        obtain rfl := List.isEmpty_iff.1 hempty
        have hnil : doc.items = [] := List.forall₂_nil_right_iff.1 hdenotes
        -- an empty array has to be named like any other one, but leaves no entry
        refine ⟨.intro hnamed hitem ?_, .skip hnil⟩
        simp [hnil]
      · rename_i hne
        split at h
        · rename_i hcheck
          cases h
          have harr := Policy.checkArray_eq_ok_iff.1 hcheck
          have hsome : doc.items ≠ [] := by
            intro hnil
            rw [hnil] at hdenotes
            exact harr.ne_nil (List.forall₂_nil_left_iff.1 hdenotes)
          exact ⟨.intro hnamed hitem (Json.alike_of_isArray hdenotes harr),
            .single hsome hdenotes⟩
        · cases h
termination_by structural m => m

theorem Entry.describes_of_ofMembers : ∀ {ms : List (String × Json)} {above : String}
    {es : List Entry}, Entry.ofMembers above ms = .ok es →
      (∀ m ∈ ms, Json.IsMember m) ∧ Json.Describes ms es
  | [], above, es, h => by
    cases h
    exact ⟨by simp, .nil⟩
  | m :: ms, above, es, h => by
    obtain ⟨o, ho, h⟩ := bind_eq_ok_iff.1 h
    obtain ⟨rest, hrest, h⟩ := bind_eq_ok_iff.1 h
    cases h
    have hone := Entry.describes_of_ofMember ho
    have hall := Entry.describes_of_ofMembers hrest
    refine ⟨List.forall_mem_cons.2 ⟨hone.1, hall.1⟩, ?_⟩
    rw [← List.singleton_append]
    exact hone.2.append hall.2
termination_by structural ms => ms

end

mutual

theorem Value.exists_arrayOf_eq_ok : ∀ {doc : Json} (path : String) (nested : Bool),
    (∀ j ∈ doc.items, j.IsItem) → (nested = true → doc.IsItem) →
      ∃ values, Value.arrayOf path nested doc = .ok values
  | .null, path, nested, h, _ => by
    have hnull := h .null (List.mem_singleton_self _)
    cases hnull
  | .bool b, path, nested, h, _ => ⟨_, rfl⟩
  | .number n, path, nested, h, _ => ⟨_, rfl⟩
  | .string s, path, nested, h, _ => ⟨_, rfl⟩
  | .array items, path, nested, h, hitem => by
    -- no array is the document of a single value, so this one is not an item of another
    have hflat : ¬nested = true := by
      intro hn
      cases hitem hn
    have hitems : ∀ j ∈ items, j.IsItem := h
    obtain ⟨values, hvalues⟩ := Value.exists_ofItems_eq_ok path hitems
    exact ⟨values, by rw [Value.arrayOf, if_neg hflat, hvalues]⟩
  | .object members, path, nested, h, _ => by
    have hobject := h _ (List.mem_singleton_self _)
    cases hobject with
    | reference text => exact ⟨[.file text], rfl⟩
    | policy hr hall =>
      obtain ⟨es, hes⟩ := Entry.exists_ofMembers_eq_ok path hall
      refine ⟨[.policy ⟨es⟩], ?_⟩
      rw [Value.arrayOf, Json.reference?_eq_none_iff.2 hr]
      exact bind_eq_ok_iff.2 ⟨es, hes, rfl⟩
termination_by structural doc => doc

theorem Value.exists_ofItems_eq_ok : ∀ {items : List Json} (path : String),
    (∀ j ∈ items, j.IsItem) → ∃ values, Value.ofItems path items = .ok values
  | [], path, _ => ⟨[], rfl⟩
  | item :: items, path, h => by
    rw [List.forall_mem_cons] at h
    have hitems : ∀ j ∈ item.items, j.IsItem := by
      rw [h.1.items_eq]
      exact List.forall_mem_singleton.2 h.1
    obtain ⟨first, hfirst⟩ := Value.exists_arrayOf_eq_ok path true hitems fun _ => h.1
    obtain ⟨rest, hrest⟩ := Value.exists_ofItems_eq_ok path h.2
    exact ⟨first ++ rest, bind_eq_ok_iff.2 ⟨first, hfirst, bind_eq_ok_iff.2 ⟨rest, hrest, rfl⟩⟩⟩
termination_by structural items => items

theorem Entry.exists_ofMember_eq_ok : ∀ {m : String × Json} (above : String), Json.IsMember m →
    ∃ o, Entry.ofMember above m = .ok o
  | (key, doc), above, h => by
    cases h with
    | intro named item alike =>
      have hleaf : ¬(!Name.isLeaf key) = true := by
        rw [Name.isLeaf_iff.2 named]
        decide
      obtain ⟨values, hvalues⟩ :=
        Value.exists_arrayOf_eq_ok (Name.join above key) false item fun hn => absurd hn (by decide)
      by_cases hempty : values.isEmpty = true
      · refine ⟨none, ?_⟩
        rw [Entry.ofMember, if_neg hleaf, hvalues, ok_bind, if_pos hempty]
        rfl
      · have hne : values ≠ [] := fun he => hempty (List.isEmpty_iff.2 he)
        have harr := Json.isArray_of_denotes (Value.denotes_of_arrayOf hvalues).2 hne alike
        refine ⟨some ⟨key, values⟩, ?_⟩
        rw [Entry.ofMember, if_neg hleaf, hvalues, ok_bind, if_neg hempty,
          Policy.checkArray_eq_ok_iff.2 harr]
        rfl
termination_by structural m => m

theorem Entry.exists_ofMembers_eq_ok : ∀ {ms : List (String × Json)} (above : String),
    (∀ m ∈ ms, Json.IsMember m) → ∃ es, Entry.ofMembers above ms = .ok es
  | [], above, _ => ⟨[], rfl⟩
  | m :: ms, above, h => by
    rw [List.forall_mem_cons] at h
    obtain ⟨o, ho⟩ := Entry.exists_ofMember_eq_ok above h.1
    obtain ⟨rest, hrest⟩ := Entry.exists_ofMembers_eq_ok above h.2
    exact ⟨o.toList ++ rest, bind_eq_ok_iff.2 ⟨o, ho, bind_eq_ok_iff.2 ⟨rest, hrest, rfl⟩⟩⟩
termination_by structural ms => ms

end

theorem Policy.ofJson_eq_ok_iff {doc : Json} {p : Policy} : Policy.ofJson doc = .ok p ↔
    ∃ members, doc = .object members ∧ ∃ es, Entry.ofMembers "" members = .ok es ∧ p = ⟨es⟩ := by
  constructor
  · intro h
    cases doc with
    | object members =>
      obtain ⟨es, hes, h⟩ := bind_eq_ok_iff.1 h
      exact ⟨members, rfl, es, hes, (Except.ok.inj h).symm⟩
    | null | bool | number | string | array => cases h
  · rintro ⟨members, rfl, es, hes, rfl⟩
    exact bind_eq_ok_iff.2 ⟨es, hes, rfl⟩

namespace Json.NumberText

variable {n : NumberText} {i : Int64} {k : Nat}

def wholePart (n : NumberText) : Int :=
  if n.negative then -(digitsValue n.whole : Int) else digitsValue n.whole

theorem ofNat_eq_iff (h : k < Nat.pow 2 63) : Int64.ofNat k = i ↔ i.toInt = k := by
  have hk : (Int64.ofNat k).toInt = k := Int64.toInt_ofNat_of_lt h
  rw [← Int64.toInt_inj, hk, eq_comm]

theorem ofInt_eq_iff (h : k ≤ Nat.pow 2 63) : Int64.ofInt (-k) = i ↔ i.toInt = -(k : Int) := by
  have hk : (Int64.ofInt (-k)).toInt = -(k : Int) := by
    apply Int64.toInt_ofInt_of_le
    · simp at h ⊢
      omega
    · simp
      omega
  rw [← Int64.toInt_inj, hk, eq_comm]

/-- A literal stands for an integer if it has neither fraction nor exponent and fits; zero with a
minus sign is a double. -/
theorem value?_eq_int_iff : n.value? = some (.int i) ↔
    n.fraction = none ∧ n.exponent = none ∧ (n.negative = true → digitsValue n.whole ≠ 0) ∧
      i.toInt = n.wholePart := by
  have hpow : Nat.pow 2 63 = 9223372036854775808 := rfl
  have hlow : -9223372036854775808 ≤ i.toInt := Int64.le_toInt i
  have hhigh : i.toInt < 9223372036854775808 := Int64.toInt_lt i
  simp only [value?, Bool.and_eq_true, Bool.not_eq_true', decide_eq_true_eq, Option.isNone_iff_eq_none]
  split
  · rename_i h
    obtain ⟨⟨⟨hfraction, hexponent⟩, hsign⟩, hfits⟩ := h
    rw [Option.some.injEq, Number.int.injEq, ofNat_eq_iff hfits]
    simp [hfraction, hexponent, hsign, wholePart]
  · rename_i hpos
    split
    · rename_i h
      obtain ⟨⟨⟨⟨hfraction, hexponent⟩, hsign⟩, hzero⟩, hfits⟩ := h
      rw [Option.some.injEq, Number.int.injEq, ofInt_eq_iff hfits]
      simp [hfraction, hexponent, hsign, wholePart, Nat.ne_of_gt hzero]
    · rename_i hneg
      constructor
      · intro h
        obtain ⟨d, -, hd⟩ := Option.map_eq_some_iff.1 h
        cases hd
      · rintro ⟨hfraction, hexponent, hzero, hi⟩
        rw [wholePart] at hi
        cases hsign : n.negative with
        | false =>
          rw [hsign, if_neg (by decide)] at hi
          exact absurd ⟨⟨⟨hfraction, hexponent⟩, hsign⟩, by omega⟩ hpos
        | true =>
          rw [hsign, if_pos rfl] at hi
          have hne := hzero hsign
          exact absurd ⟨⟨⟨⟨hfraction, hexponent⟩, hsign⟩, by omega⟩, by omega⟩ hneg

end Json.NumberText
/-- A document is read as a policy exactly if it is an object whose members keep to the format. What
is read has, level by level, a name for each key that does not hold an empty array, in the same
order and with a value for each item; and an integer is one that is written as such and fits. -/
theorem Policy.exists_ofJson_eq_ok_iff (doc : Json) :
    ((∃ p, Policy.ofJson doc = .ok p) ↔
      ∃ members, doc = .object members ∧ ∀ m ∈ members, Json.IsMember m) ∧
    (∀ p, Policy.ofJson doc = .ok p →
      ∃ members, doc = .object members ∧ Json.Describes members p.entries) ∧
    ∀ (n : Json.NumberText) (i : Int64), n.value? = some (.int i) ↔
      n.fraction = none ∧ n.exponent = none ∧
        (n.negative = true → Json.NumberText.digitsValue n.whole ≠ 0) ∧ i.toInt = n.wholePart := by
  refine ⟨⟨?_, ?_⟩, ?_, fun n i => Json.NumberText.value?_eq_int_iff⟩
  · rintro ⟨p, hp⟩
    obtain ⟨members, rfl, es, hes, -⟩ := Policy.ofJson_eq_ok_iff.1 hp
    exact ⟨members, rfl, (Entry.describes_of_ofMembers hes).1⟩
  · rintro ⟨members, rfl, hall⟩
    obtain ⟨es, hes⟩ := Entry.exists_ofMembers_eq_ok "" hall
    exact ⟨⟨es⟩, Policy.ofJson_eq_ok_iff.2 ⟨members, rfl, es, hes, rfl⟩⟩
  · intro p hp
    obtain ⟨members, rfl, es, hes, rfl⟩ := Policy.ofJson_eq_ok_iff.1 hp
    exact ⟨members, rfl, (Entry.describes_of_ofMembers hes).2⟩

end PolicyTree
