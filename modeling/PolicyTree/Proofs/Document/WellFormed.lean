import PolicyTree.Proofs.Policy.Operations

namespace PolicyTree

namespace Json

/-- The keys of every object in the document are distinct. -/
inductive DistinctKeys : Json → Prop
  | null : DistinctKeys .null
  | bool (b : Bool) : DistinctKeys (.bool b)
  | number (n : Number) : DistinctKeys (.number n)
  | string (s : String) : DistinctKeys (.string s)
  | array {items : List Json} (h : ∀ j ∈ items, DistinctKeys j) : DistinctKeys (.array items)
  | object {members : List (String × Json)} (unique : (members.map Prod.fst).Nodup)
      (h : ∀ m ∈ members, DistinctKeys m.2) : DistinctKeys (.object members)

variable {key : String} {v : Json} {members added : List (String × Json)} {m : String × Json}

theorem mem_putMember (h : m ∈ putMember members key v) : m ∈ members ∨ m = (key, v) := by
  induction members with
  | nil => simpa [putMember] using h
  | cons first members ih =>
    rw [putMember] at h
    split at h
    · rename_i hk
      rcases List.mem_cons.1 h with rfl | h
      · right
        rw [eq_of_beq hk]
      · exact .inl (List.mem_cons_of_mem _ h)
    · rcases List.mem_cons.1 h with rfl | h
      · exact .inl (List.mem_cons_self ..)
      · exact (ih h).imp_left (List.mem_cons_of_mem _)

theorem mem_keys_putMember {k : String} (h : k ∈ (putMember members key v).map Prod.fst) :
    k ∈ members.map Prod.fst ∨ k = key := by
  obtain ⟨m, hm, rfl⟩ := List.mem_map.1 h
  rcases mem_putMember hm with hm | rfl
  · exact .inl (List.mem_map_of_mem hm)
  · exact .inr rfl

theorem nodup_putMember (h : (members.map Prod.fst).Nodup) :
    ((putMember members key v).map Prod.fst).Nodup := by
  induction members with
  | nil => simp [putMember]
  | cons first members ih =>
    rw [List.map_cons, List.nodup_cons] at h
    rw [putMember]
    split
    · rw [List.map_cons, List.nodup_cons]
      exact h
    · rename_i hk
      rw [List.map_cons, List.nodup_cons]
      refine ⟨?_, ih h.2⟩
      intro hm
      rcases mem_keys_putMember hm with hm | he
      · exact h.1 hm
      · exact hk (beq_iff_eq.2 he)

theorem foldl_putMember (hu : (members.map Prod.fst).Nodup)
    (h : ∀ m ∈ members, m.2.DistinctKeys) (ha : ∀ m ∈ added, m.2.DistinctKeys) :
    (Json.object (added.foldl (fun acc m => putMember acc m.1 m.2) members)).DistinctKeys := by
  induction added generalizing members with
  | nil => exact .object hu h
  | cons first added ih =>
    rw [List.foldl_cons]
    apply ih (nodup_putMember hu)
    · intro m hm
      rcases mem_putMember hm with hm | rfl
      · exact h m hm
      · exact ha first (List.mem_cons_self ..)
    · exact fun m hm => ha m (List.mem_cons_of_mem _ hm)

mutual

theorem distinctKeys_of_ofOutline? : ∀ {depth : Nat} {o : Outline} {doc : Json},
    ofOutline? depth o = some doc → doc.DistinctKeys
  | _, .null, doc, h => by
    cases h
    exact .null
  | _, .bool b, doc, h => by
    cases h
    exact .bool b
  | _, .number n, doc, h => by
    obtain ⟨n, -, rfl⟩ := Option.map_eq_some_iff.1 h
    exact .number n
  | _, .string s, doc, h => by
    obtain ⟨s, -, rfl⟩ := Option.map_eq_some_iff.1 h
    exact .string s
  | 0, .array items, doc, h => by cases h
  | depth + 1, .array items, doc, h => by
    obtain ⟨js, hjs, rfl⟩ := Option.map_eq_some_iff.1 h
    exact .array (distinctKeys_of_ofItems? hjs)
  | 0, .object members, doc, h => by cases h
  | depth + 1, .object members, doc, h => by
    obtain ⟨ms, hms, rfl⟩ := Option.map_eq_some_iff.1 h
    exact foldl_putMember List.nodup_nil (by simp) (distinctKeys_of_ofMembers? hms)
termination_by structural _ o => o

theorem distinctKeys_of_ofItems? : ∀ {depth : Nat} {items : List Outline} {docs : List Json},
    ofItems? depth items = some docs → ∀ j ∈ docs, j.DistinctKeys
  | _, [], docs, h => by
    cases h
    simp
  | depth, o :: os, docs, h => by
    obtain ⟨j, hj, h⟩ := Option.bind_eq_some_iff.1 h
    obtain ⟨js, hjs, h⟩ := Option.bind_eq_some_iff.1 h
    cases h
    have hfirst := distinctKeys_of_ofOutline? hj
    have hrest := distinctKeys_of_ofItems? hjs
    intro k hk
    rcases List.mem_cons.1 hk with rfl | hk
    · exact hfirst
    · exact hrest k hk
termination_by structural _ items => items

theorem distinctKeys_of_ofMembers? : ∀ {depth : Nat} {ms : List (List Piece × Outline)}
    {members : List (String × Json)}, ofMembers? depth ms = some members →
      ∀ m ∈ members, m.2.DistinctKeys
  | _, [], members, h => by
    cases h
    simp
  | depth, m :: ms, members, h => by
    obtain ⟨first, hfirst, h⟩ := Option.bind_eq_some_iff.1 h
    obtain ⟨rest, hrest, h⟩ := Option.bind_eq_some_iff.1 h
    cases h
    have hone := distinctKeys_of_ofMember? hfirst
    have hall := distinctKeys_of_ofMembers? hrest
    intro k hk
    rcases List.mem_cons.1 hk with rfl | hk
    · exact hone
    · exact hall k hk
termination_by structural _ ms => ms

theorem distinctKeys_of_ofMember? : ∀ {depth : Nat} {m : List Piece × Outline}
    {member : String × Json}, ofMember? depth m = some member → member.2.DistinctKeys
  | depth, (key, o), member, h => by
    obtain ⟨k, -, h⟩ := Option.bind_eq_some_iff.1 h
    obtain ⟨j, hj, h⟩ := Option.bind_eq_some_iff.1 h
    cases h
    exact distinctKeys_of_ofOutline? hj
termination_by structural _ m => m

end

theorem distinctKeys_of_parse? {text : String} {doc : Json} (h : parse? text = some doc) :
    doc.DistinctKeys := by
  obtain ⟨o, -, ho⟩ := Option.bind_eq_some_iff.1 h
  exact distinctKeys_of_ofOutline? ho

end Json

mutual

theorem Value.wellFormed_of_arrayOf : ∀ {doc : Json} {path : String} {nested : Bool}
    {values : List Value}, Value.arrayOf path nested doc = .ok values → doc.DistinctKeys →
      ∀ v ∈ values, v.WellFormed
  | .null, path, nested, values, h, _ => by cases h
  | .bool b, path, nested, values, h, _ => by
    cases h
    rw [List.forall_mem_singleton]
    exact Value.wellFormed_of_kind (by simp [Value.kind])
  | .number n, path, nested, values, h, _ => by
    cases h
    rw [List.forall_mem_singleton]
    apply Value.wellFormed_of_kind
    cases n with
    | int i => simp [Value.ofNumber, Value.kind]
    | double d => simp [Value.ofNumber, Value.kind]
  | .string s, path, nested, values, h, _ => by
    cases h
    rw [List.forall_mem_singleton]
    exact Value.wellFormed_of_kind (by simp [Value.kind])
  | .array items, path, nested, values, h, hd => by
    rw [Value.arrayOf] at h
    split at h
    · cases h
    · cases hd with
      | array hd => exact Value.wellFormed_of_ofItems h hd
  | .object members, path, nested, values, h, hd => by
    rw [Value.arrayOf] at h
    split at h
    · rename_i reference _
      cases h
      rw [List.forall_mem_singleton]
      exact Value.wellFormed_of_kind (by simp [Value.kind])
    · obtain ⟨es, hes, h⟩ := bind_eq_ok_iff.1 h
      cases h
      cases hd with
      | object unique hd =>
        obtain ⟨hsub, hall⟩ := Entry.wellFormed_of_ofMembers hes hd
        rw [List.forall_mem_singleton, Value.wellFormed_policy]
        exact .of_entries (unique.sublist hsub) hall
termination_by structural doc => doc

theorem Value.wellFormed_of_ofItems : ∀ {items : List Json} {path : String}
    {values : List Value}, Value.ofItems path items = .ok values →
      (∀ j ∈ items, j.DistinctKeys) → ∀ v ∈ values, v.WellFormed
  | [], path, values, h, _ => by
    cases h
    simp
  | item :: items, path, values, h, hd => by
    obtain ⟨first, hfirst, h⟩ := bind_eq_ok_iff.1 h
    obtain ⟨rest, hrest, h⟩ := bind_eq_ok_iff.1 h
    cases h
    have hone := Value.wellFormed_of_arrayOf hfirst (hd item (List.mem_cons_self ..))
    have hall := Value.wellFormed_of_ofItems hrest fun j hj => hd j (List.mem_cons_of_mem _ hj)
    intro v hv
    rcases List.mem_append.1 hv with hv | hv
    · exact hone v hv
    · exact hall v hv
termination_by structural items => items

theorem Entry.wellFormed_of_ofMember : ∀ {m : String × Json} {above : String} {o : Option Entry},
    Entry.ofMember above m = .ok o → m.2.DistinctKeys →
      ∀ e, o = some e → e.name = m.1 ∧ Name.isLeaf e.name = true ∧ Value.Storable e.values
  | (key, doc), above, o, h, hd => by
    rw [Entry.ofMember] at h
    split at h
    · cases h
    · rename_i hleaf
      obtain ⟨values, hvalues, h⟩ := bind_eq_ok_iff.1 h
      have hw := Value.wellFormed_of_arrayOf hvalues hd
      split at h
      · cases h
        rintro e ⟨⟩
      · split at h
        · rename_i hcheck
          cases h
          rintro e ⟨⟩
          refine ⟨rfl, by simpa using hleaf, ?_, hw⟩
          exact Policy.checkArray_eq_ok_iff.1 hcheck
        · cases h
termination_by structural m => m

theorem Entry.wellFormed_of_ofMembers : ∀ {ms : List (String × Json)} {above : String}
    {es : List Entry}, Entry.ofMembers above ms = .ok es → (∀ m ∈ ms, m.2.DistinctKeys) →
      (es.map Entry.name).Sublist (ms.map Prod.fst) ∧
        ∀ e ∈ es, Name.isLeaf e.name = true ∧ Value.Storable e.values
  | [], above, es, h, _ => by
    cases h
    simp
  | m :: ms, above, es, h, hd => by
    obtain ⟨o, ho, h⟩ := bind_eq_ok_iff.1 h
    obtain ⟨rest, hrest, h⟩ := bind_eq_ok_iff.1 h
    cases h
    have hone := Entry.wellFormed_of_ofMember ho (hd m (List.mem_cons_self ..))
    obtain ⟨hsub, hall⟩ :=
      Entry.wellFormed_of_ofMembers hrest fun m hm => hd m (List.mem_cons_of_mem _ hm)
    cases o with
    | none => exact ⟨hsub.cons _, hall⟩
    | some e =>
      obtain ⟨hname, hleaf, hstore⟩ := hone e rfl
      constructor
      · rw [Option.toList_some, List.singleton_append, List.map_cons, List.map_cons, hname]
        exact hsub.cons_cons _
      · intro f hf
        rcases List.mem_cons.1 hf with rfl | hf
        · exact ⟨hleaf, hstore⟩
        · exact hall f hf
termination_by structural ms => ms

end

theorem Policy.wellFormed_of_ofJson {doc : Json} {p : Policy} (h : Policy.ofJson doc = .ok p)
    (hd : doc.DistinctKeys) : p.WellFormed := by
  cases doc with
  | object members =>
    obtain ⟨es, hes, h⟩ := bind_eq_ok_iff.1 h
    cases h
    cases hd with
    | object unique hd =>
      obtain ⟨hsub, hall⟩ := Entry.wellFormed_of_ofMembers hes hd
      exact .of_entries (unique.sublist hsub) hall
  | null | bool | number | string | array => cases h

theorem Policy.wellFormed_of_parse {text : String} {p : Policy} (h : Policy.parse text = .ok p) :
    p.WellFormed := by
  rw [Policy.parse] at h
  split at h
  · rename_i doc hdoc
    exact Policy.wellFormed_of_ofJson h (Json.distinctKeys_of_parse? hdoc)
  · cases h

end PolicyTree
