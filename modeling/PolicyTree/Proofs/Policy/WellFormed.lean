import PolicyTree.Policy.Update
import PolicyTree.Proofs.Name.Segments
import PolicyTree.Proofs.Outcome

namespace PolicyTree

/-- The values that can stand under a name: there is one, all are of one kind, and none is
undefined. -/
structure Value.IsArray (values : List Value) : Prop where
  ne_nil : values ≠ []
  kind_eq : ∀ v ∈ values, ∀ w ∈ values, v.kind = w.kind
  defined : ∀ v ∈ values, v.kind ≠ .undefined

inductive Policy.WellFormed : Policy → Prop
  | intro {es : List Entry} (unique : (es.map Entry.name).Nodup)
      (leaf : ∀ e ∈ es, Name.isLeaf e.name = true) (array : ∀ e ∈ es, Value.IsArray e.values)
      (nested : ∀ e ∈ es, ∀ sub, Value.policy sub ∈ e.values → WellFormed sub) :
      WellFormed ⟨es⟩

/-- A value is well-formed if it is no policy or a well-formed one. -/
def Value.WellFormed (v : Value) : Prop :=
  ∀ sub, v = .policy sub → sub.WellFormed

structure Value.Storable (values : List Value) : Prop extends IsArray values where
  nested : ∀ v ∈ values, v.WellFormed

namespace Value

variable {v : Value} {values : List Value}

theorem wellFormed_policy {sub : Policy} : (Value.policy sub).WellFormed ↔ sub.WellFormed := by
  constructor
  · intro h
    exact h sub rfl
  · rintro h _ ⟨⟩
    exact h

theorem wellFormed_of_kind (h : v.kind ≠ .policy) : v.WellFormed := by
  rintro sub rfl
  exact absurd rfl h

theorem IsArray.kind_of_mem (h : IsArray values) (hv : v ∈ values) (name : String) :
    (Entry.mk name values).kind = v.kind := by
  cases values with
  | nil => cases hv
  | cons first rest => exact h.kind_eq first (List.mem_cons_self ..) v hv

theorem IsArray.of_kind {k : Kind} (hne : values ≠ []) (hk : ∀ v ∈ values, v.kind = k)
    (hd : k ≠ .undefined) : IsArray values where
  ne_nil := hne
  kind_eq v hv w hw := (hk v hv).trans (hk w hw).symm
  defined v hv := by
    rw [hk v hv]
    exact hd

theorem IsArray.of_mem {values' : List Value} (h : IsArray values) (hne : values' ≠ [])
    (hk : ∀ w ∈ values', ∃ v ∈ values, w.kind = v.kind) : IsArray values' where
  ne_nil := hne
  kind_eq a ha b hb := by
    obtain ⟨v, hv, hav⟩ := hk a ha
    obtain ⟨w, hw, hbw⟩ := hk b hb
    rw [hav, hbw]
    exact h.kind_eq v hv w hw
  defined a ha := by
    obtain ⟨v, hv, hav⟩ := hk a ha
    rw [hav]
    exact h.defined v hv

theorem IsArray.singleton (h : v.isUndefined = false) : IsArray [v] := by
  apply IsArray.of_kind (k := v.kind) (List.cons_ne_nil _ _) (by simp)
  intro hk
  rw [isUndefined_iff.2 hk] at h
  cases h

theorem Storable.singleton (h : v.isUndefined = false) (hv : v.WellFormed) : Storable [v] where
  toIsArray := .singleton h
  nested := by simpa using hv

theorem storable_policies {subs : List Policy} (hne : subs ≠ [])
    (h : ∀ sub ∈ subs, sub.WellFormed) : Storable (subs.map .policy) where
  toIsArray := by
    apply IsArray.of_kind (k := .policy) (by simpa using hne)
    · intro v hv
      obtain ⟨sub, -, rfl⟩ := List.mem_map.1 hv
      rfl
    · decide
  nested v hv := by
    obtain ⟨sub, hs, rfl⟩ := List.mem_map.1 hv
    exact wellFormed_policy.2 (h sub hs)

end Value

namespace Policy

variable {p q sub : Policy} {e : Entry} {name : String} {values : List Value}

theorem WellFormed.unique (h : p.WellFormed) : (p.entries.map Entry.name).Nodup := by
  cases h
  assumption

theorem WellFormed.leaf (h : p.WellFormed) (he : e ∈ p.entries) : Name.isLeaf e.name = true := by
  cases h with
  | intro unique leaf array nested => exact leaf e he

theorem WellFormed.storable (h : p.WellFormed) (he : e ∈ p.entries) : Value.Storable e.values := by
  cases h with
  | intro unique leaf array nested =>
    refine ⟨array e he, ?_⟩
    rintro v hv sub rfl
    exact nested e he sub hv

theorem WellFormed.nested (h : p.WellFormed) (he : e ∈ p.entries)
    (hs : Value.policy sub ∈ e.values) : sub.WellFormed :=
  (h.storable he).nested _ hs sub rfl

theorem WellFormed.of_entries {es : List Entry} (unique : (es.map Entry.name).Nodup)
    (h : ∀ e ∈ es, Name.isLeaf e.name = true ∧ Value.Storable e.values) : WellFormed ⟨es⟩ := by
  refine .intro unique (fun e he => (h e he).1) (fun e he => (h e he).2.toIsArray) ?_
  intro e he sub hs
  exact (h e he).2.nested _ hs sub rfl

theorem WellFormed.empty : Policy.empty.WellFormed :=
  .of_entries List.nodup_nil fun _ he => absurd he List.not_mem_nil

theorem mem_of_entry?_eq_some (h : p.entry? name = some e) : e ∈ p.entries :=
  List.mem_of_find?_eq_some h

theorem name_of_entry?_eq_some (h : p.entry? name = some e) : e.name = name := by
  simpa using List.find?_some h

theorem find?_name_of_mem {es : List Entry} (hu : (es.map Entry.name).Nodup) (he : e ∈ es) :
    (es.find? fun f => f.name == e.name) = some e := by
  induction es with
  | nil => cases he
  | cons f es ih =>
    rw [List.map_cons, List.nodup_cons] at hu
    rcases List.mem_cons.1 he with rfl | he
    · simp
    · have hne : f.name ≠ e.name := by
        intro hn
        exact hu.1 (hn ▸ List.mem_map_of_mem he)
      rw [List.find?_cons_of_neg (by simpa using hne)]
      exact ih hu.2 he

theorem WellFormed.entry?_of_mem (h : p.WellFormed) (he : e ∈ p.entries) :
    p.entry? e.name = some e :=
  find?_name_of_mem h.unique he

theorem entry?_eq_none_iff : p.entry? name = none ↔ name ∉ p.entries.map Entry.name := by
  simp [Policy.entry?]

theorem WellFormed.child? (h : p.WellFormed) (hc : p.child? name = some sub) : sub.WellFormed := by
  simp only [Policy.child?, Option.bind_eq_some_iff, Value.policy?_eq_some_iff] at hc
  obtain ⟨v, ⟨e, he, hv⟩, rfl⟩ := hc
  exact h.nested (mem_of_entry?_eq_some he) (List.mem_of_getLast? hv)

theorem WellFormed.valuesAt? {segs : List String} (h : p.WellFormed)
    (hv : p.valuesAt? segs = some values) : Value.Storable values := by
  induction segs generalizing p with
  | nil => cases hv
  | cons seg rest ih =>
    cases rest with
    | nil =>
      obtain ⟨e, he, rfl⟩ := Option.map_eq_some_iff.1 hv
      exact h.storable (mem_of_entry?_eq_some he)
    | cons next rest =>
      obtain ⟨sub, hs, hv⟩ := Option.bind_eq_some_iff.1 hv
      exact ih (h.child? hs) hv

theorem mem_entryPut {es : List Entry} (he : e ∈ Entry.put name values es) :
    e ∈ es ∨ e = ⟨name, values⟩ := by
  induction es with
  | nil => simpa [Entry.put] using he
  | cons f es ih =>
    rw [Entry.put] at he
    split at he
    · rename_i hf
      rcases List.mem_cons.1 he with rfl | he
      · right
        rw [eq_of_beq hf]
      · exact .inl (List.mem_cons_of_mem _ he)
    · rcases List.mem_cons.1 he with rfl | he
      · exact .inl (List.mem_cons_self ..)
      · exact (ih he).imp_left (List.mem_cons_of_mem _)

theorem names_entryPut (name : String) (values : List Value) (es : List Entry) :
    (Entry.put name values es).map Entry.name =
      if name ∈ es.map Entry.name then es.map Entry.name else es.map Entry.name ++ [name] := by
  induction es with
  | nil => rfl
  | cons f es ih =>
    rw [Entry.put]
    by_cases hf : f.name = name
    · simp [hf]
    · rw [if_neg (by simpa using hf), List.map_cons, ih]
      have hm : name ∈ (f :: es).map Entry.name ↔ name ∈ es.map Entry.name := by
        rw [List.map_cons, List.mem_cons]
        exact or_iff_right (Ne.symm hf)
      simp only [hm]
      split <;> rfl

theorem WellFormed.put (h : p.WellFormed) (hn : Name.isLeaf name = true)
    (hv : Value.Storable values) : (p.put name values).WellFormed := by
  apply WellFormed.of_entries
  · rw [names_entryPut]
    split
    · exact h.unique
    · rename_i hm
      rw [List.nodup_append]
      refine ⟨h.unique, by simp, ?_⟩
      rintro a ha b hb rfl
      rw [List.mem_singleton] at hb
      exact hm (hb ▸ ha)
  · intro e he
    rcases mem_entryPut he with he | rfl
    · exact ⟨h.leaf he, h.storable he⟩
    · exact ⟨hn, hv⟩

theorem WellFormed.erase (h : p.WellFormed) (name : String) : (p.erase name).WellFormed := by
  apply WellFormed.of_entries
  · exact h.unique.sublist (List.eraseP_sublist.map _)
  · intro e he
    have he := List.mem_of_mem_eraseP he
    exact ⟨h.leaf he, h.storable he⟩

theorem WellFormed.putChild (h : p.WellFormed) (hn : Name.isLeaf name = true)
    (hs : sub.WellFormed)
    (hlast : ∀ v, (p.entry? name).bind (·.values.getLast?) = some v → v.kind = .policy) :
    (p.putChild name sub).WellFormed := by
  rw [Policy.putChild]
  apply h.put hn
  cases he : p.entry? name with
  | none => exact .singleton rfl (Value.wellFormed_policy.2 hs)
  | some e =>
    have harr := h.storable (mem_of_entry?_eq_some he)
    have hl := List.getLast?_eq_some_getLast harr.ne_nil
    have hk := hlast _ (by rw [he]; exact hl)
    have hmem : ∀ v ∈ e.values.dropLast ++ [.policy sub], v ∈ e.values ∨ v = .policy sub := by
      intro v hv
      rcases List.mem_append.1 hv with hv | hv
      · exact .inl (List.dropLast_subset _ hv)
      · exact .inr (List.mem_singleton.1 hv)
    refine ⟨.of_kind (k := .policy) (by simp) ?_ (by decide), ?_⟩
    · intro v hv
      rcases hmem v hv with hv | rfl
      · exact (harr.kind_eq v hv _ (List.getLast_mem harr.ne_nil)).trans hk
      · rfl
    · intro v hv
      rcases hmem v hv with hv | rfl
      · exact harr.nested v hv
      · exact Value.wellFormed_policy.2 hs

theorem child_eq_ok_iff {full : String} :
    p.child name full = .ok sub ↔
      (p.entry? name).bind (·.values.getLast?) = some (.policy sub) := by
  rw [Policy.child]
  split
  · rename_i hv
    simp [hv]
  · rename_i found hv
    simp [hv]
  · rename_i v hne hv
    have hsub : v ≠ .policy sub := hne sub
    simp [hv, hsub]

theorem WellFormed.child {full : String} (h : p.WellFormed) (hs : p.child name full = .ok sub) :
    sub.WellFormed ∧
      ∀ v, (p.entry? name).bind (·.values.getLast?) = some v → v.kind = .policy := by
  have hl := child_eq_ok_iff.1 hs
  obtain ⟨e, he, hv⟩ := Option.bind_eq_some_iff.1 hl
  refine ⟨h.nested (mem_of_entry?_eq_some he) (List.mem_of_getLast? hv), fun v hv => ?_⟩
  rw [hl] at hv
  cases hv
  rfl

theorem WellFormed.enter {create : Bool} {full : String} (h : p.WellFormed)
    (hs : p.enter create name full = .ok sub) :
    sub.WellFormed ∧
      ∀ v, (p.entry? name).bind (·.values.getLast?) = some v → v.kind = .policy := by
  rw [Policy.enter] at hs
  split at hs
  · rename_i hnew
    obtain rfl := Except.ok.inj hs
    rw [Bool.and_eq_true, Option.isNone_iff_eq_none] at hnew
    refine ⟨.empty, fun v hv => ?_⟩
    rw [hnew.2] at hv
    cases hv
  · exact h.child hs

theorem editHolder_eq_ok {α : Type} {create : Bool}
    {edit : Policy → String → Except Error (α × Policy)} {walked seg next : String}
    {rest : List String} {answer : α}
    (h : p.editHolder create edit walked (seg :: next :: rest) = .ok (answer, q)) :
    ∃ sub sub', p.enter create seg (Name.join walked seg) = .ok sub ∧
      sub.editHolder create edit (Name.join walked seg) (next :: rest) = .ok (answer, sub') ∧
      q = p.putChild seg sub' := by
  simp only [editHolder] at h
  obtain ⟨sub, hsub, h⟩ := bind_eq_ok_iff.1 h
  obtain ⟨result, hresult, h⟩ := bind_eq_ok_iff.1 h
  obtain ⟨rfl, rfl⟩ := Prod.mk.inj (Except.ok.inj h)
  exact ⟨sub, result.2, hsub, hresult, rfl⟩

/-- A change that keeps policies well-formed does so wherever in the tree it is made. -/
theorem WellFormed.editHolder {α : Type} {create : Bool}
    {edit : Policy → String → Except Error (α × Policy)}
    (hedit : ∀ {holder holder' leaf answer}, holder.WellFormed → Name.isLeaf leaf = true →
      edit holder leaf = .ok (answer, holder') → holder'.WellFormed)
    {walked : String} {segs : List String} {answer : α} (h : p.WellFormed)
    (hsegs : ∀ s ∈ segs, Name.isLeaf s = true)
    (hq : p.editHolder create edit walked segs = .ok (answer, q)) : q.WellFormed := by
  induction segs generalizing p q walked with
  | nil => cases hq
  | cons seg rest ih =>
    have hseg := hsegs seg (List.mem_cons_self ..)
    cases rest with
    | nil => exact hedit h hseg hq
    | cons next rest =>
      obtain ⟨sub, sub', hsub, hresult, rfl⟩ := editHolder_eq_ok hq
      obtain ⟨hw, hlast⟩ := h.enter hsub
      have hrest := fun s hs => hsegs s (List.mem_cons_of_mem _ hs)
      exact h.putChild hseg (ih hw hrest hresult) hlast

theorem WellFormed.edit {α : Type} {create : Bool} {path : String} {answer : α}
    {change : Policy → String → Except Error (α × Policy)}
    (hchange : ∀ {holder holder' leaf answer}, holder.WellFormed → Name.isLeaf leaf = true →
      change holder leaf = .ok (answer, holder') → holder'.WellFormed)
    (h : p.WellFormed) (hq : p.edit create path change = .ok (answer, q)) : q.WellFormed := by
  obtain ⟨segs, hsegs, hq⟩ := bind_eq_ok_iff.1 hq
  exact h.editHolder hchange (fun s hs => Name.isLeaf_of_mem_segments hsegs hs) hq

end Policy

theorem Value.isArray_iff {values : List Value} : IsArray values ↔
    values ≠ [] ∧ (∀ v ∈ values, ∀ w ∈ values, v.kind = w.kind) ∧
      ∀ v ∈ values, v.kind ≠ .undefined := by
  constructor
  · intro h
    exact ⟨h.ne_nil, h.kind_eq, h.defined⟩
  · rintro ⟨hne, hk, hd⟩
    exact ⟨hne, hk, hd⟩

instance (values : List Value) : Decidable (Value.IsArray values) :=
  decidable_of_iff _ Value.isArray_iff.symm

theorem Policy.wellFormed_mk {es : List Entry} : WellFormed ⟨es⟩ ↔
    (es.map Entry.name).Nodup ∧ (∀ e ∈ es, Name.isLeaf e.name = true) ∧
      (∀ e ∈ es, Value.IsArray e.values) ∧
        ∀ e ∈ es, ∀ sub, Value.policy sub ∈ e.values → sub.WellFormed := by
  constructor
  · rintro ⟨unique, leaf, array, nested⟩
    exact ⟨unique, leaf, array, nested⟩
  · rintro ⟨unique, leaf, array, nested⟩
    exact .intro unique leaf array nested

mutual

def Policy.decidableWellFormed : (p : Policy) → Decidable p.WellFormed
  | ⟨es⟩ =>
    letI := Entry.decidableNested es
    decidable_of_iff _ Policy.wellFormed_mk.symm
termination_by structural p => p

def Entry.decidableNested : (es : List Entry) →
    Decidable (∀ e ∈ es, ∀ sub, Value.policy sub ∈ e.values → sub.WellFormed)
  | [] => .isTrue (by simp)
  | e :: es =>
    letI := e.decidableValues
    letI := Entry.decidableNested es
    decidable_of_iff _ List.forall_mem_cons.symm
termination_by structural es => es

def Entry.decidableValues : (e : Entry) →
    Decidable (∀ sub, Value.policy sub ∈ e.values → sub.WellFormed)
  | ⟨_, values⟩ => Value.decidableNested values
termination_by structural e => e

def Value.decidableNested : (values : List Value) →
    Decidable (∀ sub, Value.policy sub ∈ values → sub.WellFormed)
  | [] => .isTrue (by simp)
  | v :: values =>
    letI := v.decidableWellFormed
    letI := Value.decidableNested values
    decidable_of_iff (v.WellFormed ∧ ∀ sub, Value.policy sub ∈ values → sub.WellFormed) (by
      simp [Value.WellFormed, or_imp, forall_and, eq_comm])
termination_by structural values => values

def Value.decidableWellFormed : (v : Value) → Decidable v.WellFormed
  | .policy p =>
    letI := p.decidableWellFormed
    decidable_of_iff _ Value.wellFormed_policy.symm
  | .undefined | .bool _ | .int _ | .double _ | .string _ | .file _ =>
    .isTrue (Value.wellFormed_of_kind (by simp [Value.kind]))
termination_by structural v => v

end

instance : DecidablePred Policy.WellFormed := Policy.decidableWellFormed

end PolicyTree
