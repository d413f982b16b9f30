import PolicyTree.Proofs.Policy.WellFormed
import PolicyTree.Resolver.Load

namespace PolicyTree

namespace LoadReport

def concat (reports : List LoadReport) : LoadReport :=
  reports.foldr (· ++ ·) .empty

variable {a b : LoadReport} {reports : List LoadReport}

@[simp] theorem failures_append : (a ++ b).failures = a.failures ++ b.failures := rfl

@[simp] theorem loaded_append : (a ++ b).loaded = a.loaded + b.loaded := rfl

@[simp] theorem failures_empty : empty.failures = [] := rfl

@[simp] theorem concat_nil : concat [] = .empty := rfl

@[simp] theorem concat_cons : concat (a :: reports) = a ++ concat reports := rfl

theorem append_loaded (a : LoadReport) (n : Nat) : a ++ ⟨n, []⟩ = ⟨a.loaded + n, a.failures⟩ := by
  show LoadReport.mk _ _ = _
  rw [List.append_nil]

theorem append_empty (a : LoadReport) : a ++ empty = a :=
  a.append_loaded 0

theorem empty_append (a : LoadReport) : empty ++ a = a := by
  show LoadReport.mk (0 + a.loaded) ([] ++ a.failures) = a
  rw [Nat.zero_add, List.nil_append]

theorem append_assoc (a b c : LoadReport) : a ++ b ++ c = a ++ (b ++ c) := by
  show LoadReport.mk _ _ = LoadReport.mk _ _
  rw [loaded_append, loaded_append, failures_append, failures_append, Nat.add_assoc,
    List.append_assoc]

theorem failures_concat (reports : List LoadReport) :
    (concat reports).failures = reports.flatMap failures := by
  induction reports with
  | nil => rfl
  | cons a reports ih => rw [concat_cons, failures_append, ih, List.flatMap_cons]

theorem failures_concat_eq_nil_iff :
    (concat reports).failures = [] ↔ ∀ a ∈ reports, a.failures = [] := by
  rw [failures_concat, List.flatMap_eq_nil_iff]

end LoadReport

namespace Value

variable {v : Value} {values : List Value}

theorem exists_eq_map_file (h : ∀ v ∈ values, v.kind = .file) :
    ∃ references : List String, values = references.map .file := by
  induction values with
  | nil => exact ⟨[], rfl⟩
  | cons v values ih =>
    obtain ⟨references, hr⟩ := ih fun w hw => h w (List.mem_cons_of_mem _ hw)
    have hv := h v (List.mem_cons_self ..)
    cases v with
    | file reference => exact ⟨reference :: references, by rw [hr, List.map_cons]⟩
    | undefined | bool | int | double | string | policy => cases hv

theorem exists_eq_map_policy (h : ∀ v ∈ values, v.kind = .policy) :
    ∃ subs : List Policy, values = subs.map .policy := by
  induction values with
  | nil => exact ⟨[], rfl⟩
  | cons v values ih =>
    obtain ⟨subs, hs⟩ := ih fun w hw => h w (List.mem_cons_of_mem _ hw)
    have hv := h v (List.mem_cons_self ..)
    cases v with
    | policy sub => exact ⟨sub :: subs, by rw [hs, List.map_cons]⟩
    | undefined | bool | int | double | string | file => cases hv

theorem map_policy {α : Type} (as : List α) (f : α → Policy) :
    (as.map fun a => Value.policy (f a)) = (as.map f).map .policy := by
  rw [List.map_map]
  rfl

/-- A pass tells three sorts of arrays apart: references, policies, and all else. -/
inductive PassShape : List Value → Prop
  | files {references : List String} (hne : references ≠ []) :
      PassShape (references.map .file)
  | policies {subs : List Policy} (hne : subs ≠ []) : PassShape (subs.map .policy)
  | others {vs : List Value} (h : ∀ v ∈ vs, v.kind ≠ .file ∧ v.kind ≠ .policy) : PassShape vs

theorem IsArray.passShape (h : IsArray values) : PassShape values := by
  obtain ⟨first, hfirst⟩ := List.exists_mem_of_ne_nil _ h.ne_nil
  by_cases hf : first.kind = .file
  · obtain ⟨references, rfl⟩ :=
      exists_eq_map_file fun v hv => (h.kind_eq v hv first hfirst).trans hf
    exact .files (by simpa using h.ne_nil)
  · by_cases hp : first.kind = .policy
    · obtain ⟨subs, rfl⟩ :=
        exists_eq_map_policy fun v hv => (h.kind_eq v hv first hfirst).trans hp
      exact .policies (by simpa using h.ne_nil)
    · refine .others fun v hv => ?_
      rw [h.kind_eq v hv first hfirst]
      exact ⟨hf, hp⟩

end Value

section Pass

variable {load : Loader} {name above full : String} {references : List String}

theorem Loader.loadAll_cases (load : Loader) (name : String) (references : List String) :
    (∃ loaded : List (Policy × LoadReport),
      references.map (load name) = loaded.map .ok ∧
        load.loadAll name references =
          (.ok (loaded.map fun l => .policy l.1), .concat (loaded.map Prod.snd))) ∨
    ∃ before reference after e, ∃ loaded : List (Policy × LoadReport),
      references = before ++ reference :: after ∧
        before.map (load name) = loaded.map .ok ∧
        load name reference = .error e ∧
        load.loadAll name references =
          (.error ⟨name, reference, e⟩, .concat (loaded.map Prod.snd)) := by
  induction references with
  | nil => exact .inl ⟨[], rfl, rfl⟩
  | cons reference references ih =>
    cases hl : load name reference with
    | error e =>
      refine .inr ⟨[], reference, references, e, [], rfl, rfl, hl, ?_⟩
      simp [loadAll, hl]
    | ok l =>
      rcases ih with ⟨loaded, hall, he⟩ | ⟨before, failing, after, e, loaded, rfl, hall, hf, he⟩
      · refine .inl ⟨l :: loaded, by rw [List.map_cons, List.map_cons, hl, hall], ?_⟩
        simp [loadAll, hl, he, Except.map]
      · refine .inr ⟨reference :: before, failing, after, e, l :: loaded, rfl, ?_, hf, ?_⟩
        · rw [List.map_cons, List.map_cons, hl, hall]
        · simp [loadAll, hl, he, Except.map]

theorem mapM_file? (references : List String) :
    (references.map Value.file).mapM Value.file? = some references := by
  induction references with
  | nil => rfl
  | cons reference references ih =>
    rw [List.map_cons, List.mapM_cons, ih]
    rfl

/-- An array of references is replaced as a whole, or stays as it is with one more failure. -/
theorem Loader.replace_cases (load : Loader) (name : String) (references : List String) :
    (∃ loaded : List (Policy × LoadReport),
      references.map (load name) = loaded.map .ok ∧
        load.replace name (references.map .file) =
          (loaded.map fun l => .policy l.1,
            .concat (loaded.map Prod.snd) ++ ⟨references.length, []⟩)) ∨
    ∃ before reference after e, ∃ loaded : List (Policy × LoadReport),
      references = before ++ reference :: after ∧
        before.map (load name) = loaded.map .ok ∧
        load name reference = .error e ∧
        load.replace name (references.map .file) =
          (references.map .file,
            .concat (loaded.map Prod.snd) ++ ⟨0, [⟨name, reference, e⟩]⟩) := by
  rcases load.loadAll_cases name references with
    ⟨loaded, hall, he⟩ | ⟨before, failing, after, e, loaded, hr, hall, hf, he⟩
  · refine .inl ⟨loaded, hall, ?_⟩
    simp only [replace, mapM_file?, he]
  · refine .inr ⟨before, failing, after, e, loaded, hr, hall, hf, ?_⟩
    simp only [replace, mapM_file?, he]

theorem Loader.exists_loaded {loaded : List (Policy × LoadReport)} {text : String}
    (hall : references.map (load name) = loaded.map .ok) (ht : text ∈ references) :
    ∃ l ∈ loaded, load name text = .ok l := by
  have hmem : load name text ∈ loaded.map Except.ok := hall ▸ List.mem_map_of_mem ht
  obtain ⟨l, hl, he⟩ := List.mem_map.1 hmem
  exact ⟨l, hl, he.symm⟩

theorem Loader.exists_reference {loaded : List (Policy × LoadReport)} {l : Policy × LoadReport}
    (hall : references.map (load name) = loaded.map .ok) (hl : l ∈ loaded) :
    ∃ text ∈ references, load name text = .ok l := by
  have hmem : Except.ok l ∈ references.map (load name) := hall ▸ List.mem_map_of_mem hl
  exact List.mem_map.1 hmem

theorem Loader.length_loaded {loaded : List (Policy × LoadReport)}
    (hall : references.map (load name) = loaded.map .ok) : loaded.length = references.length := by
  have hlength := congrArg List.length hall
  rw [List.length_map, List.length_map] at hlength
  exact hlength.symm

theorem Loader.failures_replace_eq_nil_iff (load : Loader) (name : String)
    (references : List String) :
    (load.replace name (references.map .file)).2.failures = [] ↔
      ∀ text ∈ references, ∃ l, load name text = .ok l ∧ l.2.failures = [] := by
  rcases load.replace_cases name references with
    ⟨loaded, hall, hr⟩ | ⟨before, failing, after, e, loaded, rfl, -, hf, hr⟩
  · rw [hr, LoadReport.failures_append, List.append_nil, LoadReport.failures_concat_eq_nil_iff]
    constructor
    · intro h text ht
      obtain ⟨l, hl, he⟩ := exists_loaded hall ht
      exact ⟨l, he, h _ (List.mem_map_of_mem hl)⟩
    · intro h report hreport
      obtain ⟨l, hl, rfl⟩ := List.mem_map.1 hreport
      obtain ⟨text, ht, he⟩ := exists_reference hall hl
      obtain ⟨l', hl', hnone⟩ := h text ht
      rw [he] at hl'
      cases hl'
      exact hnone
  · rw [hr, LoadReport.failures_append]
    constructor
    · intro h
      simp at h
    · intro h
      obtain ⟨l, hl, -⟩ := h failing (by simp)
      rw [hf] at hl
      cases hl

theorem Entry.resolveAll_eq (load : Loader) (above : String) (es : List Entry) :
    Entry.resolveAll load above es =
      (es.map fun e => (e.resolve load above).1,
        .concat (es.map fun e => (e.resolve load above).2)) := by
  induction es with
  | nil => rfl
  | cons e es ih => simp only [resolveAll, ih, List.map_cons, LoadReport.concat_cons]

theorem Value.resolveAll_eq (load : Loader) (full : String) (values : List Value) :
    Value.resolveAll load full values =
      (values.map fun v => (v.resolve load full).1,
        .concat (values.map fun v => (v.resolve load full).2)) := by
  induction values with
  | nil => rfl
  | cons v values ih => simp only [resolveAll, ih, List.map_cons, LoadReport.concat_cons]

theorem Policy.resolve_eq (load : Loader) (above : String) (p : Policy) :
    p.resolve load above =
      (⟨p.entries.map fun e => (e.resolve load above).1⟩,
        .concat (p.entries.map fun e => (e.resolve load above).2)) := by
  cases p
  rw [resolve, Entry.resolveAll_eq]

theorem Entry.eq_of_parts {e e' : Entry} (hname : e.name = e'.name)
    (hvalues : e.values = e'.values) : e = e' := by
  cases e
  cases e'
  cases hname
  cases hvalues
  rfl

theorem Entry.name_resolve (load : Loader) (above : String) (e : Entry) :
    (e.resolve load above).1.name = e.name := by
  cases e
  rw [resolve]
  split <;> rfl

theorem Entry.resolve_files (hne : references ≠ []) :
    (Entry.mk name (references.map .file)).resolve load above =
      (⟨name, (load.replace (Name.join above name) (references.map .file)).1⟩,
        (load.replace (Name.join above name) (references.map .file)).2) := by
  cases references with
  | nil => exact absurd rfl hne
  | cons reference references =>
    have hk : (Entry.mk name ((reference :: references).map .file)).kind = .file := rfl
    rw [resolve, if_pos hk]

theorem Entry.resolve_policies {subs : List Policy} :
    (Entry.mk name (subs.map .policy)).resolve load above =
      (⟨name, subs.map fun sub => .policy (sub.resolve load (Name.join above name)).1⟩,
        .concat (subs.map fun sub => (sub.resolve load (Name.join above name)).2)) := by
  have hk : (Entry.mk name (subs.map .policy)).kind ≠ .file := by
    cases subs with
    | nil => exact (by decide : Kind.undefined ≠ .file)
    | cons sub subs => exact (by decide : Kind.policy ≠ .file)
  rw [resolve, if_neg hk, Value.resolveAll_eq, List.map_map, List.map_map]
  rfl

theorem Entry.resolve_others {values : List Value}
    (h : ∀ v ∈ values, v.kind ≠ .file ∧ v.kind ≠ .policy) :
    (Entry.mk name values).resolve load above = (⟨name, values⟩, .empty) := by
  have hk : (Entry.mk name values).kind ≠ .file := by
    cases values with
    | nil => exact (by decide : Kind.undefined ≠ .file)
    | cons v values => exact (h v (List.mem_cons_self ..)).1
  have hv : ∀ v ∈ values, v.resolve load (Name.join above name) = (v, .empty) := by
    intro v hv
    cases v with
    | policy sub => exact absurd rfl (h _ hv).2
    | undefined | bool | int | double | string | file => rfl
  have hall : Value.resolveAll load (Name.join above name) values = (values, .empty) := by
    clear h hk
    induction values with
    | nil => rfl
    | cons v values ih =>
      have ih := ih fun w hw => hv w (List.mem_cons_of_mem _ hw)
      simp only [Value.resolveAll, hv v (List.mem_cons_self ..), ih]
      rfl
  rw [resolve, if_neg hk, hall]

/-- The four things that come of the array of an entry in a pass, with the report of each. -/
inductive Entry.Outcome (load : Loader) (full name : String) :
    List Value → Entry × LoadReport → Prop
  | replaced {references : List String} {loaded : List (Policy × LoadReport)}
      (hne : references ≠ []) (hall : references.map (load full) = loaded.map .ok) :
      Outcome load full name (references.map .file)
        (⟨name, (loaded.map Prod.fst).map .policy⟩,
          .concat (loaded.map Prod.snd) ++ ⟨references.length, []⟩)
  /-- One of the references fails, and those before it were loaded in vain. -/
  | kept {before after : List String} {reference : String} {e : Error}
      {loaded : List (Policy × LoadReport)} (hbefore : before.map (load full) = loaded.map .ok)
      (hfail : load full reference = .error e) :
      Outcome load full name ((before ++ reference :: after).map .file)
        (⟨name, (before ++ reference :: after).map .file⟩,
          .concat (loaded.map Prod.snd) ++ ⟨0, [⟨full, reference, e⟩]⟩)
  | descended {subs : List Policy} :
      Outcome load full name (subs.map .policy)
        (⟨name, (subs.map fun sub => (sub.resolve load full).1).map .policy⟩,
          .concat (subs.map fun sub => (sub.resolve load full).2))
  | untouched {values : List Value} (h : ∀ v ∈ values, v.kind ≠ .file ∧ v.kind ≠ .policy) :
      Outcome load full name values (⟨name, values⟩, .empty)

theorem Entry.outcome (load : Loader) (above name : String) {values : List Value}
    (h : Value.IsArray values) :
    Outcome load (Name.join above name) name values
      ((Entry.mk name values).resolve load above) := by
  cases h.passShape with
  | @files references hne =>
    rw [resolve_files hne]
    rcases load.replace_cases (Name.join above name) references with
      ⟨loaded, hall, hr⟩ | ⟨before, reference, after, e, loaded, rfl, hbefore, hfail, hr⟩
    · rw [hr, Value.map_policy loaded Prod.fst]
      exact .replaced hne hall
    · rw [hr]
      exact .kept hbefore hfail
  | @policies subs hne =>
    rw [resolve_policies, Value.map_policy subs fun sub =>
      (sub.resolve load (Name.join above name)).1]
    exact .descended
  | others hv =>
    rw [resolve_others hv]
    exact .untouched hv

end Pass

end PolicyTree
