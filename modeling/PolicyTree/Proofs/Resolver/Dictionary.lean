import PolicyTree.Proofs.Resolver.Rounds
import PolicyTree.Proofs.Schema.Defaults
import PolicyTree.Proofs.Schema.Definitions
import PolicyTree.Proofs.Schema.Malformed

namespace PolicyTree

variable {r : Resolver} {reference : String} {base : Path} {o : Opened} {d : Dictionary}
  {p q fields : Policy} {report : LoadReport} {k : Nat} {leaf : String} {path : List String}
  {v : Value}

namespace Dictionary

theorem exists_validateWith_eq_ok (hc : d.check = .ok ⟨⟩) (o : ValidateOptions) (p : Policy) :
    ∃ report, d.validateWith o p = .ok report := by
  cases hv : d.validateWith o p with
  | ok report => exact ⟨report, rfl⟩
  | error e =>
    rw [validateWith_eq_error_iff.1 hv] at hc
    cases hc

end Dictionary

namespace Resolver

/-- A run that fails at a promotion, or that comes to the limit or to a tree with nothing to
promote, answers with what it has come to. -/
theorem loadDictionary_of_rounds (ho : r.Opens base reference o) :
    ∃ k ≤ r.limits.maxDepth, ∃ p report, r.Rounds o k p report ∧
      (((k = r.limits.maxDepth ∨ p.dictionaryFileHolders = []) ∧
          r.loadDictionary reference base = accept p report) ∨
        ∃ e, p.promoteDictionaryFiles = .error e ∧ r.loadDictionary reference base = .error e) := by
  obtain ⟨k, hk, p, report, h, hcase⟩ := r.exists_rounds o r.limits.maxDepth
  refine ⟨k, hk, p, report, h, ?_⟩
  rw [loadDictionary_of_opens ho]
  rcases hcase with ⟨hend, hrun⟩ | ⟨e, he, hrun⟩
  · rw [hrun, ok_bind]
    exact .inl ⟨hend, rfl⟩
  · rw [hrun, error_bind]
    exact .inr ⟨e, he, rfl⟩

/-- Loading a dictionary comes to an answer within the rounds that are allowed. A dictionary that it
answers with refers to no file anywhere, passes its check, can judge every policy, and has its
defaults. -/
theorem loadDictionary_usable (r : Resolver) (reference : String) (base : Path) :
    (∀ o, r.Opens base reference o →
      ∃ k ≤ r.limits.maxDepth, ∃ p report, r.Rounds o k p report ∧
        (((k = r.limits.maxDepth ∨ p.dictionaryFileHolders = []) ∧
            r.loadDictionary reference base = accept p report) ∨
          ∃ e, p.promoteDictionaryFiles = .error e ∧
            r.loadDictionary reference base = .error e)) ∧
      ((¬∃ o, r.Opens base reference o) → ∃ e, r.loadDictionary reference base = .error e) ∧
      ∀ d, r.loadDictionary reference base = .ok d →
        (∀ path text, ¬d.policy.RefersAt path text) ∧ d.check = .ok ⟨⟩ ∧
          (∀ o p, ∃ report, d.validateWith o p = .ok report) ∧ ∃ q, d.defaults = .ok q := by
  refine ⟨fun o ho => loadDictionary_of_rounds ho, ?_, ?_⟩
  · intro hnone
    cases hload : r.loadDictionary reference base with
    | error e => exact ⟨e, rfl⟩
    | ok d => exact absurd (opens_of_loadDictionary hload) hnone
  · intro d hd
    obtain ⟨o, k, report, ho, hrounds, -, -, hempty, hcheck⟩ := loadDictionary_eq_ok_iff.1 hd
    have hw := hrounds.wellFormed ho.wellFormed
    exact ⟨hrounds.not_refersAt ho.wellFormed hempty, hcheck,
      Dictionary.exists_validateWith_eq_ok hcheck, Dictionary.exists_defaultsIn_eq_ok hw hcheck⟩

def zonesWith (entry : String) : Resolver where
  files :=
    { files :=
        [(["map"], ("\x7b\"definitions\":\x7b\"zone\":\x7b\"type\":\"Policy\"," ++ entry ++
            "\x7d\x7d\x7d").toUTF8),
          (["zone"], ("\x7b\"definitions\":\x7b\"name\":\x7b\"default\":\"north\"" ++
            "\x7d\x7d\x7d").toUTF8)]
      directories := [] }
  locator := .table []
  limits := .standard

def zoneFiles : Resolver :=
  zonesWith "\"dictionaryFile\":\"zone\""

theorem exists_loadDictionary_zones : ∃ d, zoneFiles.loadDictionary "map" ⟨""⟩ = .ok d := by
  have hsome : (zoneFiles.loadDictionary "map" ⟨""⟩).toOption.isSome = true := by decide +kernel
  obtain ⟨d, hd⟩ := Option.isSome_iff_exists.1 hsome
  exact ⟨d, toOption_eq_some_iff.1 hd⟩

theorem loadDictionary_usable_zones :
    ∃ d, zoneFiles.loadDictionary "map" ⟨""⟩ = .ok d ∧
      (∀ path text, ¬d.policy.RefersAt path text) ∧ ∃ q, d.defaults = .ok q := by
  obtain ⟨d, hd⟩ := exists_loadDictionary_zones
  obtain ⟨hrefers, -, -, hdefaults⟩ := (loadDictionary_usable zoneFiles "map" ⟨""⟩).2.2 d hd
  exact ⟨d, hd, hrefers, hdefaults⟩

end Resolver

namespace Dictionary

/-- A path leads from a dictionary to the policy of a definition, through the dictionaries nested in
definitions. -/
inductive Describes : Policy → List String → Policy → Prop
  | here {dict fields : Policy} {leaf : String} (hleaf : Name.isLeaf leaf = true)
      (hfields : fieldsOf leaf dict leaf = .ok fields) :
      Describes dict [definitionsKey, leaf] fields
  | nested {dict fields sub inner : Policy} {leaf : String} {path : List String}
      (hleaf : Name.isLeaf leaf = true) (hfields : fieldsOf leaf dict leaf = .ok fields)
      (hsub : fields.get dictionaryKey = .ok (.policy sub)) (h : Describes sub path inner) :
      Describes dict (definitionsKey :: leaf :: dictionaryKey :: path) inner

theorem Describes.subAt? (h : Describes p path fields) : p.subAt? path = some fields := by
  induction h with
  | here hleaf hfields => exact subAt?_of_fieldsOf hleaf hfields
  | @nested dict fields sub inner leaf path hleaf hfields hsub h ih =>
    have hpath : definitionsKey :: leaf :: dictionaryKey :: path =
        [definitionsKey, leaf] ++ (dictionaryKey :: path) := rfl
    rw [hpath, Policy.subAt?_append, subAt?_of_fieldsOf hleaf hfields, Option.bind_some,
      Policy.subAt?_cons_eq_some_iff]
    exact ⟨sub, Policy.child?_eq_some_iff.2 ((Policy.get_of_isLeaf (by decide)).1 hsub), ih⟩

theorem Describes.ne_nil (h : Describes p path fields) : path ≠ [] := by
  cases h <;> exact List.cons_ne_nil _ _

theorem Describes.mem_holderPaths (h : Describes p path fields) (hw : p.WellFormed)
    (hfile : fields.contains dictionaryFileKey = true) : path ∈ p.holderPaths := by
  have hx := h.subAt?
  refine hw.mem_holderPaths_iff.2 ⟨h.ne_nil, fields, hx, ?_⟩
  rw [(hw.subAt? hx).isSome_last?]
  have hmem := (Policy.contains_of_isLeaf (by decide)).1 hfile
  rw [Option.isSome_iff_ne_none, Ne, Policy.entry?_eq_none_iff]
  simpa using hmem

end Dictionary

namespace Resolver

/-- In a dictionary that was loaded, a file that a definition names was followed unless all the
rounds that are allowed took place and the definition lies within as many nested dictionaries. Each
reference of a round was loaded; what could not be is an error. -/
theorem loadDictionary_follows (r : Resolver) (reference : String) (base : Path) (d : Dictionary)
    (h : r.loadDictionary reference base = .ok d) :
    ∃ o k report, r.Opens base reference o ∧ r.Rounds o k d.policy report ∧
      k ≤ r.limits.maxDepth ∧
      (∀ path fields, Dictionary.Describes d.policy path fields →
        fields.contains dictionaryFileKey = true →
          k = r.limits.maxDepth ∧ r.limits.maxDepth ≤ path.count dictionaryKey) ∧
      ∀ j p report' q n path text, r.Rounds o j p report' → j < k →
        p.promoteDictionaryFiles = .ok (q, n) → q.RefersAt path text →
          ∃ o', r.Loads [o.place] o.base text o' := by
  obtain ⟨o, k, report, ho, hrounds, hk, hend, hnone, -⟩ := loadDictionary_eq_ok_iff.1 h
  have hw := hrounds.wellFormed ho.wellFormed
  refine ⟨o, k, report, ho, hrounds, hk, ?_, ?_⟩
  · intro path fields hpath hfile
    have hmem := hpath.mem_holderPaths hw hfile
    have hlimit : k = r.limits.maxDepth := by
      apply hend.resolve_right
      rw [hw.dictionaryFileHolders_eq, List.map_eq_nil_iff]
      exact List.ne_nil_of_mem hmem
    exact ⟨hlimit, hlimit ▸ hrounds.le_count ho.wellFormed hnone hmem⟩
  · intro j p report' q n path text h' hj hq href
    exact hrounds.loads ho.wellFormed hnone hj h' hq href

theorem loadDictionary_follows_zones :
    ∃ d, zoneFiles.loadDictionary "map" ⟨""⟩ = .ok d ∧
      ∀ path fields, Dictionary.Describes d.policy path fields →
        fields.contains dictionaryFileKey = true → 32 ≤ path.count dictionaryKey := by
  obtain ⟨d, hd⟩ := exists_loadDictionary_zones
  obtain ⟨_, _, _, -, -, -, hleft, -⟩ := loadDictionary_follows zoneFiles "map" ⟨""⟩ d hd
  exact ⟨d, hd, fun path fields hpath hfile => (hleft path fields hpath hfile).2⟩

def endlessFiles : Resolver where
  files :=
    { files :=
        [(["map"], ("\x7b\"definitions\":\x7b\"zone\":\x7b\"type\":\"Policy\"," ++
            "\"dictionaryFile\":\"ring\"\x7d\x7d\x7d").toUTF8),
          (["ring"], ("\x7b\"definitions\":\x7b\"part\":\x7b\"type\":\"Policy\"," ++
            "\"dictionaryFile\":\"ring\"\x7d\x7d\x7d").toUTF8)]
      directories := [] }
  locator := .table []
  limits := ⟨8, 2⟩

/-- With no rounds allowed, the file of the zones stays what it was. Of dictionaries in one
another without end, as many are loaded as there are rounds, and the next one is left. Neither is
an error. -/
theorem loadDictionary_unfollowed :
    (∃ d path fields, { zoneFiles with limits := ⟨8, 0⟩ : Resolver }.loadDictionary "map" ⟨""⟩ =
      .ok d ∧ Dictionary.Describes d.policy path fields ∧
        fields.contains dictionaryFileKey = true) ∧
    ∃ d path fields, endlessFiles.loadDictionary "map" ⟨""⟩ = .ok d ∧
      Dictionary.Describes d.policy path fields ∧
        fields.contains dictionaryFileKey = true := by
  constructor
  · have hsome : ((({ zoneFiles with limits := ⟨8, 0⟩ : Resolver }.loadDictionary "map"
        ⟨""⟩).toOption.bind fun d => (Dictionary.fieldsOf "zone" d.policy "zone").toOption.bind
        fun zone => if zone.contains dictionaryFileKey = true then some () else none)).isSome =
          true := by decide +kernel
    obtain ⟨_, h⟩ := Option.isSome_iff_exists.1 hsome
    obtain ⟨d, hd, h⟩ := Option.bind_eq_some_iff.1 h
    obtain ⟨zone, hzone, h⟩ := Option.bind_eq_some_iff.1 h
    have hpath := Dictionary.Describes.here rfl (toOption_eq_some_iff.1 hzone)
    exact ⟨d, _, zone, toOption_eq_some_iff.1 hd, hpath, by simpa using h⟩
  · have hsome : ((endlessFiles.loadDictionary "map" ⟨""⟩).toOption.bind fun d =>
        (Dictionary.fieldsOf "zone" d.policy "zone").toOption.bind fun zone =>
        (zone.getAs .policy dictionaryKey).toOption.bind fun parts =>
        (Dictionary.fieldsOf "part" parts "part").toOption.bind fun part =>
        (part.getAs .policy dictionaryKey).toOption.bind fun inner =>
        (Dictionary.fieldsOf "part" inner "part").toOption.bind fun left =>
        if left.contains dictionaryFileKey = true then some () else none).isSome = true := by
      decide +kernel
    obtain ⟨_, h⟩ := Option.isSome_iff_exists.1 hsome
    obtain ⟨d, hd, h⟩ := Option.bind_eq_some_iff.1 h
    obtain ⟨zone, hzone, h⟩ := Option.bind_eq_some_iff.1 h
    obtain ⟨parts, hparts, h⟩ := Option.bind_eq_some_iff.1 h
    obtain ⟨part, hpart, h⟩ := Option.bind_eq_some_iff.1 h
    obtain ⟨inner, hinner, h⟩ := Option.bind_eq_some_iff.1 h
    obtain ⟨left, hleft, h⟩ := Option.bind_eq_some_iff.1 h
    have hfirst := Policy.get_of_getAs_policy (toOption_eq_some_iff.1 hparts)
    have hsecond := Policy.get_of_getAs_policy (toOption_eq_some_iff.1 hinner)
    have hpath := Dictionary.Describes.nested rfl (toOption_eq_some_iff.1 hzone) hfirst
      (.nested rfl (toOption_eq_some_iff.1 hpart) hsecond
        (.here rfl (toOption_eq_some_iff.1 hleft)))
    exact ⟨d, _, left, toOption_eq_some_iff.1 hd, hpath, by simpa using h⟩

end Resolver

end PolicyTree
