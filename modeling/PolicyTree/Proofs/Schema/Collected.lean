import PolicyTree.Proofs.Schema.Defaults
import PolicyTree.Proofs.Schema.Fields
import PolicyTree.Proofs.Schema.Malformed

namespace PolicyTree

variable {dict fields q : Policy} {d inner : Dictionary} {df : Definition} {leaf : String}
  {values : List Value}

namespace Definition

/-- What the defaults of a dictionary hold under the name of one of its definitions. -/
inductive HasDefault (df : Definition) : Option (List Value) → Prop
  | declared (h : df.defaults ≠ []) : HasDefault df (some df.defaults)
  | nested {sub : Dictionary} {q : Policy} (h : df.defaults = []) (hs : df.dictionary = some sub)
      (hq : sub.defaults = .ok q) (hne : q.isEmpty = false) : HasDefault df (some [.policy q])
  | unfilled {sub : Dictionary} {q : Policy} (h : df.defaults = []) (hs : df.dictionary = some sub)
      (hq : sub.defaults = .ok q) (hempty : q.isEmpty = true) : HasDefault df none
  | plain (h : df.defaults = []) (hs : df.dictionary = none) : HasDefault df none

theorem hasDefault_defaultArray? (hq : df.nestedDefaults = .ok q) :
    HasDefault df (df.defaultArray? q) := by
  rw [defaultArray?]
  split
  · rename_i h
    rw [List.isEmpty_iff] at h
    rw [nestedDefaults] at hq
    split at hq
    · rename_i hs
      obtain rfl := Except.ok.inj hq
      exact .plain h hs
    · rename_i sub hs
      cases hempty : q.isEmpty with
      | true => exact .unfilled h hs hq hempty
      | false => exact .nested h hs hq hempty
  · rename_i h
    exact .declared (by simpa using h)

theorem HasDefault.kind_eq {name : String} {v : Value} (h : HasDefault df (some values))
    (hd : ofPolicy name fields = .ok df) (hk : df.kind ≠ .undefined) (hv : v ∈ values) :
    v.kind = df.kind := by
  cases h with
  | declared => exact (ofPolicy_eq_ok_iff.1 hd).2.defaults.kind_eq hk hv
  | nested _ hs =>
    obtain rfl := List.mem_singleton.1 hv
    exact (kind_of_dictionary hd hs).symm

end Definition

namespace Dictionary

theorem names_filterMap_mk (array? : String → Option (List Value)) (names : List String) :
    (names.filterMap fun leaf => (array? leaf).map (Entry.mk leaf)).map Entry.name =
      names.filter fun leaf => (array? leaf).isSome := by
  rw [List.map_filterMap, ← List.filterMap_eq_filter]
  apply List.filterMap_congr
  intro leaf _
  cases harray : array? leaf <;> simp [harray, Option.guard]

/-- A policy holds the defaults that a dictionary declares, and nothing else. The names are in the
order of the definitions. -/
structure Collects (d : Dictionary) (q : Policy) : Prop where
  wellFormed : q.WellFormed
  names : ∃ names, d.definitionNames = .ok names ∧ (q.entries.map Entry.name).Sublist names ∧
    ∀ leaf ∈ names, ∃ fields df, fieldsOf leaf d.policy leaf = .ok fields ∧
      d.definition leaf = .ok df ∧
      df.defaults = (fields.valuesUnder "default").map (·.widened df.kind) ∧
      df.HasDefault (q.valuesAt? [leaf]) ∧
      (df.kind ≠ .undefined → ∀ values, q.valuesAt? [leaf] = some values →
        ∀ v ∈ values, v.kind = df.kind)

theorem Reaches.wellFormed (h : d.Reaches inner) (hw : d.policy.WellFormed) :
    inner.policy.WellFormed := by
  induction h with
  | self => exact hw
  | nested hnames hleaf hd hs h ih =>
    rw [definitionNames, namesIn, bind_eq_ok_iff] at hnames
    obtain ⟨defs, hdefs, hnames⟩ := hnames
    obtain rfl := Except.ok.inj hnames
    have hleaf := (wellFormed_definitionsOf hw hdefs).isLeaf_of_mem_names hleaf
    exact ih (wellFormed_of_definitionIn hw hleaf hd hs)

theorem exists_collects (hw : d.policy.WellFormed) (hc : d.check = .ok ⟨⟩) :
    ∃ q, d.defaults = .ok q ∧ d.Collects q := by
  have hs := sound_of_checkIn hw hc
  have hnested := hs.nestedDefaults hw
  obtain ⟨q, defs, hq, hqw, hdefs, hentries⟩ := hnested.exists_defaultsIn hs hw
  refine ⟨q, hq, hqw, defs.names true .all, ?_, ?_, ?_⟩
  · rw [definitionNames, namesIn, hdefs]
    rfl
  · rw [hentries, names_filterMap_mk]
    exact List.filter_sublist
  · intro leaf hmem
    have hleaf := (wellFormed_definitionsOf hw hdefs).isLeaf_of_mem_names hmem
    obtain ⟨_, hdefs', hall⟩ := checkIn_eq_ok_iff.1 hc
    obtain rfl := Except.ok.inj (hdefs.symm.trans hdefs')
    obtain ⟨df, hd, -⟩ := hall leaf hmem
    obtain ⟨fields, hfields, hof⟩ := (definitionIn_eq_ok_iff hleaf).1 hd
    obtain ⟨sub, hsub, -⟩ := hnested leaf df hleaf hd
    have hvalues : q.valuesAt? [leaf] = df.defaultArray? sub := by
      rw [Policy.valuesAt?, hnested.entry?_defaultsIn hs hw hq hleaf, defaultOf?_eq hd hsub,
        Option.map_map]
      exact Option.map_id'
    have hdefault := Definition.hasDefault_defaultArray? hsub
    rw [← hvalues] at hdefault
    refine ⟨fields, df, hfields, hd, (Definition.ofPolicy_eq_ok_iff.1 hof).2.defaults.eq, hdefault,
      fun hk values heq v hv => ?_⟩
    rw [heq] at hdefault
    exact hdefault.kind_eq hof hk hv

/-- A checked dictionary has its defaults, and so have those nested in it. They are an array for
each definition that declares values, these values as they count for its type, a single policy for
each other one of which the nested dictionary has defaults, and nothing else. -/
theorem defaults_declared (hw : d.policy.WellFormed) (hc : d.check = .ok ⟨⟩)
    (h : d.Reaches inner) : ∃ q, inner.defaults = .ok q ∧ inner.Collects q :=
  exists_collects (h.wellFormed hw) (h.check hc)

def sizedDefaults : Dictionary where
  policy :=
    ⟨[⟨definitionsKey, [.policy
      ⟨[⟨"size", [.policy ⟨[⟨"type", [.string "double"]⟩, ⟨"default", [.int 4, .int 2]⟩]⟩]⟩,
        ⟨"note", [.policy ⟨[⟨"type", [.string "string"]⟩]⟩]⟩,
        ⟨"zone", [.policy ⟨[⟨"type", [.string "Policy"]⟩, ⟨dictionaryKey, [.policy
          ⟨[⟨definitionsKey, [.policy ⟨[⟨"name", [.policy
            ⟨[⟨"default", [.string "main"]⟩]⟩]⟩]⟩]⟩]⟩]⟩]⟩]⟩]⟩]⟩]⟩
  hasDefinitions := by decide +kernel

theorem defaults_declared_sizes : ∃ q, sizedDefaults.defaults = .ok q ∧ sizedDefaults.Collects q ∧
    q.entries.map Entry.name = ["size", "zone"] := by
  have hw : sizedDefaults.policy.WellFormed := by decide +kernel
  have hc : sizedDefaults.check = .ok ⟨⟩ := toOption_eq_some_iff.1 (by decide +kernel)
  have hnames : sizedDefaults.defaults.toOption.map (fun q => q.entries.map Entry.name) =
      some ["size", "zone"] := by
    decide +kernel
  obtain ⟨q, hq, hcollects⟩ := defaults_declared hw hc .self
  obtain ⟨q', hq', hnames⟩ := map_toOption_eq_some_iff.1 hnames
  obtain rfl := Except.ok.inj (hq.symm.trans hq')
  exact ⟨q, hq, hcollects, hnames⟩

end Dictionary

end PolicyTree
