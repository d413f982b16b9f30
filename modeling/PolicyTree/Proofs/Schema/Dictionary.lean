import PolicyTree.Proofs.Policy.WellFormed
import PolicyTree.Schema.Dictionary

namespace PolicyTree

namespace Policy

variable {p sub : Policy} {path leaf : String} {values : List Value} {v : Value}

theorem getArray_eq_ok_iff :
    p.getArray path = .ok values ↔
      ∃ segs, Name.segments path = .ok segs ∧ p.valuesAt? segs = some values := by
  have hempty : path.isEmpty = true → ∀ segs, Name.segments path ≠ .ok segs := by
    intro he segs hs
    simp [Name.segments, Name.validate, he, bind, Except.bind] at hs
  unfold getArray
  split
  · rename_i he
    constructor
    · intro h
      cases h
    · rintro ⟨segs, hs, -⟩
      exact absurd hs (hempty he segs)
  · rw [bind_eq_ok_iff]
    apply exists_congr
    intro segs
    apply and_congr_right
    intro _
    cases p.valuesAt? segs <;> simp

theorem get_eq_ok_iff :
    p.get path = .ok v ↔ ∃ values, p.getArray path = .ok values ∧ values.getLast? = some v := by
  unfold get
  rw [bind_eq_ok_iff]
  apply exists_congr
  intro values
  apply and_congr_right
  intro _
  cases values.getLast? <;> simp

theorem WellFormed.get (h : p.WellFormed) (hg : p.get path = .ok v) : v.WellFormed := by
  obtain ⟨values, harray, hlast⟩ := get_eq_ok_iff.1 hg
  obtain ⟨segs, -, hv⟩ := getArray_eq_ok_iff.1 harray
  exact (h.valuesAt? hv).nested v (List.mem_of_getLast? hlast)

theorem WellFormed.getAs_policy (h : p.WellFormed) (hg : p.getAs .policy path = .ok sub) :
    sub.WellFormed :=
  h.get (get_of_getAs_policy hg) sub rfl

theorem getArray_of_isLeaf (h : Name.isLeaf leaf = true) :
    (p.getArray leaf).toOption = (p.entry? leaf).map Entry.values := by
  apply Option.ext
  intro values
  rw [toOption_eq_some_iff, getArray_eq_ok_iff, Name.segments_of_isLeaf h]
  constructor
  · rintro ⟨segs, hs, hv⟩
    obtain rfl := Except.ok.inj hs
    exact hv
  · intro hv
    exact ⟨[leaf], rfl, hv⟩

theorem isSome_entry?_iff : (p.entry? leaf).isSome = true ↔ leaf ∈ p.entries.map Entry.name := by
  rw [← Decidable.not_iff_not, ← entry?_eq_none_iff]
  simp

theorem contains_of_isLeaf (h : Name.isLeaf leaf = true) :
    p.contains leaf = true ↔ leaf ∈ p.entries.map Entry.name := by
  rw [contains, lookup?, Name.segments_of_isLeaf h, ← isSome_entry?_iff]
  change ((p.entry? leaf).map Entry.values).isSome = true ↔ _
  rw [Option.isSome_map]

theorem names_top (p : Policy) : p.names true .all = p.entries.map Entry.name := by
  have hall : (p.entries.filter fun e => NameFilter.all.accepts e.kind) = p.entries :=
    List.filter_eq_self.2 fun _ _ => rfl
  rw [names, if_pos rfl, hall]

theorem WellFormed.isLeaf_of_mem_names (h : p.WellFormed) (hleaf : leaf ∈ p.names true .all) :
    Name.isLeaf leaf = true := by
  rw [names_top] at hleaf
  obtain ⟨e, he, rfl⟩ := List.mem_map.1 hleaf
  exact h.leaf he

end Policy

namespace Definition

variable {name : String} {fields : Policy} {d : Definition} {sub : Dictionary}

theorem kind_of_dictionary (h : ofPolicy name fields = .ok d) (hs : d.dictionary = some sub) :
    d.kind = .policy := by
  have hn := dictionary_of_ofPolicy h
  rw [hs, nestedDictionary] at hn
  split at hn
  · cases hn
  · split at hn
    · cases hn
    · rename_i hk
      simpa using hk

theorem wellFormed_of_dictionary (hf : fields.WellFormed) (h : ofPolicy name fields = .ok d)
    (hs : d.dictionary = some sub) : sub.policy.WellFormed := by
  have hn := dictionary_of_ofPolicy h
  rw [hs, nestedDictionary] at hn
  split at hn
  · cases hn
  · rename_i v hv
    split at hn
    · cases hn
    · split at hn
      · rename_i p
        obtain ⟨nested, hnested, heq⟩ := map_eq_ok_iff.1 hn
        obtain rfl := Option.some.inj heq
        rw [Dictionary.policy_of_ofPolicy hnested]
        exact hf.get hv p rfl
      · cases hn
      · cases hn

end Definition

namespace Dictionary

variable {dict defs fields : Policy} {name leaf : String} {d : Definition} {sub : Dictionary}

theorem wellFormed_definitionsOf (h : dict.WellFormed) (hd : definitionsOf dict = .ok defs) :
    defs.WellFormed := by
  unfold definitionsOf at hd
  split at hd
  · cases hd
  · split at hd
    · rename_i found hfound
      obtain rfl := Except.ok.inj hd
      exact h.getAs_policy hfound
    · cases hd
  · cases hd

theorem fieldsOf_eq_ok (h : fieldsOf name dict leaf = .ok fields) :
    ∃ defs, definitionsOf dict = .ok defs ∧ defs.contains leaf = true ∧
      defs.getAs .policy leaf = .ok fields := by
  obtain ⟨defs, hdefs, h⟩ := bind_eq_ok_iff.1 h
  split at h
  · rename_i hc
    split at h
    · rename_i found hfound
      obtain rfl := Except.ok.inj h
      exact ⟨defs, hdefs, hc, hfound⟩
    · cases h
  · cases h

theorem definitionIn_eq_ok_iff (h : Name.isLeaf leaf = true) :
    definitionIn dict leaf = .ok d ↔
      ∃ fields, fieldsOf leaf dict leaf = .ok fields ∧ Definition.ofPolicy leaf fields = .ok d := by
  rw [definitionIn, Name.segments_of_isLeaf h, ← bind_eq_ok_iff]
  rfl

theorem kind_of_definitionIn (h : Name.isLeaf leaf = true) (hd : definitionIn dict leaf = .ok d)
    (hs : d.dictionary = some sub) : d.kind = .policy := by
  obtain ⟨fields, -, hof⟩ := (definitionIn_eq_ok_iff h).1 hd
  exact Definition.kind_of_dictionary hof hs

theorem wellFormed_of_definitionIn (hw : dict.WellFormed) (h : Name.isLeaf leaf = true)
    (hd : definitionIn dict leaf = .ok d) (hs : d.dictionary = some sub) :
    sub.policy.WellFormed := by
  obtain ⟨fields, hfields, hof⟩ := (definitionIn_eq_ok_iff h).1 hd
  obtain ⟨defs, hdefs, -, hget⟩ := fieldsOf_eq_ok hfields
  exact Definition.wellFormed_of_dictionary
    ((wellFormed_definitionsOf hw hdefs).getAs_policy hget) hof hs

theorem checkIn_eq_ok_iff :
    checkIn dict = .ok ⟨⟩ ↔
      ∃ defs, definitionsOf dict = .ok defs ∧ ∀ leaf ∈ defs.names true .all,
        ∃ d, definitionIn dict leaf = .ok d ∧
          ∀ sub, d.dictionary = some sub → checkIn sub.policy = .ok ⟨⟩ := by
  rw [checkIn, namesIn, bind_eq_ok_iff]
  simp only [bind_eq_ok_iff, pure, Except.pure, Except.ok.injEq]
  constructor
  · rintro ⟨names, ⟨defs, hdefs, rfl⟩, hall⟩
    refine ⟨defs, hdefs, ?_⟩
    intro leaf hleaf
    have hone := forM_eq_ok_iff.1 hall leaf hleaf
    split at hone
    · cases hone
    · rename_i d hd
      refine ⟨d, hd, ?_⟩
      intro sub hs
      split at hone
      · rename_i hnone
        rw [hs] at hnone
        cases hnone
      · rename_i sub' hs'
        rw [hs] at hs'
        obtain rfl := Option.some.inj hs'
        exact hone
  · rintro ⟨defs, hdefs, hall⟩
    refine ⟨_, ⟨defs, hdefs, rfl⟩, forM_eq_ok_iff.2 ?_⟩
    intro leaf hleaf
    obtain ⟨d, hd, hsub⟩ := hall leaf hleaf
    split
    · rename_i e he
      rw [hd] at he
      cases he
    · rename_i d' hd'
      rw [hd] at hd'
      obtain rfl := Except.ok.inj hd'
      split
      · rfl
      · rename_i sub hs
        exact hsub sub hs

/-- A policy that holds a dictionary without flaws: its names are those with a definition, and the
nested dictionaries have no flaws either. -/
inductive Sound : Policy → Prop
  | intro {dict defs : Policy} (hdefs : definitionsOf dict = .ok defs)
      (leaf : ∀ leaf ∈ defs.names true .all, Name.isLeaf leaf = true)
      (defined : ∀ leaf, Name.isLeaf leaf = true →
        (leaf ∈ defs.names true .all ↔ ∃ d, definitionIn dict leaf = .ok d))
      (nested : ∀ leaf d sub, Name.isLeaf leaf = true → definitionIn dict leaf = .ok d →
        d.dictionary = some sub → Sound sub.policy) : Sound dict

theorem sound_of_checkIn {dict : Policy} (hw : dict.WellFormed) (hc : checkIn dict = .ok ⟨⟩) :
    Sound dict := by
  obtain ⟨defs, hdefs, hall⟩ := checkIn_eq_ok_iff.1 hc
  have hname : ∀ leaf d, Name.isLeaf leaf = true → definitionIn dict leaf = .ok d →
      leaf ∈ defs.names true .all := by
    intro leaf d hleaf hd
    obtain ⟨fields, hfields, -⟩ := (definitionIn_eq_ok_iff hleaf).1 hd
    obtain ⟨defs', hdefs', hcontains, -⟩ := fieldsOf_eq_ok hfields
    rw [hdefs] at hdefs'
    obtain rfl := Except.ok.inj hdefs'
    rw [Policy.names_top]
    exact (Policy.contains_of_isLeaf hleaf).1 hcontains
  refine .intro hdefs ?_ ?_ ?_
  · intro leaf hleaf
    exact (wellFormed_definitionsOf hw hdefs).isLeaf_of_mem_names hleaf
  · intro leaf hleaf
    constructor
    · intro hmem
      obtain ⟨d, hd, -⟩ := hall leaf hmem
      exact ⟨d, hd⟩
    · rintro ⟨d, hd⟩
      exact hname leaf d hleaf hd
  · intro leaf d sub hleaf hd hs
    obtain ⟨d', hd', hsub⟩ := hall leaf (hname leaf d hleaf hd)
    rw [hd] at hd'
    obtain rfl := Except.ok.inj hd'
    exact sound_of_checkIn (wellFormed_of_definitionIn hw hleaf hd hs) (hsub sub hs)
termination_by sizeOf dict
decreasing_by exact sizeOf_lt_of_definitionIn hd hs

end Dictionary

end PolicyTree
