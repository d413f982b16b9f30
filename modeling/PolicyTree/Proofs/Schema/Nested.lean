import PolicyTree.Proofs.Name.Above
import PolicyTree.Proofs.Report.Parts
import PolicyTree.Proofs.Resolver.Pass
import PolicyTree.Proofs.Schema.Unknown

namespace PolicyTree

namespace Name

variable {a m n s : String} {segs : List String}

theorem lead_append_ofSegments (a : String) (hne : segs ≠ []) :
    lead a ++ ofSegments segs = ofSegments (a :: segs) :=
  (ofSegments_cons a hne).symm

theorem exists_of_lead_prefix (h : (lead a).toList <+: n.toList) : ∃ m, n = lead a ++ m := by
  obtain ⟨cs, hcs⟩ := h
  use String.ofList cs
  rw [← String.toList_inj, String.toList_append, String.toList_ofList, hcs]

theorem lead_prefix (a m : String) : (lead a).toList <+: (lead a ++ m).toList :=
  ⟨m.toList, String.toList_append.symm⟩

theorem fields_lead_append (h : isLeaf a = true) (m : String) :
    Text.fields separator (lead a ++ m) = a :: Text.fields separator m := by
  rw [lead, Text.fields_append_separator, Text.fields_of_not_mem (isLeaf_iff.1 h).2,
    List.singleton_append]

theorem lead_append_eq_iff (h : isLeaf a = true) (hsegs : ∀ s ∈ segs, isLeaf s = true)
    (hne : segs ≠ []) : lead a ++ m = ofSegments segs ↔
      ∃ rest, rest ≠ [] ∧ segs = a :: rest ∧ m = ofSegments rest := by
  constructor
  · intro heq
    have hfields := fields_ofSegments hne hsegs
    rw [← heq, fields_lead_append h] at hfields
    exact ⟨_, Text.fields_ne_nil _ _, hfields.symm, (ofSegments_fields m).symm⟩
  · rintro ⟨rest, hrest, rfl, rfl⟩
    exact lead_append_ofSegments a hrest

end Name

namespace Policy

variable {p sub : Policy} {a : String} {cs : List Policy}

theorem WellFormed.subPolicies_of_getArray (h : p.WellFormed) (hleaf : Name.isLeaf a = true)
    (hcs : p.getArray a = .ok (cs.map .policy)) : p.subPolicies a = cs := by
  rw [h.subPolicies_eq, ← getArray_of_isLeaf hleaf, hcs]
  exact (List.filterMap_map ..).trans List.filterMap_some

theorem WellFormed.exists_getArray_of_mem_subPolicies (h : p.WellFormed)
    (hleaf : Name.isLeaf a = true) (hsub : sub ∈ p.subPolicies a) :
    ∃ cs : List Policy, p.getArray a = .ok (cs.map .policy) := by
  unfold subPolicies at hsub
  split at hsub
  · cases hsub
  · rename_i e he
    split at hsub
    · rename_i hk
      obtain ⟨name, values⟩ := e
      have harray := h.storable (mem_of_entry?_eq_some he)
      have hkinds : ∀ v ∈ values, v.kind = .policy :=
        fun v hv => (harray.kind_of_mem hv name).symm.trans hk
      obtain ⟨cs, rfl⟩ := Value.exists_eq_map_policy hkinds
      use cs
      rw [← toOption_eq_some_iff, getArray_of_isLeaf hleaf, he, Option.map_some]
    · cases hsub

end Policy

namespace Dictionary

variable {d s : Dictionary} {df : Definition} {dict p : Policy} {a m n : String}
  {P : String → Policy × Policy → Prop} {o : ValidateOptions} {r : Report}

/-- What is reached below the name of a definition is reached in the policies under it, by the
dictionary of the definition. -/
theorem reached_lead_iff (hleaf : Name.isLeaf a = true) (hd : definitionIn dict a = .ok df)
    (hs : df.dictionary = some s) : Reached P dict p [] (Name.lead a ++ m) ↔
      ∃ child ∈ p.subPolicies a, Reached P s.policy child [] m := by
  constructor
  · rintro ⟨segs, leaf, hsegs, hn, h, hh, hP⟩
    obtain ⟨rest, hne, heq, rfl⟩ :=
      (Name.lead_append_eq_iff hleaf hsegs (List.concat_ne_nil leaf segs)).1 hn
    cases segs with
    | nil =>
      rw [List.nil_append, List.cons_eq_cons] at heq
      exact absurd heq.2.symm hne
    | cons seg segs =>
      rw [List.cons_append, List.cons_eq_cons] at heq
      obtain ⟨rfl, rfl⟩ := heq
      obtain ⟨df', s', hd', hs', -, child, hchild, hh⟩ := mem_holders_cons.1 hh
      obtain rfl := Except.ok.inj (hd.symm.trans hd')
      obtain rfl := Option.some.inj (hs.symm.trans hs')
      rw [List.cons_append, List.forall_mem_cons] at hsegs
      exact ⟨child, hchild, segs, leaf, hsegs.2, rfl, h, hh, hP⟩
  · rintro ⟨child, hchild, segs, leaf, hsegs, rfl, h, hh, hP⟩
    have hk := kind_of_definitionIn hleaf hd hs
    refine ⟨a :: segs, leaf, List.forall_mem_cons.2 ⟨hleaf, hsegs⟩, ?_, h, ?_, hP⟩
    · exact Name.lead_append_ofSegments a (List.concat_ne_nil leaf segs)
    · exact mem_holders_cons.2 ⟨df, s, hd, hs, hk, child, hchild, hh⟩

theorem meets_below_iff {g : Faults} (hleaf : Name.isLeaf a = true)
    (hd : definitionIn dict a = .ok df) (hs : df.dictionary = some s)
    (hr : Report.empty.Adds r fun n g => Reached (Noted o g) dict p [] n) :
    ((r.below a).faultsOf n).meets g = true ↔ ∃ m, n = Name.lead a ++ m ∧
      ∃ child ∈ p.subPolicies a, Reached (Noted o g) s.policy child [] m := by
  rw [hr.wellFormed.meets_below, hr.meets_faultsOf]
  constructor
  · rintro ⟨hlead, hreached⟩
    obtain ⟨m, rfl⟩ := Name.exists_of_lead_prefix hlead
    exact ⟨m, rfl, (reached_lead_iff hleaf hd hs).1 hreached⟩
  · rintro ⟨m, rfl, hreached⟩
    exact ⟨Name.lead_prefix a m, (reached_lead_iff hleaf hd hs).2 hreached⟩

theorem exists_reports (o : ValidateOptions) {cs : List Policy} (hd : d.policy.WellFormed)
    (hc : d.check = .ok ⟨⟩) (hcs : ∀ c ∈ cs, c.WellFormed) :
    ∃ rs, cs.mapM (d.validateWith o) = .ok rs ∧
      Report.empty.Adds (rs.foldl Report.merge ∅) fun n g =>
        ∃ c ∈ cs, Reached (Noted o g) d.policy c [] n := by
  have hall : ∀ c ∈ cs, ∃ r, d.validateWith o c = .ok r ∧
      Report.empty.Adds r fun n g => Reached (Noted o g) d.policy c [] n :=
    fun c hmem => exists_validateWith_adds o hd hc (hcs c hmem)
  choose! report hreport hadds using hall
  refine ⟨cs.map report, ?_, ?_⟩
  · rw [mapM_eq_ok_iff, List.forall₂_map_right_iff, List.forall₂_same]
    exact hreport
  · rw [List.foldl_map]
    apply Report.adds_foldl _ .empty
    intro c hmem r hr
    apply (hr.adds_merge (hadds c hmem).wellFormed).congr
    intro n g
    exact (hadds c hmem).meets_faultsOf

/-- A validation reports below the name of a definition with a dictionary what this dictionary
reports of all policies under the name, and nothing if there is no array of policies. -/
theorem nested_validation (d : Dictionary) (p : Policy) (o : ValidateOptions)
    (hd : d.policy.WellFormed) (hc : d.check = .ok ⟨⟩) (hp : p.WellFormed) :
    ∃ r, d.validateWith o p = .ok r ∧
      ∀ names a df s, d.definitionNames = .ok names → a ∈ names → d.definition a = .ok df →
        df.dictionary = some s →
          (∀ cs : List Policy, p.getArray a = .ok (cs.map .policy) →
            ∃ rs, cs.mapM (s.validateWith o) = .ok rs ∧
              r.below a = (rs.foldl Report.merge ∅).under a) ∧
          ((∀ cs : List Policy, p.getArray a ≠ .ok (cs.map .policy)) → r.below a = ∅) := by
  obtain ⟨r, hr, hadds⟩ := exists_validateWith_adds o hd hc hp
  refine ⟨r, hr, fun names a df s hnames ha hdf hs => ?_⟩
  obtain ⟨defs, hdefs, hall⟩ := checkIn_eq_ok_iff.1 hc
  rw [definitionNames, namesIn, hdefs, ok_bind] at hnames
  obtain rfl := Except.ok.inj hnames
  obtain ⟨df', hdf', hsub⟩ := hall a ha
  obtain rfl := Except.ok.inj (hdf.symm.trans hdf')
  have hleaf := (wellFormed_definitionsOf hd hdefs).isLeaf_of_mem_names ha
  constructor
  · intro cs hcs
    have hsubs := hp.subPolicies_of_getArray hleaf hcs
    have hwf : ∀ c ∈ cs, c.WellFormed := fun c hmem => hp.of_mem_subPolicies (hsubs ▸ hmem)
    obtain ⟨rs, hrs, hmerged⟩ := exists_reports o (wellFormed_of_definitionIn hd hleaf hdf hs)
      (hsub s hs) hwf
    refine ⟨rs, hrs, (hadds.wellFormed.below a).eq_of_meets (hmerged.wellFormed.under a) ?_⟩
    intro n g
    rw [meets_below_iff hleaf hdf hs hadds, hmerged.wellFormed.meets_under, hsubs]
    simp only [hmerged.meets_faultsOf]
  · intro hnone
    apply (hadds.wellFormed.below a).eq_of_meets .empty
    intro n g
    rw [meets_below_iff hleaf hdf hs hadds]
    apply iff_of_false
    · rintro ⟨m, -, child, hchild, -⟩
      obtain ⟨cs, hcs⟩ := hp.exists_getArray_of_mem_subPolicies hleaf hchild
      exact hnone cs hcs
    · rw [Report.faultsOf_empty, Faults.not_meets_empty]
      exact Bool.false_ne_true

/-- The report has the color and the name of a zone, as the dictionary of zones reports them. -/
theorem nested_validation_zones :
    ∃ r df s rs, zones.validateWith ⟨true⟩ coloredZones = .ok r ∧
      zones.definition "zone" = .ok df ∧ df.dictionary = some s ∧
      [Policy.empty, ⟨[⟨"name", [.int 2]⟩, ⟨"color", [.string "red"]⟩]⟩].mapM
        (s.validateWith ⟨true⟩) = .ok rs ∧
      r.below "zone" = (rs.foldl Report.merge ∅).under "zone" ∧
      r.below "zone" =
        ⟨[("zone.color", .unknownName), ("zone.name", .missingRequired ||| .wrongType)]⟩ := by
  have hc : zones.check = .ok ⟨⟩ := toOption_eq_some_iff.1 (by decide +kernel)
  obtain ⟨r, hr, hnested⟩ :=
    nested_validation zones coloredZones ⟨true⟩ (by decide +kernel) hc (by decide +kernel)
  have hdefined : (zones.definition "zone").toOption.map (·.dictionary.isSome) = some true := by
    decide +kernel
  obtain ⟨df, hdf, hdictionary⟩ := map_toOption_eq_some_iff.1 hdefined
  obtain ⟨s, hs⟩ := Option.isSome_iff_exists.1 hdictionary
  have hnames : zones.definitionNames = .ok ["zone"] := toOption_eq_some_iff.1 (by decide +kernel)
  have hcs : coloredZones.getArray "zone" = .ok ([Policy.empty,
      ⟨[⟨"name", [.int 2]⟩, ⟨"color", [.string "red"]⟩]⟩].map .policy) := rfl
  obtain ⟨rs, hrs, hbelow⟩ :=
    (hnested _ "zone" df s hnames (List.mem_singleton_self _) hdf hs).1 _ hcs
  have hpart : (zones.validateWith ⟨true⟩ coloredZones).toOption.map (·.below "zone") =
      some ⟨[("zone.color", .unknownName), ("zone.name", .missingRequired ||| .wrongType)]⟩ := by
    decide +kernel
  rw [hr] at hpart
  exact ⟨r, df, s, rs, hr, hdf, hs, hrs, hbelow, Option.some.inj hpart⟩

end Dictionary

end PolicyTree
