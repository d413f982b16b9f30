import PolicyTree.Proofs.Name.Above
import PolicyTree.Proofs.Schema.Definitions
import PolicyTree.Proofs.Schema.Reordering

namespace PolicyTree

namespace Dictionary

variable {d s : Dictionary} {df e : Definition} {dict sub : Policy} {a b name leaf seg : String}
  {segs rest : List String}

theorem name_of_definitionAt (h : definitionAt name dict segs = .ok df) : df.name = name := by
  have hsame := Except.ok.inj (h.symm.trans (definitionAt_renamed h name))
  rw [hsame]

theorem exists_nests_of_definitionAt (hleaf : Name.isLeaf seg = true) (hne : rest ≠ [])
    (h : definitionAt name dict (seg :: rest) = .ok df) :
    ∃ fields sub, fieldsOf name dict seg = .ok fields ∧ Nests dict seg sub := by
  obtain ⟨next, rest, rfl⟩ := List.exists_cons_of_ne_nil hne
  obtain ⟨fields, hfields, -⟩ := bind_eq_ok_iff.1 h
  by_cases hsub : ∃ sub, Nests dict seg sub
  · obtain ⟨sub, hsub⟩ := hsub
    exact ⟨fields, sub, hfields, hsub⟩
  · rw [definitionAt_of_not_nests hleaf hfields (not_exists.1 hsub) hne] at h
    cases h

/-- From a definition with a nested dictionary the walk goes on in that dictionary. Induction on the
segments before: the definitions on the way are passed by, and need not make sense. -/
theorem definitionAt_append (hsegs : ∀ t ∈ segs, Name.isLeaf t = true)
    (h : definitionAt name dict segs = .ok df) (hs : df.dictionary = some s) (hne : rest ≠ [])
    (name' : String) :
    definitionAt name' dict (segs ++ rest) = definitionAt name' s.policy rest := by
  induction segs generalizing dict with
  | nil => cases h
  | cons seg more ih =>
    rw [List.forall_mem_cons] at hsegs
    rw [List.cons_append]
    by_cases hend : more = []
    · subst hend
      obtain ⟨fields, hfields, hof⟩ := bind_eq_ok_iff.1 h
      have hnests : Nests dict seg s.policy :=
        (nests_iff_of_ofPolicy hsegs.1 hfields hof).2 ⟨s, hs, rfl⟩
      exact definitionAt_of_nests hsegs.1 (fieldsOf_renamed hfields name') hnests hne
    · obtain ⟨fields, sub, hfields, hnests⟩ := exists_nests_of_definitionAt hsegs.1 hend h
      rw [definitionAt_of_nests hsegs.1 hfields hnests hend] at h
      rw [definitionAt_of_nests hsegs.1 (fieldsOf_renamed hfields name') hnests
        (List.append_ne_nil_of_left_ne_nil hend rest)]
      exact ih hsegs.2 h

theorem definition_eq_definitionAt (h : Name.segments name = .ok segs) :
    d.definition name = definitionAt name d.policy segs := by
  rw [definition, definitionIn, h, ok_bind]

/-- Below a definition with a nested dictionary, a name has a definition exactly if the rest of it
has one in that dictionary, and it is the same definition but for the name. -/
theorem definition_join (ha : d.definition a = .ok df) (hs : df.dictionary = some s)
    (hb : Name.WellFormed b) :
    ((∃ e, d.definition (Name.join a b) = .ok e) ↔ ∃ e, s.definition b = .ok e) ∧
      ∀ e e', d.definition (Name.join a b) = .ok e → s.definition b = .ok e' →
        e.name = Name.join a b ∧ e'.name = b ∧ e = { e' with name := e.name } := by
  obtain ⟨as, has, hdf⟩ := bind_eq_ok_iff.1 ha
  obtain ⟨bs, hbs⟩ := Name.wellFormed_iff.1 hb
  have hwhole : d.definition (Name.join a b) = definitionAt (Name.join a b) s.policy bs := by
    rw [definition_eq_definitionAt (Name.segments_join has hbs)]
    exact definitionAt_append (fun _ => Name.isLeaf_of_mem_segments has) hdf hs
      (Name.segments_eq_ok_iff.1 hbs).1 (Name.join a b)
  rw [hwhole, definition_eq_definitionAt hbs]
  refine ⟨⟨fun h => ?_, fun h => ?_⟩, fun e e' he he' => ?_⟩
  · obtain ⟨e, he⟩ := h
    exact ⟨_, definitionAt_renamed he b⟩
  · obtain ⟨e, he⟩ := h
    exact ⟨_, definitionAt_renamed he (Name.join a b)⟩
  · have hname := name_of_definitionAt he
    have hsame := Except.ok.inj (he.symm.trans (definitionAt_renamed he' (Name.join a b)))
    rw [hname]
    exact ⟨rfl, name_of_definitionAt he', hsame⟩

def regions : Dictionary where
  policy := schemaOf [⟨"region", [.policy ⟨[⟨"type", [.string "Policy"]⟩,
    ⟨dictionaryKey, [.policy (schemaOf [zonesOf [typed "name" "string"],
      typed "other" "thing"])]⟩]⟩]⟩]
  hasDefinitions := by decide +kernel

theorem definition_join_regions :
    ∃ df s e e', regions.definition "region" = .ok df ∧ df.dictionary = some s ∧
      regions.definition "region.zone.name" = .ok e ∧ s.definition "zone.name" = .ok e' ∧
      e = { e' with name := "region.zone.name" } ∧ e'.kind = .string ∧
      ¬∃ other, s.definition "other" = .ok other := by
  have hregion : (regions.definition "region").toOption.map (·.dictionary.isSome) = some true := by
    decide +kernel
  obtain ⟨df, hdf, hdictionary⟩ := map_toOption_eq_some_iff.1 hregion
  obtain ⟨s, hs⟩ := Option.isSome_iff_exists.1 hdictionary
  have hname := definition_join (b := "zone.name") hdf hs (by decide +kernel)
  have hother := definition_join (b := "other") hdf hs (by decide +kernel)
  have hkind : (regions.definition "region.zone.name").toOption.map Definition.kind =
      some .string := by
    decide +kernel
  obtain ⟨e, he, hk⟩ := map_toOption_eq_some_iff.1 hkind
  obtain ⟨e', he'⟩ := hname.1.1 ⟨e, he⟩
  obtain ⟨hwhole, -, hsame⟩ := hname.2 e e' he he'
  rw [hwhole] at hsame
  rw [hsame] at hk
  refine ⟨df, s, e, e', hdf, hs, he, he', hsame, hk, fun hnone => ?_⟩
  obtain ⟨other, hwrong⟩ := hother.1.2 hnone
  have hfails : (regions.definition "region.other").toOption.isSome = false := by decide +kernel
  have hjoin : Name.join "region" "other" = "region.other" := by decide +kernel
  rw [hjoin] at hwrong
  rw [hwrong] at hfails
  cases hfails

end Dictionary

end PolicyTree
