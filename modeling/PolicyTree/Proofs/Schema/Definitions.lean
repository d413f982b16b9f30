import PolicyTree.Proofs.Schema.Validation
import PolicyTree.Proofs.Policy.Walk

namespace PolicyTree

variable {p q dict defs fields sub : Policy} {d : Definition} {k : Kind} {v : Value}
  {b : Definition.Bounds} {values : List Value} {known : Option Value}
  {name leaf seg key label what : String} {segs rest : List String} {e : Error}

namespace Definition

theorem agree_ite_error {α : Type} {c : Prop} [Decidable c] {e e' : Error} {a : α} :
    Agree Eq (if c then .error e else pure a : Except Error α)
      (if c then .error e' else pure a) := by
  split
  · exact .error
  · exact .ok rfl

theorem agree_declaredKind_name (name name' : String) (fields : Policy) :
    Agree Eq (declaredKind name fields) (declaredKind name' fields) := by
  unfold declaredKind
  split
  · exact .ok rfl
  · split
    · exact .error
    · exact .error
    · exact .ok rfl
  · exact .error

theorem agree_occurs_name (name name' : String) (fields : Policy) (key : String) :
    Agree Eq (occurs name fields key) (occurs name' fields key) := by
  unfold occurs
  split
  · exact .ok rfl
  · exact .ok rfl
  · exact .error

theorem agree_occurrences_name (name name' : String) (fields : Policy) :
    Agree Eq (occurrences name fields) (occurrences name' fields) := by
  have hoccurs := agree_occurs_name name name' fields
  unfold occurrences
  dsimp only
  split
  case' isTrue =>
    refine ((hoccurs "minOccurs").map (S := Eq) fun _ _ h => h ▸ rfl).bind ?_
    rintro least _ rfl
  all_goals
    simp only [pure_bind]
    split
    · refine (hoccurs "maxOccurs").bind ?_
      rintro most _ rfl
      split
      · exact agree_ite_error
      · exact .ok rfl
    · exact agree_ite_error

theorem agree_coerce_name (name name' : String) (k : Kind) (what : String) (v : Value) :
    Agree Eq (coerce name k what v) (coerce name' k what v) := by
  unfold coerce
  split
  · exact .ok rfl
  · exact .ok rfl
  · split
    · exact .ok rfl
    · exact .error

theorem agree_takeBound_name (name name' : String) (k : Kind) (key label : String)
    (known : Option Value) (source : Policy) :
    Agree Eq (takeBound name k key label known source)
      (takeBound name' k key label known source) := by
  unfold takeBound
  split
  · exact .ok rfl
  · split
    · exact .error
    · exact (agree_coerce_name name name' k key _).map fun _ _ h => congrArg some h

theorem agree_take_name (name name' : String) (k : Kind) (b : Bounds) (source : Policy) :
    Agree Eq (b.take name k source) (b.take name' k source) :=
  (agree_takeBound_name name name' k "min" "Min" b.min source).bind fun _ _ hmin =>
    (agree_takeBound_name name name' k "max" "Max" b.max source).bind fun _ _ hmax => by
      subst hmin hmax
      exact .ok rfl

theorem agree_mapM_coerce_name (name name' : String) (k : Kind) (what : String)
    (values : List Value) :
    Agree Eq (values.mapM (coerce name k what)) (values.mapM (coerce name' k what)) := by
  have hstep : ∀ v w, v = w → Agree Eq (coerce name k what v) (coerce name' k what w) := by
    rintro v _ rfl
    exact agree_coerce_name name name' k what v
  have hall : List.Forall₂ Eq values values := List.forall₂_same.2 fun _ _ => rfl
  have hmap := Agree.mapM hall hstep
  rwa [List.forall₂_eq_eq_eq] at hmap

theorem agree_givenValues_name (name name' : String) (k : Kind) (source : Policy)
    (key what : String) :
    Agree Eq (givenValues name k source key what) (givenValues name' k source key what) := by
  unfold givenValues
  split
  · exact .ok rfl
  · exact agree_mapM_coerce_name name name' k what _

theorem agree_takeAllowed_name (name name' : String) (k : Kind) (b : Bounds)
    (values : List Value) :
    Agree Eq (takeAllowed name k b values) (takeAllowed name' k b values) := by
  induction values generalizing b with
  | nil => exact .ok rfl
  | cons v values ih =>
    cases v with
    | policy p =>
      refine (agree_take_name name name' k b p).bind ?_
      rintro b _ rfl
      refine (agree_givenValues_name name name' k p "value" "allowed").bind ?_
      rintro given _ rfl
      refine (ih b).bind ?_
      rintro more _ rfl
      exact .ok rfl
    | undefined | bool | int | double | string | file =>
      refine (agree_coerce_name name name' k "allowed" _).bind ?_
      rintro v _ rfl
      refine (ih b).bind ?_
      rintro more _ rfl
      exact .ok rfl

theorem agree_nestedDictionary_name (name name' : String) (k : Kind) (fields : Policy) :
    Agree Eq (nestedDictionary name k fields) (nestedDictionary name' k fields) := by
  unfold nestedDictionary
  split
  · exact .ok rfl
  · split
    · exact .error
    · split
      · exact .refl fun _ => rfl
      · exact .error
      · exact .error

theorem ofPolicy_renamed (h : ofPolicy name fields = .ok d) (name' : String) :
    ofPolicy name' fields = .ok { d with name := name' } := by
  have hagree : Agree (fun d d' : Definition => d' = { d with name := name' })
      (ofPolicy name fields) (ofPolicy name' fields) := by
    unfold ofPolicy
    refine (agree_declaredKind_name name name' fields).bind ?_
    rintro k _ rfl
    refine (agree_occurrences_name name name' fields).bind ?_
    rintro bounds _ rfl
    refine (agree_take_name name name' k _ fields).bind ?_
    rintro b _ rfl
    refine (agree_takeAllowed_name name name' k b _).bind ?_
    rintro allowed _ rfl
    refine (agree_givenValues_name name name' k fields "default" "default").bind ?_
    rintro defaults _ rfl
    refine (agree_nestedDictionary_name name name' k fields).bind ?_
    rintro dictionary _ rfl
    exact .ok rfl
  obtain ⟨_, hd, rfl⟩ := hagree.exists_of_ok h
  exact hd

theorem last?_dictionaryKey (h : ofPolicy name fields = .ok d) :
    fields.last? dictionaryKey = d.dictionary.map fun sub => .policy sub.policy := by
  have hget : ∀ v, fields.get dictionaryKey = .ok v ↔ fields.last? dictionaryKey = some v :=
    fun v => Policy.get_of_isLeaf (by decide)
  have hn := dictionary_of_ofPolicy h
  unfold nestedDictionary at hn
  split at hn
  · rename_i hnone
    rw [← Except.ok.inj hn, Option.map_none, Option.eq_none_iff_forall_ne_some]
    intro v hv
    rw [(hget v).2 hv] at hnone
    cases hnone
  · rename_i v hv
    rw [(hget v).1 hv]
    split at hn
    · cases hn
    · split at hn
      · obtain ⟨nested, hnested, heq⟩ := map_eq_ok_iff.1 hn
        rw [← heq, Option.map_some, Dictionary.policy_of_ofPolicy hnested]
      · cases hn
      · cases hn

end Definition

namespace Dictionary

theorem child?_of_definitionsOf (h : definitionsOf dict = .ok defs) :
    dict.child? definitionsKey = some defs := by
  unfold definitionsOf at h
  split at h
  · cases h
  · split at h
    · rename_i found hfound
      obtain rfl := Except.ok.inj h
      exact Policy.child?_of_getAs (by decide) hfound
    · cases h
  · cases h

theorem subAt?_of_fieldsOf (hleaf : Name.isLeaf leaf = true)
    (h : fieldsOf name dict leaf = .ok fields) :
    dict.subAt? [definitionsKey, leaf] = some fields := by
  obtain ⟨defs, hdefs, -, hget⟩ := fieldsOf_eq_ok h
  exact Policy.subAt?_cons_eq_some_iff.2 ⟨defs, child?_of_definitionsOf hdefs,
    Policy.subAt?_cons_eq_some_iff.2 ⟨fields, Policy.child?_of_getAs hleaf hget, rfl⟩⟩

theorem fieldsOf_renamed (h : fieldsOf name dict leaf = .ok fields) (name' : String) :
    fieldsOf name' dict leaf = .ok fields := by
  obtain ⟨defs, hdefs, hcontains, hget⟩ := fieldsOf_eq_ok h
  rw [fieldsOf, hdefs, ok_bind, if_pos hcontains, hget]

theorem fieldsOf_undefined (hdefs : definitionsOf dict = .ok defs)
    (h : defs.contains leaf = false) (name : String) :
    fieldsOf name dict leaf = .error (.nameNotFound name) := by
  rw [fieldsOf, hdefs, ok_bind, if_neg (by simp [h])]

/-- A name in the section of definitions of a checked dictionary has a definition, and the
dictionary nested in it is checked, too. -/
theorem exists_fieldsOf (hc : checkIn dict = .ok ⟨⟩) (hleaf : Name.isLeaf leaf = true)
    (hdefs : definitionsOf dict = .ok defs) (h : defs.contains leaf = true) :
    ∃ fields d, fieldsOf leaf dict leaf = .ok fields ∧ Definition.ofPolicy leaf fields = .ok d ∧
      ∀ sub, d.dictionary = some sub → checkIn sub.policy = .ok ⟨⟩ := by
  obtain ⟨defs', hdefs', hall⟩ := checkIn_eq_ok_iff.1 hc
  obtain rfl := Except.ok.inj (hdefs.symm.trans hdefs')
  have hmem : leaf ∈ defs.names true .all := by
    rw [Policy.names_top]
    exact (Policy.contains_of_isLeaf hleaf).1 h
  obtain ⟨d, hd, hsub⟩ := hall leaf hmem
  obtain ⟨fields, hfields, hof⟩ := (definitionIn_eq_ok_iff hleaf).1 hd
  exact ⟨fields, d, hfields, hof, hsub⟩

/-- The definition of `seg` in the dictionary held by `dict` has a dictionary of its own, which is
held by `sub`. -/
def Nests (dict : Policy) (seg : String) (sub : Policy) : Prop :=
  dict.subAt? [definitionsKey, seg, dictionaryKey] = some sub

theorem nests_iff (hleaf : Name.isLeaf seg = true) (hfields : fieldsOf name dict seg = .ok fields) :
    Nests dict seg sub ↔ fields.child? dictionaryKey = some sub := by
  have hsplit : [definitionsKey, seg, dictionaryKey] = [definitionsKey, seg] ++ [dictionaryKey] :=
    rfl
  rw [Nests, hsplit, Policy.subAt?_append, subAt?_of_fieldsOf hleaf hfields, Option.bind_some,
    Policy.subAt?_cons_eq_some_iff]
  simp

theorem nests_iff_of_ofPolicy (hleaf : Name.isLeaf seg = true)
    (hfields : fieldsOf name dict seg = .ok fields) (hd : Definition.ofPolicy name fields = .ok d) :
    Nests dict seg sub ↔ ∃ inner, d.dictionary = some inner ∧ inner.policy = sub := by
  rw [nests_iff hleaf hfields, Policy.child?_eq_some_iff, Definition.last?_dictionaryKey hd,
    Option.map_eq_some_iff]
  simp only [Value.policy.injEq]

theorem definitionAt_of_nests (hleaf : Name.isLeaf seg = true)
    (hfields : fieldsOf name dict seg = .ok fields) (h : Nests dict seg sub) (hne : rest ≠ []) :
    definitionAt name dict (seg :: rest) = definitionAt name sub rest := by
  have hlast := Policy.child?_eq_some_iff.1 ((nests_iff hleaf hfields).1 h)
  have hget := (Policy.get_of_isLeaf (by decide)).2 hlast
  obtain ⟨next, rest, rfl⟩ := List.exists_cons_of_ne_nil hne
  rw [definitionAt, hfields, ok_bind, hget]
  simp

theorem definitionAt_of_not_nests (hleaf : Name.isLeaf seg = true)
    (hfields : fieldsOf name dict seg = .ok fields) (h : ∀ sub, ¬Nests dict seg sub)
    (hne : rest ≠ []) : definitionAt name dict (seg :: rest) =
      .error (.dictionary s!"{seg}.dictionary not found.") := by
  obtain ⟨next, rest, rfl⟩ := List.exists_cons_of_ne_nil hne
  rw [definitionAt, hfields, ok_bind]
  · split
    · rename_i sub hget
      have hlast := (Policy.get_of_isLeaf (by decide)).1 hget
      exact absurd ((nests_iff hleaf hfields).2 (Policy.child?_eq_some_iff.2 hlast)) (h sub)
    · rfl
  · simp

theorem definitionAt_of_dictionary {sub : Dictionary} (hleaf : Name.isLeaf seg = true)
    (hd : definitionIn dict seg = .ok d) (hs : d.dictionary = some sub) (hne : rest ≠ []) :
    definitionAt name dict (seg :: rest) = definitionAt name sub.policy rest := by
  obtain ⟨fields, hfields, hof⟩ := (definitionIn_eq_ok_iff hleaf).1 hd
  exact definitionAt_of_nests hleaf (fieldsOf_renamed hfields name)
    ((nests_iff_of_ofPolicy hleaf hfields hof).2 ⟨sub, hs, rfl⟩) hne

theorem exists_dictionary_of_definitionAt (hc : checkIn dict = .ok ⟨⟩)
    (hleaf : Name.isLeaf seg = true) (hne : rest ≠ [])
    (h : definitionAt name dict (seg :: rest) = .ok d) :
    ∃ outer sub, definitionIn dict seg = .ok outer ∧ outer.dictionary = some sub ∧
      checkIn sub.policy = .ok ⟨⟩ ∧ definitionAt name sub.policy rest = .ok d := by
  obtain ⟨fields, hfields⟩ : ∃ fields, fieldsOf name dict seg = .ok fields := by
    obtain ⟨next, rest, rfl⟩ := List.exists_cons_of_ne_nil hne
    obtain ⟨fields, hfields, -⟩ := bind_eq_ok_iff.1 h
    exact ⟨fields, hfields⟩
  obtain ⟨defs, hdefs, hcontains, -⟩ := fieldsOf_eq_ok hfields
  obtain ⟨_, outer, hfields', hof, hchecked⟩ := exists_fieldsOf hc hleaf hdefs hcontains
  have hd := (definitionIn_eq_ok_iff hleaf).2 ⟨_, hfields', hof⟩
  by_cases hsub : ∃ sub, Nests dict seg sub
  · obtain ⟨_, hsub⟩ := hsub
    obtain ⟨sub, hs, rfl⟩ := (nests_iff_of_ofPolicy hleaf hfields' hof).1 hsub
    rw [definitionAt_of_dictionary hleaf hd hs hne] at h
    exact ⟨outer, sub, hd, hs, hchecked sub hs, h⟩
  · rw [definitionAt_of_not_nests hleaf hfields (not_exists.1 hsub) hne] at h
    cases h

/-- The name asked for stands in the definition that is found; nothing else depends on it. -/
theorem definitionAt_renamed (h : definitionAt name dict segs = .ok d) (name' : String) :
    definitionAt name' dict segs = .ok { d with name := name' } := by
  induction segs generalizing dict with
  | nil => cases h
  | cons seg rest ih =>
    cases rest with
    | nil =>
      obtain ⟨fields, hfields, hof⟩ := bind_eq_ok_iff.1 h
      rw [definitionAt, fieldsOf_renamed hfields name', ok_bind]
      exact Definition.ofPolicy_renamed hof name'
    | cons next rest =>
      obtain ⟨fields, hfields, hrest⟩ := bind_eq_ok_iff.1 h
      rw [definitionAt, fieldsOf_renamed hfields name', ok_bind]
      · split at hrest
        · exact ih hrest
        · cases hrest
      · exact List.cons_ne_nil _ _

/-- Segments name a definition: each of them is in the section of definitions that those before it
lead to, and each but the last one has a dictionary nested in it. -/
inductive Defines : Policy → List String → Prop
  | here {dict defs : Policy} {leaf : String} (hdefs : dict.child? definitionsKey = some defs)
      (h : defs.contains leaf = true) : Defines dict [leaf]
  | nested {dict defs sub : Policy} {seg : String} {rest : List String}
      (hdefs : dict.child? definitionsKey = some defs) (h : defs.contains seg = true)
      (hsub : Nests dict seg sub) (hrest : Defines sub rest) : Defines dict (seg :: rest)

/-- The first segment that leads nowhere: it is not defined, or it has no dictionary although more
segments follow. `name` is the whole name asked for. -/
inductive Obstructs (name : String) : Policy → List String → Error → Prop
  | undefined {dict defs : Policy} {seg : String} {rest : List String}
      (hdefs : dict.child? definitionsKey = some defs) (h : defs.contains seg = false) :
      Obstructs name dict (seg :: rest) (.nameNotFound name)
  | plain {dict defs : Policy} {seg : String} {rest : List String}
      (hdefs : dict.child? definitionsKey = some defs) (h : defs.contains seg = true)
      (hnone : ∀ sub, ¬Nests dict seg sub) (hne : rest ≠ []) :
      Obstructs name dict (seg :: rest) (.dictionary s!"{seg}.dictionary not found.")
  | nested {dict defs sub : Policy} {seg : String} {rest : List String} {e : Error}
      (hdefs : dict.child? definitionsKey = some defs) (h : defs.contains seg = true)
      (hsub : Nests dict seg sub) (hrest : Obstructs name sub rest e) :
      Obstructs name dict (seg :: rest) e

theorem Obstructs.ne_nil (h : Obstructs name dict segs e) : segs ≠ [] := by
  cases h <;> exact List.cons_ne_nil _ _

theorem Obstructs.not_defines (h : Obstructs name dict segs e) : ¬Defines dict segs := by
  induction h with
  | undefined hdefs h =>
    intro hdefines
    cases hdefines with
    | here hdefs' h' | nested hdefs' h' =>
      obtain rfl := Option.some.inj (hdefs.symm.trans hdefs')
      rw [h] at h'
      cases h'
  | plain hdefs h hnone hne =>
    intro hdefines
    cases hdefines with
    | here => exact hne rfl
    | nested _ _ hsub => exact hnone _ hsub
  | nested hdefs h hsub hrest ih =>
    intro hdefines
    cases hdefines with
    | here => exact hrest.ne_nil rfl
    | nested _ _ hsub' hrest' =>
      obtain rfl := Option.some.inj (hsub.symm.trans hsub')
      exact ih hrest'

/-- There is one first obstacle, and so one error. -/
theorem Obstructs.unique {e' : Error} (h : Obstructs name dict segs e)
    (h' : Obstructs name dict segs e') : e = e' := by
  induction h with
  | undefined hdefs h =>
    cases h' with
    | undefined => rfl
    | plain hdefs' h' | nested hdefs' h' =>
      obtain rfl := Option.some.inj (hdefs.symm.trans hdefs')
      rw [h] at h'
      cases h'
  | plain hdefs h hnone hne =>
    cases h' with
    | undefined hdefs' h' =>
      obtain rfl := Option.some.inj (hdefs.symm.trans hdefs')
      rw [h] at h'
      cases h'
    | plain => rfl
    | nested _ _ hsub => exact absurd hsub (hnone _)
  | nested hdefs h hsub hrest ih =>
    cases h' with
    | undefined hdefs' h' =>
      obtain rfl := Option.some.inj (hdefs.symm.trans hdefs')
      rw [h] at h'
      cases h'
    | plain _ _ hnone => exact absurd hsub (hnone _)
    | nested _ _ hsub' hrest' =>
      obtain rfl := Option.some.inj (hsub.symm.trans hsub')
      exact ih hrest'

/-- The walk through a checked dictionary: it comes to a definition, or to the first obstacle.
Induction on the segments; the nested dictionary of a definition is checked, too. -/
theorem definitionAt_cases (hc : checkIn dict = .ok ⟨⟩) (hne : segs ≠ [])
    (hleaf : ∀ s ∈ segs, Name.isLeaf s = true) (name : String) :
    (Defines dict segs ∧ ∃ d, definitionAt name dict segs = .ok d) ∨
      ∃ e, Obstructs name dict segs e ∧ definitionAt name dict segs = .error e := by
  induction segs generalizing dict with
  | nil => exact absurd rfl hne
  | cons seg rest ih =>
    rw [List.forall_mem_cons] at hleaf
    obtain ⟨hseg, hleaf⟩ := hleaf
    obtain ⟨defs, hdefs, -⟩ := checkIn_eq_ok_iff.1 hc
    have hchild := child?_of_definitionsOf hdefs
    cases hcontains : defs.contains seg with
    | false =>
      have hfields := fieldsOf_undefined hdefs hcontains name
      refine .inr ⟨_, .undefined hchild hcontains, ?_⟩
      cases rest with
      | nil => rw [definitionAt, hfields, error_bind]
      | cons next rest =>
        rw [definitionAt, hfields, error_bind]
        exact List.cons_ne_nil _ _
    | true =>
      obtain ⟨fields, d, hfields, hd, hchecked⟩ := exists_fieldsOf hc hseg hdefs hcontains
      have hwhole := fieldsOf_renamed hfields name
      by_cases hend : rest = []
      · subst hend
        have hok : definitionAt name dict [seg] = .ok { d with name } := by
          rw [definitionAt, hwhole, ok_bind]
          exact Definition.ofPolicy_renamed hd name
        exact .inl ⟨.here hchild hcontains, _, hok⟩
      by_cases hsub : ∃ sub, Nests dict seg sub
      · obtain ⟨sub, hsub⟩ := hsub
        obtain ⟨inner, hinner, rfl⟩ := (nests_iff_of_ofPolicy hseg hfields hd).1 hsub
        rw [definitionAt_of_nests hseg hwhole hsub hend]
        rcases ih (hchecked inner hinner) hend hleaf with ⟨hdefines, hok⟩ | ⟨e, hobstructs, he⟩
        · exact .inl ⟨.nested hchild hcontains hsub hdefines, hok⟩
        · exact .inr ⟨e, .nested hchild hcontains hsub hobstructs, he⟩
      · rw [not_exists] at hsub
        exact .inr ⟨_, .plain hchild hcontains hsub hend,
          definitionAt_of_not_nests hseg hwhole hsub hend⟩

/-- In a checked dictionary a dotted name has a definition exactly if its segments name one, and
else the error is that of the first obstacle: nothing is defined under a segment, or a segment
before the last one has no nested dictionary. -/
theorem definition_eq_iff (d : Dictionary) (hc : d.check = .ok ⟨⟩) (name : String)
    (segs : List String) (hn : Name.segments name = .ok segs) :
    ((∃ df, d.definition name = .ok df) ↔ Defines d.policy segs) ∧
      ∀ e, d.definition name = .error e ↔ Obstructs name d.policy segs e := by
  obtain ⟨hne, hleaf, -⟩ := Name.segments_eq_ok_iff.1 hn
  have hdef : d.definition name = definitionAt name d.policy segs := by
    rw [definition, definitionIn, hn, ok_bind]
  rw [hdef]
  rcases definitionAt_cases hc hne hleaf name with ⟨hdefines, df, hok⟩ | ⟨e, hobstructs, he⟩
  · refine ⟨iff_of_true ⟨df, hok⟩ hdefines, fun e => iff_of_false ?_ ?_⟩
    · rw [hok]
      intro h
      cases h
    · exact fun hobstructs => hobstructs.not_defines hdefines
  · refine ⟨iff_of_false ?_ hobstructs.not_defines, fun e' => ?_⟩
    · rw [he]
      rintro ⟨df, hdf⟩
      cases hdf
    · rw [he, Except.error.injEq]
      exact ⟨fun h => h ▸ hobstructs, hobstructs.unique⟩

/-- Zones have names, no sizes, and their names have no parts. -/
theorem definition_eq_iff_zones :
    (∃ df, zones.definition "zone.name" = .ok df) ∧
      zones.definition "zone.size.unit" = .error (.nameNotFound "zone.size.unit") ∧
      zones.definition "zone.name.first" = .error (.dictionary "name.dictionary not found.") := by
  have hc : zones.check = .ok ⟨⟩ := toOption_eq_some_iff.1 (by decide +kernel)
  have hsegs : ∀ {name segs}, (Name.segments name).toOption = some segs →
      Name.segments name = .ok segs := toOption_eq_some_iff.1
  have hinner : Nests zones.policy "zone" _ := rfl
  refine ⟨?_, ?_, ?_⟩
  · apply (definition_eq_iff zones hc "zone.name" ["zone", "name"] (hsegs (by decide +kernel))).1.2
    exact .nested rfl (by decide +kernel) hinner (.here rfl (by decide +kernel))
  · apply ((definition_eq_iff zones hc "zone.size.unit" ["zone", "size", "unit"]
      (hsegs (by decide +kernel))).2 _).2
    exact .nested rfl (by decide +kernel) hinner (.undefined rfl (by decide +kernel))
  · apply ((definition_eq_iff zones hc "zone.name.first" ["zone", "name", "first"]
      (hsegs (by decide +kernel))).2 _).2
    exact .nested rfl (by decide +kernel) hinner
      (.plain rfl (by decide +kernel) nofun (List.cons_ne_nil _ _))

end Dictionary

end PolicyTree
