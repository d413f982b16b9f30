import PolicyTree.Proofs.Policy.Filling
import PolicyTree.Proofs.Schema.Dictionary
import PolicyTree.Schema.Defaults

namespace PolicyTree

variable {p q source fields dict defs : Policy} {d : Definition} {k : Kind} {v w : Value}
  {values given : List Value} {name key what leaf : String}

namespace Policy

theorem set_of_isLeaf (hleaf : Name.isLeaf leaf = true) (hv : v.isUndefined = false) :
    p.set leaf v = .ok (p.put leaf [v]) :=
  set_ofSegments (List.forall_mem_nil _) hleaf p.subAt?_nil hv

theorem setArray_of_isLeaf (hleaf : Name.isLeaf leaf = true) (hvalues : Value.IsArray values) :
    p.setArray leaf values = .ok (p.put leaf values) := by
  have hedit : p.edit true (Name.ofSegments [leaf]) (fun holder leaf =>
      .ok ((), holder.put leaf values)) = .ok ((), p.put leaf values) :=
    edit_ofSegments (List.forall_mem_nil _) hleaf p.subAt?_nil
  rw [setArray, checkArray_eq_ok_iff.2 hvalues, ok_bind]
  exact congrArg (Prod.snd <$> ·) hedit

end Policy

namespace Definition

theorem kind_of_coerce (h : coerce name k what v = .ok w) :
    w.kind = if k = .undefined then v.kind else k := by
  unfold coerce at h
  split at h
  · obtain rfl := Except.ok.inj h
    rfl
  · obtain rfl := Except.ok.inj h
    rw [if_pos rfl]
  · rename_i hk _
    split at h
    · rename_i hkind
      obtain rfl := Except.ok.inj h
      rw [if_neg hk, eq_of_beq hkind]
    · cases h

theorem isArray_of_coerce (harray : Value.IsArray given)
    (h : given.mapM (coerce name k what) = .ok values) : Value.IsArray values := by
  have hne : values ≠ [] := by
    intro hnil
    subst hnil
    exact harray.ne_nil (List.forall₂_nil_right_iff.1 (mapM_eq_ok_iff.1 h))
  have hkind : ∀ w ∈ values, ∃ v ∈ given, w.kind = if k = .undefined then v.kind else k := by
    intro w hw
    obtain ⟨v, hv, hcoerce⟩ := exists_mem_of_mapM h hw
    exact ⟨v, hv, kind_of_coerce hcoerce⟩
  by_cases hk : k = .undefined
  · apply harray.of_mem hne
    intro w hw
    obtain ⟨v, hv, hwv⟩ := hkind w hw
    exact ⟨v, hv, hwv.trans (if_pos hk)⟩
  · apply Value.IsArray.of_kind hne _ hk
    intro w hw
    obtain ⟨v, -, hwv⟩ := hkind w hw
    exact hwv.trans (if_neg hk)

theorem wellFormed_of_coerce (hv : v.WellFormed) (h : coerce name k what v = .ok w) :
    w.WellFormed := by
  unfold coerce at h
  split at h
  · obtain rfl := Except.ok.inj h
    exact Value.wellFormed_of_kind (by simp [Value.kind])
  · obtain rfl := Except.ok.inj h
    exact hv
  · split at h
    · obtain rfl := Except.ok.inj h
      exact hv
    · cases h

theorem storable_givenValues (hsource : source.WellFormed)
    (h : givenValues name k source key what = .ok values) (hne : values ≠ []) :
    Value.Storable values := by
  unfold givenValues at h
  split at h
  · exact absurd (Except.ok.inj h).symm hne
  · rename_i given hgiven
    obtain ⟨segs, -, hvalues⟩ := Policy.getArray_eq_ok_iff.1 hgiven
    have hstorable := hsource.valuesAt? hvalues
    refine ⟨isArray_of_coerce hstorable.toIsArray h, ?_⟩
    intro w hw
    obtain ⟨v, hv, hcoerce⟩ := exists_mem_of_mapM h hw
    exact wellFormed_of_coerce (hstorable.nested v hv) hcoerce

theorem defaults_of_ofPolicy (h : ofPolicy name fields = .ok d) :
    givenValues name d.kind fields "default" "default" = .ok d.defaults := by
  simp only [ofPolicy, bind, Except.bind, pure, Except.pure] at h
  repeat' (split at h; · cases h)
  obtain rfl := Except.ok.inj h
  assumption

/-- The array that a definition has as the default of its name: the values it declares, else the
defaults `nested` of its nested dictionary, if there are any. -/
def defaultArray? (d : Definition) (nested : Policy) : Option (List Value) :=
  if d.defaults.isEmpty then
    if nested.isEmpty then none else some [.policy nested]
  else some d.defaults

theorem storable_defaultArray (hf : fields.WellFormed) (hd : ofPolicy name fields = .ok d)
    (hq : q.WellFormed) (h : d.defaultArray? q = some values) : Value.Storable values := by
  unfold defaultArray? at h
  split at h
  · split at h
    · cases h
    · obtain rfl := Option.some.inj h
      exact .singleton rfl (Value.wellFormed_policy.2 hq)
  · rename_i hne
    obtain rfl := Option.some.inj h
    exact storable_givenValues hf (defaults_of_ofPolicy hd) (by simpa using hne)

theorem storeDefault_eq (hf : fields.WellFormed) (hd : ofPolicy name fields = .ok d)
    (hleaf : Name.isLeaf leaf = true) (p q : Policy) :
    d.storeDefault (.ok q) p leaf = .ok (((d.defaultArray? q).map (p.put leaf)).getD p) := by
  rw [storeDefault, defaultArray?]
  split
  · rw [ok_bind]
    split
    · rfl
    · rw [Policy.set_of_isLeaf hleaf rfl]
      rfl
  · rename_i hne
    have hstorable := storable_givenValues hf (defaults_of_ofPolicy hd) (by simpa using hne)
    rw [Policy.setArray_of_isLeaf hleaf hstorable.toIsArray]
    rfl

def nestedDefaults (d : Definition) : Except Error Policy :=
  match d.dictionary with
  | none => .ok ∅
  | some sub => sub.defaults

theorem setDefault_eq (d : Definition) (p : Policy) (path : String) :
    d.setDefault p path = d.storeDefault d.nestedDefaults p path := rfl

end Definition

namespace Policy

theorem foldlM_put {names : List String} {step : Policy → String → Except Error Policy}
    {array? : String → Option (List Value)} (hnew : ∀ leaf ∈ names, p.entry? leaf = none)
    (hnodup : names.Nodup) (hstep : ∀ leaf ∈ names, ∀ out : Policy,
      step out leaf = .ok (((array? leaf).map (out.put leaf)).getD out)) :
    names.foldlM step p =
      .ok ⟨p.entries ++ names.filterMap fun leaf => (array? leaf).map (Entry.mk leaf)⟩ := by
  induction names generalizing p with
  | nil =>
    cases p
    rw [List.filterMap_nil, List.append_nil]
    rfl
  | cons leaf names ih =>
    rw [List.forall_mem_cons] at hnew hstep
    rw [List.nodup_cons] at hnodup
    rw [List.foldlM_cons, hstep.1, ok_bind]
    cases harray : array? leaf with
    | none =>
      rw [Option.map_none, Option.getD_none, ih hnew.2 hnodup.2 hstep.2,
        List.filterMap_cons_none (by rw [harray]; rfl)]
    | some values =>
      have hlater : ∀ name ∈ names, Policy.entry? (p.put leaf values) name = none := by
        intro name hname
        have hne : name ≠ leaf := fun heq => hnodup.1 (heq ▸ hname)
        rw [entry?_put, if_neg hne, hnew.2 name hname]
      rw [Option.map_some, Option.getD_some, ih hlater hnodup.2 hstep.2,
        List.filterMap_cons_some (by rw [harray]; rfl), put_of_entry?_eq_none hnew.1,
        List.append_assoc, List.singleton_append]

end Policy

namespace Dictionary

theorem wellFormed_of_fieldsOf (hw : dict.WellFormed) (h : fieldsOf name dict leaf = .ok fields) :
    fields.WellFormed := by
  obtain ⟨defs, hdefs, -, hget⟩ := fieldsOf_eq_ok h
  exact (wellFormed_definitionsOf hw hdefs).getAs_policy hget

theorem defaultsIn_eq (hdefs : definitionsOf dict = .ok defs) :
    defaultsIn dict = (defs.names true .all).foldlM
      (fun out leaf => definitionIn dict leaf >>= fun d => d.setDefault out leaf) ∅ := by
  rw [defaultsIn, namesIn, hdefs, ok_bind]
  change List.foldlM _ _ (defs.names true .all) = _
  congr 1
  funext out leaf
  split
  · rename_i e he
    rw [he, error_bind]
  · rename_i d hd
    have hset : d.setDefault out leaf =
        definitionIn dict leaf >>= fun d => d.setDefault out leaf := by
      rw [hd, ok_bind]
    rw [← hset, Definition.setDefault]
    dsimp only
    congr 1
    split <;> rename_i hs <;> simp only [hs]
    rfl

def defaultOf? (dict : Policy) (leaf : String) : Option (List Value) :=
  (definitionIn dict leaf).toOption.bind fun d =>
    d.defaultArray? (d.nestedDefaults.toOption.getD ∅)

theorem defaultOf?_eq (hd : definitionIn dict leaf = .ok d) (hq : d.nestedDefaults = .ok q) :
    defaultOf? dict leaf = d.defaultArray? q := by
  rw [defaultOf?, hd]
  change d.defaultArray? (d.nestedDefaults.toOption.getD ∅) = _
  rw [hq]
  rfl

theorem setDefault_eq (hw : dict.WellFormed) (hleaf : Name.isLeaf leaf = true)
    (hd : definitionIn dict leaf = .ok d) (hq : d.nestedDefaults = .ok q) (out : Policy) :
    (definitionIn dict leaf >>= fun d => d.setDefault out leaf) =
      .ok (((defaultOf? dict leaf).map (out.put leaf)).getD out) := by
  obtain ⟨fields, hfields, hof⟩ := (definitionIn_eq_ok_iff hleaf).1 hd
  rw [defaultOf?_eq hd hq, hd, ok_bind, Definition.setDefault_eq, hq]
  exact Definition.storeDefault_eq (wellFormed_of_fieldsOf hw hfields) hof hleaf out q

theorem storable_defaultOf (hw : dict.WellFormed) (hleaf : Name.isLeaf leaf = true)
    (hd : definitionIn dict leaf = .ok d) (hq : d.nestedDefaults = .ok q) (hqw : q.WellFormed)
    (h : defaultOf? dict leaf = some values) : Value.Storable values := by
  obtain ⟨fields, hfields, hof⟩ := (definitionIn_eq_ok_iff hleaf).1 hd
  rw [defaultOf?_eq hd hq] at h
  exact Definition.storable_defaultArray (wellFormed_of_fieldsOf hw hfields) hof hqw h

def NestedDefaults (dict : Policy) : Prop :=
  ∀ leaf d, Name.isLeaf leaf = true → definitionIn dict leaf = .ok d →
    ∃ q, d.nestedDefaults = .ok q ∧ q.WellFormed

/-- The defaults of a dictionary are those of its names, in the order of the names. -/
theorem NestedDefaults.exists_defaultsIn (h : NestedDefaults dict) (hs : Sound dict)
    (hw : dict.WellFormed) :
    ∃ q defs, defaultsIn dict = .ok q ∧ q.WellFormed ∧ definitionsOf dict = .ok defs ∧
      q.entries = (defs.names true .all).filterMap fun leaf =>
        (defaultOf? dict leaf).map (Entry.mk leaf) := by
  obtain ⟨hdefs, hleaf, hdefined, -⟩ := hs
  rename_i defs
  have hnested : ∀ leaf ∈ defs.names true .all, ∃ d q, definitionIn dict leaf = .ok d ∧
      d.nestedDefaults = .ok q ∧ q.WellFormed := by
    intro leaf hmem
    obtain ⟨d, hd⟩ := (hdefined leaf (hleaf leaf hmem)).1 hmem
    obtain ⟨q, hq⟩ := h leaf d (hleaf leaf hmem) hd
    exact ⟨d, q, hd, hq⟩
  have hstep : ∀ leaf ∈ defs.names true .all, ∀ out : Policy,
      (definitionIn dict leaf >>= fun d => d.setDefault out leaf) =
        .ok (((defaultOf? dict leaf).map (out.put leaf)).getD out) := by
    intro leaf hmem out
    obtain ⟨d, q, hd, hq, -⟩ := hnested leaf hmem
    exact setDefault_eq hw (hleaf leaf hmem) hd hq out
  have hnodup : (defs.names true .all).Nodup := by
    rw [Policy.names_top]
    exact (wellFormed_definitionsOf hw hdefs).unique
  have hfold := Policy.foldlM_put (p := ∅) (fun _ _ => rfl) hnodup hstep
  refine ⟨_, defs, (defaultsIn_eq hdefs).trans hfold, ?_, hdefs, rfl⟩
  refine of_foldlM_eq_ok (P := Policy.WellFormed) ?_ .empty hfold
  intro leaf hmem out out' hout hput
  rw [hstep leaf hmem] at hput
  obtain rfl := Except.ok.inj hput
  obtain ⟨d, q, hd, hq, hqw⟩ := hnested leaf hmem
  cases harray : defaultOf? dict leaf with
  | none => exact hout
  | some values =>
    exact hout.put (hleaf leaf hmem) (storable_defaultOf hw (hleaf leaf hmem) hd hq hqw harray)

theorem find?_filterMap_mk (array? : String → Option (List Value)) (names : List String)
    (leaf : String) :
    (names.filterMap fun name => (array? name).map (Entry.mk name)).find?
        (fun e => e.name == leaf) =
      if leaf ∈ names then (array? leaf).map (Entry.mk leaf) else none := by
  induction names with
  | nil => rfl
  | cons name names ih =>
    by_cases hn : leaf = name
    · subst hn
      rw [if_pos (List.mem_cons_self ..)]
      cases harray : array? leaf with
      | none =>
        rw [List.filterMap_cons_none (by rw [harray]; rfl), ih, harray]
        exact ite_self _
      | some values =>
        rw [List.filterMap_cons_some (by rw [harray]; rfl), List.find?_cons_of_pos (by simp)]
        rfl
    · have hmem : leaf ∈ name :: names ↔ leaf ∈ names := by
        rw [List.mem_cons]
        exact or_iff_right hn
      simp only [hmem]
      rw [← ih]
      cases harray : array? name with
      | none => rw [List.filterMap_cons_none (by rw [harray]; rfl)]
      | some values =>
        rw [List.filterMap_cons_some (by rw [harray]; rfl),
          List.find?_cons_of_neg (by simpa using Ne.symm hn)]

theorem NestedDefaults.entry?_defaultsIn (h : NestedDefaults dict) (hs : Sound dict)
    (hw : dict.WellFormed) (hq : defaultsIn dict = .ok q) (hleaf : Name.isLeaf leaf = true) :
    q.entry? leaf = (defaultOf? dict leaf).map (Entry.mk leaf) := by
  obtain ⟨_, defs, hq', -, hdefs, hentries⟩ := h.exists_defaultsIn hs hw
  obtain rfl := Except.ok.inj (hq'.symm.trans hq)
  rw [Policy.entry?, hentries, find?_filterMap_mk]
  split
  · rfl
  · rename_i hmem
    obtain ⟨hdefs', -, hdefined, -⟩ := hs
    obtain rfl := Except.ok.inj (hdefs.symm.trans hdefs')
    rw [hdefined leaf hleaf, not_exists] at hmem
    rw [defaultOf?]
    cases hd : definitionIn dict leaf with
    | error e => rfl
    | ok d => exact absurd hd (hmem d)

/-- Induction over the nested dictionaries. -/
theorem Sound.nestedDefaults (h : Sound dict) (hw : dict.WellFormed) : NestedDefaults dict := by
  induction h with
  | intro hdefs hnames hdefined hnested ih =>
    intro leaf d hleaf hd
    rw [Definition.nestedDefaults]
    cases hs : d.dictionary with
    | none => exact ⟨∅, rfl, .empty⟩
    | some sub =>
      have hsub := wellFormed_of_definitionIn hw hleaf hd hs
      obtain ⟨q, -, hq, hqw, -⟩ :=
        (ih leaf d sub hleaf hd hs hsub).exists_defaultsIn (hnested leaf d sub hleaf hd hs) hsub
      exact ⟨q, hq, hqw⟩

theorem exists_defaultsIn_eq_ok (hw : dict.WellFormed) (hc : checkIn dict = .ok ⟨⟩) :
    ∃ q, defaultsIn dict = .ok q := by
  have hs := sound_of_checkIn hw hc
  obtain ⟨q, -, hq, -⟩ := (hs.nestedDefaults hw).exists_defaultsIn hs hw
  exact ⟨q, hq⟩

end Dictionary

end PolicyTree
