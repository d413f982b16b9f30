import PolicyTree.Proofs.Schema.Defaults
import PolicyTree.Proofs.Schema.Definitions

namespace PolicyTree

variable {p d dict sub : Policy} {e : Entry} {leaf seg : String} {segs rest : List String}

namespace Policy

theorem WellFormed.subPolicies_fillFrom (hp : p.WellFormed) (hd : d.WellFormed)
    (he : p.entry? seg = some e) (hsub : d.child? seg = some sub) :
    (p.fillFrom d).1.subPolicies seg =
      (p.subPolicies seg).map fun child => (child.fillFrom sub).1 := by
  rw [(hp.fillFrom hd).subPolicies_eq, hp.subPolicies_eq, hd.entry?_fillFrom, he]
  obtain ⟨f, hf, hlast⟩ := last?_eq_some_iff.1 (child?_eq_some_iff.1 hsub)
  rw [hf, Entry.filled, Value.fillFromLast_eq, hlast]
  exact Value.policies_fillEach e.values sub

theorem WellFormed.subPolicies_fillFrom_of_none (hd : d.WellFormed)
    (he : p.entry? seg = none) : (p.fillFrom d).1.subPolicies seg = d.subPolicies seg := by
  rw [subPolicies, hd.entry?_fillFrom, he, Entry.filled, subPolicies]

/-- The last segment of a name is in every policy that those before it lead to, through all elements
of the arrays on the way. -/
def HasThroughout (leaf : String) : Policy → List String → Prop
  | p, [] => (p.entry? leaf).isSome = true
  | p, seg :: rest => ∀ child ∈ p.subPolicies seg, HasThroughout leaf child rest

/-- The last segment of a name is at the end of the walk through those before it, and on the way
there is one sub-policy in each array. -/
inductive HasSingly (leaf : String) : Policy → List String → Prop
  | here {p : Policy} (h : (p.entry? leaf).isSome = true) : HasSingly leaf p []
  | through {p sub : Policy} {e : Entry} {seg : String} {rest : List String}
      (he : p.entry? seg = some e) (hsub : e.values = [.policy sub])
      (hrest : HasSingly leaf sub rest) : HasSingly leaf p (seg :: rest)

theorem isEmpty_of_entry? (he : p.entry? leaf = some e) : p.isEmpty = false :=
  List.isEmpty_eq_false_iff.2 (List.ne_nil_of_mem (mem_of_entry?_eq_some he))

theorem HasSingly.isEmpty (h : HasSingly leaf p segs) : p.isEmpty = false := by
  cases h with
  | here h =>
    obtain ⟨e, he⟩ := Option.isSome_iff_exists.1 h
    exact isEmpty_of_entry? he
  | through he => exact isEmpty_of_entry? he

theorem HasSingly.hasThroughout (h : HasSingly leaf p segs) (hp : p.WellFormed) :
    HasThroughout leaf p segs := by
  induction h with
  | here h => exact h
  | through he hsub hrest ih =>
    intro child hchild
    have hw := hp.of_mem_subPolicies hchild
    rw [hp.subPolicies_eq, he, Option.map_some, Option.getD_some, hsub] at hchild
    obtain rfl := List.mem_singleton.1 hchild
    exact ih hw

/-- Filling brings a name from where it is at the end of one walk to every place that the walk may
lead to, whatever was there. Induction on the walk. -/
theorem HasSingly.hasThroughout_fillFrom (h : HasSingly leaf d segs) (hd : d.WellFormed)
    (hp : p.WellFormed) : HasThroughout leaf (p.fillFrom d).1 segs := by
  induction h generalizing p with
  | here h =>
    obtain ⟨e, he⟩ := Option.isSome_iff_exists.1 h
    rw [HasThroughout, hd.entry?_fillFrom, he]
    cases p.entry? leaf <;> rfl
  | @through d sub e seg rest he hsub hrest ih =>
    have hchild : d.child? seg = some sub :=
      child?_eq_some_iff.2 (last?_eq_some_iff.2 ⟨e, he, by rw [hsub]; rfl⟩)
    intro child hmem
    -- what was not there is the whole default now, and all else was filled
    cases hentry : p.entry? seg with
    | none =>
      rw [hd.subPolicies_fillFrom_of_none hentry] at hmem
      exact (HasSingly.through he hsub hrest).hasThroughout hd child hmem
    | some old =>
      rw [hp.subPolicies_fillFrom hd hentry hchild] at hmem
      obtain ⟨old, hold, rfl⟩ := List.mem_map.1 hmem
      exact ih (hd.child? hchild) (hp.of_mem_subPolicies hold)

end Policy

namespace Dictionary

variable {q : Policy} {d : Dictionary} {df : Definition} {name : String} {h : Policy × Policy}

theorem isSome_of_mem_holders (hp : Policy.HasThroughout leaf p segs)
    (hh : h ∈ holders dict p segs) : (Policy.entry? h.2 leaf).isSome = true := by
  induction segs generalizing dict p with
  | nil =>
    obtain rfl := List.mem_singleton.1 hh
    exact hp
  | cons seg rest ih =>
    obtain ⟨df, sub, -, -, -, child, hchild, hh⟩ := mem_holders_cons.1 hh
    exact ih (hp child hchild) hh

theorem not_meets_faultsAlong (hp : Policy.HasThroughout leaf p segs) :
    (faultsAlong dict p segs leaf).meets .missingRequired = false := by
  rw [Bool.eq_false_iff, ne_eq, meets_faultsAlong]
  rintro ⟨h, hh, hmeets⟩
  obtain ⟨df, -, hmeets⟩ := meets_faultsAt.1 hmeets
  obtain ⟨e, he⟩ := Option.isSome_iff_exists.1 (isSome_of_mem_holders hp hh)
  rw [he, Definition.not_meets_missingRequired] at hmeets
  cases hmeets

/-- The definition of `leaf` has a default, and those on the way to it have none. -/
inductive Supplied (leaf : String) : Policy → List String → Prop
  | here {dict : Policy} {df : Definition} (hd : definitionIn dict leaf = .ok df)
      (hne : df.defaults ≠ []) : Supplied leaf dict []
  | through {dict : Policy} {sub : Dictionary} {df : Definition} {seg : String} {rest : List String}
      (hd : definitionIn dict seg = .ok df) (hnone : df.defaults = [])
      (hs : df.dictionary = some sub) (hrest : Supplied leaf sub.policy rest) :
      Supplied leaf dict (seg :: rest)

theorem Supplied.hasSingly (h : Supplied leaf dict segs)
    (hleaf : ∀ s ∈ segs ++ [leaf], Name.isLeaf s = true) (hs : Sound dict) (hw : dict.WellFormed)
    (hq : defaultsIn dict = .ok q) : Policy.HasSingly leaf q segs := by
  induction h generalizing q with
  | @here dict df hd hne =>
    have hseg := hleaf leaf (List.mem_append_right _ (List.mem_singleton_self _))
    have hnested := hs.nestedDefaults hw
    obtain ⟨inner, hinner, -⟩ := hnested leaf df hseg hd
    refine .here ?_
    rw [hnested.entry?_defaultsIn hs hw hq hseg, defaultOf?_eq hd hinner, Definition.defaultArray?,
      if_neg (by simpa using hne)]
    rfl
  | @through dict sub df seg rest hd hnone hsub hrest ih =>
    rw [List.cons_append, List.forall_mem_cons] at hleaf
    obtain ⟨hseg, hleaf⟩ := hleaf
    have hnested := hs.nestedDefaults hw
    obtain ⟨inner, hinner, -⟩ := hnested seg df hseg hd
    have hinner' : defaultsIn sub.policy = .ok inner := by
      rw [Definition.nestedDefaults, hsub] at hinner
      exact hinner
    have hsound : Sound sub.policy := by
      cases hs with
      | intro _ _ _ nested => exact nested seg df sub hseg hd hsub
    have hsingly := ih hleaf hsound (wellFormed_of_definitionIn hw hseg hd hsub) hinner'
    have hentry : q.entry? seg = some ⟨seg, [.policy inner]⟩ := by
      rw [hnested.entry?_defaultsIn hs hw hq hseg, defaultOf?_eq hd hinner,
        Definition.defaultArray?, if_pos (by rw [hnone]; rfl), if_neg (by simp [hsingly.isEmpty])]
      rfl
    exact .through hentry rfl hsingly

/-- The definition of the name declares a default, and none of the definitions around it does. -/
structure Supplies (d : Dictionary) (segs : List String) (leaf : String) : Prop where
  own : ∃ df, d.definition (Name.ofSegments (segs ++ [leaf])) = .ok df ∧ df.defaults ≠ []
  around : ∀ front, front <+: segs → front ≠ [] → ∀ df,
    d.definition (Name.ofSegments front) = .ok df → df.defaults = []

theorem supplied_of_definitionAt (hc : checkIn dict = .ok ⟨⟩)
    (hleaf : ∀ s ∈ segs ++ [leaf], Name.isLeaf s = true)
    (hdf : definitionAt name dict (segs ++ [leaf]) = .ok df) (hne : df.defaults ≠ [])
    (haround : ∀ front, front <+: segs → front ≠ [] → ∀ name df,
      definitionAt name dict front = .ok df → df.defaults = []) : Supplied leaf dict segs := by
  induction segs generalizing dict with
  | nil =>
    have hd : definitionIn dict leaf = .ok { df with name := leaf } := by
      rw [definitionIn, Name.segments_of_isLeaf (hleaf leaf (List.mem_singleton_self _)), ok_bind]
      exact definitionAt_renamed hdf leaf
    exact .here hd hne
  | cons seg rest ih =>
    rw [List.cons_append, List.forall_mem_cons] at hleaf
    obtain ⟨hseg, hleaf⟩ := hleaf
    obtain ⟨outer, sub, hd, hs, hsub, hrest⟩ :=
      exists_dictionary_of_definitionAt hc hseg (by simp) hdf
    have hone : definitionAt seg dict [seg] = .ok outer := by
      rwa [definitionIn, Name.segments_of_isLeaf hseg, ok_bind] at hd
    have hnone := haround [seg] (by simp) (by simp) seg outer hone
    refine .through hd hnone hs (ih hsub hleaf hrest ?_)
    intro front hfront hne' name df hdf
    refine haround (seg :: front) ?_ (List.cons_ne_nil _ _) name df ?_
    · rwa [List.prefix_cons_inj]
    · rwa [definitionAt_of_dictionary hseg hd hs hne']

theorem Supplies.supplied (h : d.Supplies segs leaf) (hc : d.check = .ok ⟨⟩)
    (hleaf : ∀ s ∈ segs ++ [leaf], Name.isLeaf s = true) : Supplied leaf d.policy segs := by
  have hdefinition : ∀ names, names ≠ [] → (∀ s ∈ names, Name.isLeaf s = true) →
      d.definition (Name.ofSegments names) =
        definitionAt (Name.ofSegments names) d.policy names := by
    intro names hne hleaf
    rw [definition, definitionIn, Name.segments_ofSegments hne hleaf, ok_bind]
  obtain ⟨df, hdf, hne⟩ := h.own
  rw [hdefinition _ (by simp) hleaf] at hdf
  refine supplied_of_definitionAt hc hleaf hdf hne ?_
  intro front hfront hfne name outer houter
  refine h.around front hfront hfne { outer with name := Name.ofSegments front } ?_
  rw [hdefinition front hfne fun s hs => hleaf s (List.mem_append_left _ (hfront.subset hs))]
  exact definitionAt_renamed houter _

/-- A checked dictionary has its defaults, and after filling from them a validation succeeds and
misses no name for which there is a default, whatever the policy held before. -/
theorem validate_mergeDefaults (d : Dictionary) (hd : d.policy.WellFormed)
    (hc : d.check = .ok ⟨⟩) :
    ∃ q, d.defaults = .ok q ∧ ∀ p : Policy, p.WellFormed →
      ∃ r, d.validate (p.mergeDefaults q).1 = .ok r ∧
        ∀ n segs leaf, Name.segments n = .ok (segs ++ [leaf]) → d.Supplies segs leaf →
          (r.faultsOf n).meets .missingRequired = false := by
  have hs := sound_of_checkIn hd hc
  obtain ⟨q, -, hq, hqw, -⟩ := (hs.nestedDefaults hd).exists_defaultsIn hs hd
  refine ⟨q, hq, fun p hp => ?_⟩
  have hgathers : Gathers d.policy (p.mergeDefaults q).1 [] :=
    hs.gathers (hp.fillFrom hqw) (List.forall_mem_nil _)
  obtain ⟨r, hr, hadds⟩ := hgathers
  refine ⟨r, ?_, fun n segs leaf hn hsupplies => ?_⟩
  · rw [validate, validateWith, hc]
    exact hr
  · have hleaf := (Name.segments_eq_ok_iff.1 hn).2.1
    have hsingly := (hsupplies.supplied hc hleaf).hasSingly hleaf hs hd hq
    rw [reported_eq hadds hn]
    exact not_meets_faultsAlong (hsingly.hasThroughout_fillFrom hqw hp)

def defaultZones : Dictionary where
  policy :=
    ⟨[⟨definitionsKey, [.policy ⟨[⟨"zone", [.policy
      ⟨[⟨"type", [.string "Policy"]⟩, ⟨"maxOccurs", [.int 3]⟩, ⟨dictionaryKey, [.policy
        ⟨[⟨definitionsKey, [.policy ⟨[⟨"name", [.policy
          ⟨[⟨"type", [.string "string"]⟩, ⟨"default", [.string "main"]⟩]⟩]⟩]⟩]⟩]⟩]⟩]⟩]⟩]⟩]⟩]⟩
  hasDefinitions := by decide +kernel

/-- The zone without a name gets the default one, and the number that is no name stays. -/
theorem validate_mergeDefaults_zones :
    (∃ r, defaultZones.validate unnamedZones = .ok r ∧
      r.faultsOf "zone.name" = .missingRequired ||| .wrongType) ∧
    ∃ q, defaultZones.defaults = .ok q ∧
      ∃ r, defaultZones.validate (unnamedZones.mergeDefaults q).1 = .ok r ∧
        (r.faultsOf "zone.name").meets .missingRequired = false := by
  have hd : defaultZones.policy.WellFormed := by decide +kernel
  have hc : defaultZones.check = .ok ⟨⟩ := toOption_eq_some_iff.1 (by decide +kernel)
  have hsegs : Name.segments "zone.name" = .ok (["zone"] ++ ["name"]) :=
    toOption_eq_some_iff.1 (by decide +kernel)
  have hbefore : (defaultZones.validate unnamedZones).toOption.map (·.faultsOf "zone.name") =
      some (.missingRequired ||| .wrongType) := by
    decide +kernel
  refine ⟨map_toOption_eq_some_iff.1 hbefore, ?_⟩
  obtain ⟨q, hq, hall⟩ := validate_mergeDefaults defaultZones hd hc
  obtain ⟨r, hr, hnone⟩ := hall unnamedZones (by decide +kernel)
  refine ⟨q, hq, r, hr, hnone _ _ _ hsegs ⟨?_, ?_⟩⟩
  · have hcount : (defaultZones.definition (Name.ofSegments ["zone", "name"])).toOption.map
        (·.defaults.length) = some 1 := by
      decide +kernel
    obtain ⟨df, hdf, hlength⟩ := map_toOption_eq_some_iff.1 hcount
    exact ⟨df, hdf, List.ne_nil_of_length_eq_add_one hlength⟩
  · have hcount : (defaultZones.definition (Name.ofSegments ["zone"])).toOption.map
        (·.defaults.length) = some 0 := by
      decide +kernel
    obtain ⟨outer, houter, hlength⟩ := map_toOption_eq_some_iff.1 hcount
    intro front hfront hne df hdf
    obtain rfl : front = ["zone"] := by
      rcases List.prefix_cons_iff.1 hfront with rfl | ⟨rest, rfl, hrest⟩
      · exact absurd rfl hne
      · rw [List.prefix_nil.1 hrest]
    obtain rfl := Except.ok.inj (houter.symm.trans hdf)
    exact List.eq_nil_of_length_eq_zero hlength

end Dictionary

end PolicyTree
