import PolicyTree.Proofs.Resolver.Success
import PolicyTree.Proofs.Schema.Malformed

namespace PolicyTree

def Policy.Loaded (p : Policy) : Prop :=
  ∀ path text, ¬p.RefersAt path text

namespace Policy

variable {p x : Policy} {path segs : List String} {values : List Value}

theorem Loaded.subAt? (h : p.Loaded) (hx : p.subAt? path = some x) : x.Loaded :=
  fun rest text href => h (path ++ rest) text (refersAt_of_subAt? hx href)

theorem Loaded.valuesAt? (h : p.Loaded) (hv : p.valuesAt? segs = some values) :
    (∀ text, Value.file text ∉ values) ∧ ∀ sub, Value.policy sub ∈ values → sub.Loaded := by
  rcases List.eq_nil_or_concat segs with rfl | ⟨path, leaf, rfl⟩
  · cases hv
  · rw [List.concat_eq_append, valuesAt?_concat] at hv
    obtain ⟨x, hx, hvalues⟩ := Option.bind_eq_some_iff.1 hv
    have hloaded := h.subAt? hx
    constructor
    · intro text ht
      exact hloaded _ _ (refersAt_file hvalues ht)
    · intro sub hs rest text href
      exact hloaded _ _ (refersAt_policy hvalues hs href)

theorem Loaded.getArray (h : p.Loaded) (name : String) :
    (∀ text, Value.file text ∉ (p.getArray name).toOption.getD []) ∧
      ∀ sub, Value.policy sub ∈ (p.getArray name).toOption.getD [] → sub.Loaded := by
  cases harray : p.getArray name with
  | error e => exact ⟨fun _ => List.not_mem_nil, fun _ hs => absurd hs List.not_mem_nil⟩
  | ok values =>
    obtain ⟨segs, -, hv⟩ := getArray_eq_ok_iff.1 harray
    exact h.valuesAt? hv

end Policy

namespace Definition

variable {d : Definition} {v : Value} {values : List Value}

theorem not_meets_faultsOfCount (n : Nat) : (d.faultsOfCount n).meets .notLoaded = false := by
  rw [faultsOfCount]
  split <;> split <;> decide

theorem not_meets_faultsOf (h : ∀ text, Value.file text ∉ values) :
    (d.faultsOf values).meets .notLoaded = false := by
  cases values with
  | nil =>
    rw [faultsOf]
    split <;> decide
  | cons first rest =>
    have hkind : first.kind ≠ .file := by
      intro hk
      cases first with
      | file text => exact h text (List.mem_cons_self ..)
      | undefined | bool | int | double | string | policy => cases hk
    rw [Bool.eq_false_iff, ne_eq, faultsOf, Faults.meets_or, not_meets_faultsOfCount,
      faultsOfContent, if_neg fun hk => hkind hk.1]
    split
    · decide
    · rw [Faults.meets_union]
      rintro (hcount | ⟨f, hf, hmeets⟩)
      · cases hcount
      · obtain ⟨v, -, rfl⟩ := List.mem_map.1 hf
        rw [not_meets_faultsOfValue (by decide) (by decide)] at hmeets
        cases hmeets

end Definition

namespace Dictionary

variable {dict p : Policy} {o : ValidateOptions} {above leaf : String} {r r' : Report}

theorem lacks_unknownNames (defs p : Policy) (above : String) :
    (unknownNames defs p above).Lacks .notLoaded := by
  rw [unknownNames]
  refine List.foldlRecOn (motive := fun r : Report => r.Lacks .notLoaded) _ _ .empty ?_
  intro r hr leaf _
  exact hr.record (by decide)

/-- One name: the array under it is not reported as one that was not loaded, nor are those further
down if no report of the nested dictionary says so. -/
theorem lacks_recordName (hp : p.Loaded)
    (hsub : ∀ df sub, definitionIn dict leaf = .ok df → df.dictionary = some sub →
      ∀ child above found, child.Loaded → faultsIn o sub.policy child above = .ok found →
        found.Lacks .notLoaded)
    (hr : r.Lacks .notLoaded) (h : recordName o dict p above r leaf = .ok r') :
    r'.Lacks .notLoaded := by
  obtain ⟨hfile, hpolicy⟩ := hp.getArray leaf
  unfold recordName at h
  split at h
  · cases h
  · rename_i df hd
    have hfaults := Definition.not_meets_faultsOf (d := df) hfile
    have hrecord : (r.record (Name.join above leaf) _).Lacks .notLoaded := hr.record hfaults
    split at h
    · cases h
      exact hrecord
    · rename_i sub hs
      refine of_foldlM_eq_ok (P := fun r => r.Lacks .notLoaded) ?_ hrecord h
      intro child hchild r r' hr h
      obtain ⟨found, hfound, hmerge⟩ := bind_eq_ok_iff.1 h
      cases hmerge
      obtain ⟨v, hv, hchild⟩ := List.mem_filterMap.1 hchild
      rw [Value.policy?_eq_some_iff.1 hchild] at hv
      exact hr.merge (hsub df sub hd hs child _ found (hpolicy child hv) hfound)

/-- A loaded policy is not reported to have references, by whatever dictionary: induction over the
nested dictionaries. -/
theorem lacks_faultsIn (dict : Policy) : ∀ (p : Policy) (above : String) (r : Report), p.Loaded →
    faultsIn o dict p above = .ok r → r.Lacks .notLoaded := by
  intro p above r hp h
  obtain ⟨defs, hdefs⟩ := exists_definitionsOf h
  rw [faultsIn_eq hdefs] at h
  obtain ⟨known, hknown, hr⟩ := bind_eq_ok_iff.1 h
  have hlacks : known.Lacks .notLoaded := by
    refine of_foldlM_eq_ok (P := fun r => r.Lacks .notLoaded) ?_ .empty hknown
    intro leaf _ r r' hr h
    refine lacks_recordName hp ?_ hr h
    intro df sub hd hs child above found
    exact lacks_faultsIn sub.policy child above found
  obtain rfl := Except.ok.inj hr
  split
  · exact hlacks.merge (lacks_unknownNames defs p above)
  · exact hlacks
termination_by sizeOf dict
decreasing_by exact sizeOf_lt_of_definitionIn hd hs

theorem exists_validateWith (d : Dictionary) (o : ValidateOptions) (hp : p.Loaded)
    (hc : d.check = .ok ⟨⟩) : ∃ r, d.validateWith o p = .ok r ∧ r.Lacks .notLoaded := by
  obtain ⟨r, hr⟩ := exists_faultsIn_eq_ok (o := o) hc p ""
  refine ⟨r, ?_, lacks_faultsIn d.policy p "" r hp hr⟩
  rw [validateWith, hc]
  exact hr

/-- After a load without failures, no dictionary has a validation report an array that was not
loaded, under any name. -/
theorem validate_loadPolicyFiles (r : Resolver) (base : Path) (p : Policy) (d : Dictionary)
    (h : p.WellFormed) (hc : d.check = .ok ⟨⟩)
    (hcomplete : (r.loadPolicyFiles p base).2.failures = []) :
    ∃ report, d.validate (r.loadPolicyFiles p base).1 = .ok report ∧
      ∀ n, (report.faultsOf n).meets .notLoaded = false := by
  have hloaded : (r.loadPolicyFiles p base).1.Loaded := h.not_refersAt_resolve hcomplete
  obtain ⟨report, hreport, hlacks⟩ := exists_validateWith d .standard hloaded hc
  exact ⟨report, hreport, hlacks.not_meets⟩

def sides : Dictionary where
  policy :=
    ⟨[⟨definitionsKey, [.policy ⟨[⟨"sides", [.policy
      ⟨[⟨"type", [.string "Policy"]⟩, ⟨dictionaryKey, [.policy
        ⟨[⟨definitionsKey, [.policy ⟨[⟨"size", [.policy .empty]⟩]⟩]⟩]⟩]⟩]⟩]⟩]⟩]⟩]⟩
  hasDefinitions := by decide +kernel

/-- There are two sides, before loading and after it, and only before it they are not loaded. -/
theorem validate_loadPolicyFiles_sharing :
    (∃ report, sides.validate sharingTree = .ok report ∧
      report.faultsOf "sides" = .tooManyValues ||| .notLoaded) ∧
    ∃ report, sides.validate (sharingFiles.loadPolicyFiles sharingTree ⟨""⟩).1 = .ok report ∧
      report.faultsOf "sides" = .tooManyValues ∧
      ∀ n, (report.faultsOf n).meets .notLoaded = false := by
  have hc : sides.check = .ok ⟨⟩ := toOption_eq_some_iff.1 (by decide +kernel)
  obtain ⟨report, hreport, hnone⟩ := validate_loadPolicyFiles sharingFiles ⟨""⟩ sharingTree sides
    (by decide) hc (by decide +kernel)
  have hbefore : (sides.validate sharingTree).toOption.map (·.faultsOf "sides") =
      some (.tooManyValues ||| .notLoaded) := by
    decide +kernel
  have hfaults : (sides.validate (sharingFiles.loadPolicyFiles sharingTree ⟨""⟩).1).toOption.map
      (·.faultsOf "sides") = some .tooManyValues := by
    decide +kernel
  obtain ⟨_, hreport', hfaults⟩ := map_toOption_eq_some_iff.1 hfaults
  obtain rfl := Except.ok.inj (hreport.symm.trans hreport')
  exact ⟨map_toOption_eq_some_iff.1 hbefore, report, hreport, hfaults, hnone⟩

end Dictionary

end PolicyTree
