import PolicyTree.Proofs.Schema.Validation

namespace PolicyTree

namespace Dictionary

/-- A dictionary, and all that are nested in its definitions. -/
inductive Reaches : Dictionary → Dictionary → Prop
  | self {d : Dictionary} : Reaches d d
  | nested {d sub inner : Dictionary} {names : List String} {leaf : String} {df : Definition}
      (hnames : d.definitionNames = .ok names) (hleaf : leaf ∈ names)
      (hd : d.definition leaf = .ok df) (hs : df.dictionary = some sub) (h : Reaches sub inner) :
      Reaches d inner

variable {d inner : Dictionary} {dict p : Policy} {o : ValidateOptions} {above leaf : String}
  {r : Report} {e : Error}

theorem Reaches.check (h : d.Reaches inner) (hc : d.check = .ok ⟨⟩) : inner.check = .ok ⟨⟩ := by
  induction h with
  | self => exact hc
  | nested hnames hleaf hd hs h ih =>
    obtain ⟨defs, hdefs, hall⟩ := checkIn_eq_ok_iff.1 hc
    rw [definitionNames, namesIn, hdefs, ok_bind] at hnames
    obtain rfl := Except.ok.inj hnames
    obtain ⟨df', hd', hsub⟩ := hall _ hleaf
    obtain rfl := Except.ok.inj (hd.symm.trans hd')
    exact ih (hsub _ hs)

/-- One name: its definition is found, and the nested dictionary judges whatever it is given. -/
theorem exists_recordName_eq_ok {df : Definition} (hd : definitionIn dict leaf = .ok df)
    (hsub : ∀ sub, df.dictionary = some sub → ∀ p above, ∃ r,
      faultsIn o sub.policy p above = .ok r) :
    ∃ r', recordName o dict p above r leaf = .ok r' := by
  unfold recordName
  simp only [hd]
  split
  · exact ⟨_, rfl⟩
  · rename_i sub hs
    apply exists_foldlM_eq_ok
    intro child _ r
    obtain ⟨found, hfound⟩ := hsub sub hs child (Name.join above leaf)
    exact ⟨r.merge found, bind_eq_ok_iff.2 ⟨found, hfound, rfl⟩⟩

theorem exists_faultsIn_eq_ok {dict : Policy} (hc : checkIn dict = .ok ⟨⟩) (p : Policy)
    (above : String) : ∃ r, faultsIn o dict p above = .ok r := by
  obtain ⟨defs, hdefs, hall⟩ := checkIn_eq_ok_iff.1 hc
  have hstep : ∀ leaf ∈ defs.names true .all, ∀ r, ∃ r',
      recordName o dict p above r leaf = .ok r' := by
    intro leaf hleaf r
    obtain ⟨df, hd, hsub⟩ := hall leaf hleaf
    exact exists_recordName_eq_ok hd fun sub hs p above =>
      exists_faultsIn_eq_ok (hsub sub hs) p above
  obtain ⟨known, hknown⟩ := exists_foldlM_eq_ok hstep ∅
  rw [faultsIn_eq hdefs, hknown]
  exact ⟨_, rfl⟩
termination_by sizeOf dict
decreasing_by exact sizeOf_lt_of_definitionIn hd hs

theorem validateWith_eq_error_iff : d.validateWith o p = .error e ↔ d.check = .error e := by
  unfold validateWith
  cases hc : d.check with
  | error e' => rw [error_bind, Except.error.injEq, Except.error.injEq]
  | ok =>
    obtain ⟨r, hr⟩ := exists_faultsIn_eq_ok (o := o) hc p ""
    rw [ok_bind, hr]
    exact iff_of_false nofun nofun

theorem run_addFaults_of_error (h : d.validate p = .error e) :
    (d.addFaults p).run.run r = (.error e, r) := by
  rw [addFaults, h]
  rfl

theorem run_addFaults_of_ok {found : Report} (h : d.validate p = .ok found) :
    (d.addFaults p).run.run r = (.ok (), r.merge found) := by
  rw [addFaults, h]
  rfl

/-- A validation fails exactly if the check of the dictionary does, with the same error, whatever
the policy and the options. Where the check succeeds, no validation fails, by no nested dictionary
either. The report of the caller stays as it is if the validation fails, and else it takes in what
was found. -/
theorem validation_fails_iff (d : Dictionary) :
    (∀ o p e, d.validateWith o p = .error e ↔ d.check = .error e) ∧
      (d.check = .ok ⟨⟩ → ∀ inner, d.Reaches inner → inner.check = .ok ⟨⟩ ∧
        ∀ o p above, ∃ r, faultsIn o inner.policy p above = .ok r) ∧
      (∀ p r e, ((d.addFaults p).run.run r).1 = .error e ↔ d.check = .error e) ∧
      (∀ p r e, ((d.addFaults p).run.run r).1 = .error e → ((d.addFaults p).run.run r).2 = r) ∧
      ∀ p r, ((d.addFaults p).run.run r).1 = .ok () →
        ∃ found, d.validate p = .ok found ∧ ((d.addFaults p).run.run r).2 = r.merge found := by
  have hfails : ∀ o p e, d.validateWith o p = .error e ↔ d.check = .error e :=
    fun _ _ _ => validateWith_eq_error_iff
  refine ⟨hfails, ?_, ?_, ?_, ?_⟩
  · intro hc inner hreach
    have hinner := hreach.check hc
    exact ⟨hinner, fun o p above => exists_faultsIn_eq_ok hinner p above⟩
  · intro p r e
    rw [← hfails .standard p e]
    change _ ↔ d.validate p = .error e
    cases hv : d.validate p with
    | error e' => simp only [run_addFaults_of_error hv, Except.error.injEq]
    | ok found =>
      rw [run_addFaults_of_ok hv]
      exact iff_of_false nofun nofun
  · intro p r e he
    cases hv : d.validate p with
    | error e' => rw [run_addFaults_of_error hv]
    | ok found =>
      rw [run_addFaults_of_ok hv] at he
      cases he
  · intro p r hok
    cases hv : d.validate p with
    | error e =>
      rw [run_addFaults_of_error hv] at hok
      cases hok
    | ok found => exact ⟨found, rfl, by rw [run_addFaults_of_ok hv]⟩

def misspelledZones : Dictionary where
  policy :=
    ⟨[⟨definitionsKey, [.policy ⟨[⟨"zone", [.policy
      ⟨[⟨"type", [.string "Policy"]⟩, ⟨dictionaryKey, [.policy
        ⟨[⟨definitionsKey, [.policy ⟨[⟨"name", [.policy
          ⟨[⟨"type", [.string "zipcode"]⟩]⟩]⟩]⟩]⟩]⟩]⟩]⟩]⟩]⟩]⟩]⟩
  hasDefinitions := by decide +kernel

/-- The fault in the dictionary is found although the policy has no zones. -/
theorem validation_fails_iff_misspelled :
    ∃ e, misspelledZones.check = .error e ∧ misspelledZones.validate .empty = .error e ∧
      ∀ r, ((misspelledZones.addFaults .empty).run.run r).2 = r := by
  obtain ⟨hfails, -, hadd, hsame, -⟩ := validation_fails_iff misspelledZones
  cases hc : misspelledZones.check with
  | error e =>
    refine ⟨e, rfl, (hfails .standard .empty e).2 hc, fun r => ?_⟩
    exact hsame .empty r e ((hadd .empty r e).2 hc)
  | ok =>
    have hnone : misspelledZones.check.toOption = none := by decide +kernel
    rw [hc] at hnone
    cases hnone

end Dictionary

end PolicyTree
