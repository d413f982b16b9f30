import PolicyTree.Proofs.Schema.Validation

namespace PolicyTree

namespace Dictionary

variable {d : Dictionary} {dict p q : Policy} {h h' : Policy × Policy} {segs : List String}
  {leaf n : String} {g : Faults}

/-- A policy that `n` leads to holds its last segment, and its dictionary does not define it. -/
def Unknown (d : Dictionary) (p : Policy) (n : String) : Prop :=
  ∃ segs leaf, Name.segments n = .ok (segs ++ [leaf]) ∧
    ∃ h ∈ holders d.policy p segs, UnknownAt leaf h

theorem unknown_iff_of_segments (hn : Name.segments n = .ok (segs ++ [leaf])) :
    d.Unknown p n ↔ ∃ h ∈ holders d.policy p segs, UnknownAt leaf h := by
  constructor
  · rintro ⟨segs', leaf', hn', hunknown⟩
    obtain ⟨rfl, hleaf⟩ := List.append_inj' (Except.ok.inj (hn.symm.trans hn')) rfl
    obtain rfl := List.singleton_inj.1 hleaf
    exact hunknown
  · intro hunknown
    exact ⟨segs, leaf, hn, hunknown⟩

theorem unknown_iff_reached : d.Unknown p n ↔ Reached UnknownAt d.policy p [] n := by
  apply exists_congr
  intro segs
  apply exists_congr
  intro leaf
  rw [Name.segments_eq_ok_iff, and_assoc, and_assoc]
  exact and_iff_right (List.concat_ne_nil leaf segs)

theorem fst_eq_of_mem_holders (hh : h ∈ holders dict p segs) (hh' : h' ∈ holders dict q segs) :
    h.1 = h'.1 := by
  induction segs generalizing dict p q with
  | nil =>
    obtain rfl := List.mem_singleton.1 hh
    obtain rfl := List.mem_singleton.1 hh'
    rfl
  | cons seg rest ih =>
    obtain ⟨df, sub, hd, hs, -, child, -, hh⟩ := mem_holders_cons.1 hh
    obtain ⟨df', sub', hd', hs', -, child', -, hh'⟩ := mem_holders_cons.1 hh'
    obtain rfl := Except.ok.inj (hd.symm.trans hd')
    obtain rfl := Option.some.inj (hs.symm.trans hs')
    exact ih hh hh'

theorem Sound.of_mem_holders (hs : Sound dict) (hsegs : ∀ s ∈ segs, Name.isLeaf s = true)
    (hh : h ∈ holders dict p segs) : Sound h.1 := by
  induction segs generalizing dict p with
  | nil =>
    obtain rfl := List.mem_singleton.1 hh
    exact hs
  | cons seg rest ih =>
    obtain ⟨df, sub, hd, hsub, -, child, -, hh⟩ := mem_holders_cons.1 hh
    rw [List.forall_mem_cons] at hsegs
    cases hs with
    | intro _ _ _ nested => exact ih (nested seg df sub hsegs.1 hd hsub) hsegs.2 hh

theorem Sound.not_unknownAt {df : Definition} (hs : Sound h.1) (hleaf : Name.isLeaf leaf = true)
    (hd : definitionIn h.1 leaf = .ok df) : ¬UnknownAt leaf h := by
  rintro ⟨-, names, hnames, hnot⟩
  cases hs with
  | intro hdefs _ defined _ =>
    rw [namesIn, hdefs, ok_bind] at hnames
    obtain rfl := Except.ok.inj hnames
    exact hnot ((defined leaf hleaf).2 ⟨df, hd⟩)

theorem not_finding_of_unknown (hs : Sound d.policy) (hunknown : d.Unknown p n) :
    ¬Finding d.policy p [] n g := by
  obtain ⟨segs, leaf, hn, h, hh, hat⟩ := hunknown
  obtain ⟨-, hleaf, rfl⟩ := Name.segments_eq_ok_iff.1 hn
  rw [finding_ofSegments hleaf, meets_faultsAlong]
  rintro ⟨h', hh', hmeets⟩
  rw [List.forall_mem_append, List.forall_mem_singleton] at hleaf
  obtain ⟨df, hdf, -⟩ := meets_faultsAt.1 hmeets
  rw [← fst_eq_of_mem_holders hh hh'] at hdf
  exact (hs.of_mem_holders hleaf.1 hh).not_unknownAt hleaf.2 hdf hat

theorem not_finding_unknownName : ¬Finding dict p [] n .unknownName := by
  rintro ⟨segs, leaf, -, -, hmeets⟩
  obtain ⟨h, -, hmeets⟩ := meets_faultsAlong.1 hmeets
  obtain ⟨df, -, hmeets⟩ := meets_faultsAt.1 hmeets
  rw [Definition.not_meets_unknownName] at hmeets
  cases hmeets

/-- A validation by a checked dictionary gathers what is noted for its options. -/
theorem exists_validateWith_adds (o : ValidateOptions) (hd : d.policy.WellFormed)
    (hc : d.check = .ok ⟨⟩) (hp : p.WellFormed) :
    ∃ r, d.validateWith o p = .ok r ∧
      Report.empty.Adds r fun n g => Reached (Noted o g) d.policy p [] n := by
  obtain ⟨r, hr, hadds⟩ := (sound_of_checkIn hd hc).gathersWith o hp (List.forall_mem_nil _)
  refine ⟨r, ?_, hadds⟩
  rw [validateWith, hc]
  exact hr

theorem meets_noted {r : Report} {o : ValidateOptions}
    (hr : Report.empty.Adds r fun n g => Reached (Noted o g) d.policy p [] n) :
    (r.faultsOf n).meets g = true ↔ Finding d.policy p [] n g ∨
      o.flagUnknownNames = true ∧ d.Unknown p n ∧ Faults.unknownName.meets g = true := by
  rw [hr.meets_faultsOf, reached_noted, unknown_iff_reached]

/-- Looking for unknown names leaves the faults of all other names as they are. The unknown names
have no faults without it, and this one only with it, so that no name has it beside another. -/
theorem unknownNames_only_added (d : Dictionary) (p : Policy) (hd : d.policy.WellFormed)
    (hc : d.check = .ok ⟨⟩) (hp : p.WellFormed) :
    ∃ r s, d.validateWith ⟨false⟩ p = .ok r ∧ d.validateWith ⟨true⟩ p = .ok s ∧
      (∀ n, ¬d.Unknown p n → s.faultsOf n = r.faultsOf n) ∧
      (∀ n, d.Unknown p n → r.faultsOf n = .empty ∧ s.faultsOf n = .unknownName) ∧
      ∀ n, (r.faultsOf n).meets .unknownName = false ∧
        ((s.faultsOf n).meets .unknownName = true → s.faultsOf n = .unknownName) := by
  obtain ⟨r, hr, hradds⟩ := exists_validateWith_adds ⟨false⟩ hd hc hp
  obtain ⟨s, hs, hsadds⟩ := exists_validateWith_adds ⟨true⟩ hd hc hp
  have hrmeets : ∀ n g, (r.faultsOf n).meets g = true ↔ Finding d.policy p [] n g :=
    fun n g => (meets_noted hradds).trans (or_iff_left fun h => Bool.false_ne_true h.1)
  have hsame : ∀ n, ¬d.Unknown p n → s.faultsOf n = r.faultsOf n := by
    intro n hn
    apply Faults.eq_of_meets
    intro g
    rw [hrmeets, meets_noted hsadds]
    exact or_iff_left fun h => hn h.2.1
  have hunknown : ∀ n, d.Unknown p n → r.faultsOf n = .empty ∧ s.faultsOf n = .unknownName := by
    intro n hn
    have hnone : ∀ g, ¬Finding d.policy p [] n g :=
      fun g => not_finding_of_unknown (sound_of_checkIn hd hc) hn
    apply And.intro
    · apply Faults.eq_of_meets
      intro g
      rw [hrmeets, Faults.not_meets_empty]
      exact iff_of_false (hnone g) Bool.false_ne_true
    · apply Faults.eq_of_meets
      intro g
      rw [meets_noted hsadds, or_iff_right (hnone g)]
      exact ⟨fun h => h.2.2, fun hg => ⟨rfl, hn, hg⟩⟩
  have hnot : ∀ n, (r.faultsOf n).meets .unknownName = false := by
    intro n
    rw [Bool.eq_false_iff, ne_eq, hrmeets]
    exact not_finding_unknownName
  refine ⟨r, s, hr, hs, hsame, hunknown, fun n => ⟨hnot n, fun hmeets => ?_⟩⟩
  by_cases hn : d.Unknown p n
  · exact (hunknown n hn).2
  · rw [hsame n hn, hnot] at hmeets
    cases hmeets

def coloredZones : Policy :=
  ⟨[⟨"zone", [.policy .empty, .policy ⟨[⟨"name", [.int 2]⟩, ⟨"color", [.string "red"]⟩]⟩]⟩,
    ⟨"size", [.int 1]⟩]⟩

/-- The color of a zone is unknown, and the faults of its name are the same with both options. -/
theorem unknownNames_only_added_zones :
    ∃ r s, zones.validateWith ⟨false⟩ coloredZones = .ok r ∧
      zones.validateWith ⟨true⟩ coloredZones = .ok s ∧
      (r.faultsOf "zone.color" = .empty ∧ s.faultsOf "zone.color" = .unknownName) ∧
      r.faultsOf "zone.name" = .missingRequired ||| .wrongType ∧
      s.faultsOf "zone.name" = r.faultsOf "zone.name" := by
  have hc : zones.check = .ok ⟨⟩ := toOption_eq_some_iff.1 (by decide +kernel)
  obtain ⟨r, s, hr, hs, hsame, hunknown, -⟩ :=
    unknownNames_only_added zones coloredZones (by decide +kernel) hc (by decide +kernel)
  have hcolor : Name.segments "zone.color" = .ok (["zone"] ++ ["color"]) :=
    toOption_eq_some_iff.1 (by decide +kernel)
  have hname : Name.segments "zone.name" = .ok (["zone"] ++ ["name"]) :=
    toOption_eq_some_iff.1 (by decide +kernel)
  have hfaults : (zones.validateWith ⟨false⟩ coloredZones).toOption.map (·.faultsOf "zone.name") =
      some (.missingRequired ||| .wrongType) := by
    decide +kernel
  rw [hr] at hfaults
  refine ⟨r, s, hr, hs, hunknown _ ?_, Option.some.inj hfaults, hsame _ ?_⟩
  · rw [unknown_iff_of_segments hcolor]
    decide +kernel
  · rw [unknown_iff_of_segments hname]
    decide +kernel

end Dictionary

end PolicyTree
