import PolicyTree.Proofs.Report.Gathering
import PolicyTree.Proofs.Schema.Dictionary
import PolicyTree.Schema.Validation

namespace PolicyTree

namespace Definition

variable {d : Definition} {v : Value} {values : List Value}

/-- The faults that a definition finds in a policy, with what the policy holds under its name. -/
def prescribed (d : Definition) : Option Entry → Faults
  | none => if 1 ≤ d.minOccurs then .missingRequired else .empty
  | some e =>
    (if e.values.length < d.minOccurs then .arrayTooShort else .empty)
      ||| (if ∃ m ∈ d.maxOccurs, m < e.values.length then .tooManyValues else .empty)
      ||| (if e.kind = .file ∧ (d.kind = .policy ∨ d.kind = .undefined) then .notLoaded
        else if d.kind ≠ .undefined ∧ d.kind ≠ e.kind then .wrongType
        else .union (e.values.map d.faultsOfValue))

structure Admits (d : Definition) (v : Value) : Prop where
  allowed : d.allowed = [] ∨ ∃ a ∈ d.allowed, (v == a) = true
  least : ∀ b ∈ d.min, v.compare? b = some .eq ∨ v.compare? b = some .gt
  greatest : ∀ b ∈ d.max, v.compare? b = some .lt ∨ v.compare? b = some .eq

/-- An array is as long as a definition demands, of its type, and its values are admitted. -/
structure Accepts (d : Definition) (e : Entry) : Prop where
  least : d.minOccurs ≤ e.values.length
  greatest : ∀ m ∈ d.maxOccurs, e.values.length ≤ m
  kind : d.kind = e.kind ∨ d.kind = .undefined ∧ e.kind ≠ .file
  values : ∀ v ∈ e.values, d.Admits v

def Satisfied (d : Definition) : Option Entry → Prop
  | none => d.minOccurs = 0
  | some e => d.Accepts e

theorem faultsOf_eq_prescribed {o : Option Entry} (h : ∀ e ∈ o, e.values ≠ []) :
    d.faultsOf ((o.map Entry.values).getD []) = d.prescribed o := by
  cases o with
  | none => simp [faultsOf, prescribed, isRequired, Nat.lt_iff_add_one_le]
  | some e =>
    obtain ⟨name, values⟩ := e
    cases values with
    | nil => exact absurd rfl (h _ rfl)
    | cons first rest =>
      have hmost : d.maxOccurs.any (· < (first :: rest).length) = true ↔
          ∃ m ∈ d.maxOccurs, m < (first :: rest).length := by
        simp [Option.any_eq_true]
      change d.faultsOfCount (first :: rest).length ||| d.faultsOfContent first.kind _ = _
      simp only [faultsOfCount, hmost]
      rfl

theorem ite_eq_empty_iff {c : Prop} [Decidable c] {f : Faults} (hf : f ≠ .empty) :
    (if c then f else .empty) = .empty ↔ ¬c := by
  split <;> simp [*]

theorem ite_empty_eq_empty_iff {c : Prop} [Decidable c] {f : Faults} (hf : f ≠ .empty) :
    (if c then .empty else f) = .empty ↔ c := by
  split <;> simp [*]

theorem not_any_bound_iff {bound : Option Value} {bad : List (Option Ordering)} :
    ¬(bound.any fun b => v.compare? b ∈ bad) = true ↔ ∀ b ∈ bound, v.compare? b ∉ bad := by
  cases bound <;> simp

theorem faultsOfValue_eq_empty_iff : d.faultsOfValue v = .empty ↔ d.Admits v := by
  have hleast : ∀ c : Option Ordering,
      c ∉ [none, some .lt] ↔ c = some .eq ∨ c = some .gt := by
    rintro (_ | _ | _ | _) <;> decide
  have hgreatest : ∀ c : Option Ordering,
      c ∉ [none, some .gt] ↔ c = some .lt ∨ c = some .eq := by
    rintro (_ | _ | _ | _) <;> decide
  rw [faultsOfValue, Faults.or_eq_empty_iff, ite_empty_eq_empty_iff (by decide),
    ite_eq_empty_iff (by decide), Bool.or_eq_true, Bool.or_eq_true, not_or, not_any_bound_iff,
    not_any_bound_iff, List.isEmpty_iff, List.any_eq_true]
  simp only [hleast, hgreatest]
  constructor
  · rintro ⟨hallowed, hmin, hmax⟩
    exact ⟨hallowed, hmin, hmax⟩
  · intro h
    exact ⟨h.allowed, h.least, h.greatest⟩

theorem not_meets_faultsOfValue {g : Faults} (hallowed : Faults.valueDisallowed.meets g = false)
    (hrange : Faults.valueOutOfRange.meets g = false) : (d.faultsOfValue v).meets g = false := by
  rw [faultsOfValue, Faults.not_meets_or]
  exact ⟨Faults.not_meets_ite Faults.not_meets_empty hallowed,
    Faults.not_meets_ite hrange Faults.not_meets_empty⟩

theorem not_meets_prescribed_some {g : Faults} (e : Entry)
    (hg : ∀ f ∈ [Faults.arrayTooShort, .tooManyValues, .notLoaded, .wrongType, .valueDisallowed,
      .valueOutOfRange], f.meets g = false) : (d.prescribed (some e)).meets g = false := by
  simp only [List.forall_mem_cons] at hg
  obtain ⟨hshort, hmany, hloaded, htype, hallowed, hrange, -⟩ := hg
  rw [prescribed, Faults.not_meets_or, Faults.not_meets_or]
  refine ⟨⟨Faults.not_meets_ite hshort Faults.not_meets_empty,
    Faults.not_meets_ite hmany Faults.not_meets_empty⟩,
    Faults.not_meets_ite hloaded (Faults.not_meets_ite htype ?_)⟩
  rw [Bool.eq_false_iff, ne_eq, Faults.meets_union]
  rintro ⟨f, hf, hmeets⟩
  obtain ⟨v, -, rfl⟩ := List.mem_map.1 hf
  rw [not_meets_faultsOfValue hallowed hrange] at hmeets
  cases hmeets

theorem not_meets_missingRequired (e : Entry) :
    (d.prescribed (some e)).meets .missingRequired = false :=
  not_meets_prescribed_some e (by decide)

theorem not_meets_unknownName (o : Option Entry) :
    (d.prescribed o).meets .unknownName = false := by
  cases o with
  | none => exact Faults.not_meets_ite (by decide) Faults.not_meets_empty
  | some e => exact not_meets_prescribed_some e (by decide)

theorem prescribed_eq_empty_iff {o : Option Entry} :
    d.prescribed o = .empty ↔ d.Satisfied o := by
  cases o with
  | none =>
    rw [prescribed, ite_eq_empty_iff (by decide)]
    change _ ↔ d.minOccurs = 0
    omega
  | some e =>
    rw [prescribed, Faults.or_eq_empty_iff, Faults.or_eq_empty_iff, ite_eq_empty_iff (by decide),
      ite_eq_empty_iff (by decide)]
    constructor
    · rintro ⟨⟨hleast, hgreatest⟩, hcontent⟩
      split at hcontent
      · exact absurd hcontent (by decide)
      · rename_i hloaded
        split at hcontent
        · exact absurd hcontent (by decide)
        · rename_i htype
          refine ⟨by omega, ?_, ?_, ?_⟩
          · intro m hm
            exact Nat.le_of_not_lt fun hlt => hgreatest ⟨m, hm, hlt⟩
          · by_cases hk : d.kind = .undefined
            · right
              exact ⟨hk, fun hf => hloaded ⟨hf, .inr hk⟩⟩
            · left
              exact Decidable.byContradiction fun hne => htype ⟨hk, hne⟩
          · intro v hv
            rw [Faults.union_eq_empty_iff] at hcontent
            exact faultsOfValue_eq_empty_iff.1 (hcontent _ (List.mem_map_of_mem hv))
    · intro h
      refine ⟨⟨?_, ?_⟩, ?_⟩
      · exact Nat.not_lt.2 h.least
      · rintro ⟨m, hm, hlt⟩
        exact Nat.not_lt.2 (h.greatest m hm) hlt
      · have hloaded : ¬(e.kind = .file ∧ (d.kind = .policy ∨ d.kind = .undefined)) := by
          rintro ⟨hf, hk⟩
          rcases h.kind with hsame | ⟨-, hne⟩
          · rw [hsame, hf] at hk
            exact absurd hk (by decide)
          · exact hne hf
        have htype : ¬(d.kind ≠ .undefined ∧ d.kind ≠ e.kind) := by
          rintro ⟨hdef, hne⟩
          rcases h.kind with hsame | ⟨hundef, -⟩
          · exact hne hsame
          · exact hdef hundef
        rw [if_neg hloaded, if_neg htype, Faults.union_eq_empty_iff]
        intro f hf
        obtain ⟨v, hv, rfl⟩ := List.mem_map.1 hf
        exact faultsOfValue_eq_empty_iff.2 (h.values v hv)

end Definition

def Policy.subPolicies (p : Policy) (leaf : String) : List Policy :=
  match p.entry? leaf with
  | none => []
  | some e => if e.kind = .policy then e.values.filterMap Value.policy? else []

theorem Policy.WellFormed.subPolicies_eq {p : Policy} {leaf : String} (h : p.WellFormed) :
    p.subPolicies leaf =
      (((p.entry? leaf).map Entry.values).getD []).filterMap Value.policy? := by
  unfold subPolicies
  cases he : p.entry? leaf with
  | none => rfl
  | some e =>
    obtain ⟨name, values⟩ := e
    have harr := h.storable (mem_of_entry?_eq_some he)
    change (if _ then _ else []) = values.filterMap Value.policy?
    split
    · rfl
    · rename_i hk
      refine (List.filterMap_eq_nil_iff.2 ?_).symm
      intro v hv
      have hv := harr.kind_of_mem hv name
      cases v <;> first | rfl | exact absurd hv hk

theorem Policy.WellFormed.of_mem_subPolicies {p sub : Policy} {leaf : String} (h : p.WellFormed)
    (hs : sub ∈ p.subPolicies leaf) : sub.WellFormed := by
  unfold subPolicies at hs
  split at hs
  · cases hs
  · rename_i e he
    split at hs
    · obtain ⟨v, hv, hp⟩ := List.mem_filterMap.1 hs
      rw [Value.policy?_eq_some_iff.1 hp] at hv
      exact h.nested (mem_of_entry?_eq_some he) hv
    · cases hs

namespace Dictionary

/-- The policies to which names lead, one through all elements of the arrays under the one before,
and for each the policy that holds its dictionary. -/
def holders (dict p : Policy) : List String → List (Policy × Policy)
  | [] => [(dict, p)]
  | seg :: rest =>
    match definitionIn dict seg with
    | .error _ => []
    | .ok d =>
      match d.dictionary with
      | none => []
      | some sub =>
        if d.kind = .policy then
          (p.subPolicies seg).flatMap fun child => holders sub.policy child rest
        else []

def faultsAt (leaf : String) (h : Policy × Policy) : Faults :=
  match definitionIn h.1 leaf with
  | .error _ => .empty
  | .ok d => d.prescribed (Policy.entry? h.2 leaf)

def faultsAlong (dict p : Policy) (segs : List String) (leaf : String) : Faults :=
  .union ((holders dict p segs).map (faultsAt leaf))

variable {dict p : Policy} {h : Policy × Policy} {path segs : List String}
  {above leaf n seg : String} {g : Faults} {o : ValidateOptions}

theorem mem_holders_cons :
    h ∈ holders dict p (seg :: segs) ↔
      ∃ d sub, definitionIn dict seg = .ok d ∧ d.dictionary = some sub ∧ d.kind = .policy ∧
        ∃ child ∈ p.subPolicies seg, h ∈ holders sub.policy child segs := by
  rw [holders]
  cases hd : definitionIn dict seg with
  | error e => simp
  | ok d =>
    cases hs : d.dictionary with
    | none => simp [hs]
    | some sub =>
      by_cases hk : d.kind = .policy
      · simp [hs, hk]
      · simp [hs, hk]

theorem meets_faultsAt :
    (faultsAt leaf h).meets g = true ↔
      ∃ d, definitionIn h.1 leaf = .ok d ∧
        (d.prescribed (Policy.entry? h.2 leaf)).meets g = true := by
  unfold faultsAt
  cases definitionIn h.1 leaf <;> simp

theorem meets_faultsAlong :
    (faultsAlong dict p segs leaf).meets g = true ↔
      ∃ h ∈ holders dict p segs, (faultsAt leaf h).meets g = true := by
  rw [faultsAlong, Faults.meets_union]
  constructor
  · rintro ⟨_, hf, hg⟩
    obtain ⟨h, hh, rfl⟩ := List.mem_map.1 hf
    exact ⟨h, hh, hg⟩
  · rintro ⟨h, hh, hg⟩
    exact ⟨_, List.mem_map_of_mem hh, hg⟩

theorem faultsAlong_eq_empty_iff :
    faultsAlong dict p segs leaf = .empty ↔ ∀ h ∈ holders dict p segs, ∀ d,
      definitionIn h.1 leaf = .ok d → d.Satisfied (Policy.entry? h.2 leaf) := by
  rw [faultsAlong, Faults.union_eq_empty_iff, List.forall_mem_map]
  apply forall_congr'
  intro h
  apply imp_congr_right
  intro _
  unfold faultsAt
  cases definitionIn h.1 leaf <;> simp [Definition.prescribed_eq_empty_iff]

/-- The faults that are to be found in a policy at the end of a path, at names below it. -/
def Finding (dict p : Policy) (path : List String) (n : String) (g : Faults) : Prop :=
  ∃ segs leaf, (∀ s ∈ segs ++ [leaf], Name.isLeaf s = true) ∧
    n = Name.ofSegments (path ++ (segs ++ [leaf])) ∧ (faultsAlong dict p segs leaf).meets g = true

structure UnknownAt (leaf : String) (h : Policy × Policy) : Prop where
  held : (Policy.entry? h.2 leaf).isSome = true
  undefined : ∃ names, namesIn h.1 = .ok names ∧ leaf ∉ names

instance (leaf : String) (h : Policy × Policy) : Decidable (UnknownAt leaf h) :=
  decidable_of_iff ((Policy.entry? h.2 leaf).isSome = true ∧
    ∃ names ∈ (namesIn h.1).toOption, leaf ∉ names) (by
      simp only [Option.mem_def, toOption_eq_some_iff]
      exact ⟨fun h => ⟨h.1, h.2⟩, fun h => ⟨h.1, h.2⟩⟩)

/-- A validation with certain options notes faults of a name in a policy. -/
def Noted (o : ValidateOptions) (g : Faults) (leaf : String) (h : Policy × Policy) : Prop :=
  (faultsAt leaf h).meets g = true ∨
    o.flagUnknownNames = true ∧ UnknownAt leaf h ∧ Faults.unknownName.meets g = true

/-- Something holds for a name in one of the policies at the end of a path, or below them. -/
def Reached (P : String → Policy × Policy → Prop) (dict p : Policy) (path : List String)
    (n : String) : Prop :=
  ∃ segs leaf, (∀ s ∈ segs ++ [leaf], Name.isLeaf s = true) ∧
    n = Name.ofSegments (path ++ (segs ++ [leaf])) ∧ ∃ h ∈ holders dict p segs, P leaf h

def ReachedUnder (P : String → Policy × Policy → Prop) (d : Definition) (p : Policy)
    (path : List String) (leaf n : String) : Prop :=
  ∃ sub, d.dictionary = some sub ∧ d.kind = .policy ∧
    ∃ child ∈ p.subPolicies leaf, Reached P sub.policy child (path ++ [leaf]) n

theorem finding_iff_reached :
    Finding dict p path n g ↔
      Reached (fun leaf h => (faultsAt leaf h).meets g = true) dict p path n := by
  simp only [Finding, Reached, meets_faultsAlong]

theorem reached_noted :
    Reached (Noted o g) dict p path n ↔ Finding dict p path n g ∨
      o.flagUnknownNames = true ∧ Reached UnknownAt dict p path n ∧
        Faults.unknownName.meets g = true := by
  rw [finding_iff_reached]
  constructor
  · rintro ⟨segs, leaf, hleaf, hn, h, hh, hmeets | ⟨hflag, hunknown, hg⟩⟩
    · exact .inl ⟨segs, leaf, hleaf, hn, h, hh, hmeets⟩
    · exact .inr ⟨hflag, ⟨segs, leaf, hleaf, hn, h, hh, hunknown⟩, hg⟩
  · rintro (⟨segs, leaf, hleaf, hn, h, hh, hmeets⟩ | ⟨hflag, hunknown, hg⟩)
    · exact ⟨segs, leaf, hleaf, hn, h, hh, .inl hmeets⟩
    · obtain ⟨segs, leaf, hleaf, hn, h, hh, hunknown⟩ := hunknown
      exact ⟨segs, leaf, hleaf, hn, h, hh, .inr ⟨hflag, hunknown, hg⟩⟩

/-- What is reached is at a name in the policy itself, or in the policies under a name. -/
theorem reached_iff {P : String → Policy × Policy → Prop} :
    Reached P dict p path n ↔
      (∃ leaf, Name.isLeaf leaf = true ∧ n = Name.ofSegments (path ++ [leaf]) ∧ P leaf (dict, p)) ∨
      ∃ leaf d, Name.isLeaf leaf = true ∧ definitionIn dict leaf = .ok d ∧
        ReachedUnder P d p path leaf n := by
  constructor
  · rintro ⟨segs, leaf, hleaf, rfl, h, hh, hP⟩
    cases segs with
    | nil =>
      obtain rfl := List.mem_singleton.1 hh
      exact .inl ⟨leaf, hleaf leaf (List.mem_singleton_self _), rfl, hP⟩
    | cons seg rest =>
      obtain ⟨d, sub, hd, hs, hk, child, hchild, hh⟩ := mem_holders_cons.1 hh
      rw [List.cons_append, List.forall_mem_cons] at hleaf
      have hchild' : Reached P sub.policy child (path ++ [seg])
          (Name.ofSegments (path ++ (seg :: rest ++ [leaf]))) :=
        ⟨rest, leaf, hleaf.2, by simp, h, hh, hP⟩
      exact .inr ⟨seg, d, hleaf.1, hd, sub, hs, hk, child, hchild, hchild'⟩
  · rintro (⟨leaf, hleaf, rfl, hP⟩ | ⟨seg, d, hseg, hd, sub, hs, hk, child, hchild, hreached⟩)
    · exact ⟨[], leaf, List.forall_mem_singleton.2 hleaf, rfl, _, List.mem_singleton_self _, hP⟩
    · obtain ⟨rest, leaf, hleaf, rfl, h, hh, hP⟩ := hreached
      refine ⟨seg :: rest, leaf, List.forall_mem_cons.2 ⟨hseg, hleaf⟩, by simp, h, ?_, hP⟩
      exact mem_holders_cons.2 ⟨d, sub, hd, hs, hk, child, hchild, hh⟩

/-- What a validation does for one name: it records the faults of the array, and merges those of
the policies in it. -/
def recordName (o : ValidateOptions) (dict p : Policy) (above : String) (r : Report)
    (leaf : String) : Except Error Report :=
  match definitionIn dict leaf with
  | .error e => .error e
  | .ok d =>
    let values := (p.getArray leaf).toOption.getD []
    let r := r.record (Name.join above leaf) (d.faultsOf values)
    match d.dictionary with
    | none => .ok r
    | some sub =>
      (values.filterMap Value.policy?).foldlM (fun r child => do
        return r.merge (← faultsIn o sub.policy child (Name.join above leaf))) r

theorem faultsIn_eq {defs : Policy} (hdefs : definitionsOf dict = .ok defs) :
    faultsIn o dict p above =
      (defs.names true .all).foldlM (recordName o dict p above) ∅ >>= fun known =>
        .ok (if o.flagUnknownNames then known.merge (unknownNames defs p above) else known) := by
  rw [faultsIn, hdefs, ok_bind]
  congr 2
  funext r leaf
  unfold recordName
  split <;> rename_i hd <;> simp only [hd]
  split <;> rename_i hs <;> simp only [hs]

theorem exists_definitionsOf {r : Report} (h : faultsIn o dict p above = .ok r) :
    ∃ defs, definitionsOf dict = .ok defs := by
  rw [faultsIn] at h
  obtain ⟨defs, hdefs, -⟩ := bind_eq_ok_iff.1 h
  exact ⟨defs, hdefs⟩

theorem wellFormed_recordName {r r' : Report} (hr : r.WellFormed)
    (h : recordName o dict p above r leaf = .ok r') : r'.WellFormed := by
  unfold recordName at h
  split at h
  · cases h
  · split at h
    · cases h
      exact hr.record _ _
    · refine of_foldlM_eq_ok (P := Report.WellFormed) ?_ (hr.record _ _) h
      intro child _ r r' hr h
      obtain ⟨found, -, hmerge⟩ := bind_eq_ok_iff.1 h
      cases hmerge
      exact hr.merge found

theorem wellFormed_faultsIn {r : Report} (h : faultsIn o dict p above = .ok r) :
    r.WellFormed := by
  obtain ⟨defs, hdefs⟩ := exists_definitionsOf h
  rw [faultsIn_eq hdefs] at h
  obtain ⟨known, hknown, hr⟩ := bind_eq_ok_iff.1 h
  have hwf : known.WellFormed :=
    of_foldlM_eq_ok (P := Report.WellFormed) (fun _ _ _ _ => wellFormed_recordName) .empty hknown
  obtain rfl := Except.ok.inj hr
  split
  · exact hwf.merge _
  · exact hwf

theorem wellFormed_validate {d : Dictionary} {r : Report} (h : d.validate p = .ok r) :
    r.WellFormed := by
  obtain ⟨-, -, hfaults⟩ := bind_eq_ok_iff.1 h
  exact wellFormed_faultsIn hfaults

/-- A validation succeeds and reports what is to be found. -/
def Gathers (dict p : Policy) (path : List String) : Prop :=
  ∃ r, faultsIn .standard dict p (Name.ofSegments path) = .ok r ∧
    Report.empty.Adds r (Finding dict p path)

def GathersWith (o : ValidateOptions) (dict p : Policy) (path : List String) : Prop :=
  ∃ r, faultsIn o dict p (Name.ofSegments path) = .ok r ∧
    Report.empty.Adds r fun n g => Reached (Noted o g) dict p path n

/-- Merging the reports of validations adds what each of them finds. -/
theorem exists_mergeAll {sub : Policy} {children : List Policy} {r : Report}
    (h : ∀ child ∈ children, GathersWith o sub child path) (hr : r.WellFormed) :
    ∃ r', children.foldlM (fun r child => do
        return r.merge (← faultsIn o sub child (Name.ofSegments path))) r = .ok r' ∧
      r.Adds r' fun n g => ∃ child ∈ children, Reached (Noted o g) sub child path n := by
  apply Report.exists_foldlM_adds ?_ hr
  intro child hchild r hr
  obtain ⟨found, hfound, hadds⟩ := h child hchild
  refine ⟨r.merge found, bind_eq_ok_iff.2 ⟨found, hfound, rfl⟩, ?_⟩
  apply (hr.adds_merge hadds.wellFormed).congr
  intro n g
  exact hadds.meets_faultsOf

theorem exists_recordName {d : Definition} {r : Report} (hp : p.WellFormed)
    (hpath : ∀ s ∈ path, Name.isLeaf s = true) (hleaf : Name.isLeaf leaf = true)
    (hd : definitionIn dict leaf = .ok d)
    (hsub : ∀ sub, d.dictionary = some sub → ∀ child ∈ p.subPolicies leaf,
      GathersWith o sub.policy child (path ++ [leaf]))
    (hr : r.WellFormed) :
    ∃ r', recordName o dict p (Name.ofSegments path) r leaf = .ok r' ∧
      r.Adds r' fun n g =>
        (n = Name.ofSegments (path ++ [leaf]) ∧ (faultsAt leaf (dict, p)).meets g = true) ∨
          ReachedUnder (Noted o g) d p path leaf n := by
  have harray : ∀ e ∈ p.entry? leaf, e.values ≠ [] := fun e he =>
    (hp.storable (Policy.mem_of_entry?_eq_some he)).ne_nil
  have hfaults : faultsAt leaf (dict, p) = d.prescribed (p.entry? leaf) := by
    rw [faultsAt]
    simp only [hd]
  have hrec := hr.adds_record (Name.ofSegments (path ++ [leaf])) (d.prescribed (p.entry? leaf))
  unfold recordName
  simp only [hd]
  rw [hfaults, Policy.getArray_of_isLeaf hleaf, Definition.faultsOf_eq_prescribed harray,
    ← hp.subPolicies_eq, Name.join_ofSegments hpath]
  cases hs : d.dictionary with
  | none =>
    refine ⟨_, rfl, hrec.congr ?_⟩
    simp [ReachedUnder, hs]
  | some sub =>
    have hk := kind_of_definitionIn hleaf hd hs
    obtain ⟨r', hfold, hadds⟩ := exists_mergeAll (hsub sub hs) hrec.wellFormed
    refine ⟨r', hfold, (hrec.trans hadds).congr ?_⟩
    simp [ReachedUnder, hs, hk]

theorem mem_unknown_iff {defs : Policy} (hdefs : definitionsOf dict = .ok defs)
    (hleaf : Name.isLeaf leaf = true) :
    leaf ∈ (p.names true .all).filter (fun leaf => !defs.contains leaf) ↔
      UnknownAt leaf (dict, p) := by
  have hnames : namesIn dict = .ok (defs.names true .all) := by
    rw [namesIn, hdefs]
    rfl
  rw [List.mem_filter, Bool.not_eq_true', ← Bool.not_eq_true, Policy.contains_of_isLeaf hleaf,
    ← Policy.names_top, Policy.names_top p, ← Policy.isSome_entry?_iff]
  constructor
  · rintro ⟨hheld, hnot⟩
    exact ⟨hheld, _, hnames, hnot⟩
  · rintro ⟨hheld, names, hnames', hnot⟩
    obtain rfl := Except.ok.inj (hnames.symm.trans hnames')
    exact ⟨hheld, hnot⟩

/-- What is looked for besides are the names that the policy itself holds, and that its dictionary
does not define. -/
theorem adds_unknownNames {defs : Policy} (hp : p.WellFormed)
    (hpath : ∀ s ∈ path, Name.isLeaf s = true) (hdefs : definitionsOf dict = .ok defs) :
    Report.empty.Adds (unknownNames defs p (Name.ofSegments path)) fun n g =>
      ∃ leaf, Name.isLeaf leaf = true ∧ n = Name.ofSegments (path ++ [leaf]) ∧
        UnknownAt leaf (dict, p) ∧ Faults.unknownName.meets g = true := by
  have hstep : ∀ leaf ∈ (p.names true .all).filter (fun leaf => !defs.contains leaf),
      ∀ r : Report, r.WellFormed →
        r.Adds (r.record (Name.join (Name.ofSegments path) leaf) .unknownName) fun n g =>
          n = Name.join (Name.ofSegments path) leaf ∧ Faults.unknownName.meets g = true :=
    fun _ _ _ hr => hr.adds_record _ _
  apply (Report.adds_foldl hstep .empty).congr
  intro n g
  constructor
  · rintro ⟨leaf, hmem, rfl, hg⟩
    have hleaf := hp.isLeaf_of_mem_names (List.mem_of_mem_filter hmem)
    exact ⟨leaf, hleaf, Name.join_ofSegments hpath leaf, (mem_unknown_iff hdefs hleaf).1 hmem, hg⟩
  · rintro ⟨leaf, hleaf, rfl, hunknown, hg⟩
    exact ⟨leaf, (mem_unknown_iff hdefs hleaf).2 hunknown,
      (Name.join_ofSegments hpath leaf).symm, hg⟩

/-- What is noted is noted for a name of the dictionary, or is a name that the policy itself holds
and the dictionary does not define. -/
theorem reached_noted_iff {names : List String} (hnames : ∀ leaf ∈ names, Name.isLeaf leaf = true)
    (hdefined : ∀ leaf, Name.isLeaf leaf = true →
      (leaf ∈ names ↔ ∃ d, definitionIn dict leaf = .ok d)) :
    Reached (Noted o g) dict p path n ↔
      (∃ leaf ∈ names, ∃ d, definitionIn dict leaf = .ok d ∧
        ((n = Name.ofSegments (path ++ [leaf]) ∧ (faultsAt leaf (dict, p)).meets g = true) ∨
          ReachedUnder (Noted o g) d p path leaf n)) ∨
      o.flagUnknownNames = true ∧
        ∃ leaf, Name.isLeaf leaf = true ∧ n = Name.ofSegments (path ++ [leaf]) ∧
          UnknownAt leaf (dict, p) ∧ Faults.unknownName.meets g = true := by
  rw [reached_iff]
  constructor
  · rintro (⟨leaf, hleaf, hn, hmeets | ⟨hflag, hunknown⟩⟩ | ⟨leaf, d, hleaf, hd, hunder⟩)
    · obtain ⟨d, hd, -⟩ := meets_faultsAt.1 hmeets
      exact .inl ⟨leaf, (hdefined leaf hleaf).2 ⟨d, hd⟩, d, hd, .inl ⟨hn, hmeets⟩⟩
    · exact .inr ⟨hflag, leaf, hleaf, hn, hunknown⟩
    · exact .inl ⟨leaf, (hdefined leaf hleaf).2 ⟨d, hd⟩, d, hd, .inr hunder⟩
  · rintro (⟨leaf, hmem, d, hd, ⟨hn, hmeets⟩ | hunder⟩ | ⟨hflag, leaf, hleaf, hn, hunknown⟩)
    · exact .inl ⟨leaf, hnames leaf hmem, hn, .inl hmeets⟩
    · exact .inr ⟨leaf, d, hnames leaf hmem, hd, hunder⟩
    · exact .inl ⟨leaf, hleaf, hn, .inr ⟨hflag, hunknown⟩⟩

/-- Induction over the nested dictionaries; a validation for each of them gathers its findings. -/
theorem Sound.gathersWith (h : Sound dict) (o : ValidateOptions) (hp : p.WellFormed)
    (hpath : ∀ s ∈ path, Name.isLeaf s = true) : GathersWith o dict p path := by
  induction h generalizing p path with
  | @intro dict defs hdefs leaf defined nested ih =>
    have hstep : ∀ seg ∈ defs.names true .all, ∀ r : Report, r.WellFormed → ∃ r',
        recordName o dict p (Name.ofSegments path) r seg = .ok r' ∧
          r.Adds r' fun n g => ∃ d, definitionIn dict seg = .ok d ∧
            ((n = Name.ofSegments (path ++ [seg]) ∧ (faultsAt seg (dict, p)).meets g = true) ∨
              ReachedUnder (Noted o g) d p path seg n) := by
      intro seg hseg r hr
      have hleaf := leaf seg hseg
      obtain ⟨d, hd⟩ := (defined seg hleaf).1 hseg
      have hsub : ∀ sub, d.dictionary = some sub → ∀ child ∈ p.subPolicies seg,
          GathersWith o sub.policy child (path ++ [seg]) := by
        intro sub hs child hchild
        apply ih seg d sub hleaf hd hs (hp.of_mem_subPolicies hchild)
        exact Name.isLeaf_concat hpath hleaf
      obtain ⟨r', hrec, hadds⟩ := exists_recordName hp hpath hleaf hd hsub hr
      refine ⟨r', hrec, hadds.congr ?_⟩
      intro n g
      simp [hd]
    obtain ⟨known, hfold, hadds⟩ := Report.exists_foldlM_adds hstep .empty
    have hunknown := adds_unknownNames hp hpath hdefs
    have hmerge := hadds.trans (hadds.wellFormed.adds_merge hunknown.wellFormed)
    refine ⟨_, (faultsIn_eq hdefs).trans (bind_eq_ok_iff.2 ⟨known, hfold, rfl⟩), ?_⟩
    by_cases hflag : o.flagUnknownNames = true
    · rw [if_pos hflag]
      apply hmerge.congr
      intro n g
      rw [reached_noted_iff leaf defined, hunknown.meets_faultsOf, hflag]
      simp
    · rw [if_neg hflag]
      apply hadds.congr
      intro n g
      rw [reached_noted_iff leaf defined]
      exact (or_iff_left fun h => hflag h.1).symm

theorem Sound.gathers (h : Sound dict) (hp : p.WellFormed)
    (hpath : ∀ s ∈ path, Name.isLeaf s = true) : Gathers dict p path := by
  obtain ⟨r, hr, hadds⟩ := h.gathersWith .standard hp hpath
  refine ⟨r, hr, hadds.congr fun n g => ?_⟩
  rw [reached_noted]
  exact or_iff_left fun hunknown => absurd hunknown.1 (by decide)

/-- Every definition in a dictionary is satisfied, in all policies that its name leads to. -/
def AllSatisfied (dict p : Policy) : Prop :=
  ∀ segs leaf, (∀ s ∈ segs ++ [leaf], Name.isLeaf s = true) → ∀ h ∈ holders dict p segs,
    ∀ d, definitionIn h.1 leaf = .ok d → d.Satisfied (Policy.entry? h.2 leaf)

theorem finding_ofSegments (hleaf : ∀ s ∈ segs ++ [leaf], Name.isLeaf s = true) :
    Finding dict p [] (Name.ofSegments (segs ++ [leaf])) g ↔
      (faultsAlong dict p segs leaf).meets g = true := by
  constructor
  · rintro ⟨segs', leaf', hleaf', heq, hg⟩
    have happend := Name.ofSegments_inj hleaf hleaf' heq
    obtain ⟨rfl, hlast⟩ := List.append_inj' happend rfl
    obtain rfl := List.singleton_inj.1 hlast
    exact hg
  · intro hg
    exact ⟨segs, leaf, hleaf, rfl, hg⟩

section Reported

variable {r : Report} (hr : Report.empty.Adds r (Finding dict p []))

include hr

theorem meets_reported : (r.faultsOf n).meets g = true ↔ Finding dict p [] n g :=
  hr.meets_faultsOf

theorem reported_eq (hn : Name.segments n = .ok (segs ++ [leaf])) :
    r.faultsOf n = faultsAlong dict p segs leaf := by
  obtain ⟨-, hleaf, rfl⟩ := Name.segments_eq_ok_iff.1 hn
  apply Faults.eq_of_meets
  intro g
  rw [meets_reported hr, finding_ofSegments hleaf]

theorem segments_of_reported (hn : r.faultsOf n ≠ .empty) :
    ∃ segs leaf, Name.segments n = .ok (segs ++ [leaf]) := by
  obtain ⟨segs, leaf, hleaf, heq, -⟩ := (meets_reported hr).1 (Faults.meets_self hn)
  exact ⟨segs, leaf, Name.segments_eq_ok_iff.2 ⟨by simp, hleaf, heq⟩⟩

theorem mem_reported_iff :
    n ∈ r.names ↔ ∃ segs leaf, Name.segments n = .ok (segs ++ [leaf]) ∧
      faultsAlong dict p segs leaf ≠ .empty := by
  rw [hr.wellFormed.mem_names_iff]
  constructor
  · intro hn
    obtain ⟨segs, leaf, hsegs⟩ := segments_of_reported hr hn
    rw [reported_eq hr hsegs] at hn
    exact ⟨segs, leaf, hsegs, hn⟩
  · rintro ⟨segs, leaf, hsegs, hn⟩
    rw [reported_eq hr hsegs]
    exact hn

theorem nothing_reported_iff : r.isOk = true ↔ AllSatisfied dict p := by
  rw [hr.wellFormed.isOk_iff]
  constructor
  · intro hnone segs leaf hleaf
    have hsegs := Name.segments_ofSegments (List.concat_ne_nil leaf segs) hleaf
    rw [← faultsAlong_eq_empty_iff, ← reported_eq hr hsegs]
    exact hnone _
  · intro hall n
    apply Decidable.byContradiction
    intro hn
    obtain ⟨segs, leaf, hsegs⟩ := segments_of_reported hr hn
    have hleaf := (Name.segments_eq_ok_iff.1 hsegs).2.1
    apply hn
    rw [reported_eq hr hsegs, faultsAlong_eq_empty_iff]
    exact hall segs leaf hleaf

end Reported

/-- By a checked dictionary, a validation succeeds. For each dotted name it reports the faults that
its definition finds in all policies that the name leads to, it reports no other names, and it
reports none at all exactly if every definition is satisfied everywhere. -/
theorem validate_reports (d : Dictionary) (p : Policy) (hd : d.policy.WellFormed)
    (hc : d.check = .ok ⟨⟩) (hp : p.WellFormed) :
    ∃ r, d.validate p = .ok r ∧
      (∀ n segs leaf, Name.segments n = .ok (segs ++ [leaf]) →
        r.faultsOf n = faultsAlong d.policy p segs leaf) ∧
      (∀ n, n ∈ r.names ↔ ∃ segs leaf, Name.segments n = .ok (segs ++ [leaf]) ∧
        faultsAlong d.policy p segs leaf ≠ .empty) ∧
      (r.isOk = true ↔ AllSatisfied d.policy p) := by
  have hgathers : Gathers d.policy p [] := (sound_of_checkIn hd hc).gathers hp (by simp)
  obtain ⟨r, hr, hadds⟩ := hgathers
  refine ⟨r, ?_, ?_, ?_, nothing_reported_iff hadds⟩
  · rw [Name.ofSegments_nil] at hr
    rw [validate, validateWith, hc]
    exact hr
  · intro n segs leaf hn
    exact reported_eq hadds hn
  · intro n
    exact mem_reported_iff hadds

def zones : Dictionary where
  policy :=
    ⟨[⟨definitionsKey, [.policy ⟨[⟨"zone", [.policy
      ⟨[⟨"type", [.string "Policy"]⟩, ⟨"maxOccurs", [.int 3]⟩, ⟨dictionaryKey, [.policy
        ⟨[⟨definitionsKey, [.policy ⟨[⟨"name", [.policy
          ⟨[⟨"type", [.string "string"]⟩]⟩]⟩]⟩]⟩]⟩]⟩]⟩]⟩]⟩]⟩]⟩
  hasDefinitions := by decide +kernel

def unnamedZones : Policy :=
  ⟨[⟨"zone", [.policy .empty, .policy ⟨[⟨"name", [.int 2]⟩]⟩]⟩]⟩

theorem validate_reports_unnamed :
    ∃ r, zones.validate unnamedZones = .ok r ∧ "zone.name" ∈ r.names ∧
      r.faultsOf "zone.name" = .missingRequired ||| .wrongType := by
  have hd : zones.policy.WellFormed := by decide +kernel
  have hc : zones.check = .ok ⟨⟩ := toOption_eq_some_iff.1 (by decide +kernel)
  have hp : unnamedZones.WellFormed := by decide +kernel
  obtain ⟨r, hr, hfaults, hnames, -⟩ := validate_reports zones unnamedZones hd hc hp
  have hsegs : Name.segments "zone.name" = .ok (["zone"] ++ ["name"]) :=
    toOption_eq_some_iff.1 (by decide +kernel)
  refine ⟨r, hr, (hnames _).2 ⟨_, _, hsegs, by decide +kernel⟩, ?_⟩
  rw [hfaults _ _ _ hsegs]
  decide +kernel

end Dictionary

end PolicyTree
