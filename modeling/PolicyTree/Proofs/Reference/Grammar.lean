import Mathlib.Data.List.TakeWhile
import PolicyTree.Proofs.Name.Segments
import PolicyTree.Proofs.Outcome
import PolicyTree.Reference

namespace PolicyTree

namespace Text

variable {cs front rest : List Char} {c : Char}

structure Trimmed (cs : List Char) : Prop where
  first : ∀ c ∈ cs.head?, isBlank c = false
  last : ∀ c ∈ cs.getLast?, isBlank c = false

theorem head?_dropWhile {p : Char → Bool} (h : c ∈ (cs.dropWhile p).head?) : p c = false := by
  have hhead := List.head?_dropWhile_not p cs
  rw [Option.mem_def.1 h] at hhead
  exact hhead

theorem dropWhile_eq_self {p : Char → Bool} (h : ∀ c ∈ cs.head?, p c = false) :
    cs.dropWhile p = cs := by
  cases cs with
  | nil => rfl
  | cons c cs => rw [List.dropWhile_cons_of_neg (by simp [h c rfl])]

theorem trimmed_trimChars (cs : List Char) : Trimmed (trimChars cs) := by
  constructor
  · intro c hc
    rw [trimChars, List.head?_reverse] at hc
    have hhead : c ∈ (cs.dropWhile isBlank).head? := by
      rw [← List.getLast?_reverse, ← List.takeWhile_append_dropWhile (p := isBlank)
        (l := (cs.dropWhile isBlank).reverse)]
      exact List.mem_getLast?_append_of_mem_getLast? hc
    exact head?_dropWhile hhead
  · intro c hc
    rw [trimChars, List.getLast?_reverse] at hc
    exact head?_dropWhile hc

theorem Trimmed.trimChars_eq (h : Trimmed cs) : trimChars cs = cs := by
  have hlast : ∀ c ∈ cs.reverse.head?, isBlank c = false := by
    rw [List.head?_reverse]
    exact h.last
  rw [trimChars, dropWhile_eq_self h.first, dropWhile_eq_self hlast, List.reverse_reverse]

theorem takeWhile_replicate_append {n : Nat} (h : ∀ d ∈ rest.head?, d ≠ c) :
    (List.replicate n c ++ rest).takeWhile (· == c) = List.replicate n c := by
  have hrest : rest.takeWhile (· == c) = [] := by
    cases rest with
    | nil => rfl
    | cons d rest => rw [List.takeWhile_cons_of_neg (by simpa using h d rfl)]
  rw [List.takeWhile_append_of_pos (by simp), hrest, List.append_nil]

theorem exists_replicate_append (c : Char) (cs : List Char) :
    ∃ n rest, cs = List.replicate n c ++ rest ∧ ∀ d ∈ rest.head?, d ≠ c := by
  have hrun : cs.takeWhile (· == c) = List.replicate (cs.takeWhile (· == c)).length c := by
    apply List.eq_replicate_iff.2 ⟨rfl, ?_⟩
    intro d hd
    exact beq_iff_eq.1 (List.mem_takeWhile_imp (p := (· == c)) hd)
  refine ⟨(cs.takeWhile (· == c)).length, cs.dropWhile (· == c), ?_, ?_⟩
  · rw [← hrun, List.takeWhile_append_dropWhile]
  · intro d hd
    exact beq_eq_false_iff_ne.1 (head?_dropWhile (p := (· == c)) hd)

end Text

namespace Reference

variable {cs body lead rest : List Char} {t : Target} {r : Reference} {whole text : String}
  {n : Nat} {e : Error}

/-- Terms that name a path in a package. A repository that is left empty is none. -/
inductive Terms : Target → List Char → Prop
  | package {name path : List Char} (hname : name ≠ []) (hpath : path ≠ []) (hn : ':' ∉ name)
      (hp : ':' ∉ path) :
      Terms (.package (.ofList name) none ⟨.ofList path⟩) (name ++ ':' :: path)
  | repository {name repository path : List Char} (hname : name ≠ []) (hpath : path ≠ [])
      (hn : ':' ∉ name) (hr : ':' ∉ repository) (hp : ':' ∉ path) :
      Terms (.package (.ofList name) (if repository = [] then none else some (.ofList repository))
        ⟨.ofList path⟩) (name ++ ':' :: (repository ++ ':' :: path))

/-- The texts of a target. The scheme before terms can be missing, but where it is present it is
never a term. -/
inductive Spells : Target → List Char → Prop
  | path {cs : List Char} (hne : cs ≠ []) (hsep : ':' ∉ cs) : Spells (.path ⟨.ofList cs⟩) cs
  | schemed {t : Target} {lead body : List Char} (hlead : lead.map Char.toLower = scheme.toList)
      (h : Terms t body) : Spells t (lead ++ body)
  | bare {t : Target} {body : List Char} (hlead : (stripScheme body).1 = false) (h : Terms t body) :
      Spells t body

theorem Terms.sep_mem (h : Terms t body) : ':' ∈ body := by
  cases h <;> simp

theorem ite_error_eq_ok_iff {c : Prop} [Decidable c] {e : Error} {x : Except Error Target} :
    (if c then .error e else x) = .ok t ↔ ¬c ∧ x = .ok t := by
  split <;> simp [*]

theorem ofList_eq_empty_iff : String.ofList cs = "" ↔ cs = [] := by
  rw [← String.toList_inj, String.toList_ofList]
  rfl

theorem packageTarget_two {name path : List Char} :
    packageTarget whole [.ofList name, .ofList path] = .ok t ↔
      name ≠ [] ∧ path ≠ [] ∧ .package (.ofList name) none ⟨.ofList path⟩ = t := by
  unfold packageTarget
  simp only [ok_bind, ite_error_eq_ok_iff, String.isEmpty_iff, ofList_eq_empty_iff,
    Except.ok.injEq, if_true, ne_eq]

theorem packageTarget_three {name repository path : List Char} :
    packageTarget whole [.ofList name, .ofList repository, .ofList path] = .ok t ↔
      name ≠ [] ∧ path ≠ [] ∧ .package (.ofList name)
        (if repository = [] then none else some (.ofList repository)) ⟨.ofList path⟩ = t := by
  unfold packageTarget
  simp only [ok_bind, ite_error_eq_ok_iff, String.isEmpty_iff, ofList_eq_empty_iff,
    Except.ok.injEq, ne_eq]

theorem packageTarget_fields_eq_ok_iff :
    packageTarget whole (Text.fields ':' (.ofList body)) = .ok t ↔ Terms t body := by
  rw [Text.fields, String.toList_ofList]
  constructor
  · intro h
    have hsep : ∀ field ∈ Text.splitChars ':' body, ':' ∉ field :=
      fun _ => Text.not_mem_of_mem_splitChars
    have hbody := Text.intercalate_splitChars ':' body
    generalize Text.splitChars ':' body = fields at h hsep hbody
    obtain _ | ⟨name, _ | ⟨path, _ | ⟨last, _ | _⟩⟩⟩ := fields
    · cases h
    · cases h
    · obtain ⟨hname, hpath, rfl⟩ := packageTarget_two.1 h
      simp only [List.forall_mem_cons] at hsep
      obtain ⟨hn, hp, -⟩ := hsep
      subst hbody
      simpa [List.intercalate] using Terms.package hname hpath hn hp
    · obtain ⟨hname, hpath, rfl⟩ := packageTarget_three.1 h
      simp only [List.forall_mem_cons] at hsep
      obtain ⟨hn, hr, hp, -⟩ := hsep
      subst hbody
      simpa [List.intercalate] using Terms.repository hname hpath hn hr hp
    · cases h
  · intro h
    cases h with
    | package hname hpath hn hp =>
      rw [Text.splitChars_append hn, Text.splitChars_of_not_mem hp]
      exact packageTarget_two.2 ⟨hname, hpath, rfl⟩
    | repository hname hpath hn hr hp =>
      rw [Text.splitChars_append hn, Text.splitChars_append hr, Text.splitChars_of_not_mem hp]
      exact packageTarget_three.2 ⟨hname, hpath, rfl⟩

theorem stripScheme_append (h : lead.map Char.toLower = scheme.toList) (body : List Char) :
    stripScheme (lead ++ body) = (true, body) := by
  have hlength : lead.length = scheme.length := by
    rw [← List.length_map Char.toLower, h, String.length_toList]
  rw [stripScheme, ← hlength, List.take_left, List.drop_left, if_pos h]

theorem stripScheme_eq_true (h : (stripScheme cs).1 = true) :
    ∃ lead body, lead.map Char.toLower = scheme.toList ∧ cs = lead ++ body := by
  unfold stripScheme at h
  split at h
  · rename_i hlead
    exact ⟨_, _, hlead, (List.take_append_drop ..).symm⟩
  · cases h

theorem stripScheme_eq_false (h : (stripScheme cs).1 = false) : stripScheme cs = (false, cs) := by
  unfold stripScheme at h ⊢
  split at h
  · cases h
  · rename_i hlead
    rw [if_neg hlead]

theorem eq_sep_of_toLower {c : Char} (h : c.toLower = ':') : c = ':' := by
  unfold Char.toLower at h
  split at h
  · rename_i hupper
    rw [ge_iff_le, UInt32.le_iff_toNat_le, UInt32.le_iff_toNat_le] at hupper
    have hval : c.val + ('a'.val - 'A'.val) = ':'.val := congrArg Char.val h
    have hsum := congrArg UInt32.toNat hval
    have hfirst : 'A'.val.toNat = 65 := rfl
    have hlast : 'Z'.val.toNat = 90 := rfl
    have hshift : ('a'.val - 'A'.val).toNat = 32 := rfl
    have hsep : ':'.val.toNat = 58 := rfl
    rw [UInt32.toNat_add] at hsum
    omega
  · exact h

theorem stripScheme_of_not_mem (h : ':' ∉ cs) : (stripScheme cs).1 = false := by
  rw [Bool.eq_false_iff]
  intro hs
  obtain ⟨lead, body, hlead, rfl⟩ := stripScheme_eq_true hs
  have hsep : ':' ∈ lead.map Char.toLower := by
    rw [hlead]
    decide
  obtain ⟨c, hc, hlower⟩ := List.mem_map.1 hsep
  obtain rfl := eq_sep_of_toLower hlower
  exact h (List.mem_append_left _ hc)

theorem targetOf_eq_ok_iff : targetOf whole rest = .ok t ↔ Spells t rest := by
  constructor
  · intro h
    unfold targetOf at h
    cases hs : (stripScheme rest).1 with
    | true =>
      obtain ⟨lead, body, hlead, rfl⟩ := stripScheme_eq_true hs
      simp only [stripScheme_append hlead, Bool.true_or, if_pos] at h
      exact .schemed hlead (packageTarget_fields_eq_ok_iff.1 h)
    | false =>
      rw [stripScheme_eq_false hs] at h
      simp only [Bool.false_or, List.contains_iff_mem] at h
      split at h
      · exact .bare hs (packageTarget_fields_eq_ok_iff.1 h)
      · rename_i hsep
        split at h
        · cases h
        · rename_i hempty
          obtain rfl := Except.ok.inj h
          exact .path (by simpa using hempty) hsep
  · intro h
    cases h with
    | path hne hsep =>
      simp [targetOf, stripScheme_eq_false (stripScheme_of_not_mem hsep), hsep, hne]
    | schemed hlead h =>
      simp [targetOf, stripScheme_append hlead, packageTarget_fields_eq_ok_iff.2 h]
    | bare hlead h =>
      simp [targetOf, stripScheme_eq_false hlead, h.sep_mem, packageTarget_fields_eq_ok_iff.2 h]

theorem parse_eq_ok_iff :
    parse text = .ok r ↔ ∃ n rest, Text.trimChars text.toList = List.replicate n '@' ++ rest ∧
      (∀ c ∈ rest.head?, c ≠ '@') ∧ r.indirection = indirectionOf n ∧ Spells r.target rest := by
  have hparse : ∀ n rest, Text.trimChars text.toList = List.replicate n '@' ++ rest →
      (∀ c ∈ rest.head?, c ≠ '@') →
      (parse text = .ok r ↔ r.indirection = indirectionOf n ∧ Spells r.target rest) := by
    intro n rest htext hrest
    have hmarks := Text.takeWhile_replicate_append (n := n) hrest
    unfold parse
    rw [bind_eq_ok_iff, htext, hmarks, List.drop_left]
    simp only [targetOf_eq_ok_iff, List.length_replicate]
    constructor
    · rintro ⟨t, ht, h⟩
      obtain rfl := Except.ok.inj h
      exact ⟨rfl, ht⟩
    · rintro ⟨hi, ht⟩
      exact ⟨r.target, ht, congrArg Except.ok (by rw [← hi])⟩
  constructor
  · intro h
    obtain ⟨n, rest, htext, hrest⟩ := Text.exists_replicate_append '@' (Text.trimChars text.toList)
    exact ⟨n, rest, htext, hrest, (hparse n rest htext hrest).1 h⟩
  · rintro ⟨n, rest, htext, hrest, h⟩
    exact (hparse n rest htext hrest).2 h

theorem exists_badName_of_packageTarget {terms : List String}
    (h : packageTarget whole terms = .error e) : ∃ reason, e = .badName whole reason := by
  unfold packageTarget at h
  split at h
  case h_3 => exact ⟨_, (Except.error.inj h).symm⟩
  all_goals
    dsimp only [ok_bind] at h
    split at h
    · exact ⟨_, (Except.error.inj h).symm⟩
    · split at h
      · exact ⟨_, (Except.error.inj h).symm⟩
      · cases h

theorem exists_badName (h : parse text = .error e) : ∃ reason, e = .badName text reason := by
  unfold parse at h
  dsimp only at h
  generalize List.drop _ _ = rest at h
  cases htarget : targetOf text rest with
  | ok t =>
    rw [htarget] at h
    cases h
  | error e' =>
    rw [htarget] at h
    obtain rfl := Except.error.inj h
    unfold targetOf at htarget
    dsimp only at htarget
    split at htarget
    · exact exists_badName_of_packageTarget htarget
    · split at htarget
      · exact ⟨_, (Except.error.inj htarget).symm⟩
      · cases htarget

def marks : Indirection → Nat
  | .none => 0
  | .single => 1
  | .aliased => 2

theorem indirectionOf_marks (i : Indirection) : indirectionOf (marks i) = i := by
  cases i <;> rfl

theorem marks_indirectionOf_eq_zero_iff : marks (indirectionOf n) = 0 ↔ n = 0 := by
  match n with
  | 0 | 1 | n + 2 => simp [marks, indirectionOf]

theorem toList_render (r : Reference) :
    r.render.toList = List.replicate (marks r.indirection) '@' ++
      (render ⟨.none, r.target⟩).toList := by
  obtain ⟨i, t⟩ := r
  rw [← String.toList_ofList (l := List.replicate (marks i) '@'), ← String.toList_append]
  cases i <;> simp [render, marks]

theorem toList_render_package (name : String) (path : Path) :
    (render ⟨.none, .package name none path⟩).toList =
      scheme.toList ++ (name.toList ++ ':' :: path.text.toList) := by
  simp [render, toString]

theorem toList_render_repository (name repository : String) (path : Path) :
    (render ⟨.none, .package name (some repository) path⟩).toList =
      scheme.toList ++ (name.toList ++ ':' :: (repository.toList ++ ':' :: path.text.toList)) := by
  simp [render, toString]

theorem map_toLower_scheme : scheme.toList.map Char.toLower = scheme.toList := by
  decide

theorem Spells.render (h : Spells t cs) : Spells t (Reference.render ⟨.none, t⟩).toList := by
  have hterms : ∀ {t body}, Terms t body → Spells t (Reference.render ⟨.none, t⟩).toList := by
    intro t body h
    cases h with
    | package hname hpath hn hp =>
      rw [toList_render_package, String.toList_ofList, String.toList_ofList]
      exact .schemed map_toLower_scheme (.package hname hpath hn hp)
    | @repository name repository path hname hpath hn hr hp =>
      by_cases hempty : repository = []
      · rw [if_pos hempty, toList_render_package, String.toList_ofList, String.toList_ofList]
        exact .schemed map_toLower_scheme (.package hname hpath hn hp)
      · have hsame := Terms.repository hname hpath hn hr hp
        rw [if_neg hempty] at hsame ⊢
        rw [toList_render_repository, String.toList_ofList, String.toList_ofList,
          String.toList_ofList]
        exact .schemed map_toLower_scheme hsame
  cases h with
  | @path cs hne hsep =>
    have hsame : (Reference.render ⟨.none, .path ⟨.ofList cs⟩⟩).toList = cs := by
      simp [Reference.render]
    rw [hsame]
    exact .path hne hsep
  | schemed hlead h => exact hterms h
  | bare hlead h => exact hterms h

theorem Spells.head?_render {c : Char} (h : Spells t cs)
    (hc : c ∈ (Reference.render ⟨.none, t⟩).toList.head?) : c ∈ cs.head? ∨ c = 'u' := by
  have hterms : ∀ {body}, Terms t body → c = 'u' := by
    intro body h
    obtain ⟨name, repository, path, rfl⟩ : ∃ name repository path,
        t = .package name repository path := by
      cases h <;> exact ⟨_, _, _, rfl⟩
    cases repository <;> simpa [Reference.render, scheme, toString, eq_comm] using hc
  cases h with
  | path hne hsep =>
    left
    simpa [Reference.render] using hc
  | schemed hlead h => exact .inr (hterms h)
  | bare hlead h => exact .inr (hterms h)

theorem Spells.exists_lead (h : Spells t cs) :
    ∃ lead path, cs = lead ++ path ∧ path ≠ [] ∧ Reference.path ⟨.none, t⟩ = ⟨.ofList path⟩ := by
  have hterms : ∀ {body}, Terms t body → ∃ lead path, body = lead ++ path ∧ path ≠ [] ∧
      Reference.path ⟨.none, t⟩ = ⟨.ofList path⟩ := by
    intro body h
    cases h with
    | @package name path _ hpath => exact ⟨name ++ [':'], path, by simp, hpath, rfl⟩
    | @repository name repository path _ hpath =>
      exact ⟨name ++ ':' :: (repository ++ [':']), path, by simp, hpath, rfl⟩
  cases h with
  | path hne => exact ⟨[], _, rfl, hne, rfl⟩
  | @schemed _ lead body hlead h =>
    obtain ⟨inner, path, rfl, hpath⟩ := hterms h
    exact ⟨lead ++ inner, path, (List.append_assoc ..).symm, hpath⟩
  | bare hlead h => exact hterms h

theorem Spells.getLast?_append (h : Spells t cs) (front : List Char) :
    (front ++ cs).getLast? = (Reference.path ⟨.none, t⟩).text.toList.getLast? := by
  obtain ⟨lead, path, rfl, hne, hpath⟩ := h.exists_lead
  rw [hpath, String.toList_ofList, ← List.append_assoc, List.getLast?_append_of_ne_nil _ hne]

/-- A reference is read again from its text as it is, whatever the text that it was read from. -/
theorem parse_render (h : parse text = .ok r) : parse r.render = .ok r := by
  obtain ⟨n, rest, htext, hrest, hi, hspells⟩ := parse_eq_ok_iff.1 h
  have htrimmed := Text.trimmed_trimChars text.toList
  rw [htext] at htrimmed
  -- first comes a mark, the scheme or what was first before, and last what was last before
  have hrendered : Text.Trimmed r.render.toList := by
    rw [toList_render]
    constructor
    · intro c hc
      cases hmarks : marks r.indirection with
      | zero =>
        obtain rfl : n = 0 := marks_indirectionOf_eq_zero_iff.1 (hi ▸ hmarks)
        rw [hmarks] at hc
        rcases hspells.head?_render hc with hc | rfl
        · exact htrimmed.first c hc
        · decide
      | succ k =>
        rw [hmarks] at hc
        obtain rfl := Option.some.inj hc
        decide
    · rw [hspells.render.getLast?_append, ← hspells.getLast?_append (List.replicate n '@')]
      exact htrimmed.last
  refine parse_eq_ok_iff.2 ⟨marks r.indirection, _, ?_, ?_, (indirectionOf_marks _).symm,
    hspells.render⟩
  · rw [hrendered.trimChars_eq, toList_render]
  · intro c hc
    rcases hspells.head?_render hc with hc | rfl
    · exact hrest c hc
    · decide

/-- A blank after the marks, so that what looks like the scheme is a package and its repository. -/
theorem parse_render_blank :
    parse "\t@@@ urn:eupspkg:x/y " =
        .ok ⟨.aliased, .package " urn" (some "eupspkg") ⟨"x/y"⟩⟩ ∧
      parse "@@urn:eupspkg: urn:eupspkg:x/y" =
        .ok ⟨.aliased, .package " urn" (some "eupspkg") ⟨"x/y"⟩⟩ := by
  have hparse : parse "\t@@@ urn:eupspkg:x/y " =
      .ok ⟨.aliased, .package " urn" (some "eupspkg") ⟨"x/y"⟩⟩ :=
    toOption_eq_some_iff.1 (by decide +kernel)
  have hrender : render ⟨.aliased, .package " urn" (some "eupspkg") ⟨"x/y"⟩⟩ =
      "@@urn:eupspkg: urn:eupspkg:x/y" := by
    decide +kernel
  rw [← hrender]
  exact ⟨hparse, parse_render hparse⟩

end Reference

end PolicyTree
