import PolicyTree.Proofs.Reference.Grammar

namespace PolicyTree

namespace Text

variable {cs core front back : List Char}

def Blank (cs : List Char) : Prop :=
  ∀ c ∈ cs, isBlank c = true

theorem Blank.reverse (h : Blank cs) : Blank cs.reverse :=
  fun c hc => h c (List.mem_reverse.1 hc)

theorem blank_takeWhile (cs : List Char) : Blank (cs.takeWhile isBlank) :=
  fun _ hc => List.mem_takeWhile_imp hc

theorem exists_trimChars_append (cs : List Char) :
    ∃ front back, cs = front ++ (trimChars cs ++ back) ∧ Blank front ∧ Blank back := by
  refine ⟨_, _, ?_, blank_takeWhile cs, (blank_takeWhile (cs.dropWhile isBlank).reverse).reverse⟩
  rw [trimChars, ← List.reverse_append, List.takeWhile_append_dropWhile, List.reverse_reverse,
    List.takeWhile_append_dropWhile]

theorem Trimmed.trimChars_append (h : Trimmed core) (hf : Blank front) (hb : Blank back) :
    trimChars (front ++ (core ++ back)) = core := by
  rw [trimChars, List.dropWhile_append_of_pos hf]
  by_cases hne : core = []
  · rw [hne, List.nil_append, List.dropWhile_eq_nil_iff.2 hb]
    rfl
  · have hfirst : ∀ c ∈ (core ++ back).head?, isBlank c = false := by
      rw [List.head?_append_of_ne_nil _ hne]
      exact h.first
    have hlast : ∀ c ∈ core.reverse.head?, isBlank c = false := by
      rw [List.head?_reverse]
      exact h.last
    rw [dropWhile_eq_self hfirst, List.reverse_append, List.dropWhile_append_of_pos hb.reverse,
      dropWhile_eq_self hlast, List.reverse_reverse]

end Text

namespace Reference

variable {cs body marks : List Char} {t : Target} {r : Reference} {i : Indirection} {text : String}

def Schemed (cs body : List Char) : Prop :=
  ∃ lead, cs = lead ++ body ∧ lead.map Char.toLower = scheme.toList

/-- A target in words: a path without separators, or terms after the scheme. Terms do without the
scheme only where what they begin with is not the scheme. -/
inductive Phrase : Target → List Char → Prop
  | path {cs : List Char} (hne : cs ≠ []) (hsep : ':' ∉ cs) : Phrase (.path ⟨.ofList cs⟩) cs
  | schemed {t : Target} {cs body : List Char} (hscheme : Schemed cs body) (h : Terms t body) :
      Phrase t cs
  | bare {t : Target} {cs : List Char} (hscheme : ∀ body, ¬Schemed cs body) (h : Terms t cs) :
      Phrase t cs

inductive Marks : Indirection → List Char → Prop
  | none : Marks .none []
  | single : Marks .single ['@']
  | aliased (n : Nat) : Marks .aliased (List.replicate (n + 2) '@')

/-- A whole reference: a run of marks, as far as it goes, and the target. -/
inductive Sentence : Reference → List Char → Prop
  | intro {i : Indirection} {t : Target} {marks rest : List Char} (hmarks : Marks i marks)
      (hrest : ∀ c ∈ rest.head?, c ≠ '@') (h : Phrase t rest) : Sentence ⟨i, t⟩ (marks ++ rest)

theorem Schemed.stripScheme_eq (h : Schemed cs body) : stripScheme cs = (true, body) := by
  obtain ⟨lead, rfl, hlead⟩ := h
  exact stripScheme_append hlead body

theorem fst_stripScheme_eq_false_iff : (stripScheme cs).1 = false ↔ ∀ body, ¬Schemed cs body := by
  constructor
  · intro h body hscheme
    rw [hscheme.stripScheme_eq] at h
    cases h
  · intro h
    rw [Bool.eq_false_iff]
    intro hs
    obtain ⟨lead, body, hlead, heq⟩ := stripScheme_eq_true hs
    exact h body ⟨lead, heq, hlead⟩

theorem spells_iff : Spells t cs ↔ Phrase t cs := by
  constructor
  · intro h
    cases h with
    | path hne hsep => exact .path hne hsep
    | schemed hlead h => exact .schemed ⟨_, rfl, hlead⟩ h
    | bare hlead h => exact .bare (fst_stripScheme_eq_false_iff.1 hlead) h
  · intro h
    cases h with
    | path hne hsep => exact .path hne hsep
    | schemed hscheme h =>
      obtain ⟨lead, rfl, hlead⟩ := hscheme
      exact .schemed hlead h
    | bare hscheme h => exact .bare (fst_stripScheme_eq_false_iff.2 hscheme) h

theorem marks_iff : Marks i marks ↔ ∃ n, marks = List.replicate n '@' ∧ i = indirectionOf n := by
  constructor
  · intro h
    cases h with
    | none => exact ⟨0, rfl, rfl⟩
    | single => exact ⟨1, rfl, rfl⟩
    | aliased n => exact ⟨n + 2, rfl, rfl⟩
  · rintro ⟨n, rfl, rfl⟩
    match n with
    | 0 => exact .none
    | 1 => exact .single
    | n + 2 => exact .aliased n

theorem parse_eq_ok_iff_sentence :
    parse text = .ok r ↔ Sentence r (Text.trimChars text.toList) := by
  rw [parse_eq_ok_iff]
  constructor
  · rintro ⟨n, rest, htext, hrest, hi, h⟩
    rw [htext]
    obtain ⟨i, t⟩ := r
    exact .intro (marks_iff.2 ⟨n, rfl, hi⟩) hrest (spells_iff.1 h)
  · intro h
    generalize Text.trimChars text.toList = cs at h
    cases h with
    | intro hmarks hrest h =>
      obtain ⟨n, rfl, hi⟩ := marks_iff.1 hmarks
      exact ⟨n, _, rfl, hrest, hi, spells_iff.2 h⟩

theorem Phrase.isPackage_eq (h : Phrase t cs) (i : Indirection) :
    isPackage ⟨i, t⟩ = ((stripScheme cs).1 || (stripScheme cs).2.contains ':') := by
  have hterms : ∀ {body}, Terms t body → isPackage ⟨i, t⟩ = true := by
    intro body h
    cases h <;> rfl
  cases h with
  | path hne hsep =>
    rw [stripScheme_eq_false (stripScheme_of_not_mem hsep), Bool.false_or]
    simpa [isPackage] using hsep
  | schemed hscheme h => rw [hterms h, hscheme.stripScheme_eq, Bool.true_or]
  | bare hscheme h =>
    rw [hterms h, stripScheme_eq_false (fst_stripScheme_eq_false_iff.2 hscheme), Bool.false_or]
    simpa using h.sep_mem

theorem Sentence.isPackage_eq (h : Sentence r (Text.trimChars text.toList)) :
    r.isPackage = looksLikePackage text := by
  rw [looksLikePackage]
  generalize Text.trimChars text.toList = cs at h
  cases h with
  | @intro i t marks rest hmarks hrest h =>
    obtain ⟨n, rfl, -⟩ := marks_iff.1 hmarks
    have hdrop : (List.replicate n '@' ++ rest).dropWhile (· == '@') = rest := by
      rw [List.dropWhile_append_of_pos (by simp)]
      exact Text.dropWhile_eq_self fun c hc => beq_eq_false_iff_ne.2 (hrest c hc)
    rw [hdrop]
    exact h.isPackage_eq i

/-- A text is read as a reference exactly if it is a sentence for it with blanks around, and an
accepted text looks like a reference to a package exactly if it is one. -/
theorem parse_accepts (text : String) :
    (∀ r, parse text = .ok r ↔ ∃ front sentence back,
      text.toList = front ++ (sentence ++ back) ∧ Text.Blank front ∧ Text.Blank back ∧
        Text.Trimmed sentence ∧ Sentence r sentence) ∧
      ∀ r, parse text = .ok r → r.isPackage = looksLikePackage text := by
  refine ⟨fun r => ?_, fun r h => (parse_eq_ok_iff_sentence.1 h).isPackage_eq⟩
  rw [parse_eq_ok_iff_sentence]
  constructor
  · intro h
    obtain ⟨front, back, htext, hf, hb⟩ := Text.exists_trimChars_append text.toList
    exact ⟨front, _, back, htext, hf, hb, Text.trimmed_trimChars _, h⟩
  · rintro ⟨front, sentence, back, htext, hf, hb, htrimmed, h⟩
    rwa [htext, htrimmed.trimChars_append hf hb]

/-- The scheme is taken once, in any letter case; what looks like it afterwards is terms. -/
theorem parse_accepts_capitals :
    parse "\n@URN:EUPSPKG:urn:eupspkg:map " =
        .ok ⟨.single, .package "urn" (some "eupspkg") ⟨"map"⟩⟩ ∧
      looksLikePackage "\n@URN:EUPSPKG:urn:eupspkg:map " = true := by
  obtain ⟨haccepts, hlooks⟩ := parse_accepts "\n@URN:EUPSPKG:urn:eupspkg:map "
  have hterms := @Terms.repository "urn".toList "eupspkg".toList "map".toList (by decide)
    (by decide) (by decide) (by decide) (by decide)
  have hphrase := Phrase.schemed ⟨"URN:EUPSPKG:".toList, rfl, by decide⟩ hterms
  have hmarks : ∀ c ∈ "URN:EUPSPKG:urn:eupspkg:map".toList.head?, c ≠ '@' := by
    rintro _ ⟨⟩
    decide
  have hsentence := Sentence.intro .single hmarks hphrase
  have htrimmed : Text.Trimmed (['@'] ++ "URN:EUPSPKG:urn:eupspkg:map".toList) := by
    constructor
    · rintro _ ⟨⟩
      decide
    · rintro _ ⟨⟩
      decide
  have hparse := (haccepts _).2 ⟨['\n'], _, [' '], by decide, List.forall_mem_singleton.2 rfl,
    List.forall_mem_singleton.2 rfl, htrimmed, hsentence⟩
  exact ⟨hparse, (hlooks _ hparse).symm⟩

end Reference

end PolicyTree
