import Mathlib.Data.List.Basic
import PolicyTree.Document
import PolicyTree.Name

namespace PolicyTree

namespace Text

variable {sep : Char} {cs rest field : List Char}

theorem splitChars_cons_of_ne {c : Char} (cs : List Char) (h : c ≠ sep) :
    ∃ field fields, splitChars sep cs = field :: fields ∧
      splitChars sep (c :: cs) = (c :: field) :: fields := by
  cases hs : splitChars sep cs with
  | nil => exact absurd hs (splitChars_ne_nil sep cs)
  | cons field fields => exact ⟨field, fields, rfl, by rw [splitChars, if_neg h, hs]⟩

theorem not_mem_of_mem_splitChars (h : field ∈ splitChars sep cs) : sep ∉ field := by
  induction cs generalizing field with
  | nil =>
    obtain rfl : field = [] := by simpa [splitChars] using h
    exact List.not_mem_nil
  | cons c cs ih =>
    by_cases hc : c = sep
    · rw [splitChars, if_pos hc] at h
      rcases List.mem_cons.1 h with rfl | h
      · exact List.not_mem_nil
      · exact ih h
    · obtain ⟨first, fields, hs, he⟩ := splitChars_cons_of_ne cs hc
      rw [he] at h
      rw [hs] at ih
      rcases List.mem_cons.1 h with rfl | h
      · have hf := ih (List.mem_cons_self ..)
        rw [List.mem_cons, not_or]
        exact ⟨Ne.symm hc, hf⟩
      · exact ih (List.mem_cons_of_mem _ h)

theorem splitChars_of_not_mem (h : sep ∉ cs) : splitChars sep cs = [cs] := by
  induction cs with
  | nil => rfl
  | cons c cs ih =>
    rw [List.mem_cons, not_or] at h
    rw [splitChars, if_neg (Ne.symm h.1), ih h.2]

theorem splitChars_append_separator (as bs : List Char) :
    splitChars sep (as ++ sep :: bs) = splitChars sep as ++ splitChars sep bs := by
  induction as with
  | nil => simp [splitChars]
  | cons c as ih =>
    by_cases hc : c = sep
    · rw [List.cons_append, splitChars, splitChars, if_pos hc, if_pos hc, ih, List.cons_append]
    · obtain ⟨field, fields, hs, he⟩ := splitChars_cons_of_ne as hc
      rw [he, List.cons_append, splitChars, if_neg hc, ih, hs]
      rfl

theorem splitChars_append (h : sep ∉ cs) :
    splitChars sep (cs ++ sep :: rest) = cs :: splitChars sep rest := by
  rw [splitChars_append_separator, splitChars_of_not_mem h, List.singleton_append]

theorem fields_append_separator (s t : String) :
    fields sep (s ++ String.singleton sep ++ t) = fields sep s ++ fields sep t := by
  rw [fields, String.toList_append, String.toList_append, String.toList_singleton,
    List.append_assoc, List.singleton_append, splitChars_append_separator, List.map_append]
  rfl

theorem fields_of_not_mem {text : String} (h : sep ∉ text.toList) : fields sep text = [text] := by
  rw [fields, splitChars_of_not_mem h, List.map_singleton, String.ofList_toList]

theorem not_mem_of_mem_fields {s text : String} (h : s ∈ fields sep text) : sep ∉ s.toList := by
  obtain ⟨cs, hcs, rfl⟩ := List.mem_map.1 h
  rw [String.toList_ofList]
  exact not_mem_of_mem_splitChars hcs

theorem intercalate_splitChars (sep : Char) (cs : List Char) :
    [sep].intercalate (splitChars sep cs) = cs := by
  induction cs with
  | nil => rfl
  | cons c cs ih =>
    by_cases hc : c = sep
    · rw [splitChars, if_pos hc]
      cases hs : splitChars sep cs with
      | nil => exact absurd hs (splitChars_ne_nil sep cs)
      | cons field fields =>
        rw [hs] at ih
        simpa [List.intercalate, hc] using ih
    · obtain ⟨field, fields, hs, he⟩ := splitChars_cons_of_ne cs hc
      rw [hs] at ih
      rw [he]
      cases fields with
      | nil => simpa [List.intercalate] using ih
      | cons next fields => simpa [List.intercalate] using ih

end Text

namespace Name

variable {n s t : String} {segs path : List String}

theorem isLeaf_iff : isLeaf s = true ↔ s ≠ "" ∧ separator ∉ s.toList := by
  simp [isLeaf]

theorem isLeaf_concat (hpath : ∀ s ∈ path, isLeaf s = true) (ht : isLeaf t = true) :
    ∀ s ∈ path ++ [t], isLeaf s = true :=
  List.forall_mem_append.2 ⟨hpath, List.forall_mem_singleton.2 ht⟩

@[simp] theorem ofSegments_nil : ofSegments [] = "" := rfl

@[simp] theorem ofSegments_singleton : ofSegments [s] = s :=
  String.intercalate_singleton

theorem ofSegments_cons_cons :
    ofSegments (s :: t :: segs) = s ++ String.singleton separator ++ ofSegments (t :: segs) :=
  String.intercalate_cons_cons

theorem ofSegments_fields (n : String) : ofSegments (Text.fields separator n) = n := by
  rw [← String.toList_inj, ofSegments, String.toList_intercalate, Text.fields, List.map_map]
  have hid : (String.toList ∘ String.ofList) = id := by
    funext cs
    exact String.toList_ofList
  rw [hid, List.map_id, String.toList_singleton]
  exact Text.intercalate_splitChars separator n.toList

theorem fields_ofSegments (hne : segs ≠ []) (h : ∀ s ∈ segs, isLeaf s = true) :
    Text.fields separator (ofSegments segs) = segs := by
  induction segs with
  | nil => exact absurd rfl hne
  | cons s segs ih =>
    rw [List.forall_mem_cons] at h
    have hs := (isLeaf_iff.1 h.1).2
    cases segs with
    | nil => rw [ofSegments_singleton, Text.fields_of_not_mem hs]
    | cons t segs =>
      rw [ofSegments_cons_cons, Text.fields_append_separator, Text.fields_of_not_mem hs,
        ih (List.cons_ne_nil _ _) h.2, List.singleton_append]

/-- A name is well-formed if none of its fields is empty. -/
def WellFormed (name : String) : Prop :=
  ∀ s ∈ Text.fields separator name, s ≠ ""

instance : DecidablePred WellFormed := fun name =>
  inferInstanceAs (Decidable (∀ s ∈ Text.fields separator name, s ≠ ""))

theorem any_isEmpty_fields_iff :
    (Text.fields separator n).any String.isEmpty = true ↔ ¬WellFormed n := by
  simp [WellFormed]

theorem not_wellFormed_empty : ¬WellFormed "" := by decide +kernel

/-- A name is valid if it is well-formed, and the error tells why it is not. -/
theorem validate_eq (n : String) : validate n =
    if WellFormed n then .ok ()
    else .error (.badName n (if n = "" then "empty name" else "contains an empty field")) := by
  rw [validate]
  by_cases hempty : n = ""
  · subst hempty
    rw [if_neg not_wellFormed_empty]
    rfl
  · rw [if_neg (mt String.isEmpty_iff.1 hempty), if_neg hempty]
    by_cases h : WellFormed n
    · rw [if_neg (not_not.2 h ∘ any_isEmpty_fields_iff.1), if_pos h]
    · rw [if_pos (any_isEmpty_fields_iff.2 h), if_neg h]

theorem segments_eq (n : String) : segments n =
    if WellFormed n then .ok (Text.fields separator n)
    else .error (.badName n (if n = "" then "empty name" else "contains an empty field")) := by
  rw [segments, validate_eq]
  by_cases h : WellFormed n
  · rw [if_pos h, if_pos h]
    rfl
  · rw [if_neg h, if_neg h]
    rfl

theorem validate_eq_ok_iff : validate n = .ok () ↔ WellFormed n := by
  rw [validate_eq]
  by_cases h : WellFormed n <;> simp [h]

theorem segments_eq_ok_iff_fields :
    segments n = .ok segs ↔ WellFormed n ∧ Text.fields separator n = segs := by
  rw [segments_eq]
  by_cases h : WellFormed n <;> simp [h]

theorem wellFormed_iff : WellFormed n ↔ ∃ segs, segments n = .ok segs := by
  constructor
  · intro h
    exact ⟨_, segments_eq_ok_iff_fields.2 ⟨h, rfl⟩⟩
  · rintro ⟨segs, hsegs⟩
    exact (segments_eq_ok_iff_fields.1 hsegs).1

/-- The segments of a well-formed name are what the name is written from. -/
theorem segments_eq_ok_iff :
    segments n = .ok segs ↔
      segs ≠ [] ∧ (∀ s ∈ segs, isLeaf s = true) ∧ n = ofSegments segs := by
  rw [segments_eq_ok_iff_fields]
  constructor
  · rintro ⟨h, rfl⟩
    have hleaf : ∀ s ∈ Text.fields separator n, isLeaf s = true := fun s hs =>
      isLeaf_iff.2 ⟨h s hs, Text.not_mem_of_mem_fields hs⟩
    exact ⟨Text.fields_ne_nil _ _, hleaf, (ofSegments_fields n).symm⟩
  · rintro ⟨hne, hleaf, rfl⟩
    have hfields := fields_ofSegments hne hleaf
    refine ⟨fun s hs => ?_, hfields⟩
    rw [hfields] at hs
    exact (isLeaf_iff.1 (hleaf s hs)).1

theorem segments_ofSegments (hne : segs ≠ []) (h : ∀ s ∈ segs, isLeaf s = true) :
    segments (ofSegments segs) = .ok segs :=
  segments_eq_ok_iff.2 ⟨hne, h, rfl⟩

theorem fields_of_segments (h : segments n = .ok segs) : Text.fields separator n = segs :=
  (segments_eq_ok_iff_fields.1 h).2

theorem exists_leaf_of_segments (h : segments n = .ok segs) :
    ∃ path leaf, segs = path ++ [leaf] :=
  (List.eq_nil_or_concat' segs).resolve_left (segments_eq_ok_iff.1 h).1

theorem exists_concat_of_segments (h : segments n = .ok segs) :
    ∃ path leaf, segs = path ++ [leaf] ∧ (∀ s ∈ path, isLeaf s = true) ∧ isLeaf leaf = true ∧
      n = ofSegments (path ++ [leaf]) := by
  obtain ⟨path, leaf, rfl⟩ := exists_leaf_of_segments h
  obtain ⟨-, hall, hname⟩ := segments_eq_ok_iff.1 h
  rw [List.forall_mem_append, List.forall_mem_singleton] at hall
  exact ⟨path, leaf, rfl, hall.1, hall.2, hname⟩

theorem segments_of_isLeaf (h : isLeaf s = true) : segments s = .ok [s] :=
  segments_eq_ok_iff.2 ⟨by simp, by simpa using h, by simp⟩

theorem isLeaf_of_mem_segments (h : segments n = .ok segs) (hs : s ∈ segs) : isLeaf s = true :=
  (segments_eq_ok_iff.1 h).2.1 s hs

theorem ofSegments_ne_empty (hne : segs ≠ []) (h : ∀ s ∈ segs, isLeaf s = true) :
    ofSegments segs ≠ "" := by
  intro he
  have hs := segments_ofSegments hne h
  rw [he] at hs
  cases hs

theorem ofSegments_inj (hs : ∀ s ∈ segs, isLeaf s = true) (hp : ∀ s ∈ path, isLeaf s = true)
    (h : ofSegments segs = ofSegments path) : segs = path := by
  by_cases hne : segs = []
  · subst hne
    by_cases hpe : path = []
    · exact hpe.symm
    · exact absurd h.symm (ofSegments_ne_empty hpe hp)
  · by_cases hpe : path = []
    · subst hpe
      exact absurd h (ofSegments_ne_empty hne hs)
    · have h₁ := segments_ofSegments hne hs
      have h₂ := segments_ofSegments hpe hp
      rw [h, h₂] at h₁
      exact (Except.ok.inj h₁).symm

theorem join_of_ne_empty (h : n ≠ "") : join n s = n ++ String.singleton separator ++ s := by
  have he : n.isEmpty = false := by
    rw [Bool.eq_false_iff]
    exact mt String.isEmpty_iff.1 h
  simp [join, he]

theorem join_ne_empty (h : s ≠ "") : join n s ≠ "" := by
  by_cases hn : n = ""
  · subst hn
    exact h
  · rw [join_of_ne_empty hn]
    simp [h]

theorem join_assoc (h : s ≠ "") : join (join n s) t = join n (join s t) := by
  by_cases hn : n = ""
  · subst hn
    rfl
  · have hns : join n s ≠ "" := join_ne_empty h
    rw [join_of_ne_empty hns, join_of_ne_empty hn, join_of_ne_empty hn, join_of_ne_empty h]
    simp only [String.append_assoc]

theorem join_ofSegments_append (h : ∀ s ∈ path, isLeaf s = true) (hne : segs ≠ []) :
    join (ofSegments path) (ofSegments segs) = ofSegments (path ++ segs) := by
  cases path with
  | nil => simp [join]
  | cons s path =>
    have hne' : ofSegments (s :: path) ≠ "" := ofSegments_ne_empty (List.cons_ne_nil _ _) h
    rw [join_of_ne_empty hne']
    exact (String.intercalate_append_of_ne_nil (s := String.singleton separator)
      (List.cons_ne_nil s path) hne).symm

theorem join_ofSegments (h : ∀ s ∈ path, isLeaf s = true) (leaf : String) :
    join (ofSegments path) leaf = ofSegments (path ++ [leaf]) := by
  rw [← join_ofSegments_append h (List.cons_ne_nil leaf []), ofSegments_singleton]

theorem foldl_join_ofSegments (hp : ∀ s ∈ path, isLeaf s = true)
    (hs : ∀ s ∈ segs, isLeaf s = true) :
    segs.foldl join (ofSegments path) = ofSegments (path ++ segs) := by
  induction segs generalizing path with
  | nil => rw [List.append_nil, List.foldl_nil]
  | cons s segs ih =>
    have hhead := hs s (List.mem_cons_self ..)
    rw [List.foldl_cons, join_ofSegments hp,
      ih (isLeaf_concat hp hhead) fun t ht => hs t (List.mem_cons_of_mem _ ht), List.append_assoc,
      List.singleton_append]

end Name

end PolicyTree
