import PolicyTree.Proofs.Policy.Names
import PolicyTree.Proofs.Resolver.Promotion
import PolicyTree.Proofs.Schema.Reordering

namespace PolicyTree

def dictionaryFileSuffix : String :=
  String.singleton Name.separator ++ dictionaryFileKey

theorem pair_sublist_or_swap {α : Type} {l : List α} {a b : α} (ha : a ∈ l) (hb : b ∈ l)
    (hne : a ≠ b) : [a, b].Sublist l ∨ [b, a].Sublist l := by
  obtain ⟨front, back, rfl⟩ := List.append_of_mem ha
  rcases List.mem_append.1 hb with hb | hb
  · exact .inr ((List.singleton_sublist.2 hb).append (List.singleton_sublist.2 (by simp)))
  · have hback : b ∈ back := (List.mem_cons.1 hb).resolve_left hne.symm
    exact .inl (((List.singleton_sublist.2 hback).cons_cons a).trans
      (List.sublist_append_right front (a :: back)))

theorem not_pair_sublist_swap {α : Type} {l : List α} {a b : α} (hl : l.Nodup)
    (h : [a, b].Sublist l) : ¬[b, a].Sublist l := by
  induction l with
  | nil => cases h
  | cons c l ih => grind

namespace Name

variable {path : List String}

theorem endsWith_iff {name suffix : String} :
    name.endsWith suffix = true ↔ ∃ front, name = front ++ suffix := by
  rw [String.endsWith_eq_endsWith_toSlice, String.Slice.endsWith_string_iff,
    String.copy_toSlice]
  constructor
  · rintro ⟨cs, hcs⟩
    refine ⟨String.ofList cs, String.toList_inj.1 ?_⟩
    rw [String.toList_append, String.toList_ofList, hcs]
  · rintro ⟨front, rfl⟩
    exact ⟨front.toList, String.toList_append.symm⟩

theorem fields_append_dictionaryFileSuffix (front : String) :
    Text.fields separator (front ++ dictionaryFileSuffix) =
      Text.fields separator front ++ [dictionaryFileKey] := by
  rw [dictionaryFileSuffix, ← String.append_assoc, Text.fields_append_separator,
    Text.fields_of_not_mem (isLeaf_iff.1 isLeaf_dictionaryFileKey).2]

theorem endsWith_dictionaryFileSuffix_iff (hne : path ≠ [])
    (hpath : ∀ s ∈ path, isLeaf s = true) :
    (ofSegments path).endsWith dictionaryFileSuffix = true ↔
      path.getLast? = some dictionaryFileKey ∧ path.dropLast ≠ [] := by
  rw [endsWith_iff]
  constructor
  · rintro ⟨front, hfront⟩
    have hfields := fields_ofSegments hne hpath
    rw [hfront, fields_append_dictionaryFileSuffix] at hfields
    rw [← hfields, List.getLast?_concat, List.dropLast_concat]
    exact ⟨rfl, Text.fields_ne_nil separator front⟩
  · rintro ⟨hlast, hfront⟩
    refine ⟨ofSegments path.dropLast, ?_⟩
    have hleaf : ∀ s ∈ path.dropLast, isLeaf s = true := fun s hs =>
      hpath s ((List.dropLast_sublist path).subset hs)
    rw [dictionaryFileSuffix, ← String.append_assoc,
      ← join_of_ne_empty (ofSegments_ne_empty hfront hleaf), join_ofSegments hleaf,
      List.dropLast_append_getLast? _ hlast]

end Name

namespace Policy

variable {p q x y z : Policy} {path w rest : List String} {name above holder text : String}
  {v : Value}

def dictionaryFileNames (p : Policy) : List String :=
  (p.names false .all).filter fun name => name.endsWith dictionaryFileSuffix

theorem WellFormed.dictionaryFileNames_eq (h : p.WellFormed) :
    p.dictionaryFileNames =
      p.holderPaths.map fun path => Name.ofSegments (path ++ [dictionaryFileKey]) := by
  rw [dictionaryFileNames, h.names_eq, List.filter_map, holderPaths, List.map_filterMap,
    ← List.filterMap_eq_filter, List.map_filterMap]
  apply List.filterMap_congr
  intro path hpath
  have hends := Name.endsWith_dictionaryFileSuffix_iff (ne_nil_of_mem_paths hpath)
    (h.isLeaf_of_mem_paths hpath)
  rw [Option.guard, Function.comp_apply]
  by_cases hif : path.getLast? = some dictionaryFileKey ∧ path.dropLast ≠ []
  · rw [if_pos (hends.2 hif), if_pos hif, Option.map_some, Option.map_some,
      List.dropLast_append_getLast? _ hif.1]
  · rw [if_neg (mt hends.1 hif), if_neg hif]
    rfl

theorem WellFormed.join_mem_dictionaryFileNames_iff (h : p.WellFormed) :
    Name.join holder dictionaryFileKey ∈ p.dictionaryFileNames ↔
      ∃ path ∈ p.holderPaths, holder = Name.ofSegments path := by
  rw [h.dictionaryFileNames_eq, List.mem_map]
  apply exists_congr
  intro path
  apply and_congr_right
  intro hpath
  have hleaf := h.isLeaf_of_mem_holderPaths hpath
  have hne := (h.mem_holderPaths_iff.1 hpath).1
  have hpathne := Name.ofSegments_ne_empty hne hleaf
  rw [← Name.join_ofSegments hleaf]
  constructor
  · intro heq
    by_cases hholder : holder = ""
    · -- the entry for a dictionary file of the whole tree would be a name of one segment
      rw [hholder, Name.join_ofSegments hleaf] at heq
      have hone : path ++ [dictionaryFileKey] = [] ++ [dictionaryFileKey] :=
        Name.ofSegments_inj (Name.isLeaf_concat hleaf isLeaf_dictionaryFileKey)
          (Name.isLeaf_concat (List.forall_mem_nil _) isLeaf_dictionaryFileKey) heq
      exact absurd (List.append_cancel_right hone) hne
    · rw [Name.join_of_ne_empty hpathne, Name.join_of_ne_empty hholder, String.append_left_inj,
        String.append_left_inj] at heq
      exact heq.symm
  · rintro rfl
    rfl

/-- A policy names a dictionary file, and another one is named within its `dictionary`. -/
def Nests (p : Policy) (holder : String) : Prop :=
  Name.join holder dictionaryFileKey ∈ p.dictionaryFileNames ∧
    ∃ name ∈ p.dictionaryFileNames, Name.Above (Name.join holder dictionaryKey) name

/-- A policy names a dictionary file before its `dictionary`, and another one is named within that,
so that the reference to the first one overwrites what the other one is named in. -/
structure Overwrites (p : Policy) (holder : String) : Prop where
  nests : p.Nests holder
  ahead : ∃ x, p.get holder = .ok (.policy x) ∧
    [dictionaryFileKey, dictionaryKey].Sublist (x.entries.map Entry.name)

theorem WellFormed.segments_of_mem_holderPaths (h : p.WellFormed) (hpath : path ∈ p.holderPaths) :
    Name.segments (Name.ofSegments path) = .ok path :=
  Name.segments_ofSegments (h.mem_holderPaths_iff.1 hpath).1 (h.isLeaf_of_mem_holderPaths hpath)

theorem WellFormed.nests_iff (h : p.WellFormed) :
    p.Nests holder ↔ ∃ path rest, holder = Name.ofSegments path ∧ path ∈ p.holderPaths ∧
      path ++ dictionaryKey :: rest ∈ p.holderPaths := by
  have habove : ∀ {path w}, path ∈ p.holderPaths → w ∈ p.holderPaths →
      (Name.Above (Name.join (Name.ofSegments path) dictionaryKey)
        (Name.ofSegments (w ++ [dictionaryFileKey])) ↔ path ++ [dictionaryKey] <+: w) := by
    intro path w hpath hw
    have hleaf := Name.isLeaf_concat (h.isLeaf_of_mem_holderPaths hpath) isLeaf_dictionaryKey
    have hname := Name.segments_ofSegments (List.concat_ne_nil dictionaryFileKey w)
      (Name.isLeaf_concat (h.isLeaf_of_mem_holderPaths hw) isLeaf_dictionaryFileKey)
    rw [Name.join_ofSegments (h.isLeaf_of_mem_holderPaths hpath), Name.above_iff hname]
    constructor
    · rintro ⟨front, -, hfront, heq⟩
      have hfrontleaf : ∀ s ∈ front, Name.isLeaf s = true := fun s hs =>
        h.isLeaf_of_mem_holderPaths hw s (hfront.subset hs)
      rwa [Name.ofSegments_inj hleaf hfrontleaf heq]
    · exact fun hprefix => ⟨_, List.concat_ne_nil dictionaryKey path, hprefix, rfl⟩
  rw [Nests, h.join_mem_dictionaryFileNames_iff, h.dictionaryFileNames_eq]
  constructor
  · rintro ⟨⟨path, hpath, rfl⟩, name, hname, hn⟩
    obtain ⟨w, hw, rfl⟩ := List.mem_map.1 hname
    obtain ⟨rest, rfl⟩ := (habove hpath hw).1 hn
    rw [List.append_assoc, List.singleton_append] at hw
    exact ⟨path, rest, rfl, hpath, hw⟩
  · rintro ⟨path, rest, rfl, hpath, hw⟩
    refine ⟨⟨path, hpath, rfl⟩, _, List.mem_map_of_mem hw, (habove hpath hw).2 ⟨rest, ?_⟩⟩
    rw [List.append_assoc, List.singleton_append]

theorem WellFormed.pairwise_precedes_holderPaths (h : p.WellFormed) :
    p.holderPaths.Pairwise fun path w =>
      p.Precedes (path ++ [dictionaryFileKey]) (w ++ [dictionaryFileKey]) := by
  rw [holderPaths, List.pairwise_filterMap]
  apply h.pairwise_precedes_paths.imp
  intro path w hprecedes holder hholder holder' hholder'
  split at hholder
  · rename_i hif
    split at hholder'
    · rename_i hif'
      obtain rfl := Option.some.inj hholder
      obtain rfl := Option.some.inj hholder'
      rwa [List.dropLast_append_getLast? _ hif.1, List.dropLast_append_getLast? _ hif'.1]
    · cases hholder'
  · cases hholder

/-- No entry comes after the one that overwrites what it is in. The listing is in the order of the
tree, so that this is said of the names in each policy. -/
theorem WellFormed.pairwise_holderPaths_iff (h : p.WellFormed) :
    (p.holderPaths.Pairwise fun path w => ¬path ++ [dictionaryKey] <+: w) ↔
      ∀ holder, ¬p.Overwrites holder := by
  have hordered := h.pairwise_precedes_holderPaths
  constructor
  · rintro hout holder ⟨hnests, x, hx, hahead⟩
    obtain ⟨path, rest, rfl, hpath, hw⟩ := h.nests_iff.1 hnests
    obtain ⟨segs, hsegs, hx⟩ := get_policy_eq_ok_iff.1 hx
    obtain rfl := Except.ok.inj ((h.segments_of_mem_holderPaths hpath).symm.trans hsegs)
    have hne : path ≠ path ++ dictionaryKey :: rest := by simp
    -- one of the two is listed first, and the names in `x` do not let it be the inner one
    rcases pair_sublist_or_swap hpath hw hne with hfirst | hlast
    · exact List.pairwise_iff_forall_sublist.1 hout hfirst ⟨rest, by simp⟩
    · have hprecedes := List.pairwise_iff_forall_sublist.1 hordered hlast
      rw [List.append_assoc, List.cons_append,
        h.precedes_iff hx dictionaryFileKey_ne_dictionaryKey.symm] at hprecedes
      exact not_pair_sublist_swap (h.subAt? hx).unique hahead hprecedes
  · intro hnone
    apply hordered.imp_of_mem
    rintro path w hpath hw hprecedes ⟨rest, rfl⟩
    rw [List.append_assoc path, List.singleton_append] at hw hprecedes
    rw [List.append_assoc, List.cons_append] at hprecedes
    obtain ⟨-, x, hx, -⟩ := h.mem_holderPaths_iff.1 hpath
    apply hnone (Name.ofSegments path)
    refine ⟨h.nests_iff.2 ⟨path, rest, rfl, hpath, hw⟩, x, ?_, ?_⟩
    · exact get_policy_eq_ok_iff.2 ⟨path, h.segments_of_mem_holderPaths hpath, hx⟩
    · exact (h.precedes_iff hx dictionaryFileKey_ne_dictionaryKey).1 hprecedes

/-- Every entry for a dictionary file names one, by a reference or by a plain text. -/
def NamesFiles (p : Policy) : Prop :=
  ∀ name ∈ p.dictionaryFileNames, ∃ text,
    p.get name = .ok (.file text) ∨ p.get name = .ok (.string text)

theorem WellFormed.get_dictionaryFile_eq_ok_iff (h : p.WellFormed) (hpath : path ∈ p.holderPaths) :
    p.get (Name.ofSegments (path ++ [dictionaryFileKey])) = .ok v ↔
      ∃ x, p.subAt? path = some x ∧ x.last? dictionaryFileKey = some v :=
  get_ofSegments_eq_ok_iff (h.isLeaf_of_mem_holderPaths hpath) isLeaf_dictionaryFileKey

theorem WellFormed.namesFiles_iff (h : p.WellFormed) :
    p.NamesFiles ↔ ∀ path ∈ p.holderPaths, ∃ x v text, p.subAt? path = some x ∧
      x.last? dictionaryFileKey = some v ∧ v.fileText? = some text := by
  rw [NamesFiles, h.dictionaryFileNames_eq, List.forall_mem_map]
  apply forall₂_congr
  intro path hpath
  simp only [h.get_dictionaryFile_eq_ok_iff hpath, Value.fileText?_eq_some_iff]
  constructor
  · rintro ⟨text, ⟨x, hx, hv⟩ | ⟨x, hx, hv⟩⟩
    · exact ⟨x, _, text, hx, hv, .inl rfl⟩
    · exact ⟨x, _, text, hx, hv, .inr rfl⟩
  · rintro ⟨x, v, text, hx, hv, rfl | rfl⟩
    · exact ⟨text, .inl ⟨x, hx, hv⟩⟩
    · exact ⟨text, .inr ⟨x, hx, hv⟩⟩

theorem WellFormed.exists_promoteDictionaryFiles_iff (h : p.WellFormed) (hfiles : p.NamesFiles) :
    (∃ q n, p.promoteDictionaryFiles = .ok (q, n)) ↔ ∀ holder, ¬p.Overwrites holder := by
  rw [← h.pairwise_holderPaths_iff,
    ← h.exists_promotes_iff (nodup_holderPaths h) (h.namesFiles_iff.1 hfiles)]
  simp only [h.promoteDictionaryFiles_eq_ok_iff]
  exact ⟨fun ⟨q, _, hq, _⟩ => ⟨q, hq⟩, fun ⟨q, hq⟩ => ⟨q, _, hq, rfl⟩⟩

theorem SameShape.exists_child? {leaf : String} (h : x.SameShape y)
    (hz : y.child? leaf = some z) : ∃ sub, x.child? leaf = some sub := by
  obtain ⟨v, hv, hshape⟩ := h.symm.exists_last? (child?_eq_some_iff.1 hz)
  cases v with
  | policy sub => exact ⟨sub, child?_eq_some_iff.2 hv⟩
  | undefined | bool | int | double | string | file => cases hshape

/-- Where there was a policy and something is left, there is a policy still, unless that was the
dictionary beside a file that was promoted. -/
theorem Promotes.exists_subAt? {holders : List (List String)} {leaf : String}
    (hq : Promotes holders p q) (h : p.WellFormed) (hx : p.subAt? (path ++ [leaf]) = some x)
    (hsome : (q.valuesAt? (path ++ [leaf])).isSome = true) :
    (∃ z, q.subAt? (path ++ [leaf]) = some z) ∨ leaf = dictionaryKey ∧ path ∈ holders := by
  obtain ⟨values, hvalues⟩ := Option.isSome_iff_exists.1 hsome
  rw [valuesAt?_concat] at hvalues
  obtain ⟨y, hy, -⟩ := Option.bind_eq_some_iff.1 hvalues
  rw [subAt?_append] at hx
  obtain ⟨x₀, hx₀, hx⟩ := Option.bind_eq_some_iff.1 hx
  rw [subAt?_singleton] at hx
  simp only [subAt?_append, hy, Option.bind_some, subAt?_singleton]
  rcases hq.subAt? h hy with ⟨-, x₁, hx₁, hshape⟩ | ⟨hpath, x₁, v, text, hx₁, hv, ht, hshape⟩
  · obtain rfl := Option.some.inj (hx₀.symm.trans hx₁)
    exact .inl (hshape.exists_child? hx)
  · obtain rfl := Option.some.inj (hx₀.symm.trans hx₁)
    by_cases hleaf : leaf = dictionaryKey
    · exact .inr ⟨hleaf, hpath⟩
    · have hfile : leaf ≠ dictionaryFileKey := by
        rintro rfl
        obtain rfl := Option.some.inj (hv.symm.trans (child?_eq_some_iff.1 hx))
        cases ht
      have hkept : (x₀.promoted text).child? leaf = some x := by
        rw [child?_eq_some_iff, (h.subAt? hx₀).last?_promoted, if_neg hleaf, if_neg hfile]
        exact child?_eq_some_iff.1 hx
      exact .inl (hshape.exists_child? hkept)

theorem Promotes.valuesAt?_dictionary {holders : List (List String)} (hq : Promotes holders p q)
    (h : p.WellFormed) (hpath : path ∈ holders) (hx : p.subAt? path = some x)
    (hv : x.last? dictionaryFileKey = some v) (ht : v.fileText? = some text)
    (hz : q.subAt? path = some z) :
    q.valuesAt? (path ++ [dictionaryKey]) = some [.file text] := by
  rcases hq.subAt? h hz with ⟨hnot, -⟩ | ⟨-, x', v', text', hx', hv', ht', hshape⟩
  · exact absurd hpath hnot
  · obtain rfl := Option.some.inj (hx.symm.trans hx')
    obtain rfl := Option.some.inj (hv.symm.trans hv')
    obtain rfl := Option.some.inj (ht.symm.trans ht')
    rw [valuesAt?_concat, hz, Option.bind_some]
    apply hshape.valuesAt?_file
    rw [(h.subAt? hx).valuesAt?_promoted, if_pos rfl]

/-- A policy that is still listed has the reference, unless it was overwritten itself. -/
theorem WellFormed.getArray_of_promotes (h : p.WellFormed) (hq : Promotes p.holderPaths p q)
    (hholder : Name.join holder dictionaryFileKey ∈ p.dictionaryFileNames)
    (hv : p.get (Name.join holder dictionaryFileKey) = .ok v) (ht : v.fileText? = some text)
    (hlisted : holder ∈ q.names false .all) :
    q.getArray (Name.join holder dictionaryKey) = .ok [.file text] ∨
      ∃ above, holder = Name.join above dictionaryKey ∧
        Name.join above dictionaryFileKey ∈ p.dictionaryFileNames := by
  obtain ⟨path, hpath, rfl⟩ := h.join_mem_dictionaryFileNames_iff.1 hholder
  have hleaf := h.isLeaf_of_mem_holderPaths hpath
  rw [Name.join_ofSegments hleaf] at hv
  obtain ⟨x, hx, hlast⟩ := (h.get_dictionaryFile_eq_ok_iff hpath).1 hv
  rw [(h.promotes hq).mem_names_iff, contains, lookup?, h.segments_of_mem_holderPaths hpath]
    at hlisted
  obtain ⟨front, leaf, rfl⟩ := Name.exists_leaf_of_segments (h.segments_of_mem_holderPaths hpath)
  rcases hq.exists_subAt? h hx hlisted with ⟨z, hz⟩ | ⟨rfl, hfront⟩
  · have hsegs := Name.segments_ofSegments (List.concat_ne_nil dictionaryKey (front ++ [leaf]))
      (Name.isLeaf_concat hleaf isLeaf_dictionaryKey)
    left
    rw [Name.join_ofSegments hleaf]
    exact (getArray_of_segments hsegs).2 (hq.valuesAt?_dictionary h hpath hx hlast ht hz)
  · refine .inr ⟨Name.ofSegments front, ?_, ?_⟩
    · exact (Name.join_ofSegments (h.isLeaf_of_mem_holderPaths hfront) _).symm
    · exact h.join_mem_dictionaryFileNames_iff.2 ⟨front, hfront, rfl⟩

theorem WellFormed.mem_holderPaths_of_alike (h : p.WellFormed) (hq : q.WellFormed)
    (halike : p.Alike q) (hpath : path ∈ p.holderPaths) : path ∈ q.holderPaths := by
  obtain ⟨hne, x, hx, hsome⟩ := h.mem_holderPaths_iff.1 hpath
  obtain ⟨y, hy, hxy⟩ := halike.exists_subAt? hx
  refine hq.mem_holderPaths_iff.2 ⟨hne, y, hy, ?_⟩
  rw [← isSome_eq_of_rel (hxy.last? dictionaryFileKey), hsome]

theorem WellFormed.nests_of_alike (h : p.WellFormed) (hq : q.WellFormed) (halike : p.Alike q)
    (hnests : p.Nests holder) : q.Nests holder := by
  obtain ⟨path, rest, hholder, hpath, hw⟩ := h.nests_iff.1 hnests
  exact hq.nests_iff.2 ⟨path, rest, hholder, h.mem_holderPaths_of_alike hq halike hpath,
    h.mem_holderPaths_of_alike hq halike hw⟩

theorem WellFormed.namesFiles_of_alike (h : p.WellFormed) (hq : q.WellFormed)
    (halike : p.Alike q) (hfiles : p.NamesFiles) : q.NamesFiles := by
  rw [hq.namesFiles_iff]
  intro path hpath
  have hpath' := hq.mem_holderPaths_of_alike h halike.symm hpath
  obtain ⟨x, v, text, hx, hv, ht⟩ := h.namesFiles_iff.1 hfiles path hpath'
  obtain ⟨y, hy, hxy⟩ := halike.exists_subAt? hx
  have hlast := hxy.last? dictionaryFileKey
  rw [hv] at hlast
  generalize hu : y.last? dictionaryFileKey = u at hlast
  cases hlast with
  | some hvu =>
    cases hvu with
    | policy => cases ht
    | same => exact ⟨y, v, text, hy, hu, ht⟩

theorem mem_names_of_last? {leaf : String} (h : x.last? leaf = some v) :
    leaf ∈ x.entries.map Entry.name := by
  obtain ⟨e, he, -⟩ := last?_eq_some_iff.1 h
  rw [← name_of_entry?_eq_some he]
  exact List.mem_map_of_mem (mem_of_entry?_eq_some he)

theorem WellFormed.alike_of_perm (h : x.WellFormed) (hperm : x.entries.Perm y.entries) :
    x.Alike y := by
  apply alike_of_valuesAt?
  intro name
  refine AlikeAt.of_eq Alike.refl ?_
  rw [Policy.valuesAt?, Policy.valuesAt?, h.entry?_of_perm hperm]

theorem WellFormed.exists_ahead (h : x.WellFormed) {a b : String}
    (ha : a ∈ x.entries.map Entry.name) (hb : b ∈ x.entries.map Entry.name) (hne : a ≠ b) :
    ∃ y, y.WellFormed ∧ x.Alike y ∧ [a, b].Sublist (y.entries.map Entry.name) := by
  obtain ⟨e, he, rfl⟩ := List.mem_map.1 ha
  obtain ⟨front, back, hentries⟩ := List.append_of_mem he
  have hperm : x.entries.Perm (mk (e :: (front ++ back))).entries := by
    rw [hentries]
    exact List.perm_middle
  refine ⟨_, h.of_perm hperm, h.alike_of_perm hperm, .cons_cons _ (List.singleton_sublist.2 ?_)⟩
  have hb' := ((hperm.map Entry.name).mem_iff).1 hb
  exact (List.mem_cons.1 hb').resolve_left hne.symm

theorem WellFormed.exists_overwrites_of_nests (h : p.WellFormed) (hnests : p.Nests holder) :
    ∃ q, q.WellFormed ∧ p.Alike q ∧ q.Overwrites holder := by
  obtain ⟨path, rest, rfl, hpath, hw⟩ := h.nests_iff.1 hnests
  obtain ⟨-, x, hx, hsome⟩ := h.mem_holderPaths_iff.1 hpath
  obtain ⟨v, hv⟩ := Option.isSome_iff_exists.1 hsome
  obtain ⟨-, y, hy, -⟩ := h.mem_holderPaths_iff.1 hw
  rw [subAt?_append, hx, Option.bind_some, subAt?_cons_eq_some_iff] at hy
  obtain ⟨sub, hsub, -⟩ := hy
  obtain ⟨z, hz, hxz, hahead⟩ := (h.subAt? hx).exists_ahead (mem_names_of_last? hv)
    (mem_names_of_last? (child?_eq_some_iff.1 hsub)) dictionaryFileKey_ne_dictionaryKey
  have hwq := h.putAt hx hz
  have halike := alike_putAt hx hxz
  refine ⟨_, hwq, halike, h.nests_of_alike hwq halike hnests, z, ?_, hahead⟩
  exact get_policy_eq_ok_iff.2
    ⟨path, h.segments_of_mem_holderPaths hpath, subAt?_putAt p path z⟩

/-- Promotion succeeds exactly if no definition names its file before its `dictionary` while another
file is named within that. If it succeeds, all entries for files are counted and gone, and each
definition that is still listed has the reference to its file under `dictionary`, unless it is
itself what a reference was put in the place of. It succeeds in every order of the names exactly if
no file is named within the `dictionary` of a definition that names one. -/
theorem promoteDictionaryFiles_overwriting (p : Policy) (h : p.WellFormed) (hfiles : p.NamesFiles) :
    ((∃ q n, p.promoteDictionaryFiles = .ok (q, n)) ↔ ∀ holder, ¬p.Overwrites holder) ∧
      (∀ q n, p.promoteDictionaryFiles = .ok (q, n) →
        n = p.dictionaryFileNames.length ∧ q.dictionaryFileNames = [] ∧
          ∀ holder v text, Name.join holder dictionaryFileKey ∈ p.dictionaryFileNames →
            p.get (Name.join holder dictionaryFileKey) = .ok v → v.fileText? = some text →
              holder ∈ q.names false .all →
                q.getArray (Name.join holder dictionaryKey) = .ok [.file text] ∨
                  ∃ above, holder = Name.join above dictionaryKey ∧
                    Name.join above dictionaryFileKey ∈ p.dictionaryFileNames) ∧
      ((∀ p', p'.WellFormed → p.Alike p' → ∃ q n, p'.promoteDictionaryFiles = .ok (q, n)) ↔
        ∀ holder, ¬p.Nests holder) := by
  refine ⟨h.exists_promoteDictionaryFiles_iff hfiles, fun q n hq => ?_,
    fun hall holder hnests => ?_, fun hnone p' hp' halike => ?_⟩
  · obtain ⟨hpromotes, rfl⟩ := h.promoteDictionaryFiles_eq_ok_iff.1 hq
    refine ⟨?_, ?_, fun holder v text hholder hv ht hlisted =>
      h.getArray_of_promotes hpromotes hholder hv ht hlisted⟩
    · rw [h.dictionaryFileNames_eq, List.length_map]
    · rw [(h.promotes hpromotes).dictionaryFileNames_eq, hpromotes.holderPaths_eq_nil h,
        List.map_nil]
  · obtain ⟨p', hp', halike, hoverwrites⟩ := h.exists_overwrites_of_nests hnests
    have hfiles' := h.namesFiles_of_alike hp' halike hfiles
    exact (hp'.exists_promoteDictionaryFiles_iff hfiles').1 (hall p' hp' halike) holder hoverwrites
  · have hfiles' := h.namesFiles_of_alike hp' halike hfiles
    refine (hp'.exists_promoteDictionaryFiles_iff hfiles').2 fun holder hoverwrites => ?_
    exact hnone holder (hp'.nests_of_alike h halike.symm hoverwrites.nests)

def defining (name : String) (fields : List Entry) : Policy :=
  ⟨[⟨definitionsKey, [.policy ⟨[⟨name, [.policy ⟨fields⟩]⟩]⟩]⟩]⟩

def fileEntry (file : String) : Entry :=
  ⟨dictionaryFileKey, [.string file]⟩

def partEntry : Entry :=
  ⟨dictionaryKey, [.policy (defining "part" [fileEntry "part.json"])]⟩

def zoneLast : Policy :=
  defining "zone" [partEntry, fileEntry "zone.json"]

def zoneFirst : Policy :=
  defining "zone" [fileEntry "zone.json", partEntry]

theorem wellFormed_zoneLast : zoneLast.WellFormed := by decide +kernel

theorem holderPaths_zoneLast : zoneLast.holderPaths =
    [[definitionsKey, "zone", dictionaryKey, definitionsKey, "part"],
      [definitionsKey, "zone"]] := by decide +kernel

theorem namesFiles_zoneLast : zoneLast.NamesFiles := by
  rw [wellFormed_zoneLast.namesFiles_iff, holderPaths_zoneLast, List.forall_mem_cons,
    List.forall_mem_singleton]
  exact ⟨⟨_, _, _, rfl, rfl, rfl⟩, ⟨_, _, _, rfl, rfl, rfl⟩⟩

theorem alike_zones : zoneLast.Alike zoneFirst := by
  have hzone : zoneLast.subAt? [definitionsKey, "zone"] =
      some ⟨[partEntry, fileEntry "zone.json"]⟩ := rfl
  exact alike_putAt hzone ((wellFormed_zoneLast.subAt? hzone).alike_of_perm (.swap _ _ _))

theorem nests_zoneLast : zoneLast.Nests "definitions.zone" := by
  have hzone : [definitionsKey, "zone"] ∈ zoneLast.holderPaths := by decide +kernel
  have hpart : [definitionsKey, "zone"] ++ dictionaryKey :: [definitionsKey, "part"] ∈
      zoneLast.holderPaths := by decide +kernel
  exact wellFormed_zoneLast.nests_iff.2 ⟨_, _, rfl, hzone, hpart⟩

theorem exists_promoteDictionaryFiles_zoneLast :
    ∃ q, zoneLast.promoteDictionaryFiles = .ok (q, 2) ∧
      "definitions.zone" ∈ q.names false .all := by
  have hrun : zoneLast.promoteDictionaryFiles.toOption.map
      (fun r => (r.2, decide ("definitions.zone" ∈ r.1.names false .all))) = some (2, true) := by
    decide +kernel
  obtain ⟨⟨q, n⟩, hq, hlisted⟩ := map_toOption_eq_some_iff.1 hrun
  obtain ⟨rfl, hlisted⟩ := Prod.mk.inj hlisted
  exact ⟨q, hq, of_decide_eq_true hlisted⟩

theorem promoteDictionaryFiles_overwriting_zones :
    (∀ holder, ¬zoneLast.Overwrites holder) ∧
      (∃ q, zoneLast.promoteDictionaryFiles = .ok (q, 2) ∧ q.dictionaryFileNames = [] ∧
        q.getArray "definitions.zone.dictionary" = .ok [.file "zone.json"]) ∧
      ¬∀ p', p'.WellFormed → zoneLast.Alike p' →
        ∃ q n, p'.promoteDictionaryFiles = .ok (q, n) := by
  obtain ⟨hsucceeds, hleaves, horders⟩ :=
    promoteDictionaryFiles_overwriting zoneLast wellFormed_zoneLast namesFiles_zoneLast
  obtain ⟨q, hq, hlisted⟩ := exists_promoteDictionaryFiles_zoneLast
  obtain ⟨-, hnone, hreference⟩ := hleaves q 2 hq
  refine ⟨hsucceeds.1 ⟨q, 2, hq⟩, ⟨q, hq, hnone, ?_⟩, fun hall => ?_⟩
  · have hget : zoneLast.get (Name.join "definitions.zone" dictionaryFileKey) =
        .ok (.string "zone.json") := rfl
    rcases hreference _ _ _ nests_zoneLast.1 hget rfl hlisted with harray | ⟨above, habove, hmem⟩
    · exact harray
    · -- the dictionary of a definition does not have the name of a zone
      obtain ⟨path, hpath, rfl⟩ := wellFormed_zoneLast.join_mem_dictionaryFileNames_iff.1 hmem
      rw [holderPaths_zoneLast, List.mem_pair] at hpath
      rcases hpath with rfl | rfl
      · exact absurd habove (by decide +kernel)
      · exact absurd habove (by decide +kernel)
  · exact horders.1 hall _ nests_zoneLast

/-- With its file named first, promotion fails for the same zones. -/
theorem promoteDictionaryFiles_order :
    zoneFirst.WellFormed ∧ zoneFirst.NamesFiles ∧ zoneLast.Alike zoneFirst ∧
      (∃ q, zoneLast.promoteDictionaryFiles = .ok (q, 2)) ∧
      ∀ q n, zoneFirst.promoteDictionaryFiles ≠ .ok (q, n) := by
  have hfirst : zoneFirst.WellFormed := by decide +kernel
  have hfiles := wellFormed_zoneLast.namesFiles_of_alike hfirst alike_zones namesFiles_zoneLast
  have hnests := wellFormed_zoneLast.nests_of_alike hfirst alike_zones nests_zoneLast
  have hoverwrites : zoneFirst.Overwrites "definitions.zone" :=
    ⟨hnests, ⟨[fileEntry "zone.json", partEntry]⟩, rfl, by decide⟩
  obtain ⟨q, hq, -⟩ := exists_promoteDictionaryFiles_zoneLast
  refine ⟨hfirst, hfiles, alike_zones, ⟨q, hq⟩, fun q n hq => ?_⟩
  exact (hfirst.exists_promoteDictionaryFiles_iff hfiles).1 ⟨q, n, hq⟩ _ hoverwrites

end Policy

end PolicyTree
