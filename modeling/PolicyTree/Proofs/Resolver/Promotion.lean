import PolicyTree.Proofs.Policy.Listing
import PolicyTree.Resolver.Dictionary

namespace PolicyTree

/-- The text by which a value names a file, as a reference or plainly. -/
def Value.fileText? : Value → Option String
  | .file reference => some reference
  | .string text => some text
  | _ => none

/-- A value, but for what is in it if it is a policy. -/
def Value.shape : Value → Value
  | .policy _ => .policy .empty
  | v => v

theorem Value.shape_eq_file_iff {v : Value} {text : String} :
    v.shape = .file text ↔ v = .file text := by
  cases v <;> simp [shape]

theorem Value.fileText?_eq_some_iff {v : Value} {text : String} :
    v.fileText? = some text ↔ v = .file text ∨ v = .string text := by
  cases v <;> simp [fileText?]

theorem dictionaryFileKey_ne_dictionaryKey : dictionaryFileKey ≠ dictionaryKey := by decide

theorem isLeaf_dictionaryFileKey : Name.isLeaf dictionaryFileKey = true := by decide

theorem isLeaf_dictionaryKey : Name.isLeaf dictionaryKey = true := by decide

namespace Policy

variable {p q x y z : Policy} {path w rest holder : List String} {leaf name text : String}
  {v : Value}

/-- A policy in which a dictionary file was named, with a reference to that file instead. -/
def promoted (x : Policy) (text : String) : Policy :=
  (x.erase dictionaryFileKey).put dictionaryKey [.file text]

theorem WellFormed.promoted (h : x.WellFormed) (text : String) : (x.promoted text).WellFormed := by
  apply (h.erase dictionaryFileKey).put (by decide)
  exact .singleton rfl (Value.wellFormed_of_kind (by simp [Value.kind]))

theorem WellFormed.entry?_promoted (h : x.WellFormed) (text name : String) :
    Policy.entry? (x.promoted text) name =
      if name = dictionaryKey then some ⟨dictionaryKey, [.file text]⟩
      else if name = dictionaryFileKey then none else x.entry? name := by
  rw [Policy.promoted, entry?_put, h.entry?_erase]

theorem WellFormed.valuesAt?_promoted (h : x.WellFormed) (text name : String) :
    (x.promoted text).valuesAt? [name] =
      if name = dictionaryKey then some [.file text]
      else if name = dictionaryFileKey then none else x.valuesAt? [name] := by
  rw [Policy.valuesAt?, h.entry?_promoted]
  split
  · rfl
  · split <;> rfl

theorem WellFormed.last?_promoted (h : x.WellFormed) (text name : String) :
    (x.promoted text).last? name =
      if name = dictionaryKey then some (.file text)
      else if name = dictionaryFileKey then none else x.last? name := by
  rw [last?_eq_bind, h.valuesAt?_promoted, last?_eq_bind]
  split
  · rfl
  · split <;> rfl

theorem WellFormed.subAt?_promoted (h : x.WellFormed) {seg : String}
    (hy : (x.promoted text).subAt? (seg :: rest) = some y) : x.subAt? (seg :: rest) = some y := by
  obtain ⟨sub, hsub, hy⟩ := subAt?_cons_eq_some_iff.1 hy
  rw [child?_eq_some_iff, h.last?_promoted] at hsub
  split at hsub
  · cases hsub
  · split at hsub
    · cases hsub
    · exact subAt?_cons_eq_some_iff.2 ⟨sub, child?_eq_some_iff.2 hsub, hy⟩

/-- Promotion in one policy: it names a file, and the reference to that file takes its place. -/
theorem promoteIn_eq_ok_iff (hpath : ∀ s ∈ path, Name.isLeaf s = true) :
    p.promoteIn (Name.ofSegments path) = .ok q ↔
      ∃ x v text, p.subAt? path = some x ∧ x.last? dictionaryFileKey = some v ∧
        v.fileText? = some text ∧ q = p.putAt path (x.promoted text) := by
  have hfile := isLeaf_dictionaryFileKey
  have hwrite : ∀ x v text, p.subAt? path = some x → x.last? dictionaryFileKey = some v →
      (((p.remove? (Name.ofSegments (path ++ [dictionaryFileKey]))).map Prod.snd).getD p).set
          (Name.ofSegments (path ++ [dictionaryKey])) (.file text) =
        .ok (p.putAt path (x.promoted text)) := by
    intro x v text hx hv
    obtain ⟨e, he, -⟩ := last?_eq_some_iff.1 hv
    rw [remove?_ofSegments hpath hfile hx he, Option.map_some, Option.getD_some,
      set_ofSegments hpath isLeaf_dictionaryKey (subAt?_putAt p path _) rfl, putAt_putAt]
    rfl
  unfold promoteIn
  simp only [Name.join_ofSegments hpath]
  constructor
  · intro h
    obtain ⟨v, hv, h⟩ := bind_eq_ok_iff.1 h
    obtain ⟨x, hx, hlast⟩ := (get_ofSegments_eq_ok_iff hpath hfile).1 hv
    cases v with
    | file text | string text =>
      have hq := (hwrite x _ text hx hlast).symm.trans h
      exact ⟨x, _, text, hx, hlast, rfl, (Except.ok.inj hq).symm⟩
    | undefined | bool | int | double | policy => cases h
  · rintro ⟨x, v, text, hx, hlast, htext, rfl⟩
    refine bind_eq_ok_iff.2 ⟨v, (get_ofSegments_eq_ok_iff hpath hfile).2 ⟨x, hx, hlast⟩, ?_⟩
    cases v with
    | file | string =>
      obtain rfl := Option.some.inj htext
      exact hwrite x _ _ hx hlast
    | undefined | bool | int | double | policy => cases htext

theorem WellFormed.putAt (h : p.WellFormed) (hx : p.subAt? path = some x) (hy : y.WellFormed) :
    (p.putAt path y).WellFormed := by
  induction path generalizing p with
  | nil => exact hy
  | cons seg path ih =>
    obtain ⟨sub, hsub, hx⟩ := subAt?_cons_eq_some_iff.1 hx
    have hlast := child?_eq_some_iff.1 hsub
    obtain ⟨e, he, -⟩ := last?_eq_some_iff.1 hlast
    have hleaf := h.leaf (mem_of_entry?_eq_some he)
    rw [name_of_entry?_eq_some he] at hleaf
    rw [putAt_cons hsub]
    apply h.putChild hleaf (ih (h.child? hsub) hx)
    intro v hv
    obtain rfl := Option.some.inj (hlast.symm.trans hv)
    rfl

/-- Policies that have the same values under the same names, but for what is in sub-policies. -/
def SameShape (x y : Policy) : Prop :=
  ∀ leaf, (x.valuesAt? [leaf]).map (List.map Value.shape) =
    (y.valuesAt? [leaf]).map (List.map Value.shape)

theorem SameShape.refl (x : Policy) : x.SameShape x :=
  fun _ => rfl

theorem SameShape.symm (h : x.SameShape y) : y.SameShape x :=
  fun leaf => (h leaf).symm

theorem SameShape.trans (h : x.SameShape y) (h' : y.SameShape z) : x.SameShape z :=
  fun leaf => (h leaf).trans (h' leaf)

theorem SameShape.promoted (h : x.SameShape y) (hx : x.WellFormed) (hy : y.WellFormed)
    (text : String) : (x.promoted text).SameShape (y.promoted text) := by
  intro leaf
  rw [hx.valuesAt?_promoted, hy.valuesAt?_promoted]
  split
  · rfl
  · split
    · rfl
    · exact h leaf

theorem SameShape.last? (h : x.SameShape y) (leaf : String) :
    (x.last? leaf).map Value.shape = (y.last? leaf).map Value.shape := by
  have hlast : ∀ z : Policy, (z.last? leaf).map Value.shape =
      ((z.valuesAt? [leaf]).map (List.map Value.shape)).bind List.getLast? := by
    intro z
    rw [last?_eq_bind, Option.map_bind, Option.bind_map]
    congr 1
    funext values
    exact List.getLast?_map.symm
  rw [hlast, hlast, h leaf]

theorem SameShape.exists_last? (h : x.SameShape y) (hv : x.last? leaf = some v) :
    ∃ v', y.last? leaf = some v' ∧ v'.shape = v.shape := by
  have hlast := h.last? leaf
  rw [hv, Option.map_some] at hlast
  exact Option.map_eq_some_iff.1 hlast.symm

theorem SameShape.valuesAt?_file (h : x.SameShape y)
    (hy : y.valuesAt? [leaf] = some [.file text]) : x.valuesAt? [leaf] = some [.file text] := by
  have hshape := h leaf
  rw [hy, Option.map_some, List.map_singleton] at hshape
  obtain ⟨values, hvalues, hmap⟩ := Option.map_eq_some_iff.1 hshape
  obtain ⟨v, rfl, hv⟩ := List.map_eq_singleton_iff.1 hmap
  rw [hvalues, Value.shape_eq_file_iff.1 hv]

theorem sameShape_putChild {seg : String} {sub sub' : Policy} (hsub : x.child? seg = some sub) :
    (x.putChild seg sub').SameShape x := by
  obtain ⟨front, hfront, hput⟩ := exists_valuesAt?_putChild hsub
  intro leaf
  rw [hput]
  split
  · rename_i hleaf
    rw [hleaf, hfront, Option.map_some, Option.map_some, List.map_append, List.map_append]
    rfl
  · rfl

/-- Where a walk in a changed tree leads: into what was put there, or to a policy that has, but for
what is in its sub-policies, the values that it had before. -/
theorem subAt?_putAt_cases (hx : p.subAt? path = some x)
    (hz : (p.putAt path y).subAt? w = some z) :
    (∃ rest, w = path ++ rest ∧ y.subAt? rest = some z) ∨
      ∃ z', p.subAt? w = some z' ∧ z.SameShape z' := by
  induction path generalizing p w with
  | nil => exact .inl ⟨w, rfl, hz⟩
  | cons seg path ih =>
    obtain ⟨sub, hsub, hx⟩ := subAt?_cons_eq_some_iff.1 hx
    rw [putAt_cons hsub] at hz
    cases w with
    | nil =>
      obtain rfl := Option.some.inj hz
      exact .inr ⟨p, rfl, sameShape_putChild hsub⟩
    | cons next w =>
      obtain ⟨found, hfound, hz⟩ := subAt?_cons_eq_some_iff.1 hz
      rw [child?_putChild] at hfound
      split at hfound
      · rename_i hnext
        obtain rfl := Option.some.inj hfound
        rcases ih hx hz with ⟨rest, rfl, hrest⟩ | ⟨z', hz', hshape⟩
        · exact .inl ⟨rest, by rw [hnext, List.cons_append], hrest⟩
        · exact .inr ⟨z', subAt?_cons_eq_some_iff.2 ⟨sub, hnext ▸ hsub, hz'⟩, hshape⟩
      · exact .inr ⟨z, subAt?_cons_eq_some_iff.2 ⟨found, hfound, hz⟩, .refl z⟩

/-- The paths to the policies in which a dictionary file is named, other than the whole tree. -/
def holderPaths (p : Policy) : List (List String) :=
  p.paths.filterMap fun path =>
    if path.getLast? = some dictionaryFileKey ∧ path.dropLast ≠ [] then some path.dropLast
    else none

theorem dictionaryFileHolder?_ofSegments (hne : path ≠ [])
    (hpath : ∀ s ∈ path, Name.isLeaf s = true) :
    Name.dictionaryFileHolder? (Name.ofSegments path) =
      (if path.getLast? = some dictionaryFileKey ∧ path.dropLast ≠ [] then some path.dropLast
        else none).map Name.ofSegments := by
  have hfields := Name.fields_ofSegments hne hpath
  rw [Name.dictionaryFileHolder?, Name.splitLeaf, hfields, List.getLastD_eq_getLast?,
    List.getLast?_eq_some_getLast hne]
  by_cases hfront : path.dropLast = []
  · simp [hfront]
  · by_cases hlast : path.getLast hne = dictionaryFileKey
    · simp [hfront, hlast]
    · simp [hfront, hlast]

theorem WellFormed.dictionaryFileHolders_eq (h : p.WellFormed) :
    p.dictionaryFileHolders = p.holderPaths.map Name.ofSegments := by
  rw [dictionaryFileHolders, h.names_eq, List.filterMap_map, holderPaths, List.map_filterMap]
  apply List.filterMap_congr
  intro path hp
  exact dictionaryFileHolder?_ofSegments (ne_nil_of_mem_paths hp) (h.isLeaf_of_mem_paths hp)

theorem WellFormed.mem_holderPaths_iff (h : p.WellFormed) :
    holder ∈ p.holderPaths ↔ holder ≠ [] ∧
      ∃ x, p.subAt? holder = some x ∧ (x.last? dictionaryFileKey).isSome := by
  have hpath : holder ∈ p.holderPaths ↔
      holder ≠ [] ∧ holder ++ [dictionaryFileKey] ∈ p.paths := by
    rw [holderPaths, List.mem_filterMap]
    constructor
    · rintro ⟨path, hp, hif⟩
      split at hif
      · rename_i hcond
        obtain rfl := Option.some.inj hif
        rw [List.dropLast_append_getLast? _ hcond.1]
        exact ⟨hcond.2, hp⟩
      · cases hif
    · rintro ⟨hne, hp⟩
      refine ⟨_, hp, ?_⟩
      rw [List.getLast?_concat, List.dropLast_concat, if_pos ⟨rfl, hne⟩]
  rw [hpath, h.mem_paths_iff, valuesAt?_concat]
  apply and_congr_right
  intro _
  rw [Option.isSome_iff_exists]
  constructor
  · rintro ⟨values, hvalues⟩
    obtain ⟨x, hx, hentry⟩ := Option.bind_eq_some_iff.1 hvalues
    obtain ⟨e, he, -⟩ := Option.map_eq_some_iff.1 hentry
    refine ⟨x, hx, ?_⟩
    rw [(h.subAt? hx).isSome_last?, he]
    rfl
  · rintro ⟨x, hx, hsome⟩
    rw [(h.subAt? hx).isSome_last?, Option.isSome_iff_exists] at hsome
    obtain ⟨e, he⟩ := hsome
    exact ⟨e.values, Option.bind_eq_some_iff.2 ⟨x, hx, by rw [he]; rfl⟩⟩

theorem WellFormed.isLeaf_of_mem_holderPaths (h : p.WellFormed) (hp : holder ∈ p.holderPaths) :
    ∀ s ∈ holder, Name.isLeaf s = true := by
  obtain ⟨-, x, hx, -⟩ := h.mem_holderPaths_iff.1 hp
  exact h.isLeaf_of_subAt? hx

/-- One promotion after another. -/
inductive Promotes : List (List String) → Policy → Policy → Prop
  | done {p : Policy} : Promotes [] p p
  | next {path : List String} {later : List (List String)} {p q x : Policy} {v : Value}
      {text : String} (hx : p.subAt? path = some x) (hv : x.last? dictionaryFileKey = some v)
      (ht : v.fileText? = some text) (h : Promotes later (p.putAt path (x.promoted text)) q) :
      Promotes (path :: later) p q

theorem foldlM_promoteIn_eq_ok_iff {holders : List (List String)}
    (hleaf : ∀ path ∈ holders, ∀ s ∈ path, Name.isLeaf s = true) :
    (holders.map Name.ofSegments).foldlM promoteIn p = .ok q ↔ Promotes holders p q := by
  induction holders generalizing p with
  | nil =>
    constructor
    · intro h
      obtain rfl := Except.ok.inj h
      exact .done
    · intro h
      cases h
      rfl
  | cons path later ih =>
    rw [List.forall_mem_cons] at hleaf
    rw [List.map_cons, List.foldlM_cons, bind_eq_ok_iff]
    constructor
    · rintro ⟨p', hp', h⟩
      obtain ⟨x, v, text, hx, hv, ht, rfl⟩ := (promoteIn_eq_ok_iff hleaf.1).1 hp'
      exact .next hx hv ht ((ih hleaf.2).1 h)
    · rintro (⟨⟩ | @⟨_, _, _, _, x, v, text, hx, hv, ht, h⟩)
      exact ⟨_, (promoteIn_eq_ok_iff hleaf.1).2 ⟨x, v, text, hx, hv, ht, rfl⟩, (ih hleaf.2).2 h⟩

/-- A whole promotion goes through all policies in which a dictionary file is named. -/
theorem WellFormed.promoteDictionaryFiles_eq_ok_iff (h : p.WellFormed) {n : Nat} :
    p.promoteDictionaryFiles = .ok (q, n) ↔
      Promotes p.holderPaths p q ∧ n = p.holderPaths.length := by
  rw [← foldlM_promoteIn_eq_ok_iff fun path hp => h.isLeaf_of_mem_holderPaths hp,
    promoteDictionaryFiles, h.dictionaryFileHolders_eq, bind_eq_ok_iff, List.length_map]
  constructor
  · rintro ⟨q', hq', heq⟩
    obtain ⟨rfl, rfl⟩ := Prod.mk.inj (Except.ok.inj heq)
    exact ⟨hq', rfl⟩
  · rintro ⟨hq, rfl⟩
    exact ⟨q, hq, rfl⟩

theorem WellFormed.promotes {holders : List (List String)} (h : p.WellFormed)
    (hq : Promotes holders p q) : q.WellFormed := by
  induction hq with
  | done => exact h
  | next hx hv ht _ ih => exact ih (h.putAt hx ((h.subAt? hx).promoted _))

/-- Where a walk leads after one promotion: to the policy that was changed, or to one that has the
values that it had before, but for what is in its sub-policies. -/
theorem WellFormed.subAt?_putAt_promoted (h : p.WellFormed) (hx : p.subAt? path = some x)
    (hz : (p.putAt path (x.promoted text)).subAt? w = some z) :
    (w = path ∧ z = x.promoted text) ∨ ∃ z', p.subAt? w = some z' ∧ z.SameShape z' := by
  rcases subAt?_putAt_cases hx hz with ⟨rest, rfl, hrest⟩ | hcase
  · cases rest with
    | nil => exact .inl ⟨List.append_nil path, (Option.some.inj hrest).symm⟩
    | cons seg rest =>
      refine .inr ⟨z, ?_, .refl z⟩
      rw [subAt?_append, hx, Option.bind_some]
      exact (h.subAt? hx).subAt?_promoted hrest
  · exact .inr hcase

theorem fileText?_of_shape {v u : Value} (h : v.shape = u.shape) : v.fileText? = u.fileText? := by
  cases v <;> cases u <;> simp_all [Value.shape, Value.fileText?]

theorem WellFormed.exists_fileText?_of_putAt {u : Value} (h : p.WellFormed)
    (hx : p.subAt? path = some x) (hz : (p.putAt path (x.promoted text)).subAt? w = some z)
    (hu : z.last? dictionaryFileKey = some u) :
    ∃ z' u', p.subAt? w = some z' ∧ z'.last? dictionaryFileKey = some u' ∧
      u'.fileText? = u.fileText? := by
  rcases h.subAt?_putAt_promoted hx hz with ⟨rfl, rfl⟩ | ⟨z', hz', hshape⟩
  · rw [(h.subAt? hx).last?_promoted, if_neg dictionaryFileKey_ne_dictionaryKey, if_pos rfl] at hu
    cases hu
  · obtain ⟨u', hu', heq⟩ := hshape.exists_last? hu
    exact ⟨z', u', hz', hu', fileText?_of_shape heq⟩

theorem Promotes.exists_fileText? {holders : List (List String)} (hq : Promotes holders p q)
    (h : p.WellFormed) (hw : w ∈ holders) :
    ∃ x v text, p.subAt? w = some x ∧ x.last? dictionaryFileKey = some v ∧
      v.fileText? = some text := by
  induction hq with
  | done => cases hw
  | @next path later p q x v text hx hv ht _ ih =>
    rcases List.mem_cons.1 hw with rfl | hw
    · exact ⟨x, v, text, hx, hv, ht⟩
    · obtain ⟨z, u, text', hz, hu, htext⟩ := ih (h.putAt hx ((h.subAt? hx).promoted text)) hw
      obtain ⟨z', u', hz', hu', heq⟩ := h.exists_fileText?_of_putAt hx hz hu
      exact ⟨z', u', text', hz', hu', heq.trans htext⟩

theorem nodup_holderPaths (h : p.WellFormed) : p.holderPaths.Nodup := by
  apply h.nodup_paths.filterMap
  intro path path' holder hpath hpath'
  split at hpath
  · rename_i hif
    split at hpath'
    · rename_i hif'
      have heq := (Option.some.inj hpath).trans (Option.some.inj hpath').symm
      rw [← List.dropLast_append_getLast? _ hif.1, ← List.dropLast_append_getLast? _ hif'.1, heq]
    · cases hpath'
  · cases hpath

/-- One promotion leaves the other places of a tree where they are, but for those within the
dictionary that it overwrites. -/
theorem WellFormed.exists_subAt?_putAt_promoted (h : p.WellFormed) (hx : p.subAt? path = some x)
    (hv : x.last? dictionaryFileKey = some v) (ht : v.fileText? = some text)
    (hz : p.subAt? w = some z) (hne : w ≠ path) (hout : ¬path ++ [dictionaryKey] <+: w) :
    ∃ z', (p.putAt path (x.promoted text)).subAt? w = some z' ∧ z'.SameShape z := by
  induction path generalizing p w with
  | nil =>
    obtain rfl := Option.some.inj hx
    cases w with
    | nil => exact absurd rfl hne
    | cons seg w =>
      obtain ⟨sub, hsub, hrest⟩ := subAt?_cons_eq_some_iff.1 hz
      refine ⟨z, subAt?_cons_eq_some_iff.2 ⟨sub, ?_, hrest⟩, .refl z⟩
      have hdictionary : seg ≠ dictionaryKey := fun heq => hout ⟨w, by rw [heq]; rfl⟩
      have hfile : seg ≠ dictionaryFileKey := by
        rintro rfl
        obtain rfl := Option.some.inj (hv.symm.trans (child?_eq_some_iff.1 hsub))
        cases ht
      rw [putAt_nil, child?_eq_some_iff, h.last?_promoted, if_neg hdictionary, if_neg hfile]
      exact child?_eq_some_iff.1 hsub
  | cons seg path ih =>
    obtain ⟨sub, hsub, hsubx⟩ := subAt?_cons_eq_some_iff.1 hx
    rw [putAt_cons hsub]
    cases w with
    | nil =>
      obtain rfl := Option.some.inj hz
      exact ⟨_, rfl, sameShape_putChild hsub⟩
    | cons next w =>
      obtain ⟨found, hfound, hrest⟩ := subAt?_cons_eq_some_iff.1 hz
      by_cases hnext : next = seg
      · subst hnext
        obtain rfl := Option.some.inj (hsub.symm.trans hfound)
        have hout' : ¬path ++ [dictionaryKey] <+: w := fun hw =>
          hout (by rwa [List.cons_append, List.prefix_cons_inj])
        have hne' : w ≠ path := fun heq => hne (by rw [heq])
        obtain ⟨z', hz', hshape⟩ := ih (h.child? hsub) hsubx hrest hne' hout'
        refine ⟨z', subAt?_cons_eq_some_iff.2 ⟨_, ?_, hz'⟩, hshape⟩
        rw [child?_putChild, if_pos rfl]
      · refine ⟨z, subAt?_cons_eq_some_iff.2 ⟨found, ?_, hrest⟩, .refl z⟩
        rw [child?_putChild, if_neg hnext, hfound]

theorem not_prefix_of_subAt? (hx : p.subAt? path = some x)
    (hleaf : ∀ sub, x.last? leaf ≠ some (.policy sub)) (hz : p.subAt? w = some z) :
    ¬path ++ [leaf] <+: w := by
  rintro ⟨rest, rfl⟩
  rw [List.append_assoc, subAt?_append, hx, Option.bind_some, List.singleton_append,
    subAt?_cons_eq_some_iff] at hz
  obtain ⟨sub, hsub, -⟩ := hz
  exact hleaf sub (child?_eq_some_iff.1 hsub)

/-- Where files are named, all promotions succeed exactly if none of them comes before one within
the dictionary that it overwrites. -/
theorem WellFormed.exists_promotes_iff {holders : List (List String)} (h : p.WellFormed)
    (hnodup : holders.Nodup) (hall : ∀ path ∈ holders, ∃ x v text, p.subAt? path = some x ∧
      x.last? dictionaryFileKey = some v ∧ v.fileText? = some text) :
    (∃ q, Promotes holders p q) ↔
      holders.Pairwise fun path w => ¬path ++ [dictionaryKey] <+: w := by
  induction holders generalizing p with
  | nil => exact iff_of_true ⟨p, .done⟩ .nil
  | cons path later ih =>
    rw [List.nodup_cons] at hnodup
    rw [List.forall_mem_cons] at hall
    obtain ⟨⟨x, v, text, hx, hv, ht⟩, hlater⟩ := hall
    have hw := h.putAt hx ((h.subAt? hx).promoted text)
    rw [List.pairwise_cons]
    constructor
    · rintro ⟨q, ⟨⟩ | @⟨_, _, _, _, x', v', text', hx', hv', ht', hq⟩⟩
      obtain rfl := Option.some.inj (hx.symm.trans hx')
      obtain rfl := Option.some.inj (hv.symm.trans hv')
      obtain rfl := Option.some.inj (ht.symm.trans ht')
      -- what is promoted later is there after the first promotion, hence not in what that overwrote
      have hthere := fun w (hmem : w ∈ later) => hq.exists_fileText? hw hmem
      refine ⟨fun w hmem => ?_, (ih hw hnodup.2 hthere).1 ⟨q, hq⟩⟩
      obtain ⟨z, -, -, hz, -⟩ := hthere w hmem
      refine not_prefix_of_subAt? (subAt?_putAt p path _) (fun sub hsub => ?_) hz
      rw [(h.subAt? hx).last?_promoted, if_pos rfl] at hsub
      cases hsub
    · rintro ⟨hout, hpairwise⟩
      have hthere : ∀ w ∈ later, ∃ z u text', (p.putAt path (x.promoted text)).subAt? w = some z ∧
          z.last? dictionaryFileKey = some u ∧ u.fileText? = some text' := by
        intro w hmem
        obtain ⟨z, u, text', hz, hu, htext⟩ := hlater w hmem
        have hne : w ≠ path := fun heq => hnodup.1 (heq ▸ hmem)
        obtain ⟨z', hz', hshape⟩ := h.exists_subAt?_putAt_promoted hx hv ht hz hne (hout w hmem)
        obtain ⟨u', hu', heq⟩ := hshape.symm.exists_last? hu
        exact ⟨z', u', text', hz', hu', (fileText?_of_shape heq).trans htext⟩
      obtain ⟨q, hq⟩ := (ih hw hnodup.2 hthere).2 hpairwise
      exact ⟨q, .next hx hv ht hq⟩

theorem exists_promotes {holders : List (List String)} (hnodup : holders.Nodup) (h : p.WellFormed)
    (hall : ∀ path ∈ holders, ∃ x text, p.subAt? path = some x ∧
      x.last? dictionaryFileKey = some (.string text) ∧ x.last? dictionaryKey = none) :
    ∃ q, Promotes holders p q := by
  refine (h.exists_promotes_iff hnodup fun path hmem => ?_).2
    (List.pairwise_of_forall_mem_list fun path hpath w hw => ?_)
  · obtain ⟨x, text, hx, hlast, -⟩ := hall path hmem
    exact ⟨x, _, text, hx, hlast, rfl⟩
  · obtain ⟨x, -, hx, -, hsingle⟩ := hall path hpath
    obtain ⟨z, -, hz, -⟩ := hall w hw
    refine not_prefix_of_subAt? hx (fun sub hsub => ?_) hz
    rw [hsingle] at hsub
    cases hsub

/-- What a policy is after promotions: what it was before, or that with its file promoted. -/
theorem Promotes.subAt? {holders : List (List String)} (hq : Promotes holders p q)
    (h : p.WellFormed) (hz : q.subAt? w = some z) :
    (w ∉ holders ∧ ∃ x, p.subAt? w = some x ∧ z.SameShape x) ∨
      w ∈ holders ∧ ∃ x v text, p.subAt? w = some x ∧ x.last? dictionaryFileKey = some v ∧
        v.fileText? = some text ∧ z.SameShape (x.promoted text) := by
  induction hq with
  | done => exact .inl ⟨List.not_mem_nil, z, hz, .refl z⟩
  | @next path later p q x v text hx hv ht _ ih =>
    have hwx := h.subAt? hx
    have hw := h.putAt hx (hwx.promoted text)
    rcases ih hw hz with ⟨hlater, y, hy, hshape⟩ | ⟨hlater, y, u, text', hy, hu, htext, hshape⟩
    · by_cases hpath : w = path
      · subst hpath
        rw [subAt?_putAt] at hy
        obtain rfl := Option.some.inj hy
        exact .inr ⟨List.mem_cons_self .., x, v, text, hx, hv, ht, hshape⟩
      · rcases h.subAt?_putAt_promoted hx hy with ⟨heq, -⟩ | ⟨y', hy', hsame⟩
        · exact absurd heq hpath
        · refine .inl ⟨?_, y', hy', hshape.trans hsame⟩
          exact List.not_mem_cons_of_ne_of_not_mem hpath hlater
    · rcases h.subAt?_putAt_promoted hx hy with ⟨rfl, rfl⟩ | ⟨y', hy', hsame⟩
      · rw [hwx.last?_promoted, if_neg dictionaryFileKey_ne_dictionaryKey, if_pos rfl] at hu
        cases hu
      · obtain ⟨u', hu', heq⟩ := hsame.exists_last? hu
        exact .inr ⟨List.mem_cons_of_mem _ hlater, y', u', text', hy', hu',
          (fileText?_of_shape heq).trans htext,
          hshape.trans (hsame.promoted (hw.subAt? hy) (h.subAt? hy') text')⟩

/-- What a tree has after promotions under a name other than `dictionary` it had before, and what
it has under that name is a reference to a file that was named before. -/
theorem Promotes.last? {holders : List (List String)} (hq : Promotes holders p q)
    (h : p.WellFormed) (hz : q.subAt? w = some z) (hv : z.last? leaf = some v) :
    (∃ z' v', p.subAt? w = some z' ∧ z'.last? leaf = some v' ∧ v'.shape = v.shape ∧
        (leaf = dictionaryFileKey → w ∉ holders)) ∨
      w ∈ holders ∧ leaf = dictionaryKey ∧ ∃ x u text, p.subAt? w = some x ∧
        x.last? dictionaryFileKey = some u ∧ u.fileText? = some text ∧ v = .file text := by
  rcases hq.subAt? h hz with ⟨hw, x, hx, hshape⟩ | ⟨hw, x, u, text, hx, hu, ht, hshape⟩
  · obtain ⟨v', hv', heq⟩ := hshape.exists_last? hv
    exact .inl ⟨x, v', hx, hv', heq, fun _ => hw⟩
  · obtain ⟨v', hv', heq⟩ := hshape.exists_last? hv
    rw [(h.subAt? hx).last?_promoted] at hv'
    split at hv'
    · rename_i hleaf
      obtain rfl := Option.some.inj hv'
      exact .inr ⟨hw, hleaf, x, u, text, hx, hu, ht, Value.shape_eq_file_iff.1 heq.symm⟩
    · split at hv'
      · cases hv'
      · rename_i hleaf
        exact .inl ⟨x, v', hx, hv', heq, fun hfile => absurd hfile hleaf⟩

theorem Promotes.holderPaths_eq_nil (hq : Promotes p.holderPaths p q) (h : p.WellFormed) :
    q.holderPaths = [] := by
  rw [List.eq_nil_iff_forall_not_mem]
  intro w hw
  obtain ⟨hne, z, hz, hsome⟩ := (h.promotes hq).mem_holderPaths_iff.1 hw
  obtain ⟨v, hv⟩ := Option.isSome_iff_exists.1 hsome
  rcases hq.last? h hz hv with ⟨z', v', hz', hv', -, hnot⟩ | ⟨-, hleaf, -⟩
  · apply hnot rfl
    exact h.mem_holderPaths_iff.2 ⟨hne, z', hz', by rw [hv']; rfl⟩
  · exact dictionaryFileKey_ne_dictionaryKey hleaf

end Policy

end PolicyTree
