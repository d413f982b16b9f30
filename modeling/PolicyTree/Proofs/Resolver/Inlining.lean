import PolicyTree.Proofs.Resolver.Consistency

namespace PolicyTree

variable {p q t x y sub : Policy} {s s' : Standing} {r r' : Resolver} {top o o' : Opened}
  {base base' : Path} {chain : List Place} {n : Nat} {name text reference : String}
  {values front rest : List Value} {v w : Value} {d : Dictionary} {spelled : List String → Policy}

namespace Policy

/-- The second policy is the first one, but for policies in it whose dictionary file is followed:
some of them refer to that file under `dictionary` instead, in whatever order their names are. -/
inductive Respells (s : Standing) : Policy → Policy → Prop
  | refl {p : Policy} : Respells s p p
  | entry {p q x y : Policy} {path : List String} {text : String} (h : Respells s p q)
      (hpath : s.after path = .listed) (hx : q.subAt? path = some x)
      (hlast : x.last? dictionaryFileKey = some (.string text)) (hy : y.WellFormed)
      (hvalues : ∀ name, y.valuesAt? [name] = (x.promoted text).valuesAt? [name]) :
      Respells s p (q.putAt path y)

theorem Respells.wellFormed (h : p.Respells s q) (hw : p.WellFormed) : q.WellFormed := by
  induction h with
  | refl => exact hw
  | entry _ _ hx _ hy _ ih => exact ih.putAt hx hy

theorem Respells.unfolds_iff (h : p.Respells s q) (hw : p.WellFormed) :
    p.Unfolds r n s base t ↔ q.Unfolds r n s base t := by
  induction h with
  | refl => exact Iff.rfl
  | @entry q x y path text h hpath hx hlast hy hvalues ih =>
    have hwq := h.wellFormed hw
    have hwx := hwq.subAt? hx
    have hdone : y.last? dictionaryFileKey = none := by
      rw [last?_eq_bind, hvalues, ← last?_eq_bind, hwx.last?_promoted,
        if_neg dictionaryFileKey_ne_dictionaryKey, if_pos rfl]
    rw [ih]
    apply unfolds_putAt_iff hwq hx hy
    · rw [hpath]
      apply iff_of_true
      · intro _ v hv
        rw [hdone] at hv
        cases hv
      · intro _ v hv
        rw [hlast] at hv
        obtain rfl := Option.some.inj hv
        rfl
    · intro name
      rw [hpath, normal_of_none (ownFile?_eq_none fun _ => hdone),
        normal_of_some (ownFile?_eq_some_iff.2 ⟨rfl, hlast⟩), hvalues]

/-- What is under a name after a change at the end of a walk: what was there before, but for the
policy that the walk leads through. -/
theorem valuesAt?_putAt_cons {seg : String} {path : List String}
    (hx : p.subAt? (seg :: path) = some x)
    (hv : (p.putAt (seg :: path) y).valuesAt? [name] = some (front ++ v :: rest)) :
    (∃ rest', p.valuesAt? [name] = some (front ++ v :: rest') ∧ rest'.isEmpty = rest.isEmpty) ∨
      ∃ sub, p.valuesAt? [name] = some (front ++ [.policy sub]) ∧ sub.subAt? path = some x ∧
        v = .policy (sub.putAt path y) ∧ rest = [] := by
  obtain ⟨sub, hsub, hrest⟩ := subAt?_cons_eq_some_iff.1 hx
  obtain ⟨before, hbefore, hput⟩ := exists_valuesAt?_putChild hsub
  rw [putAt_cons hsub, hput] at hv
  split at hv
  · rename_i hname
    subst hname
    rcases List.eq_nil_or_concat rest with rfl | ⟨inner, last, rfl⟩
    · obtain ⟨rfl, heq⟩ := List.append_inj' (Option.some.inj hv) rfl
      obtain rfl := List.singleton_inj.1 heq
      exact .inr ⟨sub, hbefore, hrest, rfl, rfl⟩
    · have heq := Option.some.inj hv
      rw [List.concat_eq_append, ← List.cons_append, ← List.append_assoc] at heq
      obtain ⟨rfl, -⟩ := List.append_inj' heq rfl
      refine .inl ⟨inner ++ [.policy sub], ?_, ?_⟩
      · rw [hbefore, List.append_assoc, List.cons_append]
      · cases inner <;> rfl
  · exact .inl ⟨rest, hv, rfl⟩

theorem Respells.policy (h : p.Respells s q) (hw : p.WellFormed)
    (hv : q.valuesAt? [name] = some (front ++ .policy sub :: rest)) :
    ∃ sub' rest', p.valuesAt? [name] = some (front ++ .policy sub' :: rest') ∧
      rest'.isEmpty = rest.isEmpty ∧ sub'.Respells (s.within rest.isEmpty) sub := by
  induction h generalizing sub rest with
  | refl => exact ⟨sub, rest, hv, rfl, .refl⟩
  | @entry q x y path text h hpath hx hlast hy hvalues ih =>
    cases path with
    | nil =>
      obtain rfl := Option.some.inj hx
      rw [putAt_nil, hvalues, (h.wellFormed hw).valuesAt?_promoted] at hv
      split at hv
      · have hmem : Value.policy sub ∈ [Value.file text] := by simp [Option.some.inj hv]
        simp at hmem
      · split at hv
        · cases hv
        · exact ih hv
    | cons seg path =>
      rcases valuesAt?_putAt_cons hx hv with ⟨rest', hv', hempty⟩ | ⟨inner, hv', hz, heq, rfl⟩
      · rw [← hempty]
        exact ih hv'
      · obtain rfl := Value.policy.inj heq
        obtain ⟨sub', rest', hsub', hempty, hrespells⟩ := ih hv'
        exact ⟨sub', rest', hsub', hempty, hrespells.entry hpath hz hlast hy hvalues⟩

theorem Respells.last?_dictionaryFile (h : p.Respells s q) (hw : p.WellFormed)
    (hv : q.last? dictionaryFileKey = some (.string text)) :
    p.last? dictionaryFileKey = some (.string text) ∧
      (p.last? dictionaryKey = none → q.last? dictionaryKey = none) := by
  induction h with
  | refl => exact ⟨hv, id⟩
  | @entry q x y path text' h hpath hx hlast hy hvalues ih =>
    cases path with
    | nil =>
      obtain rfl := Option.some.inj hx
      rw [putAt_nil, last?_eq_bind, hvalues, ← last?_eq_bind, (h.wellFormed hw).last?_promoted,
        if_neg dictionaryFileKey_ne_dictionaryKey, if_pos rfl] at hv
      cases hv
    | cons seg path =>
      obtain ⟨sub, hsub, -⟩ := subAt?_cons_eq_some_iff.1 hx
      rw [putAt_cons hsub, last?_putChild] at hv ⊢
      split at hv
      · cases hv
      · obtain ⟨hfile, hdict⟩ := ih hv
        refine ⟨hfile, fun hnone => ?_⟩
        rw [if_neg, hdict hnone]
        intro hseg
        rw [← hseg, child?_eq_some_iff, hdict hnone] at hsub
        cases hsub

theorem Respells.referred (h : p.Respells s q) (hw : p.WellFormed)
    (hv : q.valuesAt? [name] = some (front ++ .file text :: rest)) :
    p.NamesFile s (s.within rest.isEmpty) text := by
  induction h generalizing rest with
  | refl => exact .reference hv
  | @entry q x y path named h hpath hx hlast hy hvalues ih =>
    cases path with
    | nil =>
      obtain rfl := Option.some.inj hx
      rw [putAt_nil, hvalues, (h.wellFormed hw).valuesAt?_promoted] at hv
      split at hv
      · cases front with
        | nil =>
          obtain ⟨htext, rfl⟩ := List.cons.inj (Option.some.inj hv)
          obtain rfl := Value.file.inj htext
          obtain rfl : s = .listed := hpath
          exact .dictionaryFile rfl (h.last?_dictionaryFile hw hlast).1
        | cons => simp at hv
      · split at hv
        · cases hv
        · exact ih hv
    | cons seg path =>
      rcases valuesAt?_putAt_cons hx hv with ⟨rest', hv', hempty⟩ | ⟨inner, -, -, heq, -⟩
      · rw [← hempty]
        exact ih hv'
      · cases heq

theorem Respells.namesFile (h : p.Respells s q) (hw : p.WellFormed) (hf : q.NamesFile s s' text) :
    p.NamesFile s s' text := by
  cases hf with
  | reference hv => exact h.referred hw hv
  | dictionaryFile hs hlast => exact .dictionaryFile hs (h.last?_dictionaryFile hw hlast).1

theorem WellFormed.valuesAt?_normal_cases (h : p.WellFormed)
    (hv : (p.normal s).valuesAt? [name] = some values) :
    p.valuesAt? [name] = some values ∨ ∃ text, s = .listed ∧
      p.last? dictionaryFileKey = some (.string text) ∧ values = [.file text] := by
  cases hfile : p.ownFile? s with
  | none =>
    rw [normal_of_none hfile] at hv
    exact .inl hv
  | some text =>
    obtain ⟨hs, hlast⟩ := ownFile?_eq_some_iff.1 hfile
    rw [normal_of_some hfile, h.valuesAt?_promoted] at hv
    split at hv
    · exact .inr ⟨text, hs, hlast, (Option.some.inj hv).symm⟩
    · split at hv
      · cases hv
      · exact .inl hv

theorem WellFormed.policy_of_normal (h : p.WellFormed)
    (hv : (p.normal s).valuesAt? [name] = some (front ++ .policy sub :: rest)) :
    p.valuesAt? [name] = some (front ++ .policy sub :: rest) := by
  rcases h.valuesAt?_normal_cases hv with hv | ⟨text, -, -, heq⟩
  · exact hv
  · have hmem : Value.policy sub ∈ [Value.file text] := by simp [← heq]
    simp at hmem

theorem WellFormed.namesFile_of_normal (h : p.WellFormed)
    (hv : (p.normal s).valuesAt? [name] = some (front ++ .file text :: rest)) :
    p.NamesFile s (s.within rest.isEmpty) text := by
  rcases h.valuesAt?_normal_cases hv with hv | ⟨named, rfl, hlast, heq⟩
  · exact .reference hv
  · cases front with
    | nil =>
      obtain ⟨htext, rfl⟩ := List.cons.inj heq
      obtain rfl := Value.file.inj htext
      exact .dictionaryFile rfl hlast
    | cons => simp at heq

theorem kind_ne_of_valuesAt? {k : Kind} (h : ∀ e ∈ p.entries, ∀ v ∈ e.values, v.kind ≠ k)
    (hv : p.valuesAt? [name] = some (front ++ v :: rest)) : v.kind ≠ k := by
  obtain ⟨e, he, -, hvalues⟩ := exists_mem_of_valuesAt? hv
  exact h e he v (by simp [hvalues])

theorem valuesAt?_singleton {a : String}
    (h : (Policy.mk [⟨a, [v]⟩]).valuesAt? [name] = some (front ++ w :: rest)) :
    w = v ∧ rest = [] := by
  obtain ⟨e, he, -, hvalues⟩ := exists_mem_of_valuesAt? h
  obtain rfl := List.mem_singleton.1 he
  cases front with
  | nil => exact List.cons.inj hvalues.symm
  | cons => simp at hvalues

end Policy

def Opened.respelled (spelled : List String → Policy) (o : Opened) : Opened :=
  ⟨o.place, o.base, spelled o.place⟩

namespace Resolver

/-- What is looked for when a dictionary is loaded: where the policy of a file is to stand, and the
base that its name is seen from. A dictionary file may be seen from the base of the first file. -/
inductive Seeks (r : Resolver) (reference : String) (base : Path) : Standing → Path → String → Prop
  | top : Seeks r reference base .top base reference
  | named {s s' : Standing} {chain : List Place} {base' : Path} {p : Policy} {text : String}
      {top : Opened} (ho : r.Opens base reference top) (h : r.Reaches top s chain base' p)
      (hf : p.NamesFile s s' text) : Seeks r reference base s' base' text
  | promoted {chain : List Place} {base' : Path} {p : Policy} {text : String} {top : Opened}
      (ho : r.Opens base reference top) (h : r.Reaches top .listed chain base' p)
      (hlast : p.last? dictionaryFileKey = some (.string text)) :
      Seeks r reference base .listed top.base text

/-- All files of a dictionary are in another file system, too, where dictionary files that are named
in the one may be referred to. -/
structure Respells (r r' : Resolver) (spelled : List String → Policy) (reference : String)
    (base : Path) : Prop where
  limits : r'.limits = r.limits
  opens : ∀ {s base' text o}, r.Seeks reference base s base' text → r.Opens base' text o →
    r'.Opens base' text (o.respelled spelled) ∧ o.policy.Respells s (spelled o.place)
  exists_opens : ∀ {s base' text o'}, r.Seeks reference base s base' text →
    r'.Opens base' text o' → ∃ o, r.Opens base' text o

theorem Respells.exists_respelled (h : r.Respells r' spelled reference base)
    (hseeks : r.Seeks reference base s base' text) (ho' : r'.Opens base' text o') :
    ∃ o, r.Opens base' text o ∧ o' = o.respelled spelled ∧
      o.policy.Respells s (spelled o.place) := by
  obtain ⟨o, ho⟩ := h.exists_opens hseeks ho'
  obtain ⟨hother, hrespells⟩ := h.opens hseeks ho
  exact ⟨o, ho, ho'.unique hother, hrespells⟩

theorem Respells.opens_unfolds_iff (h : r.Respells r' spelled reference base)
    (hseeks : r.Seeks reference base s base' text)
    (hunfolds : ∀ o, r.Opens base' text o →
      (o.policy.Unfolds r n s o.base t ↔ o.policy.Unfolds r' n s o.base t)) :
    (∃ o, r.Opens base' text o ∧ o.policy.Unfolds r n s o.base t) ↔
      ∃ o, r'.Opens base' text o ∧ o.policy.Unfolds r' n s o.base t := by
  apply Iff.intro
  · rintro ⟨o, ho, hu⟩
    obtain ⟨ho', hrespells⟩ := h.opens hseeks ho
    exact ⟨_, ho', (hrespells.unfolds_iff ho.wellFormed).1 ((hunfolds o ho).1 hu)⟩
  · rintro ⟨o', ho', hu⟩
    obtain ⟨o, ho, rfl, hrespells⟩ := h.exists_respelled hseeks ho'
    exact ⟨o, ho, (hunfolds o ho).2 ((hrespells.unfolds_iff ho.wellFormed).2 hu)⟩

theorem Respells.unfolds_iff (h : r.Respells r' spelled reference base) (hc : r.Consistent top)
    (htop : r.Opens base reference top) (hp : r.Reaches top s chain base' p) :
    p.Unfolds r n s base' t ↔ p.Unfolds r' n s base' t := by
  induction n generalizing s chain base' p t with
  | zero => exact Iff.rfl
  | succ n ih =>
    have hw := hp.wellFormed hc.wellFormed
    apply and_congr Iff.rfl
    apply forall_congr'
    intro name
    apply rel_each_congr (S := fun _ => Eq)
    · cases (p.normal s).valuesAt? [name] with
      | none => exact .none
      | some values => exact .some (each_self fun _ _ _ _ => rfl)
    · intro front v rest _ w heq hvw
      subst hvw
      cases v with
      | file text =>
        have hf := hw.namesFile_of_normal heq
        have hfile : ∀ u, (∃ o, r.Opens base' text o ∧ o.policy.Unfolds r n _ o.base u) ↔
            ∃ o, r'.Opens base' text o ∧ o.policy.Unfolds r' n _ o.base u := fun u =>
          h.opens_unfolds_iff (.named htop hp hf) fun o ho => ih (hp.file hf ho)
        rw [Value.unfolds_file_iff_exists, Value.unfolds_file_iff_exists]
        exact exists_congr fun u => and_congr_right fun _ => hfile u
      | policy sub =>
        rw [Value.unfolds_policy_iff, Value.unfolds_policy_iff]
        have hsub := hp.policy (hw.policy_of_normal heq)
        exact exists_congr fun u => and_congr_right fun _ => ih hsub
      | undefined | bool | int | double | string =>
        rw [Value.unfolds_other_iff (by simp [Value.kind]) (by simp [Value.kind]),
          Value.unfolds_other_iff (by simp [Value.kind]) (by simp [Value.kind])]

theorem Respells.exists_reaches (h : r.Respells r' spelled reference base)
    (htop : r.Opens base reference top)
    (hq : r'.Reaches (top.respelled spelled) s chain base' q) :
    ∃ p, r.Reaches top s chain base' p ∧ p.Respells s q := by
  induction hq with
  | top => exact ⟨top.policy, .top, (h.opens .top htop).2⟩
  | policy _ hv ih =>
    obtain ⟨p, hp, hrespells⟩ := ih
    obtain ⟨sub, rest, hsub, hempty, hrespells⟩ :=
      hrespells.policy (hp.wellFormed htop.wellFormed) hv
    rw [← hempty] at hrespells ⊢
    exact ⟨sub, hp.policy hsub, hrespells⟩
  | file _ hf ho' ih =>
    obtain ⟨p, hp, hrespells⟩ := ih
    have hnames := hrespells.namesFile (hp.wellFormed htop.wellFormed) hf
    obtain ⟨o, ho, rfl, hrespells⟩ := h.exists_respelled (.named htop hp hnames) ho'
    exact ⟨o.policy, hp.file hnames ho, hrespells⟩

theorem Respells.consistent (h : r.Respells r' spelled reference base)
    (htop : r.Opens base reference top) (hc : r.Consistent top) :
    r'.Consistent (top.respelled spelled) where
  wellFormed := (h.opens .top htop).1.wellFormed
  nodup hq := by
    obtain ⟨p, hp, -⟩ := h.exists_reaches htop hq
    exact hc.nodup hp
  length_le hq := by
    obtain ⟨p, hp, -⟩ := h.exists_reaches htop hq
    rw [h.limits]
    exact hc.length_le hp
  single hq hlast := by
    obtain ⟨p, hp, hrespells⟩ := h.exists_reaches htop hq
    obtain ⟨hfile, hdict⟩ := hrespells.last?_dictionaryFile (hp.wellFormed hc.wellFormed) hlast
    exact hdict (hc.single hp hfile)
  opens_iff {chain base' q text o'} hq hlast := by
    obtain ⟨p, hp, hrespells⟩ := h.exists_reaches htop hq
    obtain ⟨hfile, -⟩ := hrespells.last?_dictionaryFile (hp.wellFormed hc.wellFormed) hlast
    have hown : r.Seeks reference base .listed base' text :=
      .named htop hp (.dictionaryFile rfl hfile)
    have htopmost : r.Seeks reference base .listed top.base text := .promoted htop hp hfile
    apply Iff.intro
    · intro ho'
      obtain ⟨o, ho, rfl, -⟩ := h.exists_respelled hown ho'
      exact (h.opens htopmost ((hc.opens_iff hp hfile).1 ho)).1
    · intro ho'
      obtain ⟨o, ho, rfl, -⟩ := h.exists_respelled htopmost ho'
      exact (h.opens hown ((hc.opens_iff hp hfile).2 ho)).1

theorem sound_of_loadDictionary (h : r.loadDictionary reference base = .ok d) :
    d.policy.WellFormed ∧ Dictionary.checkIn d.policy = .ok ⟨⟩ := by
  obtain ⟨o, k, report, ho, hrounds, -, -, -, hcheck⟩ := loadDictionary_eq_ok_iff.1 h
  exact ⟨hrounds.wellFormed ho.wellFormed, hcheck⟩

/-- It comes to the same whether the dictionary files are named or referred to under `dictionary`,
in any number of places of any files of a dictionary, as long as the files are consistent. -/
theorem loadDictionary_inlined (r r' : Resolver) (spelled : List String → Policy)
    (reference : String) (base : Path) (h : r.Respells r' spelled reference base)
    (hc : ∀ top, r.Opens base reference top → r.Consistent top) :
    Agree (fun d d' => d.policy.Alike d'.policy) (r.loadDictionary reference base)
      (r'.loadDictionary reference base) := by
  have hmeaning : ∀ n t,
      (∃ top, r.Opens base reference top ∧ top.policy.Unfolds r n .top top.base t) ↔
        ∃ top, r'.Opens base reference top ∧ top.policy.Unfolds r' n .top top.base t :=
    fun n t => h.opens_unfolds_iff .top fun top ho => h.unfolds_iff (hc top ho) ho .top
  have hc' : ∀ top', r'.Opens base reference top' → r'.Consistent top' := by
    intro top' ho'
    obtain ⟨top, ho, rfl, -⟩ := h.exists_respelled .top ho'
    exact h.consistent ho (hc top ho)
  apply Agree.of_ok
  · intro d hd
    obtain ⟨top, ho⟩ := opens_of_loadDictionary hd
    obtain ⟨hw, hcheck⟩ := sound_of_loadDictionary hd
    obtain ⟨n, hu⟩ := (hc top ho).exists_unfolds ho hd
    obtain ⟨top', ho', hu'⟩ := (hmeaning n d.policy).1 ⟨top, ho, hu⟩
    obtain ⟨d', hd', halike⟩ :=
      (hc' top' ho').exists_loadDictionary ho' hu' hw hcheck d.hasDefinitions
    exact ⟨d', hd', halike.symm⟩
  · intro d' hd'
    obtain ⟨top', ho'⟩ := opens_of_loadDictionary hd'
    obtain ⟨hw, hcheck⟩ := sound_of_loadDictionary hd'
    obtain ⟨n, hu'⟩ := (hc' top' ho').exists_unfolds ho' hd'
    obtain ⟨top, ho, hu⟩ := (hmeaning n d'.policy).2 ⟨top', ho', hu'⟩
    obtain ⟨d, hd, -⟩ := (hc top ho).exists_loadDictionary ho hu hw hcheck d'.hasDefinitions
    exact ⟨d, hd⟩

def inlinedZoneFiles : Resolver :=
  zonesWith "\"dictionary\":\x7b\"$ref\":\"zone\"\x7d"

def namedZone : Policy := ⟨[⟨"type", [.string "Policy"]⟩, ⟨dictionaryFileKey, [.string "zone"]⟩]⟩

def referredZone : Policy := ⟨[⟨"type", [.string "Policy"]⟩, ⟨dictionaryKey, [.file "zone"]⟩]⟩

def zoneMap (zone : Policy) : Policy := ⟨[⟨definitionsKey, [.policy ⟨[⟨"zone", [.policy zone]⟩]⟩]⟩]⟩

def zonePart : Policy := ⟨[⟨"default", [.string "north"]⟩]⟩

def zoneParts : Policy := ⟨[⟨definitionsKey, [.policy ⟨[⟨"name", [.policy zonePart]⟩]⟩]⟩]⟩

def namedZoneTexts : Policy → List String
  | ⟨[⟨a, [.policy ⟨[⟨b, [.policy ⟨[⟨c, [.string d]⟩, ⟨e, [.string f]⟩]⟩]⟩]⟩]⟩]⟩ =>
    [a, b, c, d, e, f]
  | _ => []

def referredZoneTexts : Policy → List String
  | ⟨[⟨a, [.policy ⟨[⟨b, [.policy ⟨[⟨c, [.string d]⟩, ⟨e, [.file f]⟩]⟩]⟩]⟩]⟩]⟩ =>
    [a, b, c, d, e, f]
  | _ => []

def zonePartTexts : Policy → List String
  | ⟨[⟨a, [.policy ⟨[⟨b, [.policy ⟨[⟨c, [.string d]⟩]⟩]⟩]⟩]⟩]⟩ => [a, b, c, d]
  | _ => []

theorem readPolicy_zoneMap :
    zoneFiles.readPolicy ⟨"map"⟩ = .ok (["map"], zoneMap namedZone) := by
  have h : (zoneFiles.readPolicy ⟨"map"⟩).toOption.map (Prod.map id namedZoneTexts) =
      some (["map"], [definitionsKey, "zone", "type", "Policy", dictionaryFileKey, "zone"]) := by
    decide +kernel
  obtain ⟨⟨place, p⟩, hfound, hshape⟩ := map_toOption_eq_some_iff.1 h
  rw [hfound]
  obtain ⟨rfl, htexts⟩ := Prod.mk.inj hshape
  unfold namedZoneTexts at htexts
  split at htexts
  · simp only [List.cons.injEq] at htexts
    obtain ⟨rfl, rfl, rfl, rfl, rfl, rfl, -⟩ := htexts
    rfl
  · cases htexts

theorem readPolicy_inlinedZoneMap :
    inlinedZoneFiles.readPolicy ⟨"map"⟩ = .ok (["map"], zoneMap referredZone) := by
  have h : (inlinedZoneFiles.readPolicy ⟨"map"⟩).toOption.map (Prod.map id referredZoneTexts) =
      some (["map"], [definitionsKey, "zone", "type", "Policy", dictionaryKey, "zone"]) := by
    decide +kernel
  obtain ⟨⟨place, p⟩, hfound, hshape⟩ := map_toOption_eq_some_iff.1 h
  rw [hfound]
  obtain ⟨rfl, htexts⟩ := Prod.mk.inj hshape
  unfold referredZoneTexts at htexts
  split at htexts
  · simp only [List.cons.injEq] at htexts
    obtain ⟨rfl, rfl, rfl, rfl, rfl, rfl, -⟩ := htexts
    rfl
  · cases htexts

theorem readPolicy_zoneParts :
    zoneFiles.readPolicy ⟨"zone"⟩ = .ok (["zone"], zoneParts) ∧
      inlinedZoneFiles.readPolicy ⟨"zone"⟩ = .ok (["zone"], zoneParts) := by
  have h : (zoneFiles.readPolicy ⟨"zone"⟩).toOption.map (Prod.map id zonePartTexts) =
      some (["zone"], [definitionsKey, "name", "default", "north"]) := by
    decide +kernel
  have hread : inlinedZoneFiles.files.read ⟨"zone"⟩ = zoneFiles.files.read ⟨"zone"⟩ := by
    decide +kernel
  have hsame : inlinedZoneFiles.readPolicy ⟨"zone"⟩ = zoneFiles.readPolicy ⟨"zone"⟩ := by
    unfold readPolicy
    rw [hread]
  rw [hsame, and_self]
  obtain ⟨⟨place, p⟩, hfound, hshape⟩ := map_toOption_eq_some_iff.1 h
  rw [hfound]
  obtain ⟨rfl, htexts⟩ := Prod.mk.inj hshape
  unfold zonePartTexts at htexts
  split at htexts
  · simp only [List.cons.injEq] at htexts
    obtain ⟨rfl, rfl, rfl, rfl, -⟩ := htexts
    rfl
  · cases htexts

theorem opens_zoneMap : zoneFiles.Opens ⟨""⟩ "map" ⟨["map"], ⟨""⟩, zoneMap namedZone⟩ := by
  have hlocate : zoneFiles.locate "map" ⟨""⟩ = .ok ⟨⟨"map"⟩, ⟨""⟩⟩ := by decide +kernel
  exact opens_of_readPolicy hlocate readPolicy_zoneMap

theorem opens_zoneParts : zoneFiles.Opens ⟨""⟩ "zone" ⟨["zone"], ⟨""⟩, zoneParts⟩ := by
  have hlocate : zoneFiles.locate "zone" ⟨""⟩ = .ok ⟨⟨"zone"⟩, ⟨""⟩⟩ := by decide +kernel
  exact opens_of_readPolicy hlocate readPolicy_zoneParts.1

theorem opens_inlinedZoneMap :
    inlinedZoneFiles.Opens ⟨""⟩ "map" ⟨["map"], ⟨""⟩, zoneMap referredZone⟩ := by
  have hlocate : inlinedZoneFiles.locate "map" ⟨""⟩ = .ok ⟨⟨"map"⟩, ⟨""⟩⟩ := by decide +kernel
  exact opens_of_readPolicy hlocate readPolicy_inlinedZoneMap

theorem opens_inlinedZoneParts :
    inlinedZoneFiles.Opens ⟨""⟩ "zone" ⟨["zone"], ⟨""⟩, zoneParts⟩ := by
  have hlocate : inlinedZoneFiles.locate "zone" ⟨""⟩ = .ok ⟨⟨"zone"⟩, ⟨""⟩⟩ := by decide +kernel
  exact opens_of_readPolicy hlocate readPolicy_zoneParts.2

inductive ZonePart : Standing → List Place → Policy → Prop
  | map : ZonePart .top [["map"]] (zoneMap namedZone)
  | zones : ZonePart .listed [["map"]] ⟨[⟨"zone", [.policy namedZone]⟩]⟩
  | zone : ZonePart .listed [["map"]] namedZone
  | parts : ZonePart .listed [["zone"], ["map"]] zoneParts
  | names : ZonePart .listed [["zone"], ["map"]] ⟨[⟨"name", [.policy zonePart]⟩]⟩
  | name : ZonePart .listed [["zone"], ["map"]] zonePart

theorem ZonePart.policy (h : ZonePart s chain p)
    (hv : p.valuesAt? [name] = some (front ++ .policy sub :: rest)) :
    ZonePart (s.within rest.isEmpty) chain sub := by
  cases h with
  | map =>
    obtain ⟨hsub, rfl⟩ := Policy.valuesAt?_singleton hv
    obtain rfl := Value.policy.inj hsub
    exact .zones
  | zones =>
    obtain ⟨hsub, rfl⟩ := Policy.valuesAt?_singleton hv
    obtain rfl := Value.policy.inj hsub
    exact .zone
  | parts =>
    obtain ⟨hsub, rfl⟩ := Policy.valuesAt?_singleton hv
    obtain rfl := Value.policy.inj hsub
    exact .names
  | names =>
    obtain ⟨hsub, rfl⟩ := Policy.valuesAt?_singleton hv
    obtain rfl := Value.policy.inj hsub
    exact .name
  | zone => exact absurd rfl (Policy.kind_ne_of_valuesAt? (k := .policy) (by decide) hv)
  | name => exact absurd rfl (Policy.kind_ne_of_valuesAt? (k := .policy) (by decide) hv)

theorem ZonePart.namesFile (h : ZonePart s chain p) (hf : p.NamesFile s s' text) :
    chain = [["map"]] ∧ s' = .listed ∧ text = "zone" := by
  cases hf with
  | reference hv =>
    have hkind : ∀ e ∈ p.entries, ∀ v ∈ e.values, v.kind ≠ .file := by
      cases h <;> decide
    exact absurd rfl (Policy.kind_ne_of_valuesAt? hkind hv)
  | dictionaryFile hs hlast =>
    cases h with
    | zone =>
      obtain rfl := Value.string.inj (Option.some.inj hlast)
      exact ⟨rfl, rfl, rfl⟩
    | map | zones | parts | names | name => cases hlast

theorem zonePart_of_reaches
    (h : zoneFiles.Reaches ⟨["map"], ⟨""⟩, zoneMap namedZone⟩ s chain base p) :
    base = ⟨""⟩ ∧ ZonePart s chain p := by
  induction h with
  | top => exact ⟨rfl, .map⟩
  | policy _ hv ih => exact ⟨ih.1, ih.2.policy hv⟩
  | file _ hf ho ih =>
    obtain ⟨rfl, hpart⟩ := ih
    obtain ⟨rfl, rfl, rfl⟩ := hpart.namesFile hf
    obtain rfl := ho.unique opens_zoneParts
    exact ⟨rfl, .parts⟩

theorem consistent_zones : zoneFiles.Consistent ⟨["map"], ⟨""⟩, zoneMap namedZone⟩ where
  wellFormed := opens_zoneMap.wellFormed
  nodup h := by
    cases (zonePart_of_reaches h).2 <;> decide
  length_le h := by
    cases (zonePart_of_reaches h).2 <;> decide
  opens_iff h _ := by
    obtain ⟨rfl, -⟩ := zonePart_of_reaches h
    exact Iff.rfl
  single h hlast := by
    cases (zonePart_of_reaches h).2 with
    | zone => rfl
    | zones | parts | names | name => cases hlast

theorem seeks_zones (h : zoneFiles.Seeks "map" ⟨""⟩ s base text) :
    base = ⟨""⟩ ∧ (s = .top ∧ text = "map" ∨ s = .listed ∧ text = "zone") := by
  cases h with
  | top => exact ⟨rfl, .inl ⟨rfl, rfl⟩⟩
  | named ho h hf =>
    obtain rfl := ho.unique opens_zoneMap
    obtain ⟨rfl, hpart⟩ := zonePart_of_reaches h
    exact ⟨rfl, .inr (hpart.namesFile hf).2⟩
  | promoted ho h hlast =>
    obtain rfl := ho.unique opens_zoneMap
    exact ⟨rfl, .inr ((zonePart_of_reaches h).2.namesFile (.dictionaryFile rfl hlast)).2⟩

def inlinedZones (place : Place) : Policy :=
  if place = ["map"] then zoneMap referredZone else zoneParts

theorem respells_zones : zoneFiles.Respells inlinedZoneFiles inlinedZones "map" ⟨""⟩ where
  limits := rfl
  opens hseeks ho := by
    obtain ⟨rfl, ⟨rfl, rfl⟩ | ⟨rfl, rfl⟩⟩ := seeks_zones hseeks
    · obtain rfl := ho.unique opens_zoneMap
      have hx : (zoneMap namedZone).subAt? [definitionsKey, "zone"] = some namedZone := rfl
      have hlast : namedZone.last? dictionaryFileKey = some (.string "zone") := rfl
      exact ⟨opens_inlinedZoneMap, .entry .refl rfl hx hlast (by decide) fun _ => rfl⟩
    · obtain rfl := ho.unique opens_zoneParts
      exact ⟨opens_inlinedZoneParts, .refl⟩
  exists_opens hseeks _ := by
    obtain ⟨rfl, ⟨rfl, rfl⟩ | ⟨rfl, rfl⟩⟩ := seeks_zones hseeks
    · exact ⟨_, opens_zoneMap⟩
    · exact ⟨_, opens_zoneParts⟩

theorem loadDictionary_inlined_zones :
    ∃ d d', zoneFiles.loadDictionary "map" ⟨""⟩ = .ok d ∧
      inlinedZoneFiles.loadDictionary "map" ⟨""⟩ = .ok d' ∧ d.policy.Alike d'.policy := by
  obtain ⟨d, hd⟩ := exists_loadDictionary_zones
  have hagree := loadDictionary_inlined zoneFiles inlinedZoneFiles inlinedZones "map" ⟨""⟩
    respells_zones fun top ho => ho.unique opens_zoneMap ▸ consistent_zones
  obtain ⟨d', hd', halike⟩ := hagree.exists_of_ok hd
  exact ⟨d, d', hd, hd', halike⟩

def packagedZones (entry : String) : Resolver where
  files :=
    { files :=
        [(["map"], ("\x7b\"definitions\":\x7b\"zone\":\x7b\"type\":\"Policy\"," ++
            "\"dictionary\":\x7b\"$ref\":\"land:zone\"\x7d\x7d\x7d\x7d").toUTF8),
          (["land", "zone"], ("\x7b\"definitions\":\x7b\"part\":\x7b\"type\":\"Policy\"," ++
            entry ++ "\x7d\x7d\x7d").toUTF8),
          (["land", "part"], "\x7b\"definitions\":\x7b\x7d\x7d".toUTF8)]
      directories := [] }
  locator := .table [("land", ⟨"land"⟩)]
  limits := .standard

/-- Within a package a reference is seen from there, but the name of a dictionary file from the
base of the first file, so that an entry that names a file of the package does not come to the
same as one that refers to it. -/
theorem not_agree_inlined_zones :
    ¬Agree (fun d d' => d.policy.Alike d'.policy)
      ((packagedZones "\"dictionaryFile\":\"part\"").loadDictionary "map" ⟨""⟩)
      ((packagedZones "\"dictionary\":\x7b\"$ref\":\"part\"\x7d").loadDictionary "map" ⟨""⟩) :=
  fun h => absurd h.isSome_toOption (by decide +kernel)

end Resolver

end PolicyTree
