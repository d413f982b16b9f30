import PolicyTree.Proofs.Resolver.Dictionary
import PolicyTree.Proofs.Resolver.Unfolding
import PolicyTree.Proofs.Schema.Order

namespace PolicyTree

variable {p q t x y sub : Policy} {s s' : Standing} {r : Resolver} {top o : Opened}
  {base : Path} {chain chain' : List Place} {n k : Nat} {name text above reference : String}
  {v : Value} {path : List String} {front rest : List Value} {report : LoadReport} {d : Dictionary}

/-- A policy names a file, by a reference in an array or as its dictionary file, and so determines
where the policy of that file stands. -/
inductive Policy.NamesFile (s : Standing) (p : Policy) : Standing → String → Prop
  | reference {name text : String} {front rest : List Value}
      (h : p.valuesAt? [name] = some (front ++ .file text :: rest)) :
      NamesFile s p (s.within rest.isEmpty) text
  | dictionaryFile {text : String} (hs : s = .listed)
      (h : p.last? dictionaryFileKey = some (.string text)) : NamesFile s p .listed text

namespace Policy

theorem WellFormed.policy_of_valuesAt? (h : p.WellFormed)
    (hv : p.valuesAt? [name] = some (front ++ .policy sub :: rest)) : sub.WellFormed := by
  obtain ⟨e, he, -, hvalues⟩ := exists_mem_of_valuesAt? hv
  exact h.nested he (by simp [hvalues])

end Policy

namespace Resolver

/-- The policies that are part of what a file stands for, with the files that they are within,
innermost first, and the base that they are seen from. -/
inductive Reaches (r : Resolver) (top : Opened) :
    Standing → List Place → Path → Policy → Prop
  | top : Reaches r top .top [top.place] top.base top.policy
  | policy {s : Standing} {chain : List Place} {base : Path} {p sub : Policy}
      {name : String} {front rest : List Value} (h : Reaches r top s chain base p)
      (hv : p.valuesAt? [name] = some (front ++ .policy sub :: rest)) :
      Reaches r top (s.within rest.isEmpty) chain base sub
  | file {s s' : Standing} {chain : List Place} {base : Path} {p : Policy} {text : String}
      {o : Opened} (h : Reaches r top s chain base p) (hf : p.NamesFile s s' text)
      (ho : r.Opens base text o) : Reaches r top s' (o.place :: chain) o.base o.policy

/-- A dictionary of files that can be loaded in either way, by references as by the names of
dictionary files. -/
structure Consistent (r : Resolver) (top : Opened) : Prop where
  wellFormed : top.policy.WellFormed
  /-- No file is within itself. -/
  nodup : ∀ {s chain base p}, r.Reaches top s chain base p → chain.Nodup
  /-- Not more files are within one another than may be loaded. -/
  length_le : ∀ {s chain base p}, r.Reaches top s chain base p → chain.length ≤ r.limits.maxDepth
  /-- A dictionary file is the same seen from where it is named and from the base of the first
  file. -/
  opens_iff : ∀ {chain base p text o}, r.Reaches top .listed chain base p →
    p.last? dictionaryFileKey = some (.string text) →
      (r.Opens base text o ↔ r.Opens top.base text o)
  /-- No policy has a dictionary and names the file of one. -/
  single : ∀ {chain base p text}, r.Reaches top .listed chain base p →
    p.last? dictionaryFileKey = some (.string text) → p.last? dictionaryKey = none

theorem Reaches.wellFormed (h : r.Reaches top s chain base p) (htop : top.policy.WellFormed) :
    p.WellFormed := by
  induction h with
  | top => exact htop
  | policy _ hv ih => exact ih.policy_of_valuesAt? hv
  | file _ _ ho => exact ho.wellFormed

theorem Reaches.sublist (h : r.Reaches top s chain base p) : [top.place].Sublist chain := by
  induction h with
  | top => exact List.Sublist.refl _
  | policy _ _ ih => exact ih
  | file _ _ _ ih => exact ih.cons _

namespace Consistent

theorem single_of_reaches (hc : r.Consistent top) (h : r.Reaches top s chain base p) (text : String)
    (hs : s = .listed) (hlast : p.last? dictionaryFileKey = some (.string text)) :
    p.last? dictionaryKey = none := by
  subst hs
  exact hc.single h hlast

theorem loads (hc : r.Consistent top) (h : r.Reaches top s (o.place :: chain) o.base o.policy)
    (hsub : chain'.Sublist chain) (ho : r.Opens base text o) : r.Loads chain' base text o where
  shallow := by
    have hlen := hc.length_le h
    rw [List.length_cons] at hlen
    have hle := hsub.length_le
    omega
  opens := ho
  fresh hmem := (List.nodup_cons.1 (hc.nodup h)).1 (hsub.subset hmem)

theorem failures_eq_nil (hc : r.Consistent top) (h : r.Reaches top s chain base p)
    (hsub : chain'.Sublist chain) (hu : p.Unfolds r n s base t) :
    (p.resolve (r.loadNested chain' base) above).2.failures = [] := by
  induction n generalizing s chain base p chain' above t with
  | zero => exact absurd hu id
  | succ n ih =>
    have hw := h.wellFormed hc.wellFormed
    apply hw.failures_resolve_eq_nil_iff_values.2
    intro name values hvalues v hv
    obtain ⟨front, rest, rfl⟩ := List.append_of_mem hv
    by_cases hfile : v.kind = .file ∨ v.kind = .policy
    · have hname := hu.2 name
      have hkind : v.kind ≠ .string := by
        intro heq
        simp [heq] at hfile
      rw [hw.valuesAt?_normal (hc.single_of_reaches h) hvalues hkind, hvalues] at hname
      generalize t.valuesAt? [name] = ws at hname
      cases hname with
      | some heach =>
        obtain ⟨w, hw⟩ := heach.exists_at
        cases hw with
        | @file text o t' ho hu' =>
          have hreach := h.file (.reference hvalues) ho
          exact ⟨_, .file (loadNested_eq_ok_iff.2 ⟨o, hc.loads hreach hsub ho, rfl⟩)
            (ih hreach (hsub.cons_cons _) hu')⟩
        | policy hu' => exact ⟨_, .policy (ih (h.policy hvalues) hsub hu')⟩
        | other hnotFile hnotPolicy =>
          rcases hfile with hfile | hpolicy
          · exact absurd hfile hnotFile
          · exact absurd hpolicy hnotPolicy
    · exact ⟨v, .other (fun heq => hfile (.inl heq)) fun heq => hfile (.inr heq)⟩

end Consistent

/-- A policy in which a dictionary file is named after a pass comes from one in which it was named
before, in the tree or in a file that was loaded. -/
theorem Reaches.exists_origin (hc : r.Consistent top) (h : r.Reaches top s chain base p)
    (hnone : (p.resolve (r.loadNested chain' base) above).2.failures = [])
    (hy : (p.resolve (r.loadNested chain' base) above).1.subAt? path = some y)
    (hpath : s.after path = .listed) :
    ∃ chain₁ base₁ x, r.Reaches top .listed chain₁ base₁ x ∧ chain.length ≤ chain₁.length ∧
      ∀ text, y.last? dictionaryFileKey = some (.string text) →
        x.last? dictionaryFileKey = some (.string text) ∧ y.last? dictionaryKey = none := by
  have hw := h.wellFormed hc.wellFormed
  induction path generalizing s chain base p chain' above with
  | nil =>
    obtain rfl := Option.some.inj hy
    obtain rfl : s = .listed := hpath
    refine ⟨chain, base, p, h, Nat.le_refl _, fun text hlast => ?_⟩
    have hfile := hw.rel_last?_resolve hnone dictionaryFileKey
    have hdict := hw.rel_last?_resolve hnone dictionaryKey
    rw [hlast] at hfile
    have hbefore : p.last? dictionaryFileKey = some (.string text) := by
      generalize p.last? dictionaryFileKey = u at hfile
      cases hfile with
      | some hresolves =>
        cases hresolves with
        | other => rfl
    rw [hc.single h hbefore] at hdict
    generalize (p.resolve (r.loadNested chain' base) above).1.last? dictionaryKey = u at hdict
    cases hdict with
    | none => exact ⟨hbefore, rfl⟩
  | cons seg path ih =>
    obtain ⟨sub', hsub', hrest⟩ := Policy.subAt?_cons_eq_some_iff.1 hy
    have hlast := hw.rel_last?_resolve hnone seg
    rw [Policy.child?_eq_some_iff.1 hsub'] at hlast
    generalize hu : p.last? seg = u at hlast
    cases hlast with
    | some hresolves =>
      obtain ⟨front, hfront⟩ := Policy.valuesAt?_of_last? hu
      cases hresolves with
      | file hl hlnone =>
        obtain ⟨o, ho, rfl⟩ := loadNested_eq_ok_iff.1 hl
        have hreach := h.file (.reference hfront) ho.opens
        obtain ⟨chain₁, base₁, x, hx, hlen, hfile⟩ :=
          ih hreach hlnone hrest hpath (hreach.wellFormed hc.wellFormed)
        exact ⟨chain₁, base₁, x, hx, Nat.le_of_succ_le hlen, hfile⟩
      | policy hsubnone =>
        have hreach := h.policy hfront
        exact ih hreach hsubnone hrest hpath (hreach.wellFormed hc.wellFormed)
      | other _ hpolicy => exact absurd rfl hpolicy

/-- Whatever names a dictionary file in a tree comes from a policy that is within more files than
there were rounds. -/
def Seeded (r : Resolver) (top : Opened) (k : Nat) (p : Policy) : Prop :=
  ∀ path y, path ≠ [] → p.subAt? path = some y → (y.last? dictionaryFileKey).isSome →
    ∃ chain base x, r.Reaches top .listed chain base x ∧ k < chain.length ∧
      ∀ text, y.last? dictionaryFileKey = some (.string text) →
        x.last? dictionaryFileKey = some (.string text) ∧ y.last? dictionaryKey = none

theorem Seeded.exists_reaches (hp : r.Seeded top k p) (hw : p.WellFormed)
    (hplain : ∀ path text, ¬p.RefersAt path text) (hmem : path ∈ p.holderPaths)
    (hx : p.subAt? path = some x) (hv : x.last? dictionaryFileKey = some v)
    (ht : v.fileText? = some text) :
    ∃ chain base z, r.Reaches top .listed chain base z ∧ k < chain.length ∧
      z.last? dictionaryFileKey = some (.string text) := by
  have hstring : v = .string text := by
    cases v with
    | string =>
      obtain rfl := Option.some.inj ht
      rfl
    | file => exact absurd (Policy.refersAt_of_last? hx hv) (hplain _ _)
    | undefined | bool | int | double | policy => cases ht
  subst hstring
  obtain ⟨chain, base, z, hz, hk, hfile⟩ :=
    hp path x (hw.mem_holderPaths_iff.1 hmem).1 hx (by rw [hv]; rfl)
  exact ⟨chain, base, z, hz, hk, (hfile text hv).1⟩

theorem Seeded.reaches_of_refersAt (hp : r.Seeded top k p) (hc : r.Consistent top)
    (hw : p.WellFormed) (hplain : ∀ path text, ¬p.RefersAt path text)
    (hq : Policy.Promotes p.holderPaths p q) (href : q.RefersAt path text)
    (ho : r.Opens top.base text o) :
    ∃ chain, r.Reaches top .listed (o.place :: chain) o.base o.policy ∧
      [top.place].Sublist chain ∧ k < chain.length := by
  rcases hq.refersAt hw href with ⟨path, hbefore⟩ | ⟨front, hmem, x, v, hx, hv, ht⟩
  · exact absurd hbefore (hplain _ _)
  · obtain ⟨chain, base, z, hz, hk, hfile⟩ := hp.exists_reaches hw hplain hmem hx hv ht
    have hreach := hz.file (.dictionaryFile rfl hfile) ((hc.opens_iff hz hfile).2 ho)
    exact ⟨chain, hreach, hz.sublist, hk⟩

theorem Rounds.seeded (h : r.Rounds top k p report) (hc : r.Consistent top)
    (hnone : report.failures = []) : r.Seeded top k p := by
  induction h with
  | start =>
    intro path y hne hy hsome
    obtain ⟨chain, base, x, hx, hlen, hfile⟩ :=
      Reaches.top.exists_origin hc hnone hy (Standing.after_top hne)
    exact ⟨chain, base, x, hx, hlen, hfile⟩
  | @next k _ p q report h hp hn ih =>
    rw [LoadReport.failures_append, List.append_eq_nil_iff] at hnone
    have hw := h.wellFormed hc.wellFormed
    have hplain := h.not_refersAt hc.wellFormed hnone.1
    obtain ⟨hpromotes, -⟩ := hw.promoteDictionaryFiles_eq_ok_iff.1 hp
    have hwq := hw.promotes hpromotes
    intro path y hne hy hsome
    rcases hwq.subAt?_resolve_cases hnone.2 hy with
      ⟨x, name, hx, hxnone, rfl⟩ |
        ⟨front, leaf, rest, x, text, name, l, rfl, hx, hlast, hl, hlnone, hy⟩
    · -- What was there before the pass has been promoted.
      have hsame := isSome_eq_of_rel ((hwq.subAt? hx).rel_last?_resolve hxnone dictionaryFileKey)
      have hmem := hwq.mem_holderPaths_iff.2 ⟨hne, x, hx, hsame.trans hsome⟩
      rw [hpromotes.holderPaths_eq_nil hw] at hmem
      cases hmem
    · obtain ⟨o, ho, rfl⟩ := loadNested_eq_ok_iff.1 hl
      obtain ⟨chain, hreach, -, hk⟩ := (ih hnone.1).reaches_of_refersAt hc hw hplain hpromotes
        (Policy.refersAt_of_last? hx hlast) ho.opens
      obtain ⟨chain₁, base₁, z, hz, hlen, hfile⟩ :=
        hreach.exists_origin hc hlnone hy (Standing.after_listed rest)
      rw [List.length_cons] at hlen
      exact ⟨chain₁, base₁, z, hz, by omega, hfile⟩

/-- What is known of the policies in a tree before a pass over it: they are part of the
dictionary, or of a tree in which files were promoted. -/
inductive Known (r : Resolver) (top : Opened) : Standing → Path → Policy → Prop
  | reached {s s' : Standing} {chain : List Place} {base : Path} {p : Policy}
      (h : r.Reaches top s' chain base p) (hs : s = .hidden ∨ s = s') : Known r top s base p
  | promoted {s : Standing} {p : Policy} (hw : p.WellFormed)
      (hreach : ∀ path text o, p.RefersAt path text → r.Opens top.base text o →
        ∃ chain, r.Reaches top .listed chain o.base o.policy) : Known r top s top.base p

theorem Consistent.anchored (hc : r.Consistent top) :
    Policy.Anchored r top.base (r.Known top) where
  wellFormed h := by
    cases h with
    | reached h => exact h.wellFormed hc.wellFormed
    | promoted hw => exact hw
  policy h hv := by
    cases h with
    | reached h hs =>
      exact .reached (h.policy hv) (Standing.within_imp hs _)
    | promoted hw hreach =>
      apply Known.promoted (hw.policy_of_valuesAt? hv)
      intro path text o href
      exact hreach _ text o (Policy.refersAt_policy hv (by simp) href)
  file h hv ho := by
    cases h with
    | reached h hs =>
      exact .reached (h.file (.reference hv) ho) (Standing.within_imp hs _)
    | promoted hw hreach =>
      obtain ⟨chain, h⟩ := hreach _ _ _ (Policy.refersAt_file hv (by simp)) ho
      exact .reached h (Standing.within_eq ..)
  agree h hlast := by
    cases h with
    | reached h hs =>
      obtain rfl := hs.resolve_left (by decide)
      exact hc.opens_iff h hlast
    | promoted => exact Iff.rfl

theorem Rounds.unfolds_iff (h : r.Rounds top k p report) (hc : r.Consistent top)
    (hnone : report.failures = []) :
    top.policy.Unfolds r n .top top.base t ↔ p.Unfolds r n .top top.base t := by
  induction h with
  | start => exact Policy.unfolds_resolve_iff hc.anchored (.reached .top (.inr rfl)) hnone
  | @next k _ p q report h hp hn ih =>
    rw [LoadReport.failures_append, List.append_eq_nil_iff] at hnone
    have hw := h.wellFormed hc.wellFormed
    have hplain := h.not_refersAt hc.wellFormed hnone.1
    obtain ⟨hpromotes, -⟩ := hw.promoteDictionaryFiles_eq_ok_iff.1 hp
    have hknown : r.Known top .top top.base q := by
      apply Known.promoted (hw.promotes hpromotes)
      intro path text o href ho
      obtain ⟨chain, hreach, -⟩ :=
        (h.seeded hc hnone.1).reaches_of_refersAt hc hw hplain hpromotes href ho
      exact ⟨_, hreach⟩
    rw [ih hnone.1, ← Policy.unfolds_resolve_iff hc.anchored hknown hnone.2]
    apply hpromotes.unfolds_iff hw
    · intro path hmem
      exact (hw.mem_holderPaths_iff.1 hmem).1
    · intro path x text hx hlast
      exact hplain _ _ (Policy.refersAt_of_last? hx hlast)

theorem Rounds.unfolds_holder (h : r.Rounds top k p report) (hc : r.Consistent top)
    (hnone : report.failures = []) (hu : top.policy.Unfolds r n .top top.base t)
    (hmem : path ∈ p.holderPaths) :
    ∃ x text o m u, p.subAt? path = some x ∧ x.last? dictionaryFileKey = some (.string text) ∧
      x.last? dictionaryKey = none ∧ r.Opens top.base text o ∧
        o.policy.Unfolds r m .listed o.base u := by
  have hw := h.wellFormed hc.wellFormed
  obtain ⟨hne, x, hx, hsome⟩ := hw.mem_holderPaths_iff.1 hmem
  obtain ⟨v, hv⟩ := Option.isSome_iff_exists.1 hsome
  have hseeded := h.seeded hc hnone
  have hsingle : ∀ w z text, Standing.top.after w = .listed → p.subAt? w = some z →
      z.last? dictionaryFileKey = some (.string text) → z.last? dictionaryKey = none := by
    intro w z text hlisted hz hlast
    cases w with
    | nil => cases hlisted
    | cons seg w =>
      obtain ⟨_, _, _, -, -, hfile⟩ := hseeded _ z (List.cons_ne_nil seg w) hz (by rw [hlast]; rfl)
      exact (hfile text hlast).2
  obtain ⟨m, u, hxu⟩ := ((h.unfolds_iff hc hnone).1 hu).exists_subAt? hw hsingle hx
  rw [Standing.after_top hne] at hxu
  cases m with
  | zero => exact absurd hxu id
  | succ m =>
    have hkind := hxu.1 rfl v hv
    cases v with
    | string text =>
      have hname := hxu.2 dictionaryKey
      rw [Policy.normal_of_some (Policy.ownFile?_eq_some_iff.2 ⟨rfl, hv⟩),
        (hw.subAt? hx).valuesAt?_promoted, if_pos rfl] at hname
      generalize u.valuesAt? [dictionaryKey] = ws at hname
      cases hname with
      | some heach =>
        cases heach with
        | cons hfile =>
          cases hfile with
          | @file text o u' ho hu' =>
            have hdict := hsingle path x text (Standing.after_top hne) hx hv
            exact ⟨x, text, o, m, u', hx, hv, hdict, ho, hu'⟩
          | other hfile => exact absurd rfl hfile
    | undefined | bool | int | double | file | policy => cases hkind

theorem Rounds.failures_eq_nil (h : r.Rounds top k p report) (hc : r.Consistent top)
    (hu : top.policy.Unfolds r n .top top.base t) : report.failures = [] := by
  induction h with
  | start => exact hc.failures_eq_nil .top (List.Sublist.refl _) hu
  | @next k _ p q report h hp hn ih =>
    rw [LoadReport.failures_append, List.append_eq_nil_iff]
    apply And.intro ih
    have hw := h.wellFormed hc.wellFormed
    have hplain := h.not_refersAt hc.wellFormed ih
    obtain ⟨hpromotes, -⟩ := hw.promoteDictionaryFiles_eq_ok_iff.1 hp
    rw [(hw.promotes hpromotes).failures_resolve_eq_nil_iff]
    intro path text href
    rcases hpromotes.refersAt hw href with ⟨path, hbefore⟩ | ⟨front, hmem, x, v, hx, hv, ht⟩
    · exact absurd hbefore (hplain _ _)
    · obtain ⟨x', text', o, m, u, hx', hlast, -, ho, hou⟩ := h.unfolds_holder hc ih hu hmem
      obtain rfl := Option.some.inj (hx.symm.trans hx')
      obtain rfl := Option.some.inj (hv.symm.trans hlast)
      obtain rfl := Option.some.inj ht
      obtain ⟨chain, hreach, hsub, -⟩ :=
        (h.seeded hc ih).reaches_of_refersAt hc hw hplain hpromotes href ho
      exact ⟨_, loadNested_eq_ok_iff.2 ⟨o, hc.loads hreach hsub ho, rfl⟩,
        hc.failures_eq_nil hreach (hsub.cons_cons o.place) hou⟩

theorem Rounds.settled (h : r.Rounds top k p report) (hc : r.Consistent top)
    (hnone : report.failures = [])
    (hend : k = r.limits.maxDepth ∨ p.dictionaryFileHolders = []) : p.Settled .top where
  files := h.not_refersAt hc.wellFormed hnone
  holders path x hpath hx := by
    have hw := h.wellFormed hc.wellFormed
    have hne : path ≠ [] := by
      intro heq
      rw [heq] at hpath
      cases hpath
    apply Decidable.byContradiction
    intro hlast
    have hsome := Option.isSome_iff_ne_none.2 hlast
    rcases hend with rfl | hdone
    · obtain ⟨chain, base, z, hz, hk, -⟩ := h.seeded hc hnone path x hne hx hsome
      exact absurd (hc.length_le hz) (Nat.not_le_of_lt hk)
    · have hmem := hw.mem_holderPaths_iff.2 ⟨hne, x, hx, hsome⟩
      rw [hw.dictionaryFileHolders_eq, List.map_eq_nil_iff] at hdone
      rw [hdone] at hmem
      cases hmem

/-- A dictionary that is loaded is what its first file stands for. -/
theorem Consistent.exists_unfolds (hc : r.Consistent top) (ho : r.Opens base reference top)
    (h : r.loadDictionary reference base = .ok d) :
    ∃ n, top.policy.Unfolds r n .top top.base d.policy := by
  obtain ⟨o, k, report, ho', hrounds, -, hend, hnone, -⟩ := loadDictionary_eq_ok_iff.1 h
  obtain rfl := ho.unique ho'
  have hsettled := hrounds.settled hc hnone hend
  exact ⟨_, (hrounds.unfolds_iff hc hnone).2 (hsettled.unfolds_self (Nat.le_refl _))⟩

/-- If the first file stands for something that passes the check, it is loaded as such. -/
theorem Consistent.exists_loadDictionary (hc : r.Consistent top) (ho : r.Opens base reference top)
    (hu : top.policy.Unfolds r n .top top.base t) (ht : t.WellFormed)
    (hcheck : Dictionary.checkIn t = .ok ⟨⟩) (hdefs : t.contains definitionsKey = true) :
    ∃ d, r.loadDictionary reference base = .ok d ∧ d.policy.Alike t := by
  obtain ⟨k, -, p, report, hrounds, ⟨hend, hload⟩ | ⟨e, he, -⟩⟩ := loadDictionary_of_rounds ho
  · have hnone := hrounds.failures_eq_nil hc hu
    have halike := (hrounds.settled hc hnone hend).alike ((hrounds.unfolds_iff hc hnone).1 hu)
    have hcontains : p.contains definitionsKey = true := by
      rw [(halike.alikeAt _).contains_eq (by decide)]
      exact hdefs
    refine ⟨⟨p, hcontains⟩, ?_, halike⟩
    rw [hload]
    exact accept_eq_ok_iff.2 ⟨rfl, hnone, Dictionary.checkIn_of_alike ht halike.symm hcheck⟩
  · have hnone := hrounds.failures_eq_nil hc hu
    have hw := hrounds.wellFormed hc.wellFormed
    obtain ⟨q, hq⟩ := Policy.exists_promotes (Policy.nodup_holderPaths hw) hw (by
      intro path hmem
      obtain ⟨x, text, o, m, u, hx, hlast, hsingle, -, -⟩ :=
        hrounds.unfolds_holder hc hnone hu hmem
      exact ⟨x, text, hx, hlast, hsingle⟩)
    rw [hw.promoteDictionaryFiles_eq_ok_iff.2 ⟨hq, rfl⟩] at he
    cases he

end Resolver

end PolicyTree
