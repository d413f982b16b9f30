import PolicyTree.Proofs.Policy.Alike
import PolicyTree.Proofs.Resolver.Rounds

namespace PolicyTree

/-- Where a policy stands in a tree: it is the tree, or a walk leads to it, or neither. Dictionary
files are followed only where walks lead. -/
inductive Standing where
  | top
  | listed
  | hidden
  deriving DecidableEq

/-- The standing of what is in an array of a policy; a walk leads to the last value only. -/
def Standing.within : Standing → Bool → Standing
  | .hidden, _ => .hidden
  | _, true => .listed
  | _, false => .hidden

theorem Standing.within_eq (s : Standing) (last : Bool) :
    s.within last = .hidden ∨ s.within last = .listed := by
  cases s <;> cases last <;> simp [within]

theorem Standing.within_imp {s s' : Standing} (hs : s = .hidden ∨ s = s') (last : Bool) :
    s.within last = .hidden ∨ s.within last = s'.within last := by
  rcases hs with rfl | rfl
  · exact .inl rfl
  · exact .inr rfl

def Standing.after (s : Standing) : List String → Standing
  | [] => s
  | _ :: path => (s.within true).after path

@[simp] theorem Standing.after_listed (path : List String) :
    Standing.listed.after path = .listed := by
  induction path with
  | nil => rfl
  | cons _ _ ih => exact ih

@[simp] theorem Standing.after_hidden (path : List String) :
    Standing.hidden.after path = .hidden := by
  induction path with
  | nil => rfl
  | cons _ _ ih => exact ih

theorem Standing.after_top {path : List String} (h : path ≠ []) :
    Standing.top.after path = .listed := by
  cases path with
  | nil => exact absurd rfl h
  | cons _ path => exact after_listed path

/-- Arrays correspond value by value, in a way that depends on whether a value is the last one. -/
inductive Each {α β : Type} (R : Bool → α → β → Prop) : List α → List β → Prop
  | nil : Each R [] []
  | cons {a : α} {b : β} {as : List α} {bs : List β} (h : R as.isEmpty a b) (hs : Each R as bs) :
      Each R (a :: as) (b :: bs)

section Each

variable {α β γ : Type} {R : Bool → α → β → Prop} {R' : Bool → γ → β → Prop}
  {S : Bool → α → γ → Prop} {as : List α} {bs : List β} {cs : List γ}

theorem each_nil_iff : Each R [] bs ↔ bs = [] := by
  constructor
  · intro h
    cases h
    rfl
  · intro h
    rw [h]
    exact .nil

theorem not_each_nil {a : α} : ¬Each R (a :: as) [] := by
  intro h
  cases h

theorem Each.cons_iff {a : α} {b : β} :
    Each R (a :: as) (b :: bs) ↔ R as.isEmpty a b ∧ Each R as bs := by
  constructor
  · intro h
    cases h with
    | cons h hs => exact ⟨h, hs⟩
  · intro h
    exact .cons h.1 h.2

theorem each_of_forall₂ {S : α → β → Prop} (h : List.Forall₂ S as bs) :
    Each (fun _ => S) as bs := by
  induction h with
  | nil => exact .nil
  | cons h _ ih => exact .cons h ih

theorem each_congr (h : Each S as cs) (hR : ∀ front a rest c b, as = front ++ a :: rest →
    S rest.isEmpty a c → (R rest.isEmpty a b ↔ R' rest.isEmpty c b)) :
    Each R as bs ↔ Each R' cs bs := by
  induction h generalizing bs with
  | nil => rw [each_nil_iff, each_nil_iff]
  | @cons a c as cs hac hall ih =>
    cases bs with
    | nil => exact iff_of_false not_each_nil not_each_nil
    | cons b bs =>
      have hempty : as.isEmpty = cs.isEmpty := by cases hall <;> rfl
      have hhead := hR [] a as c b rfl hac
      have htail : Each R as bs ↔ Each R' cs bs := ih fun front x rest y z heq =>
        hR (a :: front) x rest y z (by rw [heq, List.cons_append])
      rw [Each.cons_iff, Each.cons_iff, hhead, htail, hempty]

theorem each_concat_congr {a a' : α} (h : ∀ b, R true a b ↔ R true a' b) (front : List α) :
    Each R (front ++ [a]) bs ↔ Each R (front ++ [a']) bs := by
  induction front generalizing bs with
  | nil =>
    cases bs with
    | nil => exact iff_of_false not_each_nil not_each_nil
    | cons b bs =>
      rw [List.nil_append, List.nil_append, Each.cons_iff, Each.cons_iff, List.isEmpty_nil, h]
  | cons x front ih =>
    cases bs with
    | nil => exact iff_of_false not_each_nil not_each_nil
    | cons b bs =>
      have hempty : ∀ a : α, (front ++ [a]).isEmpty = false := by simp
      rw [List.cons_append, List.cons_append, Each.cons_iff, Each.cons_iff, ih, hempty, hempty]

theorem each_singleton_congr {R R' : Bool → α → β → Prop} {a : α}
    (h : ∀ b, R true a b ↔ R' true a b) : Each R [a] bs ↔ Each R' [a] bs := by
  cases bs with
  | nil => exact iff_of_false not_each_nil not_each_nil
  | cons b bs =>
    rw [Each.cons_iff, Each.cons_iff, each_nil_iff, each_nil_iff, List.isEmpty_nil, h]

theorem Each.exists_at {front rest : List α} {a : α} (h : Each R (front ++ a :: rest) bs) :
    ∃ b, R rest.isEmpty a b := by
  induction front generalizing bs with
  | nil =>
    cases h with
    | cons h _ => exact ⟨_, h⟩
  | cons x front ih =>
    cases h with
    | cons _ hs => exact ih hs

theorem Each.forall₂ {S : α → β → Prop} (h : Each R as bs)
    (hR : ∀ front a rest b, as = front ++ a :: rest → R rest.isEmpty a b → S a b) :
    List.Forall₂ S as bs := by
  induction h with
  | nil => exact .nil
  | @cons a b as bs h hs ih =>
    refine .cons (hR [] a as b rfl h) (ih ?_)
    intro front x rest y heq
    exact hR (a :: front) x rest y (by rw [heq, List.cons_append])

theorem each_self {R : Bool → α → α → Prop}
    (h : ∀ front a rest, as = front ++ a :: rest → R rest.isEmpty a a) : Each R as as := by
  induction as with
  | nil => exact .nil
  | cons a as ih =>
    refine .cons (h [] a as rfl) (ih ?_)
    intro front x rest heq
    exact h (a :: front) x rest (by rw [heq, List.cons_append])

end Each

variable {p q t x y sub : Policy} {s : Standing} {r : Resolver} {base base₀ : Path} {n : Nat}
  {name seg above leaf text : String} {v w : Value} {path : List String} {values : List Value}
  {R : Path → Policy → Policy → Prop}

namespace Policy

/-- The dictionary file that is named in a policy where it is followed. -/
def ownFile? (s : Standing) (p : Policy) : Option String :=
  match s, p.last? dictionaryFileKey with
  | .listed, some (.string text) => some text
  | _, _ => none

/-- A policy as its promotion leaves it, if it has one. -/
def normal (s : Standing) (p : Policy) : Policy :=
  match p.ownFile? s with
  | some text => p.promoted text
  | none => p

def Plain (s : Standing) (p : Policy) : Prop :=
  s = .listed → ∀ v, p.last? dictionaryFileKey = some v → v.kind = .string

theorem ownFile?_eq_some_iff :
    p.ownFile? s = some text ↔ s = .listed ∧ p.last? dictionaryFileKey = some (.string text) := by
  unfold ownFile?
  split
  · rename_i found hfound
    rw [hfound]
    simp
  · rename_i h
    simp only [reduceCtorEq, false_iff, not_and]
    intro hs hv
    exact h text hs hv

theorem ownFile?_eq_none (h : s = .listed → p.last? dictionaryFileKey = none) :
    p.ownFile? s = none := by
  apply Option.eq_none_iff_forall_not_mem.2
  intro text htext
  obtain ⟨hs, hlast⟩ := ownFile?_eq_some_iff.1 htext
  rw [h hs] at hlast
  cases hlast

theorem normal_of_none (h : p.ownFile? s = none) : p.normal s = p := by
  rw [normal, h]

theorem normal_of_some (h : p.ownFile? s = some text) : p.normal s = p.promoted text := by
  rw [normal, h]

theorem WellFormed.valuesAt?_normal (h : p.WellFormed)
    (hsingle : ∀ text, s = .listed → p.last? dictionaryFileKey = some (.string text) →
      p.last? dictionaryKey = none)
    {front rest : List Value} (hv : p.valuesAt? [name] = some (front ++ v :: rest))
    (hkind : v.kind ≠ .string) :
    (p.normal s).valuesAt? [name] = p.valuesAt? [name] := by
  cases hfile : p.ownFile? s with
  | none => rw [normal_of_none hfile]
  | some text =>
    obtain ⟨hs, hlast⟩ := ownFile?_eq_some_iff.1 hfile
    rw [normal_of_some hfile, h.valuesAt?_promoted]
    split
    · rename_i hname
      rw [hname, h.valuesAt?_eq_none (hsingle text hs hlast)] at hv
      cases hv
    · split
      · rename_i hname
        rw [hname] at hv
        exact absurd (h.kind_eq_of_last? hv hlast) hkind
      · rfl

end Policy

/-- What a value stands for, given what the policies within it stand for, each seen from a base. -/
inductive Value.Unfolds (R : Path → Policy → Policy → Prop) (r : Resolver) (base : Path) :
    Value → Value → Prop
  | file {text : String} {o : Opened} {t : Policy} (ho : r.Opens base text o)
      (h : R o.base o.policy t) : Unfolds R r base (.file text) (.policy t)
  | policy {p t : Policy} (h : R base p t) : Unfolds R r base (.policy p) (.policy t)
  | other {v : Value} (hfile : v.kind ≠ .file) (hpolicy : v.kind ≠ .policy) : Unfolds R r base v v

/-- A policy, seen from a base, stands for a tree of at most some height. -/
def Policy.Unfolds (r : Resolver) : Nat → Standing → Path → Policy → Policy → Prop
  | 0, _, _, _, _ => False
  | n + 1, s, base, p, t => p.Plain s ∧ ∀ name,
      Option.Rel (Each fun last => Value.Unfolds (Unfolds r n (s.within last)) r base)
        ((p.normal s).valuesAt? [name]) (t.valuesAt? [name])

theorem Value.unfolds_other_iff (hfile : v.kind ≠ .file) (hpolicy : v.kind ≠ .policy) :
    Value.Unfolds R r base v w ↔ v = w := by
  constructor
  · intro h
    cases h with
    | file => exact absurd rfl hfile
    | policy => exact absurd rfl hpolicy
    | other => rfl
  · rintro rfl
    exact .other hfile hpolicy

theorem Value.unfolds_policy_iff :
    Value.Unfolds R r base (.policy p) w ↔ ∃ t, w = .policy t ∧ R base p t := by
  constructor
  · intro h
    cases h with
    | policy h => exact ⟨_, rfl, h⟩
    | other _ hpolicy => exact absurd rfl hpolicy
  · rintro ⟨t, rfl, h⟩
    exact .policy h

theorem Value.unfolds_file_iff_exists :
    Value.Unfolds R r base (.file text) w ↔
      ∃ t, w = .policy t ∧ ∃ o, r.Opens base text o ∧ R o.base o.policy t := by
  constructor
  · intro h
    cases h with
    | file ho h => exact ⟨_, rfl, _, ho, h⟩
    | other hfile => exact absurd rfl hfile
  · rintro ⟨t, rfl, o, ho, h⟩
    exact .file ho h

theorem Value.unfolds_file_congr (h : ∀ o, r.Opens base text o ↔ r.Opens base₀ text o) :
    Value.Unfolds R r base (.file text) w ↔ Value.Unfolds R r base₀ (.file text) w := by
  rw [unfolds_file_iff_exists, unfolds_file_iff_exists]
  simp only [h]

theorem Value.unfolds_file_iff {o : Opened} (ho : r.Opens base text o) :
    Value.Unfolds R r base (.file text) w ↔ ∃ t, w = .policy t ∧ R o.base o.policy t := by
  rw [unfolds_file_iff_exists]
  apply exists_congr
  intro t
  apply and_congr_right
  intro _
  constructor
  · rintro ⟨o', ho', h⟩
    obtain rfl := ho.unique ho'
    exact h
  · intro h
    exact ⟨o, ho, h⟩

theorem rel_none_congr {α β γ : Type} {R : α → β → Prop} {R' : γ → β → Prop} {b : Option β} :
    Option.Rel R none b ↔ Option.Rel R' none b := by
  constructor
  · intro h
    cases h
    exact .none
  · intro h
    cases h
    exact .none

theorem rel_some_congr {α β γ : Type} {R : α → β → Prop} {R' : γ → β → Prop} {a : α} {c : γ}
    (h : ∀ b, R a b ↔ R' c b) {b : Option β} :
    Option.Rel R (some a) b ↔ Option.Rel R' (some c) b := by
  constructor
  · intro hb
    cases hb with
    | some hb => exact .some ((h _).1 hb)
  · intro hb
    cases hb with
    | some hb => exact .some ((h _).2 hb)

theorem rel_each_congr {R R' S : Bool → Value → Value → Prop} {as cs bs : Option (List Value)}
    (h : Option.Rel (Each S) as cs) (hR : ∀ front a rest c b, as = some (front ++ a :: rest) →
      S rest.isEmpty a c → (R rest.isEmpty a b ↔ R' rest.isEmpty c b)) :
    Option.Rel (Each R) as bs ↔ Option.Rel (Each R') cs bs := by
  cases h with
  | none => exact rel_none_congr
  | some hall =>
    apply rel_some_congr
    intro bs
    exact each_congr hall fun front a rest c b heq => hR front a rest c b (congrArg some heq)

theorem rel_each_of_forall₂ {S : Value → Value → Prop} {as bs : Option (List Value)}
    (h : Option.Rel (List.Forall₂ S) as bs) : Option.Rel (Each fun _ => S) as bs := by
  cases h with
  | none => exact .none
  | some h => exact .some (each_of_forall₂ h)

namespace Policy

def ArrayUnfolds (r : Resolver) (n : Nat) (s : Standing) (base : Path) :
    Option (List Value) → Option (List Value) → Prop :=
  Option.Rel (Each fun last => Value.Unfolds (Unfolds r n (s.within last)) r base)

/-- Policies stand for the same, each seen from a base, if they name the same dictionary file, or
none, and their arrays stand for the same. -/
theorem unfolds_congr {p' : Policy} (hp : p.WellFormed) (hp' : p'.WellFormed)
    (hown : p'.ownFile? s = p.ownFile? s) (hplain : p'.Plain s ↔ p.Plain s)
    (hfile : ∀ text o, p.ownFile? s = some text →
      (r.Opens base text o ↔ r.Opens base₀ text o))
    (hvalues : ∀ name, ArrayUnfolds r n s base (p.valuesAt? [name]) (t.valuesAt? [name]) ↔
      ArrayUnfolds r n s base₀ (p'.valuesAt? [name]) (t.valuesAt? [name])) :
    p.Unfolds r (n + 1) s base t ↔ p'.Unfolds r (n + 1) s base₀ t := by
  apply and_congr hplain.symm
  apply forall_congr'
  intro name
  cases htext : p.ownFile? s with
  | none =>
    rw [normal_of_none htext, normal_of_none (hown.trans htext)]
    exact hvalues name
  | some text =>
    rw [normal_of_some htext, normal_of_some (hown.trans htext), hp.valuesAt?_promoted,
      hp'.valuesAt?_promoted]
    split
    · apply rel_some_congr
      intro ws
      apply each_singleton_congr
      intro w
      exact Value.unfolds_file_congr fun o => hfile text o htext
    · split
      · exact rel_none_congr
      · exact hvalues name

/-- What is known of the policies in a tree, such that it holds of those within, and such that each
dictionary file is the same seen from where it is named and from one base for all. -/
structure Anchored (r : Resolver) (base₀ : Path) (A : Standing → Path → Policy → Prop) : Prop where
  wellFormed : ∀ {s base p}, A s base p → p.WellFormed
  policy : ∀ {s base p name front sub rest}, A s base p →
    p.valuesAt? [name] = some (front ++ .policy sub :: rest) → A (s.within rest.isEmpty) base sub
  file : ∀ {s base p name front text rest o}, A s base p →
    p.valuesAt? [name] = some (front ++ .file text :: rest) → r.Opens base text o →
      A (s.within rest.isEmpty) o.base o.policy
  agree : ∀ {base p text o}, A .listed base p → p.last? dictionaryFileKey = some (.string text) →
    (r.Opens base text o ↔ r.Opens base₀ text o)

theorem ownFile?_resolve {load : Loader} (h : p.WellFormed)
    (hnone : (p.resolve load above).2.failures = []) :
    (p.resolve load above).1.ownFile? s = p.ownFile? s ∧
      ((p.resolve load above).1.Plain s ↔ p.Plain s) := by
  have hlast := h.rel_last?_resolve hnone dictionaryFileKey
  unfold ownFile? Plain
  generalize p.last? dictionaryFileKey = u, (p.resolve load above).1.last? dictionaryFileKey = u'
    at hlast
  cases hlast with
  | none => exact ⟨rfl, Iff.rfl⟩
  | some hresolves =>
    cases hresolves with
    | file | policy => cases s <;> simp [Value.kind]
    | other => exact ⟨rfl, Iff.rfl⟩

/-- A pass that fails nowhere leaves a tree that stands for the same. -/
theorem unfolds_resolve_iff {A : Standing → Path → Policy → Prop} (hA : Anchored r base₀ A)
    (h : A s base p) {chain : List Place}
    (hnone : (p.resolve (r.loadNested chain base) above).2.failures = []) :
    p.Unfolds r n s base t ↔
      (p.resolve (r.loadNested chain base) above).1.Unfolds r n s base₀ t := by
  induction n generalizing s base p chain above t with
  | zero => exact Iff.rfl
  | succ n ih =>
    have hw := hA.wellFormed h
    have hwp : (p.resolve (r.loadNested chain base) above).1.WellFormed :=
      (hw.refines_resolve (r.refining_loadNested chain base)).wellFormed hw
    obtain ⟨hown, hplain⟩ := ownFile?_resolve (s := s) hw hnone
    apply unfolds_congr hw hwp hown hplain
    · intro text o htext
      obtain ⟨rfl, hlast⟩ := ownFile?_eq_some_iff.1 htext
      exact hA.agree h hlast
    · intro name
      apply rel_each_congr (rel_each_of_forall₂ (hw.rel_valuesAt?_resolve hnone name))
      intro front v rest v' w heq hresolves
      cases hresolves with
      | file hl hlnone =>
        obtain ⟨o, ho, rfl⟩ := Resolver.loadNested_eq_ok_iff.1 hl
        rw [Value.unfolds_file_iff ho.opens, Value.unfolds_policy_iff]
        exact exists_congr fun u => and_congr_right fun _ => ih (hA.file h heq ho.opens) hlnone
      | policy hsubnone =>
        rw [Value.unfolds_policy_iff, Value.unfolds_policy_iff]
        exact exists_congr fun u => and_congr_right fun _ => ih (hA.policy h heq) hsubnone
      | other hfile hpolicy =>
        rw [Value.unfolds_other_iff hfile hpolicy, Value.unfolds_other_iff hfile hpolicy]

theorem ownFile?_putChild (hsub : p.child? seg = some sub) (s : Standing) (sub' : Policy) :
    (p.putChild seg sub').ownFile? s = p.ownFile? s ∧
      ((p.putChild seg sub').Plain s ↔ p.Plain s) := by
  unfold ownFile? Plain
  rw [last?_putChild]
  by_cases hseg : dictionaryFileKey = seg
  · subst hseg
    rw [if_pos rfl, child?_eq_some_iff.1 hsub]
    cases s <;> simp [Value.kind]
  · rw [if_neg hseg]
    exact ⟨rfl, Iff.rfl⟩

theorem unfolds_putAt_iff (hp : p.WellFormed) (hx : p.subAt? path = some x) (hy : y.WellFormed)
    (hplain : y.Plain (s.after path) ↔ x.Plain (s.after path))
    (hnormal : ∀ name, (y.normal (s.after path)).valuesAt? [name] =
      (x.normal (s.after path)).valuesAt? [name]) :
    p.Unfolds r n s base t ↔ (p.putAt path y).Unfolds r n s base t := by
  induction path generalizing p s n t with
  | nil =>
    obtain rfl := Option.some.inj hx
    cases n with
    | zero => exact Iff.rfl
    | succ n =>
      apply and_congr hplain.symm
      apply forall_congr'
      intro name
      have hsame : (y.normal s).valuesAt? [name] = (p.normal s).valuesAt? [name] := hnormal name
      rw [putAt_nil, hsame]
  | cons seg path ih =>
    obtain ⟨sub, hsub, hrest⟩ := subAt?_cons_eq_some_iff.1 hx
    cases n with
    | zero => exact Iff.rfl
    | succ n =>
      have hwp := hp.putAt hx hy
      rw [putAt_cons hsub] at hwp ⊢
      obtain ⟨hown, hplain'⟩ := ownFile?_putChild hsub s (sub.putAt path y)
      obtain ⟨front, hfront, hput⟩ := exists_valuesAt?_putChild hsub
      have hchild : ∀ u, sub.Unfolds r n (s.within true) base u ↔
          (sub.putAt path y).Unfolds r n (s.within true) base u := fun u =>
        ih (hp.child? hsub) hrest hplain hnormal
      apply unfolds_congr hp hwp hown hplain'
      · intro text o _
        exact Iff.rfl
      · intro name
        rw [hput]
        split
        · rename_i hname
          rw [hname, hfront]
          apply rel_some_congr
          intro ws
          apply each_concat_congr
          intro w
          rw [Value.unfolds_policy_iff, Value.unfolds_policy_iff]
          exact exists_congr fun u => and_congr_right fun _ => hchild u
        · exact Iff.rfl

theorem Promotes.unfolds_iff {holders : List (List String)} (hq : Promotes holders p q)
    (hp : p.WellFormed) (hne : ∀ path ∈ holders, path ≠ [])
    (hfiles : ∀ path x text, p.subAt? path = some x →
      x.last? dictionaryFileKey ≠ some (.file text)) :
    p.Unfolds r n .top base t ↔ q.Unfolds r n .top base t := by
  induction hq with
  | done => exact Iff.rfl
  | @next path later p q x v text hx hv ht _ ih =>
    rw [List.forall_mem_cons] at hne
    have hwx := hp.subAt? hx
    have hlast : x.last? dictionaryFileKey = some (.string text) := by
      cases v with
      | string =>
        obtain rfl := Option.some.inj ht
        exact hv
      | file reference => exact absurd hv (hfiles path x reference hx)
      | undefined | bool | int | double | policy => cases ht
    have hstanding : Standing.top.after path = .listed := Standing.after_top hne.1
    have hdone : (x.promoted text).last? dictionaryFileKey = none := by
      rw [hwx.last?_promoted, if_neg dictionaryFileKey_ne_dictionaryKey, if_pos rfl]
    have hown : (x.promoted text).ownFile? .listed = none := ownFile?_eq_none fun _ => hdone
    rw [unfolds_putAt_iff (y := x.promoted text) hp hx (hwx.promoted text)]
    · apply ih (hp.putAt hx (hwx.promoted text)) hne.2
      intro w z reference hz hfile
      rcases hp.subAt?_putAt_promoted hx hz with ⟨-, rfl⟩ | ⟨z', hz', hshape⟩
      · rw [hdone] at hfile
        cases hfile
      · obtain ⟨u, hu, heq⟩ := hshape.exists_last? hfile
        obtain rfl := Value.shape_eq_file_iff.1 heq
        exact hfiles w z' reference hz' hu
    · rw [hstanding]
      constructor
      · intro _ _ u hu
        obtain rfl := Option.some.inj (hlast.symm.trans hu)
        rfl
      · intro _ _ u hu
        rw [hdone] at hu
        cases hu
    · intro name
      rw [hstanding, normal_of_none hown, normal_of_some (ownFile?_eq_some_iff.2 ⟨rfl, hlast⟩)]

/-- What stands at the end of a walk stands for something, too, unless a promotion would overwrite a
policy on the way. -/
theorem Unfolds.exists_subAt? (h : p.Unfolds r n s base t) (hp : p.WellFormed)
    (hsingle : ∀ w z text, s.after w = .listed → p.subAt? w = some z →
      z.last? dictionaryFileKey = some (.string text) → z.last? dictionaryKey = none)
    (hx : p.subAt? path = some x) : ∃ m u, x.Unfolds r m (s.after path) base u := by
  induction path generalizing p s n t with
  | nil =>
    obtain rfl := Option.some.inj hx
    exact ⟨n, t, h⟩
  | cons seg path ih =>
    obtain ⟨sub, hsub, hrest⟩ := subAt?_cons_eq_some_iff.1 hx
    have hlast := child?_eq_some_iff.1 hsub
    obtain ⟨front, hfront⟩ := valuesAt?_of_last? hlast
    have hnormal : (p.normal s).valuesAt? [seg] = p.valuesAt? [seg] :=
      hp.valuesAt?_normal (fun text hs hown => hsingle [] p text hs rfl hown) hfront
        (by simp [Value.kind])
    cases n with
    | zero => exact absurd h id
    | succ n =>
      have hname := h.2 seg
      rw [hnormal, hfront] at hname
      generalize t.valuesAt? [seg] = ws at hname
      cases hname with
      | some heach =>
        obtain ⟨w, hw⟩ := heach.exists_at
        obtain ⟨u, -, hu⟩ := Value.unfolds_policy_iff.1 hw
        apply ih hu (hp.child? hsub) ?_ hrest
        intro w z text hw hz
        exact hsingle (seg :: w) z text hw (subAt?_cons_eq_some_iff.2 ⟨sub, hsub, hz⟩)

/-- A tree in which nothing is left to follow. -/
structure Settled (s : Standing) (p : Policy) : Prop where
  files : ∀ path text, ¬p.RefersAt path text
  holders : ∀ path x, s.after path = .listed → p.subAt? path = some x →
    x.last? dictionaryFileKey = none

theorem Settled.normal_eq (h : p.Settled s) : p.normal s = p := by
  apply normal_of_none
  apply ownFile?_eq_none
  rintro rfl
  exact h.holders [] p rfl rfl

theorem Settled.plain (h : p.Settled s) : p.Plain s := by
  rintro rfl v hv
  rw [h.holders [] p rfl rfl] at hv
  cases hv

theorem Settled.not_file {front rest : List Value} (h : p.Settled s)
    (hvalues : p.valuesAt? [name] = some (front ++ .file text :: rest)) : False :=
  h.files _ text (refersAt_file hvalues (by simp))

theorem Settled.policy {front rest : List Value} (h : p.Settled s)
    (hvalues : p.valuesAt? [name] = some (front ++ .policy sub :: rest)) :
    sub.Settled (s.within rest.isEmpty) where
  files path text href := h.files _ text (refersAt_policy hvalues (by simp) href)
  holders path x hlisted hx := by
    cases rest with
    | cons =>
      have hhidden : s.within false = .hidden := by cases s <;> rfl
      rw [List.isEmpty_cons, hhidden, Standing.after_hidden] at hlisted
      cases hlisted
    | nil =>
      refine h.holders (name :: path) x hlisted (subAt?_cons_eq_some_iff.2 ⟨sub, ?_, hx⟩)
      rw [child?_eq_some_iff, last?_eq_bind, hvalues, Option.bind_some, List.getLast?_concat]

/-- A tree with nothing left to follow stands for what it is. -/
theorem Settled.alike (h : p.Settled s) (hu : p.Unfolds r n s base t) : p.Alike t := by
  induction n generalizing p s t with
  | zero => exact absurd hu id
  | succ n ih =>
    apply alike_of_valuesAt?
    intro name
    have hname := hu.2 name
    rw [h.normal_eq] at hname
    generalize hvs : p.valuesAt? [name] = vs, t.valuesAt? [name] = ws at hname
    cases hname with
    | none => exact .none
    | some heach =>
      refine .some (heach.forall₂ fun front v rest w heq hvw => ?_)
      subst heq
      cases hvw with
      | file => exact absurd hvs fun hvs => h.not_file hvs
      | policy hsub => exact .policy (ih (h.policy hvs) hsub)
      | other _ hpolicy => exact .same hpolicy

theorem Settled.unfolds_self (h : p.Settled s) (hn : sizeOf p ≤ n) : p.Unfolds r n s base p := by
  induction n generalizing p s with
  | zero =>
    cases p
    simp at hn
  | succ n ih =>
    refine ⟨h.plain, fun name => ?_⟩
    rw [h.normal_eq]
    cases hvs : p.valuesAt? [name] with
    | none => exact .none
    | some vs =>
      refine .some (each_self fun front v rest heq => ?_)
      subst heq
      cases v with
      | file => exact absurd hvs fun hvs => h.not_file hvs
      | policy sub =>
        have hlt := sizeOf_lt_of_valuesAt? hvs (List.mem_append_right _ (List.mem_cons_self ..))
        exact .policy (ih (h.policy hvs) (by omega))
      | undefined | bool | int | double | string =>
        exact .other (by simp [Value.kind]) (by simp [Value.kind])

end Policy

end PolicyTree
