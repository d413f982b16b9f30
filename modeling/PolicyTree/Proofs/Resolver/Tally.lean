import PolicyTree.Proofs.Resolver.Completeness

namespace PolicyTree

/-- The references that loading replaces by policies in the tree, and those that it replaces in
vain, in policies which are dropped again. -/
structure Tally where
  replaced : Nat
  wasted : Nat
  deriving DecidableEq, Inhabited, Repr

namespace Tally

instance : Zero Tally := ⟨⟨0, 0⟩⟩

instance : Add Tally := ⟨fun a b => ⟨a.replaced + b.replaced, a.wasted + b.wasted⟩⟩

def all (t : Tally) : Nat :=
  t.replaced + t.wasted

def drop (t : Tally) : Tally :=
  ⟨0, t.all⟩

variable {a b : Tally}

@[simp] theorem replaced_add : (a + b).replaced = a.replaced + b.replaced := rfl

@[simp] theorem wasted_add : (a + b).wasted = a.wasted + b.wasted := rfl

@[simp] theorem all_drop : a.drop.all = a.all :=
  Nat.zero_add _

theorem all_add : (a + b).all = a.all + b.all := by
  simp only [all, replaced_add, wasted_add]
  omega

theorem replaced_sum_eq_zero {ts : List Tally} (h : ∀ t ∈ ts, t.replaced = 0) :
    ts.sum.replaced = 0 := by
  induction ts with
  | nil => rfl
  | cons t ts ih =>
    rw [List.forall_mem_cons] at h
    rw [List.sum_cons, replaced_add, h.1, ih h.2]

end Tally

mutual

/-- What loading makes of a policy within a chain of files, whose references are seen from a base,
and the references that it replaces on the way. -/
inductive Policy.Tallied (r : Resolver) :
    List Place → Path → Policy → Policy → Tally → Prop
  | intro {chain : List Place} {base : Path} {es : List Entry} {result : Entry → Entry}
      {tally : Entry → Tally} (names : ∀ e ∈ es, (result e).name = e.name)
      (arrays : ∀ e ∈ es,
        Value.ArrayTallied r chain base e.values (result e).values (tally e)) :
      Policy.Tallied r chain base ⟨es⟩ ⟨es.map result⟩ (es.map tally).sum

inductive Value.ArrayTallied (r : Resolver) :
    List Place → Path → List Value → List Value → Tally → Prop
  | others {chain : List Place} {base : Path} {values : List Value}
      (h : ∀ v ∈ values, v.kind ≠ .file ∧ v.kind ≠ .policy) :
      Value.ArrayTallied r chain base values values 0
  | policies {chain : List Place} {base : Path} {subs : List Policy}
      {result : Policy → Policy} {tally : Policy → Tally}
      (each : ∀ sub ∈ subs, Policy.Tallied r chain base sub (result sub) (tally sub)) :
      Value.ArrayTallied r chain base (subs.map .policy) ((subs.map result).map .policy)
        (subs.map tally).sum
  /-- The first reference that cannot be loaded: the policies in the files before it, with all that
  was replaced in them, are dropped. -/
  | kept {chain : List Place} {base : Path} {before after : List String} {text : String}
      {opened : String → Opened} {result : String → Policy} {tally : String → Tally}
      (loads : ∀ t ∈ before, r.Loads chain base t (opened t))
      (each : ∀ t ∈ before, Policy.Tallied r ((opened t).place :: chain) (opened t).base
        (opened t).policy (result t) (tally t))
      (fails : ∀ o, ¬r.Loads chain base text o) :
      Value.ArrayTallied r chain base ((before ++ text :: after).map .file)
        ((before ++ text :: after).map .file) (before.map tally).sum.drop
  | loaded {chain : List Place} {base : Path} {references : List String}
      {opened : String → Opened} {result : String → Policy} {tally : String → Tally}
      (loads : ∀ t ∈ references, r.Loads chain base t (opened t))
      (each : ∀ t ∈ references, Policy.Tallied r ((opened t).place :: chain) (opened t).base
        (opened t).policy (result t) (tally t)) :
      Value.ArrayTallied r chain base (references.map .file)
        ((references.map result).map .policy)
        ((references.map tally).sum + ⟨references.length, 0⟩)

end

/-- A text, within a chain of files, loads a file, and this is what becomes of the policy in it. -/
def Resolver.Yields (r : Resolver) (chain : List Place) (base : Path) (text : String)
    (p : Policy) (t : Tally) : Prop :=
  ∃ o, r.Loads chain base text o ∧ o.policy.Tallied r (o.place :: chain) o.base p t

variable {r : Resolver} {chain : List Place} {base : Path} {values values' : List Value}
  {t : Tally} {text : String} {references before after : List String}
  {result result' : String → Policy} {tally tally' : String → Tally}

theorem Resolver.Loads.unique {o o' : Opened} (h : r.Loads chain base text o)
    (h' : r.Loads chain base text o') : o = o' :=
  h.opens.unique h'.opens

theorem Value.file_injective : Function.Injective Value.file := fun _ _ => Value.file.inj

theorem Value.policy_injective : Function.Injective Value.policy := fun _ _ => Value.policy.inj

instance : Inhabited Opened := ⟨⟨[], ⟨""⟩, .empty⟩⟩

namespace Value.ArrayTallied

theorem of_yields (each : ∀ t ∈ references, r.Yields chain base t (result t) (tally t)) :
    ArrayTallied r chain base (references.map .file) ((references.map result).map .policy)
      ((references.map tally).sum + ⟨references.length, 0⟩) := by
  choose! opened loads each using each
  exact .loaded loads each

theorem of_fails (each : ∀ t ∈ before, r.Yields chain base t (result t) (tally t))
    (fails : ∀ o, ¬r.Loads chain base text o) :
    ArrayTallied r chain base ((before ++ text :: after).map .file)
      ((before ++ text :: after).map .file) (before.map tally).sum.drop := by
  choose! opened loads each using each
  exact .kept loads each fails

theorem of_others (h : ArrayTallied r chain base values values' t)
    (hv : ∀ v ∈ values, v.kind ≠ .file ∧ v.kind ≠ .policy) : values' = values ∧ t = 0 := by
  cases h with
  | others => exact ⟨rfl, rfl⟩
  | @policies _ _ subs =>
    cases subs with
    | nil => exact ⟨rfl, rfl⟩
    | cons sub subs => exact absurd rfl (hv _ (List.mem_cons_self ..)).2
  | @kept _ _ before after text =>
    exact absurd rfl (hv (.file text) (by simp)).1
  | @loaded _ _ references =>
    cases references with
    | nil => exact ⟨rfl, rfl⟩
    | cons text references => exact absurd rfl (hv _ (List.mem_cons_self ..)).1

theorem of_policies {subs : List Policy}
    (h : ArrayTallied r chain base (subs.map .policy) values' t) :
    ∃ (result : Policy → Policy) (tally : Policy → Tally),
      (∀ sub ∈ subs, sub.Tallied r chain base (result sub) (tally sub)) ∧
        values' = (subs.map result).map .policy ∧ t = (subs.map tally).sum := by
  generalize hvs : subs.map Value.policy = vs at h
  cases h with
  | others hv =>
    cases subs with
    | nil => exact ⟨id, fun _ => 0, by simp, by simp [← hvs], rfl⟩
    | cons sub subs => exact absurd rfl (hv (.policy sub) (by simp [← hvs])).2
  | policies each =>
    obtain rfl := List.map_injective_iff.2 policy_injective hvs
    exact ⟨_, _, each, rfl, rfl⟩
  | @kept _ _ before after text =>
    have hmem : Value.file text ∈ subs.map Value.policy := by simp [hvs]
    simp at hmem
  | @loaded _ _ references =>
    cases references with
    | nil =>
      obtain rfl := List.map_eq_nil_iff.1 hvs
      exact ⟨id, fun _ => 0, by simp, rfl, rfl⟩
    | cons text references =>
      have hmem : Value.file text ∈ subs.map Value.policy := by simp [hvs]
      simp at hmem

theorem of_files (hne : references ≠ [])
    (h : ArrayTallied r chain base (references.map .file) values' t) :
    (∃ (before after : List String) (text : String) (result : String → Policy)
        (tally : String → Tally),
      references = before ++ text :: after ∧ values' = references.map .file ∧
        t = (before.map tally).sum.drop ∧ (∀ o, ¬r.Loads chain base text o) ∧
        ∀ t ∈ before, r.Yields chain base t (result t) (tally t)) ∨
    ∃ (result : String → Policy) (tally : String → Tally),
      values' = (references.map result).map .policy ∧
        t = (references.map tally).sum + ⟨references.length, 0⟩ ∧
        ∀ t ∈ references, r.Yields chain base t (result t) (tally t) := by
  generalize hvs : references.map Value.file = vs at h
  obtain ⟨first, rest, rfl⟩ := List.exists_cons_of_ne_nil hne
  cases h with
  | others hv => exact absurd rfl (hv (.file first) (by simp [← hvs])).1
  | @policies _ _ subs =>
    cases subs with
    | nil => cases hvs
    | cons sub subs => cases (List.cons.inj hvs).1
  | kept loads each fails =>
    have heq := List.map_injective_iff.2 file_injective hvs
    exact .inl ⟨_, _, _, _, _, heq, rfl, rfl, fails, fun t ht => ⟨_, loads t ht, each t ht⟩⟩
  | loaded loads each =>
    obtain rfl := List.map_injective_iff.2 file_injective hvs
    exact .inr ⟨_, _, rfl, rfl, fun t ht => ⟨_, loads t ht, each t ht⟩⟩

/-- Where an array of references is left, one of them could not be loaded. -/
theorem exists_of_file (h : ArrayTallied r chain base values values' t)
    (ht : Value.file text ∈ values') :
    ∃ failing, Value.file failing ∈ values' ∧ Value.file failing ∈ values ∧
      ∀ o, ¬r.Loads chain base failing o := by
  cases h with
  | others hv => exact absurd rfl (hv _ ht).1
  | policies each => simp at ht
  | @kept _ _ before after failing _ _ _ loads each fails =>
    exact ⟨failing, by simp, by simp, fails⟩
  | loaded loads each => simp at ht

theorem exists_of_policy {sub' : Policy} (h : ArrayTallied r chain base values values' t)
    (hs : Value.policy sub' ∈ values') :
    (∃ sub t, Value.policy sub ∈ values ∧ sub.Tallied r chain base sub' t) ∨
      ∃ text t, Value.file text ∈ values ∧ r.Yields chain base text sub' t := by
  cases h with
  | others hv => exact absurd rfl (hv _ hs).2
  | @policies _ _ subs result tally each =>
    obtain ⟨_, hmem, heq⟩ := List.mem_map.1 hs
    obtain rfl := Value.policy.inj heq
    obtain ⟨sub, hsub, rfl⟩ := List.mem_map.1 hmem
    exact .inl ⟨sub, _, List.mem_map_of_mem hsub, each sub hsub⟩
  | kept loads each fails => simp at hs
  | @loaded _ _ references opened result tally loads each =>
    obtain ⟨_, hmem, heq⟩ := List.mem_map.1 hs
    obtain rfl := Value.policy.inj heq
    obtain ⟨text, ht, rfl⟩ := List.mem_map.1 hmem
    exact .inr ⟨text, _, List.mem_map_of_mem ht, _, loads text ht, each text ht⟩

end Value.ArrayTallied

theorem eq_of_append_cons_eq {α : Type} {P : α → Prop} {as bs as' bs' : List α} {a b : α}
    (heq : as ++ a :: as' = bs ++ b :: bs') (has : ∀ x ∈ as, P x) (ha : ¬P a)
    (hbs : ∀ x ∈ bs, P x) (hb : ¬P b) : as = bs := by
  induction as generalizing bs with
  | nil =>
    cases bs with
    | nil => rfl
    | cons y bs =>
      obtain ⟨rfl, -⟩ := List.cons.inj heq
      exact absurd (hbs a (List.mem_cons_self ..)) ha
  | cons x as ih =>
    rw [List.forall_mem_cons] at has
    cases bs with
    | nil =>
      obtain ⟨rfl, -⟩ := List.cons.inj heq
      exact absurd has.1 hb
    | cons y bs =>
      rw [List.forall_mem_cons] at hbs
      obtain ⟨rfl, hrest⟩ := List.cons.inj heq
      rw [ih hrest has.2 hbs.2]

/-- The files that texts open are the same each time, and so is what becomes of the policies in
them, if it is so for each policy alone. -/
theorem map_eq_of_yields {texts : List String} {opened : String → Opened}
    (loads : ∀ t ∈ texts, r.Loads chain base t (opened t))
    (each : ∀ t ∈ texts, r.Yields chain base t (result' t) (tally' t))
    (unique : ∀ t ∈ texts, ∀ p u,
      (opened t).policy.Tallied r ((opened t).place :: chain) (opened t).base p u →
        result t = p ∧ tally t = u) :
    texts.map result = texts.map result' ∧ texts.map tally = texts.map tally' := by
  have hsame : ∀ t ∈ texts, result t = result' t ∧ tally t = tally' t := by
    intro t ht
    obtain ⟨o, ho, htallied⟩ := each t ht
    rw [← (loads t ht).unique ho] at htallied
    exact unique t ht _ _ htallied
  exact ⟨List.map_congr_left fun t ht => (hsame t ht).1,
    List.map_congr_left fun t ht => (hsame t ht).2⟩

mutual

theorem Policy.Tallied.unique : ∀ {chain : List Place} {base : Path} {p p₁ p₂ : Policy}
    {t₁ t₂ : Tally}, p.Tallied r chain base p₁ t₁ → p.Tallied r chain base p₂ t₂ →
      p₁ = p₂ ∧ t₁ = t₂
  | _, _, _, _, _, _, _, @Policy.Tallied.intro _ _ _ es result tally names arrays,
      @Policy.Tallied.intro _ _ _ _ result' tally' names' arrays' => by
    have heach : ∀ e ∈ es, result e = result' e ∧ tally e = tally' e := by
      intro e he
      obtain ⟨hvalues, htally⟩ := (arrays e he).unique (arrays' e he)
      have hname := (names e he).trans (names' e he).symm
      exact ⟨Entry.eq_of_parts hname hvalues, htally⟩
    exact ⟨congrArg Policy.mk (List.map_congr_left fun e he => (heach e he).1),
      congrArg List.sum (List.map_congr_left fun e he => (heach e he).2)⟩

theorem Value.ArrayTallied.unique : ∀ {chain : List Place} {base : Path}
    {values v₁ v₂ : List Value} {t₁ t₂ : Tally}, Value.ArrayTallied r chain base values v₁ t₁ →
      Value.ArrayTallied r chain base values v₂ t₂ → v₁ = v₂ ∧ t₁ = t₂
  | _, _, _, _, _, _, _, .others hv, h => by
    obtain ⟨rfl, rfl⟩ := h.of_others hv
    exact ⟨rfl, rfl⟩
  | _, _, _, _, _, _, _, @Value.ArrayTallied.policies _ _ _ subs result tally each, h => by
    obtain ⟨result', tally', each', rfl, rfl⟩ := h.of_policies
    have heach : ∀ sub ∈ subs, result sub = result' sub ∧ tally sub = tally' sub :=
      fun sub hs => (each sub hs).unique (each' sub hs)
    rw [List.map_congr_left fun sub hs => (heach sub hs).1,
      List.map_congr_left fun sub hs => (heach sub hs).2]
    exact ⟨rfl, rfl⟩
  | _, _, _, _, _, _, _, @Value.ArrayTallied.kept _ chain base before after text opened result
      tally loads each fails, h => by
    rcases h.of_files (by simp) with
      ⟨before', after', text', result', tally', heq, rfl, rfl, fails', each'⟩ |
      ⟨result', tally', -, -, each'⟩
    · -- Both stop at the first reference that cannot be loaded.
      have hbefore : before' = before :=
        eq_of_append_cons_eq (P := fun t => ∃ o, r.Loads chain base t o) heq.symm
          (fun t ht => ⟨_, (each' t ht).choose_spec.1⟩) (by simpa using fails')
          (fun t ht => ⟨_, loads t ht⟩) (by simpa using fails)
      rw [hbefore] at each' ⊢
      obtain ⟨-, htally⟩ :=
        map_eq_of_yields loads each' fun t ht p u htallied => (each t ht).unique htallied
      rw [htally]
      exact ⟨rfl, rfl⟩
    · obtain ⟨o, ho, -⟩ := each' text (by simp)
      exact absurd ho (fails o)
  | _, _, _, _, _, _, _, @Value.ArrayTallied.loaded _ chain base references opened result tally
      loads each, h => by
    by_cases hne : references = []
    · obtain ⟨rfl, rfl⟩ := h.of_others (by simp [hne])
      simp only [hne, List.map_nil, true_and]
      rfl
    · rcases h.of_files hne with
        ⟨before', after', text', result', tally', heq, -, -, fails', -⟩ |
        ⟨result', tally', rfl, rfl, each'⟩
      · exact absurd (loads text' (by simp [heq])) (fails' _)
      · obtain ⟨hresult, htally⟩ :=
          map_eq_of_yields loads each' fun t ht p u htallied => (each t ht).unique htallied
        rw [hresult, htally]
        exact ⟨rfl, rfl⟩

end

theorem map_eq_self_iff {α : Type} {f : α → α} {as : List α} :
    as.map f = as ↔ ∀ a ∈ as, f a = a := by
  conv_lhs => rhs; rw [← List.map_id as]
  exact List.map_inj_left

mutual

theorem Policy.Tallied.replaced_eq_zero : ∀ {chain : List Place} {base : Path}
    {p p' : Policy} {t : Tally}, p.Tallied r chain base p' t → p' = p → t.replaced = 0
  | _, _, _, _, _, @Policy.Tallied.intro _ chain base es result tally names arrays, hp => by
    apply Tally.replaced_sum_eq_zero
    intro t ht
    obtain ⟨e, he, rfl⟩ := List.mem_map.1 ht
    have hsame := map_eq_self_iff.1 (Policy.mk.inj hp) e he
    exact (arrays e he).replaced_eq_zero (congrArg Entry.values hsame)

theorem Value.ArrayTallied.replaced_eq_zero : ∀ {chain : List Place} {base : Path}
    {values values' : List Value} {t : Tally}, Value.ArrayTallied r chain base values values' t →
      values' = values → t.replaced = 0
  | _, _, _, _, _, .others _, _ => rfl
  | _, _, _, _, _, @Value.ArrayTallied.policies _ chain base subs result tally each, hv => by
    apply Tally.replaced_sum_eq_zero
    intro t ht
    obtain ⟨sub, hs, rfl⟩ := List.mem_map.1 ht
    rw [List.map_map] at hv
    have hsame := List.map_inj_left.1 hv sub hs
    exact (each sub hs).replaced_eq_zero (Value.policy.inj hsame)
  | _, _, _, _, _, .kept _ _ _, _ => rfl
  | _, _, _, _, _, @Value.ArrayTallied.loaded _ chain base references _ result _ _ _, hv => by
    cases references with
    | nil => rfl
    | cons text references => cases (List.cons.inj hv).1

end

end PolicyTree
