import PolicyTree.Proofs.Policy.WellFormed

namespace PolicyTree

/-- An array stands in a policy, at any depth and in any element of an array, under the names of
a path. -/
inductive Policy.HoldsAt : Policy → List String → List Value → Prop
  | here {es : List Entry} {e : Entry} (he : e ∈ es) : HoldsAt ⟨es⟩ [e.name] e.values
  | deeper {es : List Entry} {e : Entry} {sub : Policy} {path : List String} {values : List Value}
      (he : e ∈ es) (hs : Value.policy sub ∈ e.values) (h : HoldsAt sub path values) :
      HoldsAt ⟨es⟩ (e.name :: path) values

variable {p : Policy} {path : List String} {values : List Value}

theorem Policy.WellFormed.isLeaf_of_holdsAt (h : p.WellFormed) (hp : p.HoldsAt path values) :
    ∀ s ∈ path, Name.isLeaf s = true := by
  induction hp with
  | here he => exact List.forall_mem_singleton.2 (h.leaf he)
  | deeper he hs hp ih => exact List.forall_mem_cons.2 ⟨h.leaf he, ih (h.nested he hs)⟩

theorem Policy.WellFormed.foldl_join_eq (h : p.WellFormed) (hp : p.HoldsAt path values) :
    path.foldl Name.join "" = Name.ofSegments path := by
  have hjoin : path.foldl Name.join (Name.ofSegments []) = Name.ofSegments ([] ++ path) :=
    Name.foldl_join_ofSegments (by simp) (h.isLeaf_of_holdsAt hp)
  rwa [Name.ofSegments_nil, List.nil_append] at hjoin

theorem Policy.forall_holdsAt_iff {es : List Entry} {P : List Value → Prop} :
    (∀ path values, (Policy.mk es).HoldsAt path values → P values) ↔
      (∀ e ∈ es, P e.values) ∧
        ∀ e ∈ es, ∀ sub, Value.policy sub ∈ e.values →
          ∀ path values, sub.HoldsAt path values → P values := by
  constructor
  · intro h
    exact ⟨fun e he => h _ _ (.here he),
      fun e he sub hs path values hp => h _ _ (.deeper he hs hp)⟩
  · rintro ⟨hhere, hdeeper⟩ path values hp
    cases hp with
    | here he => exact hhere _ he
    | deeper he hs hp => exact hdeeper _ he _ hs _ _ hp

end PolicyTree
