import PolicyTree.Proofs.Policy.Walk
import PolicyTree.Proofs.Schema.Dictionary

namespace PolicyTree

/-- Values are alike if they are policies of which one can stand for the other, or the same. -/
inductive Value.Alike (R : Policy → Policy → Prop) : Value → Value → Prop
  | policy {p q : Policy} (h : R p q) : Alike R (.policy p) (.policy q)
  | same {v : Value} (h : v.kind ≠ .policy) : Alike R v v

/-- Down to some depth, policies hold the same under the same names, in arrays of the same order. -/
def Policy.AlikeTo : Nat → Policy → Policy → Prop
  | 0, _, _ => True
  | n + 1, p, q => ∀ name,
      Option.Rel (List.Forall₂ (Value.Alike (AlikeTo n))) (p.valuesAt? [name]) (q.valuesAt? [name])

/-- Policies are alike if they differ in the order of names at most. -/
def Policy.Alike (p q : Policy) : Prop :=
  ∀ n, p.AlikeTo n q

variable {p q x y : Policy} {R S : Policy → Policy → Prop} {v w : Value} {values : List Value}
  {leaf path : String}

namespace Value.Alike

theorem refl (hR : ∀ p, R p p) (v : Value) : v.Alike R v := by
  cases v with
  | policy p => exact .policy (hR p)
  | undefined | bool | int | double | string | file => exact .same (by simp [Value.kind])

theorem symm (hR : ∀ p q, R p q → R q p) (h : v.Alike R w) : w.Alike R v := by
  cases h with
  | policy h => exact .policy (hR _ _ h)
  | same h => exact .same h

theorem mono (hRS : ∀ p q, R p q → S p q) (h : v.Alike R w) : v.Alike S w := by
  cases h with
  | policy h => exact .policy (hRS _ _ h)
  | same h => exact .same h

end Value.Alike

theorem Value.forall₂_alike {R : Nat → Policy → Policy → Prop} {vs ws : List Value}
    (h : ∀ n, List.Forall₂ (Value.Alike (R n)) vs ws) :
    List.Forall₂ (Value.Alike fun p q => ∀ n, R n p q) vs ws := by
  have hfirst := h 0
  induction hfirst with
  | nil => exact .nil
  | cons hvw hall ih =>
    have hhead := fun n => (List.forall₂_cons.1 (h n)).1
    have htail := fun n => (List.forall₂_cons.1 (h n)).2
    refine .cons ?_ (ih htail)
    cases hvw with
    | policy =>
      refine .policy fun n => ?_
      cases hhead n with
      | policy hn => exact hn
      | same hk => exact absurd rfl hk
    | same hk => exact .same hk

namespace Policy

theorem AlikeTo.refl : ∀ (n : Nat) (p : Policy), p.AlikeTo n p
  | 0, _ => trivial
  | n + 1, p => by
    intro name
    cases p.valuesAt? [name] with
    | none => exact .none
    | some values => exact .some (List.forall₂_same.2 fun v _ => Value.Alike.refl (refl n) v)

theorem AlikeTo.symm : ∀ (n : Nat) (p q : Policy), p.AlikeTo n q → q.AlikeTo n p
  | 0, _, _, _ => trivial
  | n + 1, p, q, h => by
    intro name
    have hname := h name
    generalize p.valuesAt? [name] = vs, q.valuesAt? [name] = ws at hname
    cases hname with
    | none => exact .none
    | some hall => exact .some (hall.flip.imp fun _ _ => Value.Alike.symm (symm n))

theorem Alike.refl (p : Policy) : p.Alike p :=
  fun n => .refl n p

theorem Alike.symm (h : p.Alike q) : q.Alike p :=
  fun n => .symm n p q (h n)

theorem Alike.valuesAt? (h : p.Alike q) (name : String) :
    Option.Rel (List.Forall₂ (Value.Alike Alike)) (p.valuesAt? [name]) (q.valuesAt? [name]) := by
  have hname : ∀ n, Option.Rel (List.Forall₂ (Value.Alike (AlikeTo n))) (p.valuesAt? [name])
      (q.valuesAt? [name]) := fun n => h (n + 1) name
  generalize p.valuesAt? [name] = vs, q.valuesAt? [name] = ws at hname
  cases hname 0 with
  | none => exact .none
  | @some vs ws _ =>
    have hall : ∀ n, List.Forall₂ (Value.Alike (AlikeTo n)) vs ws := by
      intro n
      cases hname n with
      | some hall => exact hall
    exact .some (Value.forall₂_alike hall)

theorem alike_of_valuesAt? (h : ∀ name, Option.Rel (List.Forall₂ (Value.Alike Alike))
    (p.valuesAt? [name]) (q.valuesAt? [name])) : p.Alike q := by
  intro n
  cases n with
  | zero => trivial
  | succ n =>
    intro name
    have hname := h name
    generalize p.valuesAt? [name] = vs, q.valuesAt? [name] = ws at hname
    cases hname with
    | none => exact .none
    | some hall => exact .some (hall.imp fun _ _ => Value.Alike.mono fun _ _ hpq => hpq n)

theorem Alike.last? (h : p.Alike q) (leaf : String) :
    Option.Rel (Value.Alike Alike) (p.last? leaf) (q.last? leaf) := by
  have hvalues := h.valuesAt? leaf
  rw [last?_eq_bind, last?_eq_bind]
  generalize p.valuesAt? [leaf] = vs, q.valuesAt? [leaf] = ws at hvalues
  cases hvalues with
  | none => exact .none
  | some hall => exact rel_getLast? hall

theorem Alike.exists_subAt? {segs : List String} (h : p.Alike q) (hx : p.subAt? segs = some x) :
    ∃ y, q.subAt? segs = some y ∧ x.Alike y := by
  induction segs generalizing p q with
  | nil =>
    obtain rfl := Option.some.inj hx
    exact ⟨q, rfl, h⟩
  | cons seg segs ih =>
    obtain ⟨sub, hsub, hx⟩ := subAt?_cons_eq_some_iff.1 hx
    have hlast := h.last? seg
    rw [child?_eq_some_iff.1 hsub] at hlast
    generalize hu : q.last? seg = u at hlast
    cases hlast with
    | some halike =>
      cases halike with
      | policy halike =>
        obtain ⟨y, hy, hxy⟩ := ih halike hx
        exact ⟨y, subAt?_cons_eq_some_iff.2 ⟨_, child?_eq_some_iff.2 hu, hy⟩, hxy⟩
      | same hkind => exact absurd rfl hkind

theorem alike_putAt {segs : List String} (hx : p.subAt? segs = some x) (h : x.Alike y) :
    p.Alike (p.putAt segs y) := by
  induction segs generalizing p with
  | nil =>
    obtain rfl := Option.some.inj hx
    exact h
  | cons seg segs ih =>
    obtain ⟨sub, hsub, hx⟩ := subAt?_cons_eq_some_iff.1 hx
    obtain ⟨front, hfront, hput⟩ := exists_valuesAt?_putChild hsub
    have hrefl : ∀ values : List Value, List.Forall₂ (Value.Alike Alike) values values :=
      fun _ => List.forall₂_same.2 fun v _ => Value.Alike.refl .refl v
    rw [putAt_cons hsub]
    apply alike_of_valuesAt?
    intro name
    rw [hput]
    split
    · rename_i hname
      rw [hname, hfront]
      exact .some (List.rel_append (hrefl front) (.cons (.policy (ih hx)) .nil))
    · cases p.valuesAt? [name] with
      | none => exact .none
      | some values => exact .some (hrefl values)

theorem Alike.mem_names (h : p.Alike q) (hmem : leaf ∈ p.entries.map Entry.name) :
    leaf ∈ q.entries.map Entry.name := by
  have hvalues := h.valuesAt? leaf
  rw [Policy.valuesAt?, Policy.valuesAt?] at hvalues
  apply Decidable.byContradiction
  intro hnone
  rw [entry?_eq_none_iff.2 hnone] at hvalues
  cases he : p.entry? leaf with
  | none => exact entry?_eq_none_iff.1 he hmem
  | some e =>
    rw [he] at hvalues
    cases hvalues

theorem lookup?_of_isLeaf (hleaf : Name.isLeaf leaf = true) (p : Policy) :
    p.lookup? leaf = p.valuesAt? [leaf] := by
  rw [lookup?, Name.segments_of_isLeaf hleaf]

def AlikeAt (R : Policy → Policy → Prop) (leaf : String) (p q : Policy) : Prop :=
  Option.Rel (List.Forall₂ (Value.Alike R)) (p.valuesAt? [leaf]) (q.valuesAt? [leaf])

namespace AlikeAt

theorem of_eq (hR : ∀ p, R p p) (h : p.valuesAt? [leaf] = q.valuesAt? [leaf]) :
    AlikeAt R leaf p q := by
  rw [AlikeAt, h]
  cases q.valuesAt? [leaf] with
  | none => exact .none
  | some values => exact .some (List.forall₂_same.2 fun v _ => Value.Alike.refl hR v)

theorem valueCount_eq (h : AlikeAt R leaf p q) (hleaf : Name.isLeaf leaf = true) :
    p.valueCount leaf = q.valueCount leaf := by
  rw [AlikeAt] at h
  rw [valueCount, valueCount, lookup?_of_isLeaf hleaf, lookup?_of_isLeaf hleaf]
  generalize p.valuesAt? [leaf] = vs, q.valuesAt? [leaf] = ws at h
  cases h with
  | none => rfl
  | some hall => exact hall.length_eq

theorem contains_eq (h : AlikeAt R leaf p q) (hleaf : Name.isLeaf leaf = true) :
    p.contains leaf = q.contains leaf := by
  rw [AlikeAt] at h
  rw [contains, contains, lookup?_of_isLeaf hleaf, lookup?_of_isLeaf hleaf]
  generalize p.valuesAt? [leaf] = vs, q.valuesAt? [leaf] = ws at h
  cases h with
  | none => rfl
  | some => rfl

theorem getArray (h : AlikeAt R leaf p q) (hleaf : Name.isLeaf leaf = true) :
    Agree (List.Forall₂ (Value.Alike R)) (p.getArray leaf) (q.getArray leaf) := by
  have hp := getArray_of_isLeaf (p := p) hleaf
  have hq := getArray_of_isLeaf (p := q) hleaf
  rw [AlikeAt, Policy.valuesAt?, Policy.valuesAt?, ← hp, ← hq] at h
  generalize p.getArray leaf = x, q.getArray leaf = y at h
  cases x with
  | ok vs =>
    cases y with
    | ok ws =>
      cases h with
      | some hall => exact .ok hall
    | error => cases h
  | error =>
    cases y with
    | ok => cases h
    | error => exact .error

theorem get (h : AlikeAt R leaf p q) (hleaf : Name.isLeaf leaf = true) :
    Agree (Value.Alike R) (p.get leaf) (q.get leaf) := by
  unfold Policy.get
  apply (h.getArray hleaf).bind
  intro vs ws hall
  have hlast := rel_getLast? hall
  generalize vs.getLast? = v, ws.getLast? = w at hlast
  cases hlast with
  | some hvw => exact .ok hvw
  | none => exact .error

theorem getAs_policy (h : AlikeAt R leaf p q) (hleaf : Name.isLeaf leaf = true) :
    Agree R (p.getAs .policy leaf) (q.getAs .policy leaf) := by
  unfold getAs
  apply (h.get hleaf).bind
  intro v w hvw
  cases hvw with
  | policy hpq => exact .ok hpq
  | @same v hk =>
    cases v with
    | policy => exact absurd rfl hk
    | undefined | bool | int | double | string | file => exact .error

end AlikeAt

theorem Alike.alikeAt (h : p.Alike q) (leaf : String) : AlikeAt Alike leaf p q :=
  h.valuesAt? leaf

end Policy

end PolicyTree
