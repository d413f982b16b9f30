import PolicyTree.Proofs.Policy.Walk

namespace PolicyTree

/-- The way to a policy in a tree: names of arrays, each with the number of an element. -/
abbrev Position := List (String × Nat)

def Position.names (pos : Position) : List String :=
  pos.map Prod.fst

namespace Policy

variable {p x sub : Policy} {e : Entry} {seg leaf : String} {i : Nat} {pos rest : Position}
  {values : List Value}

def element? (p : Policy) (seg : String) (i : Nat) : Option Policy :=
  ((p.entry? seg).bind (·.values[i]?)).bind Value.policy?

def elementAt? (p : Policy) : Position → Option Policy
  | [] => some p
  | (seg, i) :: rest => (p.element? seg i).bind fun sub => sub.elementAt? rest

def arrayAt? (p : Policy) (pos : Position) (leaf : String) : Option (List Value) :=
  (p.elementAt? pos).bind fun x => (x.entry? leaf).map Entry.values

theorem element?_eq_some_iff :
    p.element? seg i = some sub ↔
      ∃ e, p.entry? seg = some e ∧ e.values[i]? = some (.policy sub) := by
  simp only [element?, Option.bind_eq_some_iff, Value.policy?_eq_some_iff]
  constructor
  · rintro ⟨v, ⟨e, he, hv⟩, rfl⟩
    exact ⟨e, he, hv⟩
  · rintro ⟨e, he, hv⟩
    exact ⟨_, ⟨e, he, hv⟩, rfl⟩

theorem elementAt?_cons_eq_some_iff :
    p.elementAt? ((seg, i) :: rest) = some x ↔
      ∃ sub, p.element? seg i = some sub ∧ sub.elementAt? rest = some x :=
  Option.bind_eq_some_iff

theorem elementAt?_append (p : Policy) (pos rest : Position) :
    p.elementAt? (pos ++ rest) = (p.elementAt? pos).bind fun x => x.elementAt? rest := by
  induction pos generalizing p with
  | nil => rfl
  | cons step pos ih =>
    rw [List.cons_append, elementAt?, elementAt?, Option.bind_assoc]
    simp only [ih]

theorem WellFormed.element? (h : p.WellFormed) (hsub : p.element? seg i = some sub) :
    sub.WellFormed := by
  obtain ⟨e, he, hv⟩ := element?_eq_some_iff.1 hsub
  exact h.nested (mem_of_entry?_eq_some he) (List.mem_of_getElem? hv)

theorem WellFormed.elementAt? (h : p.WellFormed) (hx : p.elementAt? pos = some x) :
    x.WellFormed := by
  induction pos generalizing p with
  | nil =>
    obtain rfl := Option.some.inj hx
    exact h
  | cons step rest ih =>
    obtain ⟨sub, hsub, hx⟩ := elementAt?_cons_eq_some_iff.1 hx
    exact ih (h.element? hsub) hx

@[simp] theorem arrayAt?_nil (p : Policy) (leaf : String) :
    p.arrayAt? [] leaf = (p.entry? leaf).map Entry.values := rfl

theorem arrayAt?_cons (p : Policy) (seg : String) (i : Nat) (rest : Position) (leaf : String) :
    p.arrayAt? ((seg, i) :: rest) leaf =
      (p.element? seg i).bind fun sub => sub.arrayAt? rest leaf := by
  rw [arrayAt?, elementAt?, Option.bind_assoc]
  rfl

theorem arrayAt?_append (p : Policy) (pos rest : Position) (leaf : String) :
    p.arrayAt? (pos ++ rest) leaf = (p.elementAt? pos).bind fun x => x.arrayAt? rest leaf := by
  rw [arrayAt?, elementAt?_append, Option.bind_assoc]
  rfl

theorem exists_elementAt?_of_mem (hvalues : p.arrayAt? pos leaf = some values)
    (hsub : .policy sub ∈ values) : ∃ i, p.elementAt? (pos ++ [(leaf, i)]) = some sub := by
  obtain ⟨x, hx, hvalues⟩ := Option.bind_eq_some_iff.1 hvalues
  obtain ⟨e, he, rfl⟩ := Option.map_eq_some_iff.1 hvalues
  obtain ⟨i, hi⟩ := List.mem_iff_getElem?.1 hsub
  use i
  rw [elementAt?_append, hx, Option.bind_some]
  exact elementAt?_cons_eq_some_iff.2 ⟨sub, element?_eq_some_iff.2 ⟨e, he, hi⟩, rfl⟩

theorem WellFormed.of_arrayAt? (h : p.WellFormed) (hvalues : p.arrayAt? pos leaf = some values)
    (hsub : .policy sub ∈ values) : sub.WellFormed := by
  obtain ⟨i, hi⟩ := exists_elementAt?_of_mem hvalues hsub
  exact h.elementAt? hi

def Single (p : Policy) : Prop :=
  ∀ pos leaf values sub, p.arrayAt? pos leaf = some values → Value.policy sub ∈ values →
    values = [.policy sub]

theorem Single.elementAt? (h : p.Single) (hx : p.elementAt? pos = some x) : x.Single := by
  intro rest leaf values sub hvalues hsub
  apply h (pos ++ rest) leaf values sub _ hsub
  rw [arrayAt?_append, hx, Option.bind_some, hvalues]

theorem Single.of_entries (h : ∀ e ∈ p.entries, ∀ sub, Value.policy sub ∈ e.values →
    e.values = [.policy sub] ∧ sub.Single) : p.Single := by
  intro pos leaf values sub hvalues hsub
  cases pos with
  | nil =>
    obtain ⟨e, he, rfl⟩ := Option.map_eq_some_iff.1 hvalues
    exact (h e (mem_of_entry?_eq_some he) sub hsub).1
  | cons step rest =>
    rw [arrayAt?_cons] at hvalues
    obtain ⟨x, hx, hvalues⟩ := Option.bind_eq_some_iff.1 hvalues
    obtain ⟨e, he, hv⟩ := element?_eq_some_iff.1 hx
    have hsingle := (h e (mem_of_entry?_eq_some he) x (List.mem_of_getElem? hv)).2
    exact hsingle rest leaf values sub hvalues hsub

theorem Single.subAt?_names (h : p.Single) (hx : p.elementAt? pos = some x) :
    p.subAt? pos.names = some x := by
  induction pos generalizing p with
  | nil => exact hx
  | cons step rest ih =>
    obtain ⟨seg, i⟩ := step
    obtain ⟨sub, hsub, hx⟩ := elementAt?_cons_eq_some_iff.1 hx
    obtain ⟨e, he, hv⟩ := element?_eq_some_iff.1 hsub
    have hvalues : e.values = [.policy sub] := by
      apply h [] seg e.values sub _ (List.mem_of_getElem? hv)
      rw [arrayAt?_nil, he, Option.map_some]
    have hchild : p.child? seg = some sub :=
      child?_eq_some_iff.2 (last?_eq_some_iff.2 ⟨e, he, by rw [hvalues, List.getLast?_singleton]⟩)
    have hsub' : p.elementAt? [(seg, i)] = some sub :=
      elementAt?_cons_eq_some_iff.2 ⟨sub, hsub, rfl⟩
    exact subAt?_cons_eq_some_iff.2 ⟨sub, hchild, ih (h.elementAt? hsub') hx⟩

end Policy

end PolicyTree
