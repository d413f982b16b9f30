import PolicyTree.Proofs.Policy.Filling
import PolicyTree.Proofs.Policy.Positions
import PolicyTree.Proofs.Policy.Removal

namespace PolicyTree

variable {p d x y sub : Policy} {e : Entry} {es : List Entry} {leaf seg name : String} {i : Nat}
  {pos rest : Position} {values : List Value} {v w : Value} {segs : List String}

def Policy.filledFrom (p : Policy) (o : Option Policy) : Policy :=
  (o.map fun d => (p.fillFrom d).1).getD p

def Value.filledFrom (o : Option Policy) : Value → Value
  | .policy sub => .policy (sub.filledFrom o)
  | v => v

namespace Value

@[simp] theorem filledFrom_none (v : Value) : v.filledFrom none = v := by
  cases v <;> rfl

theorem filledFrom_of_kind (h : v.kind ≠ .policy) (o : Option Policy) : v.filledFrom o = v := by
  cases v with
  | policy => exact absurd rfl h
  | undefined | bool | int | double | string | file => rfl

theorem kind_filledFrom (v : Value) (o : Option Policy) : (v.filledFrom o).kind = v.kind := by
  cases v <;> rfl

theorem filledFrom_eq_policy_iff {o : Option Policy} :
    v.filledFrom o = .policy x ↔ ∃ sub, v = .policy sub ∧ sub.filledFrom o = x := by
  cases v <;> simp [filledFrom]

theorem fst_fillFromLast (targets ds : List Value) :
    (fillFromLast targets ds).1 = targets.map (filledFrom (ds.getLast?.bind policy?)) := by
  have hnone : targets.map (filledFrom none) = targets := List.map_id'' filledFrom_none targets
  rw [fillFromLast_eq]
  cases ds.getLast? with
  | none => exact hnone.symm
  | some d =>
    cases d with
    | policy d => exact fillEach_policy targets d
    | undefined | bool | int | double | string | file => exact hnone.symm

end Value

namespace Policy

@[simp] theorem filledFrom_none (p : Policy) : p.filledFrom none = p := rfl

@[simp] theorem filledFrom_some (p d : Policy) : p.filledFrom (some d) = (p.fillFrom d).1 := rfl

theorem child?_eq_bind (p : Policy) (leaf : String) :
    p.child? leaf = (p.entry? leaf).bind fun e => e.values.getLast?.bind Value.policy? := by
  rw [child?, Option.bind_assoc]

theorem WellFormed.entry?_fillFrom_of_some (hd : d.WellFormed) (he : p.entry? name = some e) :
    Policy.entry? (p.fillFrom d).1 name =
      some ⟨e.name, e.values.map (Value.filledFrom (d.child? name))⟩ := by
  rw [hd.entry?_fillFrom, he, child?_eq_bind]
  cases d.entry? name with
  | none =>
    rw [Option.bind_none, List.map_id'' Value.filledFrom_none]
    cases e
    rfl
  | some f => rw [Entry.filled, Value.fst_fillFromLast, Option.bind_some]

theorem WellFormed.entry?_fillFrom_of_none (hd : d.WellFormed) (he : p.entry? name = none) :
    Policy.entry? (p.fillFrom d).1 name = d.entry? name := by
  rw [hd.entry?_fillFrom, he, Entry.filled]

theorem names_fill (p : Policy) (d : Entry) :
    (Entry.fill p d).1.entries.map Entry.name =
      if d.name ∈ p.entries.map Entry.name then p.entries.map Entry.name
      else p.entries.map Entry.name ++ [d.name] := by
  obtain ⟨leaf, values⟩ := d
  rw [Entry.fill]
  cases he : p.entry? leaf with
  | none =>
    rw [if_neg (entry?_eq_none_iff.1 he), List.map_append]
    rfl
  | some e => exact names_entryPut leaf _ p.entries

theorem names_fillAll (hu : (es.map Entry.name).Nodup) (p : Policy) :
    (Entry.fillAll p es).1.entries.map Entry.name =
      p.entries.map Entry.name ++
        (es.map Entry.name).filter fun n => n ∉ p.entries.map Entry.name := by
  induction es generalizing p with
  | nil => simp [Entry.fillAll]
  | cons d es ih =>
    rw [List.map_cons, List.nodup_cons] at hu
    change (Entry.fillAll (Entry.fill p d).1 es).1.entries.map Entry.name = _
    rw [ih hu.2, names_fill, List.map_cons]
    by_cases hd : d.name ∈ p.entries.map Entry.name
    · rw [if_pos hd, List.filter_cons_of_neg (by simpa using hd)]
    · have hlater : (es.map Entry.name).filter (fun n => n ∉ p.entries.map Entry.name ++ [d.name]) =
          (es.map Entry.name).filter fun n => n ∉ p.entries.map Entry.name := by
        apply List.filter_congr
        intro n hn
        have hne : n ≠ d.name := fun heq => hu.1 (heq ▸ hn)
        simp [hne]
      rw [if_neg hd, hlater, List.filter_cons_of_pos (by simpa using hd), List.append_assoc,
        List.singleton_append]

theorem WellFormed.names_fillFrom (hd : d.WellFormed) (p : Policy) :
    (p.fillFrom d).1.entries.map Entry.name =
      p.entries.map Entry.name ++
        (d.entries.map Entry.name).filter fun n => n ∉ p.entries.map Entry.name := by
  obtain ⟨es⟩ := d
  exact names_fillAll hd.unique p

theorem WellFormed.element?_fillFrom_of_some (hd : d.WellFormed) (he : p.entry? seg = some e) :
    (p.fillFrom d).1.element? seg i =
      (p.element? seg i).map fun sub => sub.filledFrom (d.child? seg) := by
  apply Option.ext
  intro x
  rw [element?_eq_some_iff, hd.entry?_fillFrom_of_some he, Option.map_eq_some_iff]
  simp only [Option.some.injEq, exists_eq_left', List.getElem?_map, Option.map_eq_some_iff,
    Value.filledFrom_eq_policy_iff, element?_eq_some_iff, he]
  constructor
  · rintro ⟨_, hv, sub, rfl, hx⟩
    exact ⟨sub, hv, hx⟩
  · rintro ⟨sub, hv, hx⟩
    exact ⟨_, hv, sub, rfl, hx⟩

theorem element?_congr {q : Policy} (h : p.entry? seg = q.entry? seg) :
    p.element? seg i = q.element? seg i := by
  rw [element?, element?, h]

theorem WellFormed.element?_fillFrom_of_none (hd : d.WellFormed) (he : p.entry? seg = none) :
    (p.fillFrom d).1.element? seg i = d.element? seg i :=
  element?_congr (hd.entry?_fillFrom_of_none he)

theorem WellFormed.element?_fillFrom (hd : d.WellFormed) (hsub : p.element? seg i = some sub) :
    (p.fillFrom d).1.element? seg i = some (sub.filledFrom (d.child? seg)) := by
  obtain ⟨e, he, -⟩ := element?_eq_some_iff.1 hsub
  rw [hd.element?_fillFrom_of_some he, hsub, Option.map_some]

/-- At a position of a policy, filling fills from the defaults that the names on the way lead to, if
they lead anywhere. -/
theorem WellFormed.elementAt?_fillFrom (hd : d.WellFormed) (hx : p.elementAt? pos = some x) :
    (p.fillFrom d).1.elementAt? pos = some (x.filledFrom (d.subAt? pos.names)) := by
  induction pos generalizing p d with
  | nil =>
    obtain rfl := Option.some.inj hx
    rfl
  | cons step rest ih =>
    obtain ⟨seg, i⟩ := step
    obtain ⟨sub, hsub, hx⟩ := elementAt?_cons_eq_some_iff.1 hx
    rw [Policy.elementAt?, hd.element?_fillFrom hsub, Option.bind_some, Position.names,
      List.map_cons, Policy.subAt?]
    cases hchild : d.child? seg with
    | none => exact hx
    | some y => exact ih (hd.child? hchild) hx

/-- Each array of a policy keeps its length in `q`, and the arrays without policies are the same.
Their names come first, in their order. -/
structure Keeps (p q : Policy) : Prop where
  names : p.entries.map Entry.name <+: q.entries.map Entry.name
  array : ∀ {leaf e}, p.entry? leaf = some e → ∃ f, q.entry? leaf = some f ∧
    f.kind = e.kind ∧ f.values.length = e.values.length ∧ (e.kind ≠ .policy → f = e)

theorem Keeps.refl (p : Policy) : p.Keeps p where
  names := List.prefix_rfl
  array he := ⟨_, he, rfl, rfl, fun _ => rfl⟩

theorem WellFormed.keeps_fillFrom (hp : p.WellFormed) (hd : d.WellFormed) :
    p.Keeps (p.fillFrom d).1 where
  names := by
    rw [hd.names_fillFrom]
    exact List.prefix_append _ _
  array {leaf e} he := by
    refine ⟨_, hd.entry?_fillFrom_of_some he, ?_, List.length_map _, ?_⟩
    · simp [Entry.kind, Function.comp_def, Value.kind_filledFrom]
    · obtain ⟨name, values⟩ := e
      intro hk
      have hsame : values.map (Value.filledFrom (d.child? leaf)) = values.map id := by
        apply List.map_congr_left
        intro v hv
        apply Value.filledFrom_of_kind
        rwa [← (hp.storable (mem_of_entry?_eq_some he)).kind_of_mem hv name]
      rw [hsame, List.map_id]

theorem WellFormed.keeps_filledFrom {o : Option Policy} (hp : p.WellFormed)
    (ho : ∀ d, o = some d → d.WellFormed) : p.Keeps (p.filledFrom o) := by
  cases o with
  | none => exact .refl p
  | some d => exact hp.keeps_fillFrom (ho d rfl)

theorem exists_element?_of_child? (h : p.child? seg = some sub) :
    ∃ i, p.element? seg i = some sub := by
  obtain ⟨e, he, hlast⟩ := last?_eq_some_iff.1 (child?_eq_some_iff.1 h)
  obtain ⟨i, hi⟩ := List.mem_iff_getElem?.1 (List.mem_of_getLast? hlast)
  exact ⟨i, element?_eq_some_iff.2 ⟨e, he, hi⟩⟩

theorem WellFormed.exists_arrayAt?_of_fillFrom (hd : d.WellFormed)
    (hnew : (p.fillFrom d).1.arrayAt? pos leaf = some values)
    (hold : p.arrayAt? pos leaf = none) :
    ∃ pos' : Position, pos'.names = pos.names ∧ d.arrayAt? pos' leaf = some values := by
  induction pos generalizing p d with
  | nil =>
    rw [arrayAt?_nil, Option.map_eq_none_iff] at hold
    rw [arrayAt?_nil, hd.entry?_fillFrom_of_none hold] at hnew
    exact ⟨[], rfl, hnew⟩
  | cons step rest ih =>
    obtain ⟨seg, i⟩ := step
    rw [arrayAt?_cons] at hold hnew
    cases he : p.entry? seg with
    | none =>
      -- the way leads into an array of the defaults
      rw [hd.element?_fillFrom_of_none he] at hnew
      exact ⟨(seg, i) :: rest, rfl, by rw [arrayAt?_cons, hnew]⟩
    | some e =>
      obtain ⟨x, hx, hnew⟩ := Option.bind_eq_some_iff.1 hnew
      rw [hd.element?_fillFrom_of_some he] at hx
      obtain ⟨sub, hsub, rfl⟩ := Option.map_eq_some_iff.1 hx
      rw [hsub, Option.bind_some] at hold
      cases hchild : d.child? seg with
      | none =>
        rw [hchild, filledFrom_none, hold] at hnew
        cases hnew
      | some y =>
        rw [hchild] at hnew
        obtain ⟨rest', hnames, harray⟩ := ih (hd.child? hchild) hnew hold
        obtain ⟨j, hj⟩ := exists_element?_of_child? hchild
        exact ⟨(seg, j) :: rest', congrArg (seg :: ·) hnames,
          by rw [arrayAt?_cons, hj, Option.bind_some, harray]⟩

theorem WellFormed.child?_fillFrom_of_some (hd : d.WellFormed) (he : p.entry? seg = some e) :
    (p.fillFrom d).1.child? seg = (p.child? seg).map fun sub => sub.filledFrom (d.child? seg) := by
  rw [child?_eq_bind, hd.entry?_fillFrom_of_some he, child?_eq_bind p, he, Option.bind_some,
    Option.bind_some, List.getLast?_map, Option.bind_map, Option.map_bind]
  apply Option.bind_congr
  intro v _
  cases v <;> rfl

theorem WellFormed.child?_fillFrom_of_none (hd : d.WellFormed) (he : p.entry? seg = none) :
    (p.fillFrom d).1.child? seg = d.child? seg := by
  rw [child?_eq_bind, hd.entry?_fillFrom_of_none he, ← child?_eq_bind]

/-- What is in the defaults is there afterwards, unless something else than a policy was in the
way. Induction on the way. -/
theorem WellFormed.isSome_valuesAt?_fillFrom (hp : p.WellFormed) (hd : d.WellFormed)
    (h : (d.valuesAt? (segs ++ [leaf])).isSome = true) :
    ((p.fillFrom d).1.valuesAt? (segs ++ [leaf])).isSome = true ↔ p.Clear segs := by
  induction segs generalizing p d with
  | nil =>
    apply iff_of_true _ (.nil p)
    rw [List.nil_append, Policy.valuesAt?, Option.isSome_map] at h ⊢
    cases he : p.entry? leaf with
    | none => rwa [hd.entry?_fillFrom_of_none he]
    | some e =>
      rw [hd.entry?_fillFrom_of_some he]
      rfl
  | cons seg rest ih =>
    have hne : rest ++ [leaf] ≠ [] := List.concat_ne_nil leaf rest
    rw [List.cons_append, valuesAt?_cons _ seg hne] at h ⊢
    obtain ⟨values, hvalues⟩ := Option.isSome_iff_exists.1 h
    obtain ⟨y, hchild, hy⟩ := Option.bind_eq_some_iff.1 hvalues
    have hsome : (y.valuesAt? (rest ++ [leaf])).isSome = true := by
      rw [hy]
      rfl
    cases he : p.entry? seg with
    | none =>
      rw [hd.child?_fillFrom_of_none he]
      apply iff_of_true h
      have hnone : p.last? seg = none := by rw [last?, he, Option.bind_none]
      apply And.intro
      · intro v hv
        rw [hnone] at hv
        cases hv
      · intro sub hsub
        rw [child?_eq_some_iff, hnone] at hsub
        cases hsub
    | some e =>
      rw [hd.child?_fillFrom_of_some he, hchild, hp.clear_cons_iff he]
      cases hsub : p.child? seg with
      | none => simp
      | some sub =>
        rw [Option.map_some, Option.bind_some]
        simp only [Option.some.injEq, exists_eq_left']
        exact ih (hp.child? hsub) (hd.child? hchild) hsome

theorem WellFormed.contains_fillFrom (hp : p.WellFormed) (hd : d.WellFormed)
    (h : d.contains name = true) : (p.fillFrom d).1.contains name = true ↔ p.Open name := by
  obtain ⟨values, hvalues⟩ := contains_eq_true_iff.1 h
  obtain ⟨segs, hsegs, -⟩ := getArray_eq_ok_iff.1 hvalues
  obtain ⟨front, leaf, rfl⟩ := Name.exists_leaf_of_segments hsegs
  rw [contains_of_segments hsegs] at h ⊢
  rw [open_iff hsegs]
  exact hp.isSome_valuesAt?_fillFrom hd h

end Policy

end PolicyTree
