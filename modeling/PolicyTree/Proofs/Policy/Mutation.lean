import PolicyTree.Proofs.Policy.Obstacles

namespace PolicyTree

/-- A change in place: what it answers, and the policy that it leaves, also where it fails. -/
abbrev Mutation (α : Type) : Type :=
  Policy → Except Error α × Policy

namespace Mutation

variable {α : Type}

/-- A change of the last sub-policy under a single-segment name. With `create`, an entry with a new
sub-policy is put there first if there is none; `full` names the sub-policy in errors. -/
def child (create : Bool) (leaf full : String) (change : Mutation α) : Mutation α := fun p =>
  let p := if create && (p.entry? leaf).isNone then p.put leaf [.policy .empty] else p
  match p.child leaf full with
  | .error e => (.error e, p)
  | .ok sub =>
    let (answer, sub) := change sub
    (answer, p.putChild leaf sub)

/-- A change of the policy that some segments of `path` lead to. They begin after its first `start`
bytes. -/
def walk (create : Bool) (path : String) (change : Mutation α) : Nat → List String → Mutation α
  | _, [] => change
  | start, seg :: rest =>
    let stop := start + seg.utf8ByteSize
    child create seg (Text.upTo path stop) (walk create path change (stop + 1) rest)

def holder (create : Bool) (path : String) (change : String → Mutation α) : Mutation α := fun p =>
  match Name.validate path with
  | .error e => (.error e, p)
  | .ok () =>
    match Name.splitLeaf path with
    | (none, leaf) => change leaf p
    | (some above, leaf) =>
      walk create path (change leaf) 0 (Text.fields Name.separator above) p

/-- The same walk by names: what is walked into is called by the join of the segments so far.
`walked` is the name of the policy itself. -/
def descend (create : Bool) (change : String → Mutation α) (walked : String) :
    List String → Mutation α
  | [] => fun p => (.error (.nameNotFound walked), p)
  | [leaf] => change leaf
  | seg :: rest =>
    let full := Name.join walked seg
    child create seg full (descend create change full rest)

def holderByName (create : Bool) (path : String) (change : String → Mutation α) : Mutation α :=
  fun p =>
    match Name.segments path with
    | .error e => (.error e, p)
    | .ok segs => descend create change "" segs p

def set (path : String) (v : Value) : Mutation Unit := fun p =>
  if v.isUndefined then
    (.error (.invalidValue path "values must be defined; use remove() instead"), p)
  else holder true path (fun leaf q => (.ok (), q.put leaf [v])) p

def add (path : String) (v : Value) : Mutation Unit := fun p =>
  if v.isUndefined then (.error (.invalidValue path "values must be defined"), p)
  else
    holder true path (fun leaf q =>
      match q.entry? leaf with
      | none => (.ok (), q.put leaf [v])
      | some e =>
        if v.kind == e.kind then (.ok (), q.put leaf (e.values ++ [v]))
        else (.error (.wrongType path e.kind v.kind), q)) p

def setArray (path : String) (values : List Value) : Mutation Unit := fun p =>
  match Policy.checkArray path values with
  | .error e => (.error e, p)
  | .ok () => holder true path (fun leaf q => (.ok (), q.put leaf values)) p

def silently (change : Mutation α) : Policy → Option α × Policy := fun p =>
  ((change p).1.toOption, (change p).2)

def remove (path : String) : Policy → Option (List Value) × Policy :=
  silently <| holder false path fun leaf q =>
    match q.entry? leaf with
    | none => (.error (.nameNotFound path), q)
    | some e => (.ok e.values, q.erase leaf)

/-- The last value is taken from the array first; an array without values goes, too. -/
def pop (path : String) : Policy → Option Value × Policy :=
  silently <| holder false path fun leaf q =>
    match q.entry? leaf with
    | none => (.error (.nameNotFound path), q)
    | some e =>
      let rest := e.values.dropLast
      (match e.values.getLast? with
        | none => .error (.nameNotFound path)
        | some v => .ok v,
        if rest.isEmpty then q.erase leaf else q.put leaf rest)

def editPolicy (path : String) (change : Policy → α × Policy) : Mutation α :=
  holder false path fun leaf =>
    child false leaf path fun sub => ((.ok (change sub).1), (change sub).2)

def editPoliciesAt (path : String) (change : Nat → Policy → α × Policy) : Mutation (List α) :=
  holder false path fun leaf q =>
    match q.entry? leaf with
    | none => (.error (.nameNotFound path), q)
    | some e =>
      if e.kind == .policy then
        let (answers, values) := Value.editEach change 0 e.values
        (.ok answers, q.put leaf values)
      else (.error (.wrongType path .policy e.kind), q)

variable {create : Bool} {change : String → Mutation α} {leaf : String} {front segs : List String}

theorem descend_cons (create : Bool) (change : String → Mutation α) (walked seg : String)
    (hne : segs ≠ []) :
    descend create change walked (seg :: segs) =
      child create seg (Name.join walked seg)
        (descend create change (Name.join walked seg) segs) := by
  obtain ⟨next, rest, rfl⟩ := List.exists_cons_of_ne_nil hne
  rfl

/-- By induction on the segments that are left. Up to the byte where the next one ends, the path is
the name of what is walked into. -/
theorem walk_eq_descend (hfront : ∀ s ∈ front, Name.isLeaf s = true)
    (hsegs : ∀ s ∈ segs, Name.isLeaf s = true) :
    walk create (Name.ofSegments (front ++ segs ++ [leaf])) (change leaf) (Name.width front) segs =
      descend create change (Name.ofSegments front) (segs ++ [leaf]) := by
  induction segs generalizing front with
  | nil => rfl
  | cons seg rest ih =>
    rw [List.forall_mem_cons] at hsegs
    have hfront' := Name.isLeaf_concat hfront hsegs.1
    have hpath : front ++ seg :: rest ++ [leaf] = front ++ seg :: (rest ++ [leaf]) :=
      List.append_assoc ..
    have hpath' : front ++ seg :: (rest ++ [leaf]) = front ++ [seg] ++ rest ++ [leaf] := by simp
    rw [walk, hpath, Name.upTo_ofSegments, hpath', ← Name.width_concat, ih hfront' hsegs.2,
      List.cons_append, descend_cons create change _ seg (List.concat_ne_nil leaf rest),
      Name.join_ofSegments hfront]

theorem holder_eq_holderByName (create : Bool) (path : String) (change : String → Mutation α) :
    holder create path change = holderByName create path change := by
  funext p
  rw [holder, holderByName]
  cases hvalid : Name.validate path with
  | error e =>
    rw [Name.segments, hvalid]
    rfl
  | ok =>
    have hfields : Name.segments path = .ok (Text.fields Name.separator path) := by
      rw [Name.segments, hvalid]
      rfl
    obtain ⟨front, leaf, hsegs, hfront, hleaf, rfl⟩ := Name.exists_concat_of_segments hfields
    have hwalk : walk create (Name.ofSegments (front ++ [leaf])) (change leaf) 0 front =
        descend create change "" (front ++ [leaf]) :=
      walk_eq_descend (List.forall_mem_nil _) hfront
    rw [hfields, hsegs, Name.splitLeaf_ofSegments hfront hleaf]
    by_cases hne : front = []
    · subst hne
      rfl
    · have hfields' := Name.fields_ofSegments hne hfront
      simp only [if_neg hne, hfields', hwalk]

end Mutation

namespace Policy

variable {α : Type} {p : Policy} {leaf full : String} {create : Bool}

/-- What is answered in place of `p`, and what stands there afterwards: the new policy, or `p`
itself where there is none. -/
def settle (p : Policy) : Except Error (α × Policy) → Except Error α × Policy
  | .ok (answer, q) => (.ok answer, q)
  | .error e => (.error e, p)

def settle? (p : Policy) : Option (α × Policy) → Option α × Policy
  | some (answer, q) => (some answer, q)
  | none => (none, p)

theorem silently_settle {change : Mutation α} {result : Except Error (α × Policy)}
    (h : change p = p.settle result) : Mutation.silently change p = p.settle? result.toOption := by
  rw [Mutation.silently, h]
  cases result <;> rfl

theorem child_eq_settle {change : Mutation α} {made : Policy → Except Error (α × Policy)}
    (h : p.WellFormed)
    (hchange : ∀ sub : Policy, sub.WellFormed → change sub = sub.settle (made sub))
    (hnew : create = true → ∃ result, made .empty = .ok result) :
    Mutation.child create leaf full change p = p.settle (do
      let sub ← p.enter create leaf full
      let result ← made sub
      return (result.1, p.putChild leaf result.2)) := by
  rw [Mutation.child, enter]
  by_cases hcreate : (create && (p.entry? leaf).isNone) = true
  · rw [if_pos hcreate, if_pos hcreate, ok_bind]
    rw [Bool.and_eq_true, Option.isNone_iff_eq_none] at hcreate
    obtain ⟨result, hresult⟩ := hnew hcreate.1
    have hput : p.put leaf [.policy .empty] = p.putChild leaf .empty := by
      rw [putChild, hcreate.2]
      rfl
    have hchild : (p.putChild leaf .empty).child leaf full = .ok .empty :=
      child_eq_ok_iff.2 ((last?_putChild p leaf .empty leaf).trans (if_pos rfl))
    simp only [hput, hchild, hchange _ .empty, hresult, ok_bind, settle, putChild_putChild]
    rfl
  · rw [if_neg hcreate, if_neg hcreate]
    cases hchild : p.child leaf full with
    | error e => rfl
    | ok sub =>
      have hsub := child?_eq_some_iff.2 (child_eq_ok_iff.1 hchild)
      simp only [hchange sub (h.child? hsub), ok_bind]
      cases made sub with
      | error e => simp only [settle, putChild_self hsub, error_bind]
      | ok result => rfl

/-- The walk by names in place, by induction on the segments that are left. -/
theorem descend_eq_settle {change : String → Mutation α}
    {edit : Policy → String → Except Error (α × Policy)}
    (hchange : ∀ leaf (q : Policy), q.WellFormed → change leaf q = q.settle (edit q leaf))
    (hnew : create = true → ∀ leaf, ∃ result, edit .empty leaf = .ok result) (h : p.WellFormed)
    (walked : String) (segs : List String) (leaf : String) :
    Mutation.descend create change walked (segs ++ [leaf]) p =
      p.settle (p.editHolder create edit walked (segs ++ [leaf])) := by
  induction segs generalizing p walked with
  | nil => exact hchange leaf p h
  | cons seg rest ih =>
    have hne := List.concat_ne_nil leaf rest
    rw [List.cons_append, editHolder_cons create edit walked p seg hne,
      Mutation.descend_cons create change walked seg hne]
    apply child_eq_settle h
    · intro sub hsub
      exact ih hsub (Name.join walked seg)
    · intro hcreate
      obtain ⟨result, hresult⟩ := hnew hcreate leaf
      refine ⟨(result.1, Policy.empty.putAt rest result.2), ?_⟩
      rw [hcreate, WellFormed.empty.editHolder_of_clear (.empty rest), holderAt_empty, hresult]
      rfl

theorem holder_eq_settle {change : String → Mutation α}
    {edit : Policy → String → Except Error (α × Policy)}
    (hchange : ∀ leaf (q : Policy), q.WellFormed → change leaf q = q.settle (edit q leaf))
    (hnew : create = true → ∀ leaf, ∃ result, edit .empty leaf = .ok result) (h : p.WellFormed)
    (path : String) :
    Mutation.holder create path change p = p.settle (p.edit create path edit) := by
  rw [Mutation.holder_eq_holderByName, Mutation.holderByName, Policy.edit]
  cases hsegs : Name.segments path with
  | error e => rfl
  | ok segs =>
    obtain ⟨front, leaf, rfl⟩ := Name.exists_leaf_of_segments hsegs
    exact descend_eq_settle hchange hnew h "" front leaf

theorem WellFormed.set_eq_settle (h : p.WellFormed) (path : String) (v : Value) :
    Mutation.set path v p = p.settle ((p.set path v).map fun q => ((), q)) := by
  rw [Mutation.set, Policy.set]
  split
  · rfl
  · rw [map_snd_unit]
    apply holder_eq_settle _ _ h path
    · intro leaf q _
      rfl
    · intro _ leaf
      exact ⟨_, rfl⟩

theorem WellFormed.add_eq_settle (h : p.WellFormed) (path : String) (v : Value) :
    Mutation.add path v p = p.settle ((p.add path v).map fun q => ((), q)) := by
  rw [Mutation.add, Policy.add]
  split
  · rfl
  · rw [map_snd_unit]
    apply holder_eq_settle _ _ h path
    · intro leaf q _
      cases q.entry? leaf with
      | none => rfl
      | some e =>
        by_cases hk : (v.kind == e.kind) = true
        · simp only [if_pos hk, settle]
        · simp only [if_neg hk, settle]
    · intro _ leaf
      exact ⟨_, rfl⟩

theorem WellFormed.setArray_eq_settle (h : p.WellFormed) (path : String) (values : List Value) :
    Mutation.setArray path values p =
      p.settle ((p.setArray path values).map fun q => ((), q)) := by
  rw [Mutation.setArray, Policy.setArray]
  cases Policy.checkArray path values with
  | error e => rfl
  | ok =>
    rw [ok_bind, map_snd_unit]
    apply holder_eq_settle _ _ h path
    · intro leaf q _
      rfl
    · intro _ leaf
      exact ⟨_, rfl⟩

theorem WellFormed.remove_eq_settle (h : p.WellFormed) (path : String) :
    Mutation.remove path p = p.settle? (p.remove? path) := by
  apply silently_settle
  apply holder_eq_settle _ (fun hnew => absurd hnew Bool.false_ne_true) h path
  intro leaf q _
  cases q.entry? leaf <;> rfl

/-- Values are taken from arrays that have some, so that nothing is taken where none is answered. -/
theorem WellFormed.pop_eq_settle (h : p.WellFormed) (path : String) :
    Mutation.pop path p = p.settle? (p.pop? path) := by
  apply silently_settle
  apply holder_eq_settle _ (fun hnew => absurd hnew Bool.false_ne_true) h path
  intro leaf q hq
  cases he : q.entry? leaf with
  | none => rfl
  | some e =>
    have hne := (hq.storable (mem_of_entry?_eq_some he)).ne_nil
    have hlast := List.getLast?_eq_some_getLast hne
    have hempty : e.values.dropLast.isEmpty = true ↔ e.values.length = 1 := by
      have hpos := List.length_pos_iff.2 hne
      rw [List.isEmpty_iff_length_eq_zero, List.length_dropLast]
      omega
    by_cases hone : e.values.length = 1
    · simp only [Option.map_some, hlast, if_pos hone, if_pos (hempty.2 hone), settle]
    · simp only [Option.map_some, hlast, if_neg hone, if_neg (mt hempty.1 hone), settle]

theorem WellFormed.editPolicy_eq_settle (h : p.WellFormed) (path : String)
    (change : Policy → α × Policy) :
    Mutation.editPolicy path change p = p.settle (p.editPolicy path change) := by
  apply holder_eq_settle _ (fun hnew => absurd hnew Bool.false_ne_true) h path
  intro leaf q hq
  have hchange : ∀ sub : Policy, sub.WellFormed →
      (Except.ok (change sub).1, (change sub).2) = sub.settle (.ok (change sub)) :=
    fun _ _ => rfl
  exact child_eq_settle hq hchange fun hnew => absurd hnew Bool.false_ne_true

theorem WellFormed.editPoliciesAt_eq_settle (h : p.WellFormed) (path : String)
    (change : Nat → Policy → α × Policy) :
    Mutation.editPoliciesAt path change p = p.settle (p.editPoliciesAt path change) := by
  apply holder_eq_settle _ (fun hnew => absurd hnew Bool.false_ne_true) h path
  intro leaf q _
  cases q.entry? leaf with
  | none => rfl
  | some e =>
    by_cases hk : (e.kind == .policy) = true
    · simp only [if_pos hk, settle]
    · simp only [if_neg hk, settle]

end Policy

end PolicyTree
