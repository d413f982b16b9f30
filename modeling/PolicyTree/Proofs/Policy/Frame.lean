import PolicyTree.Proofs.Policy.Obstacles

namespace PolicyTree

namespace Policy

variable {p q x : Policy} {leaf seg name path : String} {front back rest other : List String}
  {values : List Value}

theorem valuesAt?_congr (h : p.entry? seg = q.entry? seg) :
    p.valuesAt? (seg :: rest) = q.valuesAt? (seg :: rest) := by
  cases rest with
  | nil => rw [valuesAt?, valuesAt?, h]
  | cons next rest =>
    have hne : next :: rest ≠ [] := List.cons_ne_nil next rest
    rw [valuesAt?_cons p seg hne, valuesAt?_cons q seg hne, child?, child?, h]

theorem putAt_append (p : Policy) (front rest : List String) (x : Policy) :
    p.putAt (front ++ rest) x = p.putAt front ((p.holderAt front).putAt rest x) := by
  induction front generalizing p with
  | nil => rfl
  | cons seg front ih => rw [List.cons_append, putAt, putAt, holderAt_cons, ih]

theorem holderAt_putAt (p : Policy) (front : List String) (x : Policy) :
    (p.putAt front x).holderAt front = x :=
  holderAt_of_subAt? (subAt?_putAt p front x)

theorem valuesAt?_putAt (p : Policy) (front : List String) (x : Policy) (hne : rest ≠ []) :
    (p.putAt front x).valuesAt? (front ++ rest) = x.valuesAt? rest := by
  rw [valuesAt?_append _ front hne, holderAt_putAt]

/-- A changed leaf is not seen under names that part from the way to it. Induction on that way: the
names part at once, or they go on in the same sub-policy. -/
theorem valuesAt?_putAt_of_apart
    (hx : ∀ name, name ≠ leaf → x.entry? name = Policy.entry? (p.holderAt front) name)
    (hpath : ¬front ++ [leaf] <+: other) (hother : ¬other <+: front ++ [leaf]) :
    (p.putAt front x).valuesAt? other = p.valuesAt? other := by
  induction front generalizing p other with
  | nil =>
    cases other with
    | nil => exact absurd List.nil_prefix hother
    | cons next rest =>
      apply valuesAt?_congr
      apply hx
      rintro rfl
      exact hpath ⟨rest, rfl⟩
  | cons seg front ih =>
    cases other with
    | nil => exact absurd List.nil_prefix hother
    | cons next rest =>
      by_cases hseg : next = seg
      · subst hseg
        have hne : rest ≠ [] := by
          rintro rfl
          exact hother ⟨front ++ [leaf], rfl⟩
        rw [List.cons_append, List.cons_prefix_cons] at hpath hother
        rw [putAt, valuesAt?_cons_holder _ next hne, child?_putChild, if_pos rfl,
          valuesAt?_cons_holder p next hne, Option.getD_some]
        apply ih
        · intro name hname
          rw [hx name hname, holderAt_cons]
        · exact fun h => hpath ⟨rfl, h⟩
        · exact fun h => hother ⟨rfl, h⟩
      · apply valuesAt?_congr
        rw [putAt, putChild, entry?_put, if_neg hseg]

theorem WellFormed.exists_valuesAt?_putChild (h : p.WellFormed) (hclear : p.Clear (seg :: rest))
    (sub : Policy) : ∃ before,
      (p.putChild seg sub).valuesAt? [seg] = some (before ++ [.policy sub]) ∧
      ((∃ old, p.valuesAt? [seg] = some (before ++ [.policy old])) ∨
        p.valuesAt? [seg] = none ∧ before = []) := by
  cases hchild : p.child? seg with
  | some old =>
    obtain ⟨before, hold, hnew⟩ := Policy.exists_valuesAt?_putChild hchild
    exact ⟨before, (hnew sub seg).trans (if_pos rfl), .inl ⟨old, hold⟩⟩
  | none =>
    have hnone := h.valuesAt?_eq_none (hclear.last?_eq_none hchild)
    have hentry : p.entry? seg = none := Option.map_eq_none_iff.1 hnone
    refine ⟨[], ?_, .inr ⟨hnone, rfl⟩⟩
    rw [Policy.putChild, Policy.valuesAt?, entry?_put, if_pos rfl, hentry]
    rfl

theorem WellFormed.exists_valuesAt?_putAt (h : p.WellFormed)
    (hclear : p.Clear (front ++ seg :: back)) (x : Policy) :
    ∃ before sub, (p.putAt (front ++ seg :: back) x).valuesAt? (front ++ [seg]) =
        some (before ++ [.policy sub]) ∧
      ((∃ old, p.valuesAt? (front ++ [seg]) = some (before ++ [.policy old])) ∨
        p.valuesAt? (front ++ [seg]) = none ∧ before = []) := by
  have hseg : [seg] ≠ [] := List.cons_ne_nil seg []
  obtain ⟨before, hnew, hold⟩ := (h.holderAt front).exists_valuesAt?_putChild hclear.holderAt
    ((((p.holderAt front).child? seg).getD .empty).putAt back x)
  rw [putAt_append, valuesAt?_putAt p front _ hseg, valuesAt?_append p front hseg]
  exact ⟨before, _, hnew, hold⟩

theorem eq_or_exists_of_concat_eq (h : front ++ [leaf] = other ++ seg :: back) :
    (back = [] ∧ other = front ∧ seg = leaf) ∨
      ∃ inner, back ≠ [] ∧ front = other ++ seg :: inner := by
  rcases List.eq_nil_or_concat' back with rfl | ⟨inner, last, rfl⟩
  · obtain ⟨rfl, hleaf⟩ := List.append_inj' h rfl
    exact .inl ⟨rfl, rfl, (List.cons.inj hleaf).1.symm⟩
  · rw [← List.cons_append, ← List.append_assoc] at h
    exact .inr ⟨inner, List.concat_ne_nil last inner, (List.append_inj' h rfl).1⟩

theorem names_put (p : Policy) (leaf : String) (values : List Value) :
    (p.put leaf values).names true .all =
      if leaf ∈ p.names true .all then p.names true .all else p.names true .all ++ [leaf] := by
  rw [names_top, names_top]
  exact names_entryPut leaf values p.entries

theorem names_holderAt_putAt (p : Policy) (front : List String) (seg : String) (back : List String)
    (x : Policy) : ((p.putAt (front ++ seg :: back) x).holderAt front).names true .all =
      if seg ∈ (p.holderAt front).names true .all then (p.holderAt front).names true .all
      else (p.holderAt front).names true .all ++ [seg] := by
  rw [putAt_append, holderAt_putAt, putAt, putChild]
  exact names_put (p.holderAt front) seg _

theorem getArray_congr (h : ∀ segs, Name.segments name = .ok segs →
    q.valuesAt? segs = p.valuesAt? segs) : q.getArray name = p.getArray name := by
  rw [getArray, getArray]
  cases hsegs : Name.segments name with
  | error e => rfl
  | ok segs => simp only [ok_bind, h segs hsegs]

theorem getArray_of_segments (hsegs : Name.segments name = .ok rest) :
    p.getArray name = .ok values ↔ p.valuesAt? rest = some values := by
  simp [getArray_eq_ok_iff, hsegs]

theorem contains_of_segments (hsegs : Name.segments name = .ok rest) :
    p.contains name = (p.valuesAt? rest).isSome := by
  rw [contains, lookup?, hsegs]

/-- `q` differs from `p` only under `path`. Names apart from it have the arrays that they had. Those
above it have arrays of policies, in which only the last policy differs, or which are new and have
just the one. -/
structure ChangesOnly (p : Policy) (path : String) (q : Policy) : Prop where
  apart : ∀ {other}, Name.Apart path other → q.getArray other = p.getArray other
  above : ∀ {above}, Name.Above above path → ∃ before sub,
    q.getArray above = .ok (before ++ [.policy sub]) ∧ (∀ v ∈ before, v.kind = .policy) ∧
      ((∃ old, p.getArray above = .ok (before ++ [.policy old])) ∨
        p.contains above = false ∧ before = [])

theorem WellFormed.changesOnly_putAt (h : p.WellFormed)
    (hsegs : Name.segments path = .ok (front ++ [leaf])) (hopen : p.Open path)
    (hx : ∀ name, name ≠ leaf → x.entry? name = Policy.entry? (p.holderAt front) name) :
    p.ChangesOnly path (p.putAt front x) where
  apart := by
    intro other hother
    apply getArray_congr
    intro segs hsegs'
    obtain ⟨hpath, hother⟩ := hother _ _ hsegs hsegs'
    exact valuesAt?_putAt_of_apart hx hpath hother
  above := by
    intro above habove
    have hclear := (open_iff hsegs).1 hopen
    obtain ⟨way, hne, hway, rfl⟩ := (Name.above_iff hsegs).1 habove
    have hsegs' := Name.segments_of_prefix hsegs hne (hway.trans (List.prefix_append _ _))
    obtain ⟨back, rfl⟩ := hway
    obtain ⟨inner, seg, rfl⟩ := (List.eq_nil_or_concat' way).resolve_left hne
    rw [List.append_assoc, List.singleton_append] at hclear ⊢
    obtain ⟨before, sub, hnew, hold⟩ := h.exists_valuesAt?_putAt hclear x
    refine ⟨before, sub, (getArray_of_segments hsegs').2 hnew, ?_, ?_⟩
    · rcases hold with ⟨old, hold⟩ | ⟨-, rfl⟩
      · -- the array that was there has one kind
        intro v hv
        have harray := (h.valuesAt? hold).toIsArray
        exact harray.kind_eq v (List.mem_append_left _ hv) (.policy old)
          (List.mem_append_right _ (List.mem_singleton_self _))
      · intro v hv
        cases hv
    · rw [contains_of_segments hsegs', Option.isSome_eq_false_iff, Option.isNone_iff_eq_none]
      simp only [getArray_of_segments hsegs']
      exact hold

end Policy

end PolicyTree
