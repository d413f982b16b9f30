import PolicyTree.Proofs.Policy.Failure
import PolicyTree.Proofs.Policy.Frame

namespace PolicyTree

namespace Policy

variable {p q : Policy} {leaf path : String} {front segs : List String} {v : Value}
  {values : List Value}

/-- `q` is `p` with `values` stored under `path`. They are read back, with nothing else changed, and
each level has its names in the order in which it had them, a new one coming last. -/
structure Stored (p : Policy) (path : String) (values : List Value) (q : Policy) : Prop
    extends p.ChangesOnly path q where
  array : q.getArray path = .ok values
  last : ∃ v, values.getLast? = some v ∧ q.get path = .ok v
  names : ∀ {front seg back}, Name.segments path = .ok (front ++ seg :: back) →
    (q.holderAt front).names true .all =
      if seg ∈ (p.holderAt front).names true .all then (p.holderAt front).names true .all
      else (p.holderAt front).names true .all ++ [seg]

theorem toOption_getArray (hsegs : Name.segments path = .ok segs) :
    (p.getArray path).toOption = p.valuesAt? segs := by
  apply Option.ext
  intro values
  rw [toOption_eq_some_iff, getArray_of_segments hsegs]

/-- On the way the names are those of a level with a changed sub-policy, and at its end those of the
level that has the array. -/
theorem names_holderAt_put (p : Policy) {front way back : List String} {seg : String}
    (hway : front ++ [leaf] = way ++ seg :: back) :
    ((p.putAt front ((p.holderAt front).put leaf values)).holderAt way).names true .all =
      if seg ∈ (p.holderAt way).names true .all then (p.holderAt way).names true .all
      else (p.holderAt way).names true .all ++ [seg] := by
  rcases eq_or_exists_of_concat_eq hway with ⟨rfl, rfl, rfl⟩ | ⟨inner, -, rfl⟩
  · rw [holderAt_putAt]
    exact names_put _ seg values
  · exact names_holderAt_putAt p way seg inner _

theorem WellFormed.stored_putAt (h : p.WellFormed)
    (hsegs : Name.segments path = .ok (front ++ [leaf])) (hopen : p.Open path)
    (hne : values ≠ []) :
    p.Stored path values (p.putAt front ((p.holderAt front).put leaf values)) := by
  have harray : (p.putAt front ((p.holderAt front).put leaf values)).getArray path =
      .ok values := by
    rw [getArray_of_segments hsegs, valuesAt?_putAt p front _ (List.cons_ne_nil leaf []),
      Policy.valuesAt?, entry?_put, if_pos rfl]
    rfl
  have hlast := List.getLast?_eq_some_getLast hne
  refine ⟨h.changesOnly_putAt hsegs hopen ?_, harray, ⟨_, hlast, ?_⟩, ?_⟩
  · intro name hname
    rw [entry?_put, if_neg hname]
  · exact get_eq_ok_iff.2 ⟨values, harray, hlast⟩
  · intro way seg back hway
    exact names_holderAt_put p (Except.ok.inj (hsegs.symm.trans hway))

theorem WellFormed.stored_set (h : p.WellFormed) (hq : p.set path v = .ok q) :
    p.Stored path [v] q := by
  rw [Policy.set] at hq
  split at hq
  · cases hq
  · obtain ⟨⟨_, q⟩, hedit, rfl⟩ := map_eq_ok_iff.1 hq
    obtain ⟨front, leaf, x, hsegs, hopen, -, hx, rfl⟩ := h.edit_eq_ok hedit
    obtain ⟨-, rfl⟩ := Prod.mk.inj (Except.ok.inj hx)
    exact h.stored_putAt hsegs hopen (List.cons_ne_nil v [])

theorem WellFormed.stored_add (h : p.WellFormed) (hq : p.add path v = .ok q) :
    p.Stored path ((p.getArray path).toOption.getD [] ++ [v]) q := by
  rw [Policy.add] at hq
  split at hq
  · cases hq
  · obtain ⟨⟨_, q⟩, hedit, rfl⟩ := map_eq_ok_iff.1 hq
    obtain ⟨front, leaf, x, hsegs, hopen, -, hx, rfl⟩ := h.edit_eq_ok hedit
    have hold : (p.getArray path).toOption = (Policy.entry? (p.holderAt front) leaf).map
        Entry.values := by
      rw [toOption_getArray hsegs, valuesAt?_append p front (List.cons_ne_nil leaf [])]
      rfl
    rw [hold]
    split at hx
    · rename_i hentry
      obtain ⟨-, rfl⟩ := Prod.mk.inj (Except.ok.inj hx)
      rw [hentry]
      exact h.stored_putAt hsegs hopen (List.cons_ne_nil v [])
    · rename_i e hentry
      rw [hentry]
      split at hx
      · obtain ⟨-, rfl⟩ := Prod.mk.inj (Except.ok.inj hx)
        exact h.stored_putAt hsegs hopen (List.concat_ne_nil v e.values)
      · cases hx

theorem WellFormed.stored_setArray (h : p.WellFormed) (hq : p.setArray path values = .ok q) :
    p.Stored path values q := by
  obtain ⟨⟨⟩, hcheck, hq⟩ := bind_eq_ok_iff.1 hq
  obtain ⟨⟨_, q⟩, hedit, rfl⟩ := map_eq_ok_iff.1 hq
  obtain ⟨front, leaf, x, hsegs, hopen, -, hx, rfl⟩ := h.edit_eq_ok hedit
  obtain ⟨-, rfl⟩ := Prod.mk.inj (Except.ok.inj hx)
  exact h.stored_putAt hsegs hopen (checkArray_eq_ok_iff.1 hcheck).ne_nil

/-- What is stored is read back, and nothing else is touched: by itself, after what was there, or as
the whole array. -/
theorem stored_of_write (p : Policy) (h : p.WellFormed) (path : String) :
    (∀ v q, p.set path v = .ok q → p.Stored path [v] q) ∧
      (∀ v q, p.add path v = .ok q →
        p.Stored path ((p.getArray path).toOption.getD [] ++ [v]) q) ∧
      ∀ values q, p.setArray path values = .ok q → p.Stored path values q :=
  ⟨fun _ _ hq => h.stored_set hq, fun _ _ hq => h.stored_add hq,
    fun _ _ hq => h.stored_setArray hq⟩

theorem stored_of_write_zonesAndSize : ∃ q, zonesAndSize.set "zone.area.code" (.int 7) = .ok q ∧
    q.getArray "zone.area.code" = .ok [.int 7] ∧ q.getArray "size" = zonesAndSize.getArray "size" ∧
      (q.holderAt ["zone"]).names true .all = ["name", "map", "area"] := by
  obtain ⟨hset, -⟩ := stored_of_write zonesAndSize (by decide +kernel) "zone.area.code"
  obtain ⟨q, hq⟩ : ∃ q, zonesAndSize.set "zone.area.code" (.int 7) = .ok q := ⟨_, rfl⟩
  have hsegs : Name.segments "zone.area.code" = .ok (["zone"] ++ "area" :: ["code"]) := by
    decide +kernel
  have hstored := hset (.int 7) q hq
  refine ⟨q, hq, hstored.array, hstored.apart ?_, ?_⟩
  · intro as bs has hbs
    obtain rfl := Except.ok.inj (hsegs.symm.trans has)
    obtain rfl := Except.ok.inj ((Name.segments_of_isLeaf (by decide +kernel)).symm.trans hbs)
    decide
  · rw [hstored.names hsegs]
    decide +kernel

end Policy

end PolicyTree
