import PolicyTree.Proofs.Policy.Operations
import PolicyTree.Proofs.Policy.Walk

namespace PolicyTree

def Entry.filled : Option Entry → Option Entry → Option Entry
  | none, o => o
  | some e, none => some e
  | some e, some d => some ⟨e.name, (Value.fillFromLast e.values d.values).1⟩

namespace Value

variable {values : List Value}

theorem fillEach_policy (values : List Value) (d : Policy) :
    (fillEach values (.policy d)).1 = values.map fun
      | .policy sub => .policy (sub.fillFrom d).1
      | v => v := by
  rw [fillEach, List.map_map]
  apply List.map_congr_left
  intro v _
  cases v <;> rfl

theorem policies_fillEach (values : List Value) (d : Policy) :
    (fillEach values (.policy d)).1.filterMap policy? =
      (values.filterMap policy?).map fun sub => (sub.fillFrom d).1 := by
  rw [fillEach_policy, List.filterMap_map, List.map_filterMap]
  apply List.filterMap_congr
  intro v _
  cases v <;> rfl

end Value

namespace Policy

variable {p d sub : Policy} {e : Entry} {es : List Entry} {leaf name : String}
  {values : List Value}

theorem put_of_entry?_eq_none (h : p.entry? leaf = none) (values : List Value) :
    p.put leaf values = ⟨p.entries ++ [⟨leaf, values⟩]⟩ := by
  rw [put, mk.injEq]
  rw [entry?_eq_none_iff] at h
  generalize p.entries = es at h
  induction es with
  | nil => rfl
  | cons e es ih =>
    rw [List.map_cons, List.mem_cons, not_or] at h
    rw [Entry.put, if_neg (by simpa using Ne.symm h.1), ih h.2, List.cons_append]

theorem entry?_fill (p : Policy) (d : Entry) (name : String) :
    Policy.entry? (Entry.fill p d).1 name =
      if name = d.name then Entry.filled (p.entry? d.name) (some d) else p.entry? name := by
  obtain ⟨leaf, values⟩ := d
  rw [Entry.fill]
  cases he : p.entry? leaf with
  | none =>
    rw [← put_of_entry?_eq_none he, entry?_put]
    rfl
  | some e =>
    rw [entry?_put, Entry.filled, name_of_entry?_eq_some he]

/-- Defaults with different names do not interfere. -/
theorem entry?_fillAll (hu : (es.map Entry.name).Nodup) (p : Policy) (name : String) :
    Policy.entry? (Entry.fillAll p es).1 name =
      Entry.filled (p.entry? name) (es.find? fun e => e.name == name) := by
  induction es generalizing p with
  | nil => cases hp : p.entry? name <;> simp [Entry.fillAll, Entry.filled, hp]
  | cons d es ih =>
    rw [List.map_cons, List.nodup_cons] at hu
    change Policy.entry? (Entry.fillAll (Entry.fill p d).1 es).1 name = _
    rw [ih hu.2, entry?_fill]
    by_cases hn : name = d.name
    · have hlater : es.find? (fun e => e.name == name) = none := by
        rw [List.find?_eq_none]
        intro e he heq
        exact hu.1 (hn ▸ eq_of_beq heq ▸ List.mem_map_of_mem he)
      rw [if_pos hn, hlater, List.find?_cons_of_pos (by simp [hn]), hn]
      cases p.entry? d.name <;> rfl
    · rw [if_neg hn, List.find?_cons_of_neg (by simpa using Ne.symm hn)]

theorem WellFormed.entry?_fillFrom (hd : d.WellFormed) (p : Policy) (name : String) :
    Policy.entry? (p.fillFrom d).1 name = Entry.filled (p.entry? name) (d.entry? name) := by
  obtain ⟨es⟩ := d
  exact entry?_fillAll hd.unique p name

end Policy

end PolicyTree
