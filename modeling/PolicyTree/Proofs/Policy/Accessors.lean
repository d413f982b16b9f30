import PolicyTree.Proofs.Policy.Operations
import PolicyTree.Proofs.Policy.Removal
import PolicyTree.Proofs.Schema.Fields

namespace PolicyTree

namespace Accessor

variable {α : Type} {a : Accessor α} {path : String} {v : Value} {values : List Value}

theorem exists_read (h : v.kind = a.kind) (path : String) : ∃ x, a.read path v = .ok x := by
  have hsome := a.isSome_read? v
  rw [h, beq_self_eq_true, Option.isSome_iff_exists] at hsome
  obtain ⟨x, hx⟩ := hsome
  exact ⟨x, by rw [read, hx]⟩

theorem read_of_kind_ne (h : v.kind ≠ a.kind) (path : String) :
    a.read path v = .error (.wrongType path a.kind v.kind) := by
  have hnone := a.isSome_read? v
  rw [beq_eq_false_iff_ne.2 h, Option.isSome_eq_false_iff, Option.isNone_iff_eq_none] at hnone
  rw [read, hnone]

theorem exists_read_iff : (∃ x, a.read path v = .ok x) ↔ v.kind = a.kind := by
  by_cases hk : v.kind = a.kind
  · exact iff_of_true (exists_read hk path) hk
  · rw [read_of_kind_ne hk]
    exact iff_of_false not_exists_error_eq_ok hk

theorem exists_mapM_read (h : ∀ v ∈ values, v.kind = a.kind) (path : String) :
    ∃ xs, values.mapM (a.read path) = .ok xs := by
  induction values with
  | nil => exact ⟨[], rfl⟩
  | cons v values ih =>
    rw [List.forall_mem_cons] at h
    obtain ⟨x, hx⟩ := exists_read h.1 path
    obtain ⟨xs, hxs⟩ := ih h.2
    refine ⟨x :: xs, ?_⟩
    rw [List.mapM_cons, hx, ok_bind, hxs, ok_bind]
    rfl

/-- The values of an array are read as the last of them is. If that is not of the accessor's kind,
neither is the first one, at which reading them all stops. -/
theorem getLast?_mapM_read (h : Value.IsArray values) (hlast : values.getLast? = some v)
    (path : String) : List.getLast? <$> values.mapM (a.read path) = some <$> a.read path v := by
  have hv := List.mem_of_getLast? hlast
  by_cases hk : v.kind = a.kind
  · obtain ⟨xs, hxs⟩ := exists_mapM_read (fun w hw => (h.kind_eq w hw v hv).trans hk) path
    obtain ⟨x, hread, hx⟩ : ∃ x, a.read path v = .ok x ∧ xs.getLast? = some x := by
      have hrel := rel_getLast? (mapM_eq_ok_iff.1 hxs)
      rw [hlast] at hrel
      generalize xs.getLast? = last at hrel
      cases hrel with
      | some hread => exact ⟨_, hread, rfl⟩
    rw [hxs, hread]
    exact congrArg Except.ok hx
  · cases values with
    | nil => cases hv
    | cons first rest =>
      have hfirst := h.kind_eq first (List.mem_cons_self ..) v hv
      rw [List.mapM_cons, read_of_kind_ne (hfirst ▸ hk) path, read_of_kind_ne hk path, hfirst]
      rfl

end Accessor

namespace Policy

variable {α : Type} {a : Accessor α} {p : Policy} {path : String} {k : Kind} {e : Error} {x : α}
  {xs : List α}

/-- Why no value of kind `k` is read under `path`: there is none at all, the path is no name, or
what is there is of another kind. -/
inductive Unread (p : Policy) (path : String) (k : Kind) : Error → Prop
  | missing (hname : path = "" ∨ Name.WellFormed path) (hnone : p.contains path = false) :
      Unread p path k (.nameNotFound path)
  | malformed (hne : path ≠ "") (hname : ¬Name.WellFormed path) :
      Unread p path k (.badName path "contains an empty field")
  | otherKind {found : Kind} (hfound : p.kindOf path = .ok found) (hne : found ≠ k) :
      Unread p path k (.wrongType path k found)

theorem unread_of_getArray (h : p.getArray path = .error e) (k : Kind) : p.Unread path k e := by
  have hnone : p.contains path = false := by
    rw [← Bool.not_eq_true, contains_eq_true_iff, h]
    exact not_exists_error_eq_ok
  rw [getArray] at h
  by_cases hempty : path = ""
  · rw [if_pos (String.isEmpty_iff.2 hempty)] at h
    cases h
    exact .missing (.inl hempty) hnone
  · rw [if_neg (mt String.isEmpty_iff.1 hempty), Name.segments_eq, if_neg hempty] at h
    by_cases hname : Name.WellFormed path
    · rw [if_pos hname, ok_bind] at h
      split at h
      · cases h
      · cases h
        exact .missing (.inr hname) hnone
    · rw [if_neg hname] at h
      cases h
      exact .malformed hempty hname

/-- Under every name, reading the last value tells what reading all of them does. -/
theorem WellFormed.getLast?_getArrayAs (h : p.WellFormed) (a : Accessor α) (path : String) :
    List.getLast? <$> p.getArrayAs a path = some <$> p.getAs a path := by
  rw [getArrayAs, getAs, Policy.get]
  cases harray : p.getArray path with
  | error e => rfl
  | ok values =>
    obtain ⟨segs, -, hvalues⟩ := getArray_eq_ok_iff.1 harray
    have hstored := h.valuesAt? hvalues
    have hlast := List.getLast?_eq_some_getLast hstored.ne_nil
    rw [ok_bind, ok_bind, hlast]
    exact Accessor.getLast?_mapM_read hstored.toIsArray hlast path

theorem WellFormed.getArrayAs_eq_error_iff (h : p.WellFormed) :
    p.getArrayAs a path = .error e ↔ p.getAs a path = .error e := by
  have hsame := h.getLast?_getArrayAs a path
  rw [← map_eq_error_iff (f := List.getLast?), hsame, map_eq_error_iff]

theorem WellFormed.exists_getArrayAs_iff (h : p.WellFormed) :
    (∃ xs, p.getArrayAs a path = .ok xs) ↔ ∃ x, p.getAs a path = .ok x := by
  have hsame := h.getLast?_getArrayAs a path
  rw [← exists_map_eq_ok_iff (f := List.getLast?), hsame, exists_map_eq_ok_iff]

theorem WellFormed.getLast?_of_getArrayAs (h : p.WellFormed) (hx : p.getAs a path = .ok x)
    (hxs : p.getArrayAs a path = .ok xs) : xs.getLast? = some x := by
  have hsame := h.getLast?_getArrayAs a path
  rw [hx, hxs] at hsame
  exact Except.ok.inj hsame

theorem length_of_getArrayAs (h : p.getArrayAs a path = .ok xs) :
    xs.length = p.valueCount path := by
  obtain ⟨values, hvalues, hread⟩ := bind_eq_ok_iff.1 h
  rw [valueCount_eq, valuesUnder, hvalues]
  exact (mapM_eq_ok_iff.1 hread).length_eq.symm

theorem exists_getAs_iff : (∃ x, p.getAs a path = .ok x) ↔ p.kindOf path = .ok a.kind := by
  rw [getAs, kindOf]
  cases p.get path with
  | error e =>
    apply iff_of_false not_exists_error_eq_ok
    intro h
    cases h
  | ok v =>
    rw [ok_bind, ok_bind, Accessor.exists_read_iff]
    exact pure_eq_ok_iff.symm

theorem WellFormed.getArray_of_get (h : p.WellFormed) (he : p.get path = .error e) :
    p.getArray path = .error e := by
  rw [Policy.get] at he
  cases harray : p.getArray path with
  | error e' =>
    rw [harray] at he
    cases he
    rfl
  | ok values =>
    obtain ⟨segs, -, hvalues⟩ := getArray_eq_ok_iff.1 harray
    rw [harray, ok_bind, List.getLast?_eq_some_getLast (h.valuesAt? hvalues).ne_nil] at he
    cases he

theorem WellFormed.unread_of_getAs (h : p.WellFormed) (he : p.getAs a path = .error e) :
    p.Unread path a.kind e := by
  rw [getAs] at he
  cases hget : p.get path with
  | error e' =>
    rw [hget] at he
    cases he
    exact unread_of_getArray (h.getArray_of_get hget) a.kind
  | ok v =>
    rw [hget, ok_bind] at he
    by_cases hk : v.kind = a.kind
    · obtain ⟨x, hx⟩ := Accessor.exists_read hk path
      rw [hx] at he
      cases he
    · rw [Accessor.read_of_kind_ne hk path] at he
      cases he
      refine .otherKind ?_ hk
      rw [kindOf, hget]
      rfl

/-- Whatever was done to a policy, the last value under a name and all the values there are read
alike, as values of any kind. They are read if the name has that kind, and then the last value is
the last of them all. Else both tell the same error, which says why nothing is read. -/
theorem accessors_agree (start : Policy) (h : start.WellFormed) (ops : List Operation)
    (hops : Operation.AllAdmissible ops) (p : Policy) (hp : p = start.performAll ops)
    (path : String) (a : Accessor α) :
    ((∃ x, p.getAs a path = .ok x) ↔ ∃ xs, p.getArrayAs a path = .ok xs) ∧
      (∀ x xs, p.getAs a path = .ok x → p.getArrayAs a path = .ok xs →
        xs.getLast? = some x ∧ xs.length = p.valueCount path) ∧
      (∀ e, p.getAs a path = .error e ↔ p.getArrayAs a path = .error e) ∧
      (∀ e, p.getAs a path = .error e → p.Unread path a.kind e) ∧
      ((∃ x, p.getAs a path = .ok x) ↔ p.kindOf path = .ok a.kind) := by
  have hwell : p.WellFormed := hp ▸ h.performAll hops
  exact ⟨hwell.exists_getArrayAs_iff.symm,
    fun _ _ hx hxs => ⟨hwell.getLast?_of_getArrayAs hx hxs, length_of_getArrayAs hxs⟩,
    fun _ => hwell.getArrayAs_eq_error_iff.symm, fun _ he => hwell.unread_of_getAs he,
    exists_getAs_iff⟩

/-- A second size is read with the first one, and a text is refused as a third one. -/
theorem accessors_agree_zonesAndSize : ∃ p : Policy, ∃ xs,
    p = zonesAndSize.performAll [.add "size" (.int 5), .add "size" (.string "wide")] ∧
      p.getArrayAs .int "size" = .ok xs ∧ xs.getLast? = some 5 ∧ xs.length = 2 ∧
      p.getAs .string "size" = .error (.wrongType "size" .string .int) ∧
      p.getArrayAs .string "size" = .error (.wrongType "size" .string .int) := by
  have hops : Operation.AllAdmissible
      [.add "size" (.int 5), .add "size" (.string "wide")] :=
    ⟨Value.wellFormed_of_kind (by decide), Value.wellFormed_of_kind (by decide), trivial⟩
  obtain ⟨hok, hlast, -, -, -⟩ :=
    accessors_agree zonesAndSize (by decide +kernel) _ hops _ rfl "size" .int
  obtain ⟨-, -, herror, -, -⟩ :=
    accessors_agree zonesAndSize (by decide +kernel) _ hops _ rfl "size" .string
  have hfive : ∃ x, (zonesAndSize.performAll [.add "size" (.int 5),
      .add "size" (.string "wide")]).getAs .int "size" = .ok x ∧ x = 5 := ⟨_, rfl, rfl⟩
  obtain ⟨x, hx, rfl⟩ := hfive
  obtain ⟨xs, hxs⟩ := hok.1 ⟨_, hx⟩
  obtain ⟨hl, hcount⟩ := hlast _ _ hx hxs
  exact ⟨_, xs, rfl, hxs, hl, hcount.trans rfl, rfl, (herror _).1 rfl⟩

end Policy

end PolicyTree
