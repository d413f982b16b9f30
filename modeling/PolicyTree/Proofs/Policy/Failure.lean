import PolicyTree.Proofs.Policy.Mutation
import PolicyTree.Proofs.Policy.Operations

namespace PolicyTree

namespace Policy

variable {α β : Type} {p : Policy} {leaf path : String} {front : List String} {v : Value}
  {values : List Value} {k : Kind} {create : Bool}
  {change : Policy → String → Except Error (α × Policy)}

theorem WellFormed.kindOf_eq_ok_iff (h : p.WellFormed)
    (hsegs : Name.segments path = .ok (front ++ [leaf])) :
    p.kindOf path = .ok k ↔ ∃ e, Policy.entry? (p.holderAt front) leaf = some e ∧ e.kind = k := by
  rw [← toOption_eq_some_iff, toOption_kindOf hsegs,
    valuesAt?_append p front (List.cons_ne_nil leaf []), ← last?_eq_bind,
    Option.map_eq_some_iff]
  constructor
  · rintro ⟨v, hv, rfl⟩
    obtain ⟨e, he, hlast⟩ := last?_eq_some_iff.1 hv
    have harray := ((h.holderAt front).storable (mem_of_entry?_eq_some he)).toIsArray
    exact ⟨e, he, harray.kind_of_mem (List.mem_of_getLast? hlast) e.name⟩
  · rintro ⟨e, he, rfl⟩
    have harray := ((h.holderAt front).storable (mem_of_entry?_eq_some he)).toIsArray
    have hlast := List.getLast?_eq_some_getLast harray.ne_nil
    exact ⟨_, last?_eq_some_iff.2 ⟨e, he, hlast⟩,
      (harray.kind_of_mem (List.mem_of_getLast? hlast) e.name).symm⟩

theorem BlockedAt.not_open {name : String} (h : p.BlockedAt path name k) : ¬p.Open path := by
  intro hopen
  exact h.ne (hopen name k h.above h.kind)

theorem WellFormed.exists_edit_eq_ok_iff {possible : Prop} (h : p.WellFormed)
    (hchange : ∀ front leaf, Name.segments path = .ok (front ++ [leaf]) →
      ((∃ r, change (p.holderAt front) leaf = .ok r) ↔ possible)) :
    (∃ r, p.edit true path change = .ok r) ↔
      Name.WellFormed path ∧ p.Open path ∧ possible := by
  have hresult := h.editResult true path change
  generalize p.edit true path change = result at hresult ⊢
  cases hresult with
  | badName hsegs =>
    apply iff_of_false not_exists_error_eq_ok
    rintro ⟨hname, -⟩
    obtain ⟨segs, hok⟩ := Name.wellFormed_iff.1 hname
    rw [hsegs] at hok
    cases hok
  | blocked hblocked =>
    apply iff_of_false not_exists_error_eq_ok
    rintro ⟨-, hopen, -⟩
    exact hblocked.not_open hopen
  | missing hcreate => cases hcreate
  | @changed front leaf hsegs hopen =>
    have hname : Name.WellFormed path := Name.wellFormed_iff.2 ⟨_, hsegs⟩
    rw [← hchange front leaf hsegs]
    cases change (p.holderAt front) leaf with
    | error e =>
      apply iff_of_false not_exists_error_eq_ok
      rintro ⟨-, -, hr⟩
      exact not_exists_error_eq_ok hr
    | ok r => exact iff_of_true ⟨_, rfl⟩ ⟨hname, hopen, r, rfl⟩

theorem WellFormed.exists_edit_eq_ok_iff_of_ok (h : p.WellFormed)
    (hchange : ∀ x leaf, ∃ r, change x leaf = .ok r) :
    (∃ r, p.edit true path change = .ok r) ↔ Name.WellFormed path ∧ p.Open path := by
  rw [h.exists_edit_eq_ok_iff fun _ leaf _ => iff_true_intro (hchange _ leaf), and_true]

theorem exists_map_eq_ok_iff {ε : Type} {x : Except ε α} {f : α → β} :
    (∃ b, f <$> x = .ok b) ↔ ∃ a, x = .ok a := by
  cases x with
  | error e => exact iff_of_false not_exists_error_eq_ok not_exists_error_eq_ok
  | ok a => exact iff_of_true ⟨_, rfl⟩ ⟨_, rfl⟩

theorem WellFormed.exists_set_eq_ok_iff (h : p.WellFormed) :
    (∃ q, p.set path v = .ok q) ↔ v.kind ≠ .undefined ∧ Name.WellFormed path ∧ p.Open path := by
  rw [Policy.set, ne_eq, ← Value.isUndefined_iff]
  split
  · rename_i hv
    exact iff_of_false not_exists_error_eq_ok fun hset => hset.1 hv
  · rename_i hv
    rw [exists_map_eq_ok_iff, h.exists_edit_eq_ok_iff_of_ok fun _ _ => ⟨_, rfl⟩,
      iff_true_intro hv, true_and]

theorem WellFormed.exists_add_eq_ok_iff (h : p.WellFormed) :
    (∃ q, p.add path v = .ok q) ↔ v.kind ≠ .undefined ∧ Name.WellFormed path ∧ p.Open path ∧
      ∀ k, p.kindOf path = .ok k → v.kind = k := by
  rw [Policy.add, ne_eq, ← Value.isUndefined_iff]
  split
  · rename_i hv
    exact iff_of_false not_exists_error_eq_ok fun hadd => hadd.1 hv
  · rename_i hv
    rw [exists_map_eq_ok_iff, iff_true_intro hv, true_and]
    apply h.exists_edit_eq_ok_iff
    intro front leaf hsegs
    simp only [h.kindOf_eq_ok_iff hsegs]
    cases Policy.entry? (p.holderAt front) leaf with
    | none =>
      apply iff_of_true ⟨_, rfl⟩
      rintro k ⟨e, he, -⟩
      cases he
    | some e =>
      by_cases hk : v.kind = e.kind
      · simp [hk]
      · simp [hk]

theorem WellFormed.exists_setArray_eq_ok_iff (h : p.WellFormed) :
    (∃ q, p.setArray path values = .ok q) ↔
      Value.IsArray values ∧ Name.WellFormed path ∧ p.Open path := by
  have hcheck : checkArray path values = .ok () ↔ Value.IsArray values := checkArray_eq_ok_iff
  rw [Policy.setArray, ← hcheck]
  cases checkArray path values with
  | error e =>
    apply iff_of_false not_exists_error_eq_ok
    rintro ⟨herror, -⟩
    cases herror
  | ok =>
    rw [ok_bind, exists_map_eq_ok_iff, h.exists_edit_eq_ok_iff_of_ok fun _ _ => ⟨_, rfl⟩,
      iff_true_intro rfl, true_and]

/-- A change under `path` tells what is in its way. If it is admitted, an obstacle above `path`
makes it fail by a wrong type, and where a wrong type is under another name than `path`, that is the
obstacle above `path`. -/
structure TellsObstacle (p : Policy) (path : String) (admitted : Prop) (result : Except Error α) :
    Prop where
  of_blockedAt : admitted → ∀ {name k}, p.BlockedAt path name k →
    result = .error (.wrongType name .policy k)
  blockedAt : ∀ {name expected k}, result = .error (.wrongType name expected k) → name ≠ path →
    expected = .policy ∧ p.BlockedAt path name k

theorem TellsObstacle.map {admitted : Prop} {result : Except Error α}
    (h : p.TellsObstacle path admitted result) (f : α → β) :
    p.TellsObstacle path admitted (f <$> result) where
  of_blockedAt hadmitted _ _ hblocked := by
    rw [h.of_blockedAt hadmitted hblocked]
    rfl
  blockedAt herror hne := by
    cases result with
    | ok => cases herror
    | error e =>
      obtain rfl := Except.error.inj herror
      exact h.blockedAt rfl hne

theorem tellsObstacle_of_not_admitted {admitted : Prop} {e : Error} (hadmitted : ¬admitted)
    (he : ∀ name expected k, e = .wrongType name expected k → name = path) :
    p.TellsObstacle path admitted (.error e : Except Error α) where
  of_blockedAt h := absurd h hadmitted
  blockedAt herror hne := absurd (he _ _ _ (Except.error.inj herror)) hne

theorem WellFormed.tellsObstacle_edit {admitted : Prop} (h : p.WellFormed)
    (hchange : ∀ holder leaf name expected k,
      change holder leaf = .error (.wrongType name expected k) → name = path) :
    p.TellsObstacle path admitted (p.edit create path change) where
  of_blockedAt _ _ _ hblocked := edit_of_blockedAt hblocked create change
  blockedAt herror hne := by
    have hresult := h.editResult create path change
    generalize p.edit create path change = result at herror hresult
    cases hresult with
    | badName | missing => cases herror
    | blocked hblocked =>
      cases herror
      exact ⟨rfl, hblocked⟩
    | @changed front leaf =>
      cases hx : change (p.holderAt front) leaf with
      | ok x =>
        rw [hx] at herror
        cases herror
      | error e =>
        rw [hx] at herror
        obtain rfl := Except.error.inj herror
        exact absurd (hchange _ _ _ _ _ hx) hne

theorem WellFormed.tellsObstacle_set (h : p.WellFormed) :
    p.TellsObstacle path (v.kind ≠ .undefined) (p.set path v) := by
  rw [Policy.set]
  split
  · rename_i hv
    apply tellsObstacle_of_not_admitted
    · exact not_not.2 (Value.isUndefined_iff.1 hv)
    · intro name expected k he
      cases he
  · apply TellsObstacle.map
    apply h.tellsObstacle_edit
    intro holder leaf name expected k herror
    cases herror

theorem WellFormed.tellsObstacle_add (h : p.WellFormed) :
    p.TellsObstacle path (v.kind ≠ .undefined) (p.add path v) := by
  rw [Policy.add]
  split
  · rename_i hv
    apply tellsObstacle_of_not_admitted
    · exact not_not.2 (Value.isUndefined_iff.1 hv)
    · intro name expected k he
      cases he
  · apply TellsObstacle.map
    apply h.tellsObstacle_edit
    intro holder leaf name expected k herror
    split at herror
    · cases herror
    · split at herror
      · cases herror
      · cases herror
        rfl

theorem wrongType_of_checkArray {name : String} {expected : Kind}
    (h : checkArray path values = .error (.wrongType name expected k)) : name = path := by
  cases values with
  | nil => cases h
  | cons first rest =>
    simp only [checkArray] at h
    split at h
    · cases h
      rfl
    · split at h
      · cases h
      · cases h

theorem WellFormed.tellsObstacle_setArray (h : p.WellFormed) :
    p.TellsObstacle path (Value.IsArray values) (p.setArray path values) := by
  rw [Policy.setArray]
  cases hcheck : checkArray path values with
  | error e =>
    apply tellsObstacle_of_not_admitted
    · intro harray
      rw [checkArray_eq_ok_iff.2 harray] at hcheck
      cases hcheck
    · rintro name expected k rfl
      exact wrongType_of_checkArray hcheck
  | ok =>
    rw [ok_bind]
    apply TellsObstacle.map
    apply h.tellsObstacle_edit
    intro holder leaf name expected k herror
    cases herror

theorem WellFormed.tellsObstacle_editPolicy (h : p.WellFormed) (change : Policy → α × Policy) :
    p.TellsObstacle path True (p.editPolicy path change) := by
  apply h.tellsObstacle_edit
  intro holder leaf name expected k herror
  cases hchild : holder.child leaf path with
  | ok sub =>
    rw [hchild] at herror
    cases herror
  | error e =>
    rw [hchild] at herror
    obtain rfl := Except.error.inj herror
    rw [Policy.child] at hchild
    split at hchild
    · cases hchild
    · cases hchild
    · cases hchild
      rfl

theorem WellFormed.tellsObstacle_editPoliciesAt (h : p.WellFormed)
    (change : Nat → Policy → α × Policy) :
    p.TellsObstacle path True (p.editPoliciesAt path change) := by
  apply h.tellsObstacle_edit
  intro holder leaf name expected k herror
  split at herror
  · cases herror
  · split at herror
    · cases herror
    · cases herror
      rfl

/-- Changes fail as a whole, and exactly when they should. What is done in place, step by step and
with policies made on the way, comes to the new policy or leaves the policy as it was. Values are
stored if they may be, under well-formed names without an obstacle above them, and the first
obstacle is what a wrong type tells. -/
theorem changes_fail_atomically (p : Policy) (h : p.WellFormed) (path : String) :
    (∀ v,
      ((∃ q, p.set path v = .ok q) ↔
        v.kind ≠ .undefined ∧ Name.WellFormed path ∧ p.Open path) ∧
      p.TellsObstacle path (v.kind ≠ .undefined) (p.set path v) ∧
      Mutation.set path v p = p.settle ((p.set path v).map fun q => ((), q))) ∧
    (∀ v,
      ((∃ q, p.add path v = .ok q) ↔ v.kind ≠ .undefined ∧ Name.WellFormed path ∧ p.Open path ∧
        ∀ k, p.kindOf path = .ok k → v.kind = k) ∧
      p.TellsObstacle path (v.kind ≠ .undefined) (p.add path v) ∧
      Mutation.add path v p = p.settle ((p.add path v).map fun q => ((), q))) ∧
    (∀ values,
      ((∃ q, p.setArray path values = .ok q) ↔
        Value.IsArray values ∧ Name.WellFormed path ∧ p.Open path) ∧
      p.TellsObstacle path (Value.IsArray values) (p.setArray path values) ∧
      Mutation.setArray path values p =
        p.settle ((p.setArray path values).map fun q => ((), q))) ∧
    Mutation.remove path p = p.settle? (p.remove? path) ∧
    Mutation.pop path p = p.settle? (p.pop? path) ∧
    (∀ (α : Type) (change : Policy → α × Policy),
      p.TellsObstacle path True (p.editPolicy path change) ∧
      Mutation.editPolicy path change p = p.settle (p.editPolicy path change)) ∧
    ∀ (α : Type) (change : Nat → Policy → α × Policy),
      p.TellsObstacle path True (p.editPoliciesAt path change) ∧
      Mutation.editPoliciesAt path change p = p.settle (p.editPoliciesAt path change) :=
  ⟨fun v => ⟨h.exists_set_eq_ok_iff, h.tellsObstacle_set, h.set_eq_settle path v⟩,
    fun v => ⟨h.exists_add_eq_ok_iff, h.tellsObstacle_add, h.add_eq_settle path v⟩,
    fun values => ⟨h.exists_setArray_eq_ok_iff, h.tellsObstacle_setArray,
      h.setArray_eq_settle path values⟩,
    h.remove_eq_settle path, h.pop_eq_settle path,
    fun _ change => ⟨h.tellsObstacle_editPolicy change, h.editPolicy_eq_settle path change⟩,
    fun _ change => ⟨h.tellsObstacle_editPoliciesAt change, h.editPoliciesAt_eq_settle path change⟩⟩

theorem changes_fail_atomically_zonesAndSize :
    Mutation.set "size.unit.name" (.int 1) zonesAndSize =
      (.error (.wrongType "size" .policy .int), zonesAndSize) := by
  obtain ⟨hset, -⟩ := changes_fail_atomically zonesAndSize (by decide +kernel) "size.unit.name"
  obtain ⟨-, htells, hsettle⟩ := hset (.int 1)
  have hsegs : Name.segments "size.unit.name" = .ok (["size", "unit"] ++ ["name"]) := by
    decide +kernel
  have hblocked : zonesAndSize.BlockedAt "size.unit.name" "size" .int :=
    (blockedAt_iff hsegs).2 ⟨["size"], .here (v := .int 2) rfl (by decide), rfl⟩
  rw [hsettle, htells.of_blockedAt (by decide) hblocked]
  rfl

end Policy

end PolicyTree
