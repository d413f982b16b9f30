import PolicyTree.Proofs.Policy.Frame

namespace PolicyTree

/-- An error about names below `above`, seen from the policy that `above` is in. -/
def Error.below (above : String) : Error → Error
  | .nameNotFound name => .nameNotFound (Name.join above name)
  | .wrongType name expected found => .wrongType (Name.join above name) expected found
  | .badName name reason => .badName (Name.join above name) reason
  | .invalidValue name reason => .invalidValue (Name.join above name) reason
  | e => e

namespace Policy

variable {α : Type} {p sub : Policy} {a b : String} {as segs walked : List String}
  {values : List Value} {create : Bool}
  {edit edit' : Policy → String → Except Error (α × Policy)}

/-- What comes of a change of the sub-policy under `above`, put in its place in the whole policy. -/
def graft (p : Policy) (above : String) :
    Except Error (α × Policy) → Except Error (α × Policy)
  | .ok (answer, sub) => p.editPolicy above fun _ => (answer, sub)
  | .error e => .error (e.below above)

def graft? (p : Policy) (above : String) : Option (α × Policy) → Option (α × Policy)
  | some (answer, sub) => (p.editPolicy above fun _ => (answer, sub)).toOption
  | none => none

theorem toOption_graft (p : Policy) (above : String) (result : Except Error (α × Policy)) :
    (p.graft above result).toOption = p.graft? above result.toOption := by
  cases result <;> rfl

theorem getAs_policy_eq_ok_iff :
    p.getAs .policy a = .ok sub ↔ ∃ as, Name.segments a = .ok as ∧ p.subAt? as = some sub := by
  rw [← get_policy_eq_ok_iff]
  constructor
  · exact get_of_getAs_policy
  · intro h
    rw [getAs, h]
    rfl

theorem editPolicy_of_subAt? (ha : Name.segments a = .ok as) (hsub : p.subAt? as = some sub)
    (change : Policy → α × Policy) :
    p.editPolicy a change = .ok ((change sub).1, p.putAt as (change sub).2) := by
  obtain ⟨front, leaf, rfl⟩ := Name.exists_leaf_of_segments ha
  rw [subAt?_append, Option.bind_eq_some_iff] at hsub
  obtain ⟨x, hx, hsub⟩ := hsub
  rw [subAt?_singleton] at hsub
  rw [editPolicy, edit_of_segments ha hx, putAt_append, holderAt_of_subAt? hx, putAt_cons hsub,
    child_eq_ok_iff.2 (child?_eq_some_iff.1 hsub)]
  rfl

theorem WellFormed.exists_editPolicy_iff (h : p.WellFormed) (change : Policy → α × Policy) :
    (∃ r, p.editPolicy a change = .ok r) ↔ ∃ sub, p.getAs .policy a = .ok sub := by
  simp only [getAs_policy_eq_ok_iff]
  constructor
  · rintro ⟨⟨answer, q⟩, hr⟩
    obtain ⟨front, leaf, x, ha, -, hsub, hx, -⟩ := h.edit_eq_ok hr
    obtain ⟨sub, hchild, -⟩ := bind_eq_ok_iff.1 hx
    refine ⟨sub, _, ha, ?_⟩
    rw [subAt?_append, hsub rfl, Option.bind_some, subAt?_singleton]
    exact child?_eq_some_iff.2 (child_eq_ok_iff.1 hchild)
  · rintro ⟨sub, as, ha, hsub⟩
    exact ⟨_, editPolicy_of_subAt? ha hsub change⟩

theorem exists_editPolicy_of_getAs (h : p.getAs .policy a = .ok sub)
    (change : Policy → α × Policy) : ∃ q, p.editPolicy a change = .ok ((change sub).1, q) ∧
      q.getAs .policy a = .ok (change sub).2 := by
  obtain ⟨as, ha, hsub⟩ := getAs_policy_eq_ok_iff.1 h
  exact ⟨_, editPolicy_of_subAt? ha hsub change,
    getAs_policy_eq_ok_iff.2 ⟨as, ha, subAt?_putAt p as (change sub).2⟩⟩

theorem getArray_join (ha : Name.WellFormed a) (hb : Name.WellFormed b) :
    p.getArray (Name.join a b) = .ok values ↔
      ∃ sub, p.getAs .policy a = .ok sub ∧ sub.getArray b = .ok values := by
  obtain ⟨as, ha⟩ := Name.wellFormed_iff.1 ha
  obtain ⟨bs, hb⟩ := Name.wellFormed_iff.1 hb
  have hne := (Name.segments_eq_ok_iff.1 hb).1
  rw [getArray_of_segments (Name.segments_join ha hb), valuesAt?_append p as hne, holderAt]
  simp only [getAs_policy_eq_ok_iff, ha, Except.ok.injEq, exists_eq_left', getArray_of_segments hb]
  cases p.subAt? as with
  | none => simp [valuesAt?_empty]
  | some sub => simp

theorem child_below (p : Policy) (leaf full above : String) :
    p.child leaf (Name.join above full) = (p.child leaf full).mapError (Error.below above) := by
  rw [child, child]
  split <;> rfl

theorem enter_below (create : Bool) (p : Policy) (leaf full above : String) :
    p.enter create leaf (Name.join above full) =
      (p.enter create leaf full).mapError (Error.below above) := by
  rw [enter, enter]
  split
  · rfl
  · exact child_below p leaf full above

theorem editHolder_below (has : ∀ s ∈ as, Name.isLeaf s = true)
    (hwalked : ∀ s ∈ walked, Name.isLeaf s = true) (hsegs : ∀ s ∈ segs, Name.isLeaf s = true)
    (hedit : ∀ x leaf, edit' x leaf = (edit x leaf).mapError (Error.below (Name.ofSegments as))) :
    p.editHolder create edit' (Name.ofSegments (as ++ walked)) (segs ++ [leaf]) =
      (p.editHolder create edit (Name.ofSegments walked) (segs ++ [leaf])).mapError
        (Error.below (Name.ofSegments as)) := by
  induction segs generalizing p walked with
  | nil => exact hedit p leaf
  | cons seg rest ih =>
    rw [List.forall_mem_cons] at hsegs
    have hwalked' := Name.isLeaf_concat hwalked hsegs.1
    have hjoin := Name.join_ofSegments_append has (List.concat_ne_nil seg walked)
    have hne := List.concat_ne_nil leaf rest
    rw [List.cons_append, editHolder_cons create edit _ p seg hne,
      editHolder_cons create edit' _ p seg hne, Name.join_ofSegments hwalked,
      Name.join_ofSegments (List.forall_mem_append.2 ⟨has, hwalked⟩), List.append_assoc, ← hjoin,
      enter_below]
    cases p.enter create seg (Name.ofSegments (walked ++ [seg])) with
    | error e => rfl
    | ok sub =>
      have hsub := ih (p := sub) hwalked' hsegs.2
      rw [Except.mapError, ok_bind, ok_bind, hjoin, hsub]
      cases sub.editHolder create edit (Name.ofSegments (walked ++ [seg])) (rest ++ [leaf]) <;> rfl

/-- A change under a name below `a` is one of the sub-policy under `a`. -/
theorem edit_join (h : p.getAs .policy a = .ok sub) (hb : Name.WellFormed b)
    (hedit : ∀ x leaf, edit' x leaf = (edit x leaf).mapError (Error.below a)) :
    p.edit create (Name.join a b) edit' = p.graft a (sub.edit create b edit) := by
  obtain ⟨as, ha, hsub⟩ := getAs_policy_eq_ok_iff.1 h
  obtain ⟨bs, hb⟩ := Name.wellFormed_iff.1 hb
  obtain ⟨back, leaf, rfl⟩ := Name.exists_leaf_of_segments hb
  have hback := (List.forall_mem_append.1 (Name.segments_eq_ok_iff.1 hb).2.1).1
  have hwalk : sub.editHolder create edit' (as.foldl Name.join "") (back ++ [leaf]) =
      (sub.editHolder create edit "" (back ++ [leaf])).mapError (Error.below a) := by
    obtain ⟨-, has, rfl⟩ := Name.segments_eq_ok_iff.1 ha
    have hnil := List.forall_mem_nil fun s => Name.isLeaf s = true
    have hfold : as.foldl Name.join "" = Name.ofSegments (as ++ []) := by
      rw [List.append_nil]
      exact Name.foldl_join_ofSegments hnil has
    rw [hfold]
    exact editHolder_below has hnil hback hedit
  rw [Policy.edit, Policy.edit, Name.segments_join ha hb, hb, ok_bind, ok_bind,
    editHolder_append hsub (List.concat_ne_nil leaf back), hwalk]
  cases sub.editHolder create edit "" (back ++ [leaf]) with
  | error e => rfl
  | ok result => exact (editPolicy_of_subAt? ha hsub fun _ => (result.1, result.2)).symm

section Operations

variable (h : p.getAs .policy a = .ok sub) (hb : Name.WellFormed b)
include h hb

theorem set_join (v : Value) : (p.set (Name.join a b) v).map (fun q => ((), q)) =
    p.graft a ((sub.set b v).map fun q => ((), q)) := by
  rw [set, set]
  by_cases hv : v.isUndefined = true
  · rw [if_pos hv, if_pos hv]
    rfl
  · rw [if_neg hv, if_neg hv, map_snd_unit, map_snd_unit]
    apply edit_join h hb
    intro x leaf
    rfl

theorem add_join (v : Value) : (p.add (Name.join a b) v).map (fun q => ((), q)) =
    p.graft a ((sub.add b v).map fun q => ((), q)) := by
  rw [add, add]
  by_cases hv : v.isUndefined = true
  · rw [if_pos hv, if_pos hv]
    rfl
  · rw [if_neg hv, if_neg hv, map_snd_unit, map_snd_unit]
    apply edit_join h hb
    intro x leaf
    cases x.entry? leaf with
    | none => rfl
    | some e =>
      by_cases hk : (v.kind == e.kind) = true
      · simp only [if_pos hk]
        rfl
      · simp only [if_neg hk]
        rfl

omit h hb in
theorem checkArray_below (a b : String) (values : List Value) :
    checkArray (Name.join a b) values = (checkArray b values).mapError (Error.below a) := by
  cases values with
  | nil => rfl
  | cons first rest =>
    rw [checkArray, checkArray]
    split
    · rfl
    · split <;> rfl

theorem setArray_join (values : List Value) :
    (p.setArray (Name.join a b) values).map (fun q => ((), q)) =
      p.graft a ((sub.setArray b values).map fun q => ((), q)) := by
  rw [setArray, setArray, checkArray_below]
  cases checkArray b values with
  | error e => rfl
  | ok =>
    rw [Except.mapError, ok_bind, ok_bind, map_snd_unit, map_snd_unit]
    apply edit_join h hb
    intro x leaf
    rfl

theorem remove?_join : p.remove? (Name.join a b) = p.graft? a (sub.remove? b) := by
  rw [remove?, remove?, ← toOption_graft]
  apply congrArg Except.toOption
  apply edit_join h hb
  intro x leaf
  cases x.entry? leaf <;> rfl

theorem pop?_join : p.pop? (Name.join a b) = p.graft? a (sub.pop? b) := by
  rw [pop?, pop?, ← toOption_graft]
  apply congrArg Except.toOption
  apply edit_join h hb
  intro x leaf
  cases (x.entry? leaf).map Entry.values with
  | none => rfl
  | some values =>
    cases hlast : values.getLast? with
    | none =>
      simp only [hlast]
      rfl
    | some v =>
      by_cases hone : values.length = 1
      · simp only [hlast, if_pos hone]
        rfl
      · simp only [hlast, if_neg hone]
        rfl

theorem editPolicy_join (change : Policy → α × Policy) :
    p.editPolicy (Name.join a b) change = p.graft a (sub.editPolicy b change) := by
  apply edit_join h hb
  intro x leaf
  rw [child_below]
  cases x.child leaf b <;> rfl

theorem editPoliciesAt_join (change : Nat → Policy → α × Policy) :
    p.editPoliciesAt (Name.join a b) change = p.graft a (sub.editPoliciesAt b change) := by
  apply edit_join h hb
  intro x leaf
  cases x.entry? leaf with
  | none => rfl
  | some e =>
    by_cases hk : (e.kind == .policy) = true
    · simp only [if_pos hk]
      rfl
    · simp only [if_neg hk]
      rfl

end Operations

/-- Names compose. The sub-policy that can be changed under a name is the one that can be read
there. What is read or changed under a name below it is read or changed in that sub-policy: with the
same answer, with the sub-policy put back into the whole, and with the same errors but for the
names. -/
theorem names_compose (p : Policy) (h : p.WellFormed) (a b : String) (ha : Name.WellFormed a)
    (hb : Name.WellFormed b) :
    (∀ (α : Type) (change : Policy → α × Policy),
      ((∃ r, p.editPolicy a change = .ok r) ↔ ∃ sub, p.getAs .policy a = .ok sub) ∧
      ∀ sub, p.getAs .policy a = .ok sub → ∃ q,
        p.editPolicy a change = .ok ((change sub).1, q) ∧ q.getAs .policy a = .ok (change sub).2) ∧
    (∀ values, p.getArray (Name.join a b) = .ok values ↔
      ∃ sub, p.getAs .policy a = .ok sub ∧ sub.getArray b = .ok values) ∧
    ∀ sub, p.getAs .policy a = .ok sub →
      (∀ v, (p.set (Name.join a b) v).map (fun q => ((), q)) =
        p.graft a ((sub.set b v).map fun q => ((), q))) ∧
      (∀ v, (p.add (Name.join a b) v).map (fun q => ((), q)) =
        p.graft a ((sub.add b v).map fun q => ((), q))) ∧
      (∀ values, (p.setArray (Name.join a b) values).map (fun q => ((), q)) =
        p.graft a ((sub.setArray b values).map fun q => ((), q))) ∧
      p.remove? (Name.join a b) = p.graft? a (sub.remove? b) ∧
      p.pop? (Name.join a b) = p.graft? a (sub.pop? b) ∧
      (∀ (α : Type) (change : Policy → α × Policy),
        p.editPolicy (Name.join a b) change = p.graft a (sub.editPolicy b change)) ∧
      ∀ (α : Type) (change : Nat → Policy → α × Policy),
        p.editPoliciesAt (Name.join a b) change = p.graft a (sub.editPoliciesAt b change) :=
  ⟨fun _ change => ⟨h.exists_editPolicy_iff change,
      fun _ hsub => exists_editPolicy_of_getAs hsub change⟩,
    fun _ => getArray_join ha hb,
    fun _ hsub => ⟨set_join hsub hb, add_join hsub hb, setArray_join hsub hb, remove?_join hsub hb,
      pop?_join hsub hb, fun _ => editPolicy_join hsub hb, fun _ => editPoliciesAt_join hsub hb⟩⟩

theorem names_compose_zonesAndSize :
    (zonesAndSize.set "zone.map.scale" (.int 1)).map (fun q => ((), q)) =
        .error (.wrongType "zone.map" .policy .file) ∧
      zonesAndSize.pop? "zone.name" = (zonesAndSize.editPolicy "zone" fun _ =>
        (Value.string "main", ⟨[⟨"map", [.file "map.json"]⟩]⟩)).toOption := by
  have hwell : ∀ name, (Text.fields Name.separator name).all (· != "") = true →
      Name.WellFormed name := fun name hname s hs => by simpa using List.all_eq_true.1 hname s hs
  have hsub : zonesAndSize.getAs .policy "zone" =
      .ok ⟨[⟨"name", [.string "main"]⟩, ⟨"map", [.file "map.json"]⟩]⟩ := rfl
  have hset := names_compose zonesAndSize (by decide +kernel) "zone" "map.scale"
    (hwell _ (by decide +kernel)) (hwell _ (by decide +kernel))
  have hpop := names_compose zonesAndSize (by decide +kernel) "zone" "name"
    (hwell _ (by decide +kernel)) (hwell _ (by decide +kernel))
  exact ⟨(hset.2.2 _ hsub).1 (.int 1), (hpop.2.2 _ hsub).2.2.2.2.1⟩

end Policy

end PolicyTree
