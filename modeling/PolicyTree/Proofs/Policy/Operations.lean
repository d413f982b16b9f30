import PolicyTree.Policy.Defaults
import PolicyTree.Proofs.Policy.WellFormed

namespace PolicyTree

namespace Value

variable {α : Type} {v w : Value} {values : List Value}

theorem mem_editEach {change : Nat → Policy → α × Policy} {i : Nat}
    (hw : w ∈ (editEach change i values).2) :
    (w ∈ values ∧ ∀ sub, w ≠ .policy sub) ∨
      ∃ j sub, Value.policy sub ∈ values ∧ w = .policy (change j sub).2 := by
  induction values generalizing i with
  | nil => cases hw
  | cons v values ih =>
    have hlater {i : Nat} (hw : w ∈ (editEach change i values).2) :
        (w ∈ v :: values ∧ ∀ sub, w ≠ .policy sub) ∨
          ∃ j sub, Value.policy sub ∈ v :: values ∧ w = .policy (change j sub).2 := by
      rcases ih hw with ⟨hmem, hne⟩ | ⟨j, sub, hmem, he⟩
      · exact .inl ⟨List.mem_cons_of_mem _ hmem, hne⟩
      · exact .inr ⟨j, sub, List.mem_cons_of_mem _ hmem, he⟩
    cases v with
    | policy sub =>
      rcases List.mem_cons.1 hw with rfl | hw
      · exact .inr ⟨i, sub, List.mem_cons_self .., rfl⟩
      · exact hlater hw
    | undefined | bool | int | double | string | file =>
      rcases List.mem_cons.1 hw with rfl | hw
      · exact .inl ⟨List.mem_cons_self .., by simp⟩
      · exact hlater hw

theorem length_editEach (change : Nat → Policy → α × Policy) (i : Nat) (values : List Value) :
    (editEach change i values).2.length = values.length := by
  induction values generalizing i with
  | nil => rfl
  | cons v values ih =>
    cases v with
    | policy sub => simp [editEach, ih]
    | undefined | bool | int | double | string | file => simp [editEach, ih]

theorem Storable.editEach {change : Nat → Policy → α × Policy} (h : Storable values)
    (hc : ∀ i sub, sub.WellFormed → (change i sub).2.WellFormed) :
    Storable (editEach change 0 values).2 where
  toIsArray := by
    apply h.of_mem
    · rw [← List.length_pos_iff, length_editEach, List.length_pos_iff]
      exact h.ne_nil
    · intro w hw
      rcases mem_editEach hw with ⟨hmem, -⟩ | ⟨j, sub, hmem, rfl⟩
      · exact ⟨w, hmem, rfl⟩
      · exact ⟨_, hmem, rfl⟩
  nested w hw := by
    rcases mem_editEach hw with ⟨hmem, -⟩ | ⟨j, sub, hmem, rfl⟩
    · exact h.nested w hmem
    · exact wellFormed_policy.2 (hc j sub (h.nested _ hmem sub rfl))

theorem fillFromLast_eq (targets ds : List Value) :
    fillFromLast targets ds = (ds.getLast?.map (fillEach targets)).getD (targets, 0) := by
  induction ds with
  | nil => rfl
  | cons d ds ih =>
    cases ds with
    | nil => rfl
    | cons e ds =>
      simp only [fillFromLast, List.getLast?_cons_cons]
      exact ih

theorem Storable.fillEach {d : Value} (h : Storable values)
    (hf : ∀ sub, d = .policy sub → ∀ p : Policy, p.WellFormed → (p.fillFrom sub).1.WellFormed) :
    Storable (fillEach values d).1 := by
  cases d with
  | policy d =>
    have hmem : ∀ w ∈ (Value.fillEach values (.policy d)).1, ∃ v ∈ values,
        w.kind = v.kind ∧ w.WellFormed := by
      intro w hw
      simp only [Value.fillEach, List.map_map, List.mem_map, Function.comp] at hw
      obtain ⟨v, hv, rfl⟩ := hw
      refine ⟨v, hv, ?_⟩
      cases v with
      | policy sub =>
        exact ⟨rfl, wellFormed_policy.2 (hf d rfl sub (h.nested _ hv sub rfl))⟩
      | undefined | bool | int | double | string | file => exact ⟨rfl, h.nested _ hv⟩
    refine ⟨h.of_mem ?_ ?_, ?_⟩
    · simpa [Value.fillEach] using h.ne_nil
    · intro w hw
      obtain ⟨v, hv, hk, -⟩ := hmem w hw
      exact ⟨v, hv, hk⟩
    · intro w hw
      obtain ⟨v, -, -, hwf⟩ := hmem w hw
      exact hwf
  | undefined | bool | int | double | string | file => exact h

end Value

namespace Policy

variable {α : Type} {p q d : Policy} {path : String} {v : Value} {values : List Value}

theorem WellFormed.set (h : p.WellFormed) (hv : v.WellFormed) (hq : p.set path v = .ok q) :
    q.WellFormed := by
  rw [Policy.set] at hq
  split at hq
  · cases hq
  · rename_i hd
    obtain ⟨⟨_, q⟩, hedit, rfl⟩ := map_eq_ok_iff.1 hq
    apply h.edit ?_ hedit
    intro holder holder' leaf _ hholder hleaf he
    obtain ⟨-, rfl⟩ := Prod.mk.inj (Except.ok.inj he)
    exact hholder.put hleaf (.singleton (by simpa using hd) hv)

theorem WellFormed.add (h : p.WellFormed) (hv : v.WellFormed) (hq : p.add path v = .ok q) :
    q.WellFormed := by
  rw [Policy.add] at hq
  split at hq
  · cases hq
  · rename_i hd
    obtain ⟨⟨_, q⟩, hedit, rfl⟩ := map_eq_ok_iff.1 hq
    apply h.edit ?_ hedit
    intro holder holder' leaf _ hholder hleaf he
    split at he
    · obtain ⟨-, rfl⟩ := Prod.mk.inj (Except.ok.inj he)
      exact hholder.put hleaf (.singleton (by simpa using hd) hv)
    · rename_i e hentry
      split at he
      · rename_i hk
        obtain ⟨-, rfl⟩ := Prod.mk.inj (Except.ok.inj he)
        have harr := hholder.storable (mem_of_entry?_eq_some hentry)
        refine hholder.put hleaf ⟨harr.of_mem (by simp) ?_, ?_⟩
        · intro w hw
          rcases List.mem_append.1 hw with hw | hw
          · exact ⟨w, hw, rfl⟩
          · obtain ⟨first, hfirst⟩ := List.exists_mem_of_ne_nil _ harr.ne_nil
            rw [List.mem_singleton] at hw
            refine ⟨first, hfirst, ?_⟩
            rw [hw, eq_of_beq hk]
            exact harr.kind_of_mem hfirst e.name
        · intro w hw
          rcases List.mem_append.1 hw with hw | hw
          · exact harr.nested w hw
          · rw [List.mem_singleton] at hw
            exact hw ▸ hv
      · cases he

theorem checkArray_eq_ok_iff : checkArray path values = .ok () ↔ Value.IsArray values := by
  constructor
  · intro h
    cases values with
    | nil => cases h
    | cons first rest =>
      simp only [checkArray] at h
      split at h
      · cases h
      · rename_i hodd
        split at h
        · cases h
        · rename_i hd
          apply Value.IsArray.of_kind (k := first.kind) (List.cons_ne_nil _ _)
          · simpa using hodd
          · intro hk
            exact hd (Value.isUndefined_iff.2 hk)
  · intro h
    cases values with
    | nil => exact absurd rfl h.ne_nil
    | cons first rest =>
      have hfirst := List.mem_cons_self (a := first) (l := rest)
      have hodd : (first :: rest).find? (fun v => v.kind != first.kind) = none := by
        rw [List.find?_eq_none]
        intro v hv
        simp [h.kind_eq v hv first hfirst]
      have hd : ¬ first.isUndefined = true := by
        intro hu
        exact h.defined first hfirst (Value.isUndefined_iff.1 hu)
      simp only [checkArray, hodd, if_neg hd]

theorem WellFormed.setArray (h : p.WellFormed) (hv : ∀ v ∈ values, v.WellFormed)
    (hq : p.setArray path values = .ok q) : q.WellFormed := by
  obtain ⟨⟨⟩, hcheck, hq⟩ := bind_eq_ok_iff.1 hq
  obtain ⟨⟨_, q⟩, hedit, rfl⟩ := map_eq_ok_iff.1 hq
  apply h.edit ?_ hedit
  intro holder holder' leaf _ hholder hleaf he
  obtain ⟨-, rfl⟩ := Prod.mk.inj (Except.ok.inj he)
  exact hholder.put hleaf ⟨checkArray_eq_ok_iff.1 hcheck, hv⟩

theorem WellFormed.remove? (h : p.WellFormed) (hq : p.remove? path = some (values, q)) :
    q.WellFormed := by
  apply h.edit ?_ (toOption_eq_some_iff.1 hq)
  intro holder holder' leaf _ hholder hleaf he
  split at he
  · cases he
  · obtain ⟨-, rfl⟩ := Prod.mk.inj (Except.ok.inj he)
    exact hholder.erase leaf

theorem WellFormed.pop? (h : p.WellFormed) (hq : p.pop? path = some (v, q)) : q.WellFormed := by
  apply h.edit ?_ (toOption_eq_some_iff.1 hq)
  intro holder holder' leaf _ hholder hleaf he
  split at he
  · cases he
  · rename_i old hold
    obtain ⟨e, hentry, rfl⟩ := Option.map_eq_some_iff.1 hold
    split at he
    · cases he
    · split at he
      · obtain ⟨-, rfl⟩ := Prod.mk.inj (Except.ok.inj he)
        exact hholder.erase leaf
      · rename_i hlen
        obtain ⟨-, rfl⟩ := Prod.mk.inj (Except.ok.inj he)
        have harr := hholder.storable (mem_of_entry?_eq_some hentry)
        have hpos := List.length_pos_iff.2 harr.ne_nil
        refine hholder.put hleaf ⟨harr.of_mem ?_ ?_, ?_⟩
        · rw [← List.length_pos_iff, List.length_dropLast]
          omega
        · intro w hw
          exact ⟨w, List.dropLast_subset _ hw, rfl⟩
        · intro w hw
          exact harr.nested w (List.dropLast_subset _ hw)

theorem WellFormed.editPolicy {change : Policy → α × Policy} {answer : α} (h : p.WellFormed)
    (hc : ∀ sub, sub.WellFormed → (change sub).2.WellFormed)
    (hq : p.editPolicy path change = .ok (answer, q)) : q.WellFormed := by
  apply h.edit ?_ hq
  intro holder holder' leaf _ hholder hleaf he
  obtain ⟨sub, hsub, he⟩ := bind_eq_ok_iff.1 he
  obtain ⟨-, rfl⟩ := Prod.mk.inj (Except.ok.inj he)
  obtain ⟨hw, hlast⟩ := hholder.child hsub
  exact hholder.putChild hleaf (hc sub hw) hlast

theorem WellFormed.editPoliciesAt {change : Nat → Policy → α × Policy} {answers : List α}
    (h : p.WellFormed) (hc : ∀ i sub, sub.WellFormed → (change i sub).2.WellFormed)
    (hq : p.editPoliciesAt path change = .ok (answers, q)) : q.WellFormed := by
  apply h.edit ?_ hq
  intro holder holder' leaf _ hholder hleaf he
  split at he
  · cases he
  · rename_i e hentry
    split at he
    · obtain ⟨-, rfl⟩ := Prod.mk.inj (Except.ok.inj he)
      exact hholder.put hleaf ((hholder.storable (mem_of_entry?_eq_some hentry)).editEach hc)
    · cases he

/-- Filling in one default keeps the policy well-formed, if the sub-policies of the default do so
with every policy. -/
theorem WellFormed.fillEntry {e : Entry} (h : p.WellFormed) (hn : Name.isLeaf e.name = true)
    (hv : Value.Storable e.values)
    (hf : ∀ sub, Value.policy sub ∈ e.values → ∀ p : Policy, p.WellFormed →
      (p.fillFrom sub).1.WellFormed) : (Entry.fill p e).1.WellFormed := by
  obtain ⟨name, values⟩ := e
  rw [Entry.fill]
  split
  · rename_i hnone
    have hnew := entry?_eq_none_iff.1 hnone
    apply WellFormed.of_entries
    · rw [List.map_append, List.nodup_append]
      refine ⟨h.unique, by simp, ?_⟩
      rintro a ha b hb rfl
      obtain rfl := List.mem_singleton.1 hb
      exact hnew ha
    · intro e he
      rcases List.mem_append.1 he with he | he
      · exact ⟨h.leaf he, h.storable he⟩
      · obtain rfl := List.mem_singleton.1 he
        exact ⟨hn, hv⟩
  · rename_i e hentry
    apply h.put hn
    rw [Value.fillFromLast_eq]
    have harr := h.storable (mem_of_entry?_eq_some hentry)
    cases hl : values.getLast? with
    | none => exact harr
    | some d =>
      apply harr.fillEach
      rintro sub rfl
      exact hf sub (List.mem_of_getLast? hl)

theorem WellFormed.fillFrom (h : p.WellFormed) (hd : d.WellFormed) :
    (p.fillFrom d).1.WellFormed := by
  induction hd generalizing p with
  | @intro es unique leaf array nested ih =>
    -- the defaults are filled in one by one, so the statement is about any part of them
    have hall : ∀ {ds : List Entry} {p : Policy}, (∀ e ∈ ds, e ∈ es) → p.WellFormed →
        (Entry.fillAll p ds).1.WellFormed := by
      intro ds
      induction ds with
      | nil =>
        intro p hsub hp
        exact hp
      | cons e ds ihds =>
        intro p hsub hp
        have he := hsub e (List.mem_cons_self ..)
        have hv : Value.Storable e.values := by
          refine ⟨array e he, ?_⟩
          rintro v hv sub rfl
          exact nested e he sub hv
        have hone := hp.fillEntry (leaf e he) hv fun sub hs p hp => ih e he sub hs hp
        exact ihds (fun f hf => hsub f (List.mem_cons_of_mem _ hf)) hone
    exact hall (fun _ he => he) h

/-- A public operation on a policy, with its arguments. -/
inductive Operation where
  | set (path : String) (v : Value)
  | add (path : String) (v : Value)
  | setArray (path : String) (values : List Value)
  | remove (path : String)
  | pop (path : String)
  | mergeDefaults (defaults : Policy)
  /-- Puts another policy in the place of this one. -/
  | assign (q : Policy)
  /-- Operations on the last sub-policy under `path`, one after the other. -/
  | within (path : String) (ops : List Operation)
  /-- Operations on every sub-policy under `path`, those on the first one being `ops 0`. -/
  | each (path : String) (ops : Nat → List Operation)

mutual

/-- The policy after an operation; it is the same policy if the operation fails. -/
def perform : Operation → Policy → Policy
  | .set path v, p => (p.set path v).toOption.getD p
  | .add path v, p => (p.add path v).toOption.getD p
  | .setArray path values, p => (p.setArray path values).toOption.getD p
  | .remove path, p => ((p.remove? path).map Prod.snd).getD p
  | .pop path, p => ((p.pop? path).map Prod.snd).getD p
  | .mergeDefaults defaults, p => (p.mergeDefaults defaults).1
  | .assign q, _ => q
  | .within path ops, p =>
    ((p.editPolicy path fun sub => ((), sub.performAll ops)).toOption.map Prod.snd).getD p
  | .each path ops, p =>
    ((p.editPoliciesAt path fun i sub => ((), sub.performAll (ops i))).toOption.map
      Prod.snd).getD p
termination_by structural op => op

def performAll (p : Policy) : List Operation → Policy
  | [] => p
  | op :: ops => (perform op p).performAll ops
termination_by structural ops => ops

end

mutual

/-- The values and policies among the arguments of an operation are well-formed. -/
def Operation.Admissible : Operation → Prop
  | .set _ v => v.WellFormed
  | .add _ v => v.WellFormed
  | .setArray _ values => ∀ v ∈ values, v.WellFormed
  | .remove _ => True
  | .pop _ => True
  | .mergeDefaults defaults => defaults.WellFormed
  | .assign q => q.WellFormed
  | .within _ ops => Operation.AllAdmissible ops
  | .each _ ops => ∀ i, Operation.AllAdmissible (ops i)
termination_by structural op => op

def Operation.AllAdmissible : List Operation → Prop
  | [] => True
  | op :: ops => op.Admissible ∧ Operation.AllAdmissible ops
termination_by structural ops => ops

end

theorem wellFormed_getD {o : Option Policy} (h : p.WellFormed)
    (ho : ∀ q, o = some q → q.WellFormed) : (o.getD p).WellFormed := by
  cases o with
  | none => exact h
  | some q => exact ho q rfl

mutual

theorem WellFormed.perform : ∀ {op : Operation} {p : Policy}, p.WellFormed → op.Admissible →
    (Policy.perform op p).WellFormed
  | .set path v, p, h, hop => by
    apply wellFormed_getD h
    intro q hq
    exact h.set hop (toOption_eq_some_iff.1 hq)
  | .add path v, p, h, hop => by
    apply wellFormed_getD h
    intro q hq
    exact h.add hop (toOption_eq_some_iff.1 hq)
  | .setArray path values, p, h, hop => by
    apply wellFormed_getD h
    intro q hq
    exact h.setArray hop (toOption_eq_some_iff.1 hq)
  | .remove path, p, h, _ => by
    apply wellFormed_getD h
    intro q hq
    obtain ⟨⟨values, q⟩, hr, rfl⟩ := Option.map_eq_some_iff.1 hq
    exact h.remove? hr
  | .pop path, p, h, _ => by
    apply wellFormed_getD h
    intro q hq
    obtain ⟨⟨v, q⟩, hr, rfl⟩ := Option.map_eq_some_iff.1 hq
    exact h.pop? hr
  | .mergeDefaults defaults, p, h, hop => h.fillFrom hop
  | .assign q, p, _, hop => hop
  | .within path ops, p, h, hop => by
    apply wellFormed_getD h
    intro q hq
    obtain ⟨⟨_, q⟩, hr, rfl⟩ := Option.map_eq_some_iff.1 hq
    apply h.editPolicy ?_ (toOption_eq_some_iff.1 hr)
    intro sub hsub
    exact WellFormed.performAll hsub hop
  | .each path ops, p, h, hop => by
    apply wellFormed_getD h
    intro q hq
    obtain ⟨⟨_, q⟩, hr, rfl⟩ := Option.map_eq_some_iff.1 hq
    apply h.editPoliciesAt ?_ (toOption_eq_some_iff.1 hr)
    intro i sub hsub
    exact WellFormed.performAll hsub (hop i)
termination_by structural op => op

theorem WellFormed.performAll : ∀ {ops : List Operation} {p : Policy}, p.WellFormed →
    Operation.AllAdmissible ops → (p.performAll ops).WellFormed
  | [], p, h, _ => h
  | op :: ops, p, h, hops => by
    have hone := WellFormed.perform h hops.1
    have hrest := WellFormed.performAll hone hops.2
    exact hrest
termination_by structural ops => ops

end

end Policy

end PolicyTree
