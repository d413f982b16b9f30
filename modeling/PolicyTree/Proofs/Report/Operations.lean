import Mathlib.Data.List.Induction
import PolicyTree.Proofs.Schema.Malformed
import PolicyTree.Report.Text

namespace PolicyTree

namespace Report

/-- A public operation on a report, with its arguments. -/
inductive Operation where
  | record (name : String) (f : Faults)
  /-- Merges the report that operations make of an empty one. -/
  | merge (ops : List Operation)
  | validate (d : Dictionary) (p : Policy)
  /-- Puts the report of a text in the place of this one. -/
  | load (text : String)

mutual

/-- The report after an operation; it is the same report if the operation fails. -/
def perform : Operation → Report → Report
  | .record name f, r => r.record name f
  | .merge ops, r => r.merge (performAll ∅ ops)
  | .validate d p, r => ((d.addFaults p).run.run r).2
  | .load text, r => (parse? text).getD r
termination_by structural op => op

def performAll (r : Report) : List Operation → Report
  | [] => r
  | op :: ops => (perform op r).performAll ops
termination_by structural ops => ops

end

/-- A name is listed although no fault of it is known. -/
def Blank (r : Report) (n : String) : Prop :=
  n ∈ r.names ∧ r.faultsOf n = .empty

/-- An operation that keeps the report and adds no faults of a name. -/
def Operation.Spares (n : String) : Operation → Prop
  | .record name f => n = name → f = .empty
  | .merge ops => (performAll ∅ ops).faultsOf n = .empty
  | .validate d p => ∀ found, d.validate p = .ok found → found.faultsOf n = .empty
  | .load text => parse? text = none

def Operation.LoadsBlank (n : String) : Operation → Prop
  | .load text => ∃ loaded, parse? text = some loaded ∧ loaded.Blank n
  | .record _ _ | .merge _ | .validate _ _ => False

/-- The last report that was read has a name without faults, and none were added. -/
def LeftBlank (ops : List Operation) (n : String) : Prop :=
  ∃ before op after, ops = before ++ op :: after ∧ op.LoadsBlank n ∧ ∀ op ∈ after, op.Spares n

variable {r other : Report} {n name : String} {f : Faults} {l : List (String × Faults)}
  {op : Operation} {ops : List Operation} {d : Dictionary} {p : Policy} {text : String}

theorem mem_names_alter {change : Faults → Faults} :
    n ∈ (alter name change l).map Prod.fst ↔ n = name ∨ n ∈ l.map Prod.fst := by
  induction l with
  | nil => simp [alter]
  | cons a l ih =>
    obtain ⟨m, g⟩ := a
    rw [alter]
    split
    · simp
    · rename_i heq
      obtain rfl := Std.LawfulEqCmp.eq_of_compare heq
      simp
    · rw [List.map_cons, List.mem_cons, ih, List.map_cons, List.mem_cons]
      exact or_left_comm

theorem faultsOf_eq_empty_iff (h : Increasing r.faults) :
    r.faultsOf n = .empty ↔ ∀ e ∈ r.faults, e.1 = n → e.2 = .empty := by
  constructor
  · rintro hnone e he rfl
    rwa [faultsOf_of_mem h he] at hnone
  · intro hall
    by_cases hn : n ∈ r.names
    · obtain ⟨e, he, rfl⟩ := List.mem_map.1 hn
      rw [faultsOf_of_mem h he]
      exact hall e he rfl
    · apply faultsOf_eq_empty
      rintro e he rfl
      exact hn (List.mem_map_of_mem he)

theorem blank_record (h : Increasing r.faults) :
    (r.record name f).Blank n ↔ r.Blank n ∧ (n = name → f = .empty) := by
  rw [Blank, faultsOf_record h, record]
  by_cases hf : f = .empty
  · rw [if_pos (Faults.isEmpty_iff.2 hf), hf]
    simp [Blank]
  · rw [if_neg (mt Faults.isEmpty_iff.1 hf), names, mem_names_alter]
    by_cases hn : n = name
    · simp [hn, hf, Faults.or_eq_empty_iff]
    · simp [hn, Blank, names]

theorem blank_merge (h : Increasing r.faults) (ho : Increasing other.faults) :
    (r.merge other).Blank n ↔ r.Blank n ∧ other.faultsOf n = .empty := by
  rw [faultsOf_eq_empty_iff ho]
  clear ho
  obtain ⟨l⟩ := other
  unfold Report.merge
  induction l generalizing r with
  | nil => simp
  | cons e l ih =>
    rw [List.foldl_cons, ih (increasing_record h e.1 e.2), blank_record h, and_assoc,
      List.forall_mem_cons]
    simp only [eq_comm]

theorem increasing_ofOutline {o : Json.Outline} (h : ofOutline? o = some r) :
    Increasing r.faults := by
  unfold ofOutline? at h
  split at h
  · obtain ⟨members, -, h⟩ := Option.bind_eq_some_iff.1 h
    refine of_foldlM_eq_some (P := fun r : Report => Increasing r.faults) ?_ .nil h
    rintro m - r r' hr h
    split at h
    · obtain ⟨s, -, h⟩ := Option.bind_eq_some_iff.1 h
      obtain ⟨f, -, h⟩ := Option.bind_eq_some_iff.1 h
      cases h
      exact increasing_alter hr
    · cases h
  · cases h

theorem increasing_parse (h : parse? text = some r) : Increasing r.faults := by
  obtain ⟨o, -, h⟩ := Option.bind_eq_some_iff.1 h
  obtain ⟨fields, -, h⟩ := Option.bind_eq_some_iff.1 h
  split at h
  · exact increasing_ofOutline h
  · cases h

theorem perform_validate (d : Dictionary) (p : Policy) (r : Report) :
    perform (.validate d p) r = match d.validate p with
      | .ok found => r.merge found
      | .error _ => r := by
  rw [perform]
  cases h : d.validate p with
  | ok found => rw [Dictionary.run_addFaults_of_ok h]
  | error e => rw [Dictionary.run_addFaults_of_error h]

theorem increasing_perform (h : Increasing r.faults) (op : Operation) :
    Increasing (perform op r).faults := by
  cases op with
  | record name f => exact increasing_record h name f
  | merge ops => exact increasing_merge h _
  | validate d p =>
    rw [perform_validate]
    split
    · exact increasing_merge h _
    · exact h
  | load text =>
    rw [perform]
    cases hload : parse? text with
    | none => exact h
    | some loaded => exact increasing_parse hload

theorem increasing_performAll (h : Increasing r.faults) (ops : List Operation) :
    Increasing (r.performAll ops).faults := by
  induction ops generalizing r with
  | nil => exact h
  | cons op ops ih => exact ih (increasing_perform h op)

/-- One operation: a name is blank after it if it was before and is spared, or if the report was
read with it. -/
theorem blank_perform (h : Increasing r.faults) :
    (perform op r).Blank n ↔ (r.Blank n ∧ op.Spares n) ∨ op.LoadsBlank n := by
  cases op with
  | record name f =>
    rw [perform, blank_record h]
    exact (or_iff_left id).symm
  | merge ops =>
    have hother : Increasing (performAll ∅ ops).faults := increasing_performAll .nil ops
    rw [perform, blank_merge h hother]
    exact (or_iff_left id).symm
  | validate d p =>
    have hspares : ∀ found, d.validate p = .ok found →
        ((Operation.validate d p).Spares n ↔ found.faultsOf n = .empty) := by
      intro found hfound
      simp [Operation.Spares, hfound]
    rw [perform_validate, Operation.LoadsBlank, or_false]
    cases hv : d.validate p with
    | ok found =>
      rw [blank_merge h (Dictionary.wellFormed_validate hv).increasing, hspares found hv]
    | error e => simp [Operation.Spares, hv]
  | load text =>
    rw [perform, Operation.Spares, Operation.LoadsBlank]
    cases parse? text with
    | none => simp
    | some loaded => simp

theorem performAll_concat (r : Report) (ops : List Operation) (op : Operation) :
    r.performAll (ops ++ [op]) = perform op (r.performAll ops) := by
  induction ops generalizing r with
  | nil => rfl
  | cons first ops ih => exact ih (perform first r)

theorem leftBlank_concat :
    LeftBlank (ops ++ [op]) n ↔ (LeftBlank ops n ∧ op.Spares n) ∨ op.LoadsBlank n := by
  constructor
  · rintro ⟨before, load, after, heq, hload, hspares⟩
    rcases List.eq_nil_or_concat after with rfl | ⟨after, last, rfl⟩
    · obtain ⟨-, hop⟩ := List.append_inj' heq rfl
      obtain rfl := List.singleton_inj.1 hop
      exact .inr hload
    · rw [List.concat_eq_append, ← List.cons_append, ← List.append_assoc] at heq
      obtain ⟨rfl, hop⟩ := List.append_inj' heq rfl
      obtain rfl := List.singleton_inj.1 hop
      rw [List.concat_eq_append, List.forall_mem_append, List.forall_mem_singleton] at hspares
      exact .inl ⟨⟨before, load, after, rfl, hload, hspares.1⟩, hspares.2⟩
  · rintro (⟨⟨before, load, after, rfl, hload, hspares⟩, hop⟩ | hload)
    · refine ⟨before, load, after ++ [op], by simp, hload, ?_⟩
      rw [List.forall_mem_append, List.forall_mem_singleton]
      exact ⟨hspares, hop⟩
    · exact ⟨ops, op, [], rfl, hload, List.forall_mem_nil _⟩

/-- Runs of operations, by induction from their ends. -/
theorem blank_performAll : (empty.performAll ops).Blank n ↔ LeftBlank ops n := by
  induction ops using List.reverseRecOn with
  | nil => simp [performAll, Blank, names, empty, LeftBlank]
  | append_singleton ops op ih =>
    have hinc : Increasing (empty.performAll ops).faults := increasing_performAll .nil ops
    rw [performAll_concat, blank_perform hinc, ih, leftBlank_concat]

theorem isOk_iff_names : r.isOk = true ↔ r.names = [] := by
  rw [isOk, List.isEmpty_iff, names, List.map_eq_nil_iff]

theorem faultsOf_eq_empty_iff_blank : r.faultsOf n = .empty ↔ n ∉ r.names ∨ r.Blank n := by
  by_cases hn : n ∈ r.names
  · simp [Blank, hn]
  · refine iff_of_true (faultsOf_eq_empty ?_) (.inl hn)
    rintro e he rfl
    exact hn (List.mem_map_of_mem he)

theorem allFaults_eq_empty_iff (h : Increasing r.faults) :
    r.allFaults = .empty ↔ ∀ n ∈ r.names, r.Blank n := by
  rw [allFaults, Faults.union_eq_empty_iff, List.forall_mem_map, names, List.forall_mem_map]
  apply forall₂_congr
  intro e he
  rw [Blank, faultsOf_of_mem h he]
  exact (and_iff_right (List.mem_map_of_mem he)).symm

/-- After any operations on an empty report, the names without faults are those that are not listed
and those that were left blank by a report that was read. Where there are none of the latter, a
report lists exactly the names with faults, and it is empty if no faults are known at all. -/
theorem names_performAll (ops : List Operation) :
    (∀ n, (empty.performAll ops).faultsOf n = .empty ↔
        n ∉ (empty.performAll ops).names ∨ LeftBlank ops n) ∧
      ((empty.performAll ops).allFaults = .empty ↔
        ∀ n ∈ (empty.performAll ops).names, LeftBlank ops n) ∧
      ((empty.performAll ops).isOk = true ↔ (empty.performAll ops).names.length = 0) ∧
      ((∀ n, ¬LeftBlank ops n) →
        (∀ n, (empty.performAll ops).faultsOf n = .empty ↔ n ∉ (empty.performAll ops).names) ∧
          ((empty.performAll ops).isOk = true ↔ (empty.performAll ops).allFaults = .empty)) := by
  have hinc : Increasing (empty.performAll ops).faults := increasing_performAll .nil ops
  have hfaults : ∀ n, (empty.performAll ops).faultsOf n = .empty ↔
      n ∉ (empty.performAll ops).names ∨ LeftBlank ops n := by
    intro n
    rw [faultsOf_eq_empty_iff_blank, blank_performAll]
  have hall : (empty.performAll ops).allFaults = .empty ↔
      ∀ n ∈ (empty.performAll ops).names, LeftBlank ops n := by
    rw [allFaults_eq_empty_iff hinc]
    simp only [blank_performAll]
  refine ⟨hfaults, hall, ?_, fun hnone => ⟨fun n => ?_, ?_⟩⟩
  · rw [isOk_iff_names, List.length_eq_zero_iff]
  · rw [hfaults]
    exact or_iff_left (hnone n)
  · rw [hall, isOk_iff_names, List.eq_nil_iff_forall_not_mem]
    exact forall_congr' fun n => (imp_iff_not (hnone n)).symm

def blankText : String :=
  "\x7b\"errors\":\x7b\"zone.name\":\"\"\x7d\x7d"

def readThenValidated : List Operation :=
  [.load blankText, .validate Dictionary.zones Dictionary.unnamedZones]

theorem names_performAll_zones :
    (empty.performAll readThenValidated).names = ["zone.name"] ∧
      ∀ n, (empty.performAll readThenValidated).faultsOf n = .empty ↔
        n ∉ (empty.performAll readThenValidated).names := by
  have hnames : (empty.performAll readThenValidated).names = ["zone.name"] := by decide +kernel
  have hfaults : (empty.performAll readThenValidated).faultsOf "zone.name" ≠ .empty := by
    decide +kernel
  obtain ⟨-, -, -, hnone⟩ := names_performAll readThenValidated
  refine ⟨hnames, (hnone ?_).1⟩
  intro n hleft
  obtain ⟨hn, hempty⟩ := blank_performAll.2 hleft
  rw [hnames, List.mem_singleton] at hn
  subst hn
  exact hfaults hempty

/-- A report that was just read may list a name without faults, and is not empty although no faults
are known. -/
theorem blank_load :
    (empty.performAll [.load blankText]).names = ["zone.name"] ∧
      (empty.performAll [.load blankText]).faultsOf "zone.name" = .empty ∧
      (empty.performAll [.load blankText]).allFaults = .empty ∧
      (empty.performAll [.load blankText]).isOk = false := by
  decide +kernel

end Report

end PolicyTree
