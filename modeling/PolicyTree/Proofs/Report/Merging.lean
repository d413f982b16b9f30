import PolicyTree.Proofs.Report.Parts
import PolicyTree.Proofs.Schema.Malformed

namespace PolicyTree

def Dictionary.findings (d : Dictionary) (p : Policy) : Report :=
  (d.validate p).toOption.getD ∅

namespace Report

variable {a b c r r' other : Report} {n : String} {g : Faults} {d : Dictionary} {p : Policy}
  {ps qs : List Policy} {e : Error}

/-- A report that is made of an empty one by recording faults and by merging. -/
inductive Gathered : Report → Prop
  | empty : Gathered ∅
  | record {r : Report} (h : Gathered r) (name : String) (f : Faults) : Gathered (r.record name f)
  | merge {r other : Report} (h : Gathered r) (ho : Gathered other) : Gathered (r.merge other)

theorem Gathered.wellFormed (h : r.Gathered) : r.WellFormed := by
  induction h with
  | empty => exact .empty
  | record h name f ih => exact ih.record name f
  | merge h ho ih iho => exact ih.merge _

theorem WellFormed.eq_of_faultsOf (h : r.WellFormed) (h' : r'.WellFormed)
    (hn : ∀ n, r.faultsOf n = r'.faultsOf n) : r = r' :=
  h.eq_of_meets h' fun n g => by rw [hn n]

theorem WellFormed.faultsOf_merge (h : r.WellFormed) (ho : other.WellFormed) (n : String) :
    (r.merge other).faultsOf n = r.faultsOf n ||| other.faultsOf n :=
  Report.faultsOf_merge h.increasing ho.increasing

theorem WellFormed.merge_comm (ha : a.WellFormed) (hb : b.WellFormed) :
    a.merge b = b.merge a := by
  apply (ha.merge b).eq_of_faultsOf (hb.merge a)
  intro n
  rw [ha.faultsOf_merge hb, hb.faultsOf_merge ha, Faults.or_comm]

theorem WellFormed.merge_assoc (ha : a.WellFormed) (hb : b.WellFormed) (hc : c.WellFormed) :
    (a.merge b).merge c = a.merge (b.merge c) := by
  apply ((ha.merge b).merge c).eq_of_faultsOf (ha.merge (b.merge c))
  intro n
  rw [(ha.merge b).faultsOf_merge hc, ha.faultsOf_merge hb, ha.faultsOf_merge (hb.merge c),
    hb.faultsOf_merge hc, Faults.or_assoc]

theorem WellFormed.merge_self (ha : a.WellFormed) : a.merge a = a := by
  apply (ha.merge a).eq_of_faultsOf ha
  intro n
  rw [ha.faultsOf_merge ha, Faults.or_self]

theorem WellFormed.pairwise_names (h : r.WellFormed) : r.names.Pairwise (· < ·) :=
  List.pairwise_map.2 (h.increasing.imp compare_lt_iff_lt.1)

theorem WellFormed.mem_names_merge (h : r.WellFormed) (ho : other.WellFormed) :
    n ∈ (r.merge other).names ↔ n ∈ r.names ∨ n ∈ other.names := by
  rw [(h.merge other).mem_names_iff, h.mem_names_iff, ho.mem_names_iff, h.faultsOf_merge ho, ne_eq,
    Faults.or_eq_empty_iff]
  exact Decidable.not_and_iff_not_or_not

theorem WellFormed.meets_allFaults (h : r.WellFormed) :
    r.allFaults.meets g = true ↔ ∃ n, (r.faultsOf n).meets g = true := by
  rw [allFaults, Faults.meets_union]
  simp only [h.meets_faultsOf, List.mem_map]
  constructor
  · rintro ⟨f, ⟨e, he, rfl⟩, hg⟩
    exact ⟨e.1, e.2, he, hg⟩
  · rintro ⟨n, f, he, hg⟩
    exact ⟨f, ⟨(n, f), he, rfl⟩, hg⟩

theorem WellFormed.allFaults_merge (h : r.WellFormed) (ho : other.WellFormed) :
    (r.merge other).allFaults = r.allFaults ||| other.allFaults := by
  apply Faults.eq_of_meets
  intro g
  rw [(h.merge other).meets_allFaults, Faults.meets_or, h.meets_allFaults, ho.meets_allFaults,
    ← exists_or]
  simp only [h.faultsOf_merge ho, Faults.meets_or]

theorem run_forM_addFaults_of_error (h : d.validate p = .error e) :
    ((p :: ps).forM d.addFaults).run.run r = (.error e, r) := by
  rw [List.forM, ExceptT.run_bind, StateT.run_bind, Dictionary.run_addFaults_of_error h]
  rfl

theorem run_forM_addFaults_of_ok (h : d.validate p = .ok other) :
    ((p :: ps).forM d.addFaults).run.run r = (ps.forM d.addFaults).run.run (r.merge other) := by
  rw [List.forM, ExceptT.run_bind, StateT.run_bind, Dictionary.run_addFaults_of_ok h]
  rfl

theorem fst_forM_addFaults (d : Dictionary) (ps : List Policy) (r : Report) :
    ((ps.forM d.addFaults).run.run r).1 = if ps.isEmpty then .ok () else d.check := by
  induction ps generalizing r with
  | nil => rfl
  | cons p ps ih =>
    rw [List.isEmpty_cons, if_neg Bool.false_ne_true]
    cases hv : d.validate p with
    | error e => rw [run_forM_addFaults_of_error hv, Dictionary.validateWith_eq_error_iff.1 hv]
    | ok found =>
      obtain ⟨⟨⟩, hc, -⟩ := bind_eq_ok_iff.1 hv
      rw [run_forM_addFaults_of_ok hv, ih, hc, ite_self]

theorem WellFormed.forM_addFaults (h : r.WellFormed) (d : Dictionary) (ps : List Policy) :
    ((ps.forM d.addFaults).run.run r).2.WellFormed := by
  induction ps generalizing r with
  | nil => exact h
  | cons p ps ih =>
    cases hv : d.validate p with
    | error e =>
      rw [run_forM_addFaults_of_error hv]
      exact h
    | ok found =>
      rw [run_forM_addFaults_of_ok hv]
      exact ih (h.merge found)

theorem WellFormed.faultsOf_forM_addFaults (h : r.WellFormed) (d : Dictionary) (ps : List Policy)
    (n : String) : ((ps.forM d.addFaults).run.run r).2.faultsOf n =
      r.faultsOf n ||| .union (ps.map fun p => (d.findings p).faultsOf n) := by
  induction ps generalizing r with
  | nil => exact Faults.or_empty.symm
  | cons p ps ih =>
    cases hv : d.validate p with
    | error e =>
      -- what fails is the check, so that nothing is found in the other policies either
      have hnone : ∀ q, d.findings q = ∅ := by
        intro q
        have hq : d.validate q = .error e :=
          Dictionary.validateWith_eq_error_iff.2 (Dictionary.validateWith_eq_error_iff.1 hv)
        rw [Dictionary.findings, hq]
        rfl
      have hempty : Faults.union ((p :: ps).map fun q => (d.findings q).faultsOf n) = .empty := by
        rw [Faults.union_eq_empty_iff, List.forall_mem_map]
        intro q _
        rw [hnone q]
        rfl
      rw [run_forM_addFaults_of_error hv, hempty, Faults.or_empty]
    | ok found =>
      have hfound : d.findings p = found := by
        rw [Dictionary.findings, hv]
        rfl
      rw [run_forM_addFaults_of_ok hv, ih (h.merge found), List.map_cons, Faults.union_cons,
        h.faultsOf_merge (Dictionary.wellFormed_validate hv), hfound, Faults.or_assoc]

theorem WellFormed.forM_addFaults_eq (h : r.WellFormed) (d : Dictionary)
    (hmem : ∀ p, p ∈ ps ↔ p ∈ qs) :
    (ps.forM d.addFaults).run.run r = (qs.forM d.addFaults).run.run r := by
  apply Prod.ext
  · have hempty : ps.isEmpty = qs.isEmpty := by
      rw [Bool.eq_iff_iff, List.isEmpty_iff, List.isEmpty_iff, List.eq_nil_iff_forall_not_mem,
        List.eq_nil_iff_forall_not_mem]
      simp only [hmem]
    rw [fst_forM_addFaults, fst_forM_addFaults, hempty]
  · apply (h.forM_addFaults d ps).eq_of_meets (h.forM_addFaults d qs)
    intro n g
    rw [h.faultsOf_forM_addFaults, h.faultsOf_forM_addFaults, Faults.meets_or, Faults.meets_or,
      Faults.meets_union, Faults.meets_union]
    simp only [List.mem_map, hmem]

/-- Merging is a join of reports: it adds up the faults of each name, lists the names of both in
order, and does not depend on order, grouping or repetition. So it is with the faults of several
policies that are gathered in one report. -/
theorem merge_joins {a b c : Report} (ha : a.Gathered) (hb : b.Gathered) (hc : c.Gathered)
    (d : Dictionary) {ps qs : List Policy} (hmem : ∀ p, p ∈ ps ↔ p ∈ qs) :
    (∀ n, (a.merge b).faultsOf n = a.faultsOf n ||| b.faultsOf n) ∧
      (a.merge b).names.Pairwise (· < ·) ∧
      (∀ n, n ∈ (a.merge b).names ↔ n ∈ a.names ∨ n ∈ b.names) ∧
      (a.merge b).allFaults = a.allFaults ||| b.allFaults ∧
      a.merge b = b.merge a ∧ (a.merge b).merge c = a.merge (b.merge c) ∧ a.merge a = a ∧
      (∀ n, ((ps.forM d.addFaults).run.run a).2.faultsOf n =
        a.faultsOf n ||| .union (ps.map fun p => (d.findings p).faultsOf n)) ∧
      (ps.forM d.addFaults).run.run a = (qs.forM d.addFaults).run.run a := by
  have ha := ha.wellFormed
  have hb := hb.wellFormed
  have hc := hc.wellFormed
  exact ⟨ha.faultsOf_merge hb, (ha.merge b).pairwise_names, fun n => ha.mem_names_merge hb,
    ha.allFaults_merge hb, ha.merge_comm hb, ha.merge_assoc hb hc, ha.merge_self,
    ha.faultsOf_forM_addFaults d ps, ha.forM_addFaults_eq d hmem⟩

/-- Zones that are gathered twice and in another order, after a size that is no number. -/
theorem merge_joins_unnamed :
    let size := record ∅ "size" .wrongType
    let zone := record ∅ "zone" .tooManyValues
    size.merge zone = zone.merge size ∧
      (([Dictionary.unnamedZones, .empty].forM Dictionary.zones.addFaults).run.run size).2.faultsOf
        "zone.name" = .missingRequired ||| .wrongType ∧
      ([Dictionary.unnamedZones, .empty].forM Dictionary.zones.addFaults).run.run size =
        ([.empty, Dictionary.unnamedZones, .empty].forM Dictionary.zones.addFaults).run.run
          size := by
  intro size zone
  have hsize : size.Gathered := .record .empty _ _
  have hzone : zone.Gathered := .record .empty _ _
  have hmem : ∀ p, p ∈ [Dictionary.unnamedZones, .empty] ↔
      p ∈ [.empty, Dictionary.unnamedZones, .empty] := by
    intro p
    simp only [List.mem_cons, List.not_mem_nil, or_false]
    tauto
  obtain ⟨-, -, -, -, hcomm, -, -, hfaults, hsame⟩ :=
    merge_joins hsize hzone hzone Dictionary.zones hmem
  refine ⟨hcomm, ?_, hsame⟩
  rw [hfaults]
  decide +kernel

end Report

end PolicyTree
