import Mathlib.Data.List.Sort
import Mathlib.Data.String.Basic
import PolicyTree.Name
import PolicyTree.Proofs.Report.Gathering

namespace PolicyTree

/-- What the names below `a` start with. -/
def Name.lead (a : String) : String :=
  a ++ String.singleton separator

namespace Report

variable {r r' : Report} {a m n x y : String} {f g : Faults}

def below (r : Report) (a : String) : Report :=
  ⟨r.faults.filter fun e => (Name.lead a).toList <+: e.1.toList⟩

def under (r : Report) (a : String) : Report :=
  ⟨r.faults.map fun e => (Name.lead a ++ e.1, e.2)⟩

theorem WellFormed.meets_faultsOf (h : r.WellFormed) :
    (r.faultsOf n).meets g = true ↔ ∃ f, (n, f) ∈ r.faults ∧ f.meets g = true := by
  constructor
  · intro hg
    have hne : r.faultsOf n ≠ .empty := by
      intro hempty
      rw [hempty, Faults.not_meets_empty] at hg
      cases hg
    obtain ⟨⟨m, f⟩, he, rfl⟩ := List.mem_map.1 (h.mem_names_iff.2 hne)
    rw [faultsOf_of_mem h.increasing he] at hg
    exact ⟨f, he, hg⟩
  · rintro ⟨f, he, hg⟩
    rwa [faultsOf_of_mem h.increasing he]

theorem WellFormed.mem_faults_iff (h : r.WellFormed) :
    (n, f) ∈ r.faults ↔ r.faultsOf n = f ∧ f ≠ .empty := by
  constructor
  · intro he
    exact ⟨faultsOf_of_mem h.increasing he, h.some_fault _ he⟩
  · rintro ⟨rfl, hne⟩
    obtain ⟨⟨m, f⟩, he, rfl⟩ := List.mem_map.1 (h.mem_names_iff.2 hne)
    rwa [faultsOf_of_mem h.increasing he]

theorem Increasing.eq_of_mem_iff {l l' : List (String × Faults)} (h : Increasing l)
    (h' : Increasing l') (hm : ∀ e, e ∈ l ↔ e ∈ l') : l = l' := by
  have hirrefl : Std.Irrefl fun e e' : String × Faults => compare e.1 e'.1 = .lt := by
    apply Std.Irrefl.mk
    intro e hlt
    have heq : compare e.1 e.1 = .eq := Std.ReflCmp.compare_self
    rw [heq] at hlt
    cases hlt
  have hantisymm : Std.Antisymm fun e e' : String × Faults => compare e.1 e'.1 = .lt := by
    apply Std.Antisymm.mk
    intro e e' hlt hlt'
    rw [Std.OrientedCmp.gt_of_lt hlt'] at hlt
    cases hlt
  exact List.Pairwise.eq_of_mem_iff h h' hm

theorem WellFormed.eq_of_meets (h : r.WellFormed) (h' : r'.WellFormed)
    (hm : ∀ n g, (r.faultsOf n).meets g = true ↔ (r'.faultsOf n).meets g = true) : r = r' := by
  have hfaults : r.faults = r'.faults := by
    apply h.increasing.eq_of_mem_iff h'.increasing
    rintro ⟨n, f⟩
    rw [h.mem_faults_iff, h'.mem_faults_iff, Faults.eq_of_meets (hm n)]
  obtain ⟨l⟩ := r
  obtain ⟨l'⟩ := r'
  rw [mk.injEq]
  exact hfaults

theorem WellFormed.below (h : r.WellFormed) (a : String) : (r.below a).WellFormed where
  increasing := h.increasing.filter _
  some_fault e he := h.some_fault e (List.mem_of_mem_filter he)

theorem WellFormed.meets_below (h : r.WellFormed) : ((r.below a).faultsOf n).meets g = true ↔
    (Name.lead a).toList <+: n.toList ∧ (r.faultsOf n).meets g = true := by
  rw [(h.below a).meets_faultsOf, h.meets_faultsOf]
  simp only [Report.below, List.mem_filter, decide_eq_true_eq]
  constructor
  · rintro ⟨f, ⟨he, hlead⟩, hg⟩
    exact ⟨hlead, f, he, hg⟩
  · rintro ⟨hlead, f, he, hg⟩
    exact ⟨f, ⟨he, hlead⟩, hg⟩

theorem compare_append_left (s : String) (h : compare x y = .lt) :
    compare (s ++ x) (s ++ y) = .lt := by
  rw [compare_lt_iff_lt, String.lt_iff_toList_lt] at h ⊢
  rw [String.toList_append, String.toList_append]
  exact List.append_left_lt h

theorem WellFormed.under (h : r.WellFormed) (a : String) : (r.under a).WellFormed where
  increasing := by
    apply List.pairwise_map.2 (h.increasing.imp _)
    intro e e' hlt
    exact compare_append_left (Name.lead a) hlt
  some_fault e he := by
    obtain ⟨e, hmem, rfl⟩ := List.mem_map.1 he
    exact h.some_fault e hmem

theorem WellFormed.meets_under (h : r.WellFormed) : ((r.under a).faultsOf n).meets g = true ↔
    ∃ m, n = Name.lead a ++ m ∧ (r.faultsOf m).meets g = true := by
  rw [(h.under a).meets_faultsOf]
  simp only [Report.under, List.mem_map, Prod.mk.injEq]
  constructor
  · rintro ⟨f, ⟨e, he, rfl, rfl⟩, hg⟩
    exact ⟨e.1, rfl, h.meets_faultsOf.2 ⟨e.2, he, hg⟩⟩
  · rintro ⟨m, rfl, hg⟩
    obtain ⟨f, he, hg⟩ := h.meets_faultsOf.1 hg
    exact ⟨f, ⟨(m, f), he, rfl, rfl⟩, hg⟩

end Report

end PolicyTree
