import PolicyTree.Proofs.Outcome
import PolicyTree.Report.Basic

namespace PolicyTree

namespace Faults

variable {f g h : Faults}

theorem ext (hb : f.bits = g.bits) : f = g := by
  cases f
  cases g
  cases hb
  rfl

theorem isEmpty_iff : f.isEmpty = true ↔ f = .empty := by
  constructor
  · intro he
    exact ext (beq_iff_eq.1 he)
  · rintro rfl
    rfl

@[simp] theorem or_empty : f ||| .empty = f :=
  ext UInt32.or_zero

@[simp] theorem empty_or : .empty ||| f = f :=
  ext UInt32.zero_or

theorem or_comm (f g : Faults) : f ||| g = g ||| f :=
  ext (UInt32.or_comm ..)

theorem or_self (f : Faults) : f ||| f = f :=
  ext UInt32.or_self

theorem or_assoc : f ||| g ||| h = f ||| (g ||| h) :=
  ext (UInt32.or_assoc ..)

theorem or_eq_empty_iff : f ||| g = .empty ↔ f = .empty ∧ g = .empty := by
  rw [← isEmpty_iff, ← isEmpty_iff, ← isEmpty_iff]
  change ((f.bits ||| g.bits == 0) = true) ↔ _
  simp [isEmpty]

theorem meets_or : (f ||| g).meets h = true ↔ f.meets h = true ∨ g.meets h = true := by
  have hand : (f.bits ||| g.bits) &&& h.bits = f.bits &&& h.bits ||| g.bits &&& h.bits := by
    rw [← UInt32.toBitVec_inj]
    simp only [UInt32.toBitVec_and, UInt32.toBitVec_or]
    exact BitVec.and_or_distrib_right ..
  change (((f.bits ||| g.bits) &&& h.bits != 0) = true) ↔ _
  rw [hand]
  simp only [meets, bne_iff_ne, ne_eq, UInt32.or_eq_zero_iff]
  exact Decidable.not_and_iff_not_or_not

@[simp] theorem not_meets_empty : Faults.empty.meets g = false := by
  simp [meets, empty]

theorem not_meets_or : (f ||| g).meets h = false ↔ f.meets h = false ∧ g.meets h = false := by
  rw [Bool.eq_false_iff, Bool.eq_false_iff, Bool.eq_false_iff, ne_eq, meets_or, not_or]

theorem not_meets_ite {c : Prop} [Decidable c] (hf : f.meets h = false) (hg : g.meets h = false) :
    (if c then f else g).meets h = false := by
  split <;> assumption

theorem meets_self (hf : f ≠ .empty) : f.meets f = true := by
  simp only [meets, UInt32.and_self, bne_iff_ne, ne_eq]
  intro hb
  exact hf (ext hb)

/-- A set of faults is known by the sets that it meets. -/
theorem eq_of_meets (hm : ∀ h, f.meets h = true ↔ g.meets h = true) : f = g := by
  -- neither set has a bit outside of the other
  have sub : ∀ {f g : Faults}, (∀ h, f.meets h = true → g.meets h = true) →
      f.bits &&& ~~~g.bits = 0 := by
    intro f g hfg
    by_cases hzero : f.bits &&& ~~~g.bits = 0
    · exact hzero
    · have hg := hfg ⟨~~~g.bits⟩ (by simpa [meets] using hzero)
      simp [meets] at hg
  have hfg := sub fun h => (hm h).1
  have hgf := sub fun h => (hm h).2
  apply ext
  rw [← UInt32.toBitVec_inj] at hfg hgf ⊢
  apply BitVec.eq_of_getLsbD_eq
  intro i hi
  have hfi := congrArg (·.getLsbD i) hfg
  have hgi := congrArg (·.getLsbD i) hgf
  simp [hi] at hfi hgi
  cases hf : f.bits.toBitVec.getLsbD i <;> cases hg : g.bits.toBitVec.getLsbD i <;> simp_all

theorem foldl_or (fs : List Faults) (f : Faults) :
    fs.foldl (· ||| ·) f = f ||| .union fs := by
  induction fs generalizing f with
  | nil => exact or_empty.symm
  | cons g fs ih =>
    rw [union, List.foldl_cons, List.foldl_cons, empty_or, ih, ih, or_assoc]

@[simp] theorem union_nil : union [] = .empty := rfl

@[simp] theorem union_cons (fs : List Faults) : union (f :: fs) = f ||| union fs := by
  rw [union, List.foldl_cons, empty_or, foldl_or]

theorem meets_union {fs : List Faults} :
    (union fs).meets g = true ↔ ∃ f ∈ fs, f.meets g = true := by
  induction fs with
  | nil => simp
  | cons f fs ih =>
    rw [union_cons, meets_or, ih]
    simp

theorem union_eq_empty_iff {fs : List Faults} :
    union fs = .empty ↔ ∀ f ∈ fs, f = .empty := by
  induction fs with
  | nil => simp
  | cons f fs ih =>
    rw [union_cons, or_eq_empty_iff, ih]
    simp

end Faults

namespace Report

variable {r other : Report} {name n : String} {f : Faults} {change : Faults → Faults}
  {l : List (String × Faults)}

theorem ne_of_compare {m : String} (h : compare n m ≠ .eq) : n ≠ m := by
  rintro rfl
  exact h Std.ReflCmp.compare_self

def Increasing (l : List (String × Faults)) : Prop :=
  l.Pairwise fun a b => compare a.1 b.1 = .lt

structure WellFormed (r : Report) : Prop where
  increasing : Increasing r.faults
  some_fault : ∀ e ∈ r.faults, e.2 ≠ .empty

theorem WellFormed.empty : Report.empty.WellFormed where
  increasing := .nil
  some_fault := by simp [Report.empty]

theorem faultsOf_empty : Report.empty.faultsOf n = .empty := rfl

theorem faultsOf_cons {m : String} :
    faultsOf ⟨(m, f) :: l⟩ n = if n = m then f else faultsOf ⟨l⟩ n := by
  unfold faultsOf
  by_cases hn : n = m
  · simp [hn]
  · simp [hn, Ne.symm hn]

theorem faultsOf_eq_empty (h : ∀ e ∈ l, e.1 ≠ n) : faultsOf ⟨l⟩ n = .empty := by
  have hnone : (l.find? fun e => e.1 == n) = none := by simpa using h
  simp [faultsOf, hnone]

theorem faultsOf_of_mem (h : Increasing l) {e : String × Faults} (he : e ∈ l) :
    faultsOf ⟨l⟩ e.1 = e.2 := by
  induction l with
  | nil => cases he
  | cons a l ih =>
    obtain ⟨hlt, hl⟩ := List.pairwise_cons.1 h
    rw [faultsOf_cons]
    rcases List.mem_cons.1 he with rfl | he
    · rw [if_pos rfl]
    · have hne : a.1 ≠ e.1 := by
        apply ne_of_compare
        simp [hlt e he]
      rw [if_neg hne.symm]
      exact ih hl he

theorem mem_alter {e : String × Faults} (he : e ∈ alter name change l) :
    (e.1 = name ∧ ∃ f, e.2 = change f) ∨ e ∈ l := by
  induction l with
  | nil =>
    obtain rfl := List.mem_singleton.1 he
    exact .inl ⟨rfl, .empty, rfl⟩
  | cons a l ih =>
    obtain ⟨m, g⟩ := a
    rw [alter] at he
    split at he
    · rcases List.mem_cons.1 he with rfl | he
      · exact .inl ⟨rfl, .empty, rfl⟩
      · exact .inr he
    · rename_i heq
      obtain rfl := Std.LawfulEqCmp.eq_of_compare heq
      rcases List.mem_cons.1 he with rfl | he
      · exact .inl ⟨rfl, g, rfl⟩
      · exact .inr (List.mem_cons_of_mem _ he)
    · rcases List.mem_cons.1 he with rfl | he
      · exact .inr (List.mem_cons_self ..)
      · rcases ih he with hnew | hold
        · exact .inl hnew
        · exact .inr (List.mem_cons_of_mem _ hold)

theorem increasing_alter (h : Increasing l) : Increasing (alter name change l) := by
  induction l with
  | nil => exact List.pairwise_singleton ..
  | cons a l ih =>
    obtain ⟨m, g⟩ := a
    obtain ⟨hlt, hl⟩ := List.pairwise_cons.1 h
    rw [alter]
    split
    · rename_i hnm
      refine List.pairwise_cons.2 ⟨?_, h⟩
      intro e he
      rcases List.mem_cons.1 he with rfl | he
      · exact hnm
      · exact Std.TransCmp.lt_trans hnm (hlt e he)
    · exact List.pairwise_cons.2 ⟨hlt, hl⟩
    · rename_i hnm
      refine List.pairwise_cons.2 ⟨?_, ih hl⟩
      intro e he
      rcases mem_alter he with ⟨rfl, -⟩ | he
      · exact Std.OrientedCmp.lt_of_gt hnm
      · exact hlt e he

theorem faultsOf_alter (h : Increasing l) :
    faultsOf ⟨alter name change l⟩ n =
      if n = name then change (faultsOf ⟨l⟩ name) else faultsOf ⟨l⟩ n := by
  induction l with
  | nil => exact faultsOf_cons
  | cons a l ih =>
    obtain ⟨m, g⟩ := a
    obtain ⟨hlt, hl⟩ := List.pairwise_cons.1 h
    rw [alter]
    split
    · rename_i hnm
      rw [faultsOf_cons]
      -- the name comes before all others, so that no faults of it are known
      have hnew : faultsOf ⟨(m, g) :: l⟩ name = .empty := by
        apply faultsOf_eq_empty
        intro e he
        apply Ne.symm
        apply ne_of_compare
        rcases List.mem_cons.1 he with rfl | he
        · simp [hnm]
        · simp [Std.TransCmp.lt_trans hnm (hlt e he)]
      rw [hnew]
    · rename_i hnm
      obtain rfl := Std.LawfulEqCmp.eq_of_compare hnm
      simp only [faultsOf_cons]
      split <;> simp
    · rename_i hnm
      have hne : name ≠ m := ne_of_compare (by simp [hnm])
      simp only [faultsOf_cons, ih hl, if_neg hne]
      by_cases hn : n = m
      · subst hn
        simp [Ne.symm hne]
      · simp [hn]

theorem increasing_record (h : Increasing r.faults) (name : String) (f : Faults) :
    Increasing (r.record name f).faults := by
  rw [Report.record]
  split
  · exact h
  · exact increasing_alter h

theorem increasing_merge (h : Increasing r.faults) (other : Report) :
    Increasing (r.merge other).faults := by
  obtain ⟨l⟩ := other
  unfold Report.merge
  induction l generalizing r with
  | nil => exact h
  | cons e l ih => exact ih (increasing_record h e.1 e.2)

theorem WellFormed.record (h : r.WellFormed) (name : String) (f : Faults) :
    (r.record name f).WellFormed := by
  refine ⟨increasing_record h.increasing name f, ?_⟩
  rw [Report.record]
  split
  · exact h.some_fault
  · rename_i hf
    intro e he hempty
    rcases mem_alter he with ⟨-, g, hg⟩ | he
    · rw [hg, Faults.or_eq_empty_iff] at hempty
      exact hf (Faults.isEmpty_iff.2 hempty.2)
    · exact h.some_fault e he hempty

theorem faultsOf_record (h : Increasing r.faults) :
    (r.record name f).faultsOf n = if n = name then r.faultsOf n ||| f else r.faultsOf n := by
  rw [Report.record]
  split
  · rename_i hf
    obtain rfl := Faults.isEmpty_iff.1 hf
    simp
  · rw [faultsOf_alter h]
    split
    · rename_i hn
      rw [hn]
    · rfl

theorem WellFormed.merge (h : r.WellFormed) (other : Report) : (r.merge other).WellFormed := by
  obtain ⟨l⟩ := other
  unfold Report.merge
  induction l generalizing r with
  | nil => exact h
  | cons e l ih => exact ih (h.record e.1 e.2)

theorem faultsOf_merge (h : Increasing r.faults) (ho : Increasing other.faults) :
    (r.merge other).faultsOf n = r.faultsOf n ||| other.faultsOf n := by
  obtain ⟨l⟩ := other
  unfold Report.merge
  induction l generalizing r with
  | nil => exact Faults.or_empty.symm
  | cons e l ih =>
    obtain ⟨m, g⟩ := e
    obtain ⟨hlt, hl⟩ := List.pairwise_cons.1 ho
    rw [List.foldl_cons, ih (increasing_record h m g) hl, faultsOf_record h, faultsOf_cons]
    by_cases hn : n = m
    · subst hn
      have hnone : faultsOf ⟨l⟩ n = .empty := by
        apply faultsOf_eq_empty
        intro e he
        apply Ne.symm
        apply ne_of_compare
        simp [hlt e he]
      simp [hnone]
    · simp [hn]

theorem WellFormed.mem_names_iff (h : r.WellFormed) :
    n ∈ r.names ↔ r.faultsOf n ≠ .empty := by
  constructor
  · intro hn
    obtain ⟨e, he, rfl⟩ := List.mem_map.1 hn
    rw [faultsOf_of_mem h.increasing he]
    exact h.some_fault e he
  · intro hf
    by_cases hn : n ∈ r.names
    · exact hn
    · refine absurd (faultsOf_eq_empty ?_) hf
      intro e he heq
      exact hn (heq ▸ List.mem_map_of_mem he)

theorem WellFormed.isOk_iff (h : r.WellFormed) :
    r.isOk = true ↔ ∀ n, r.faultsOf n = .empty := by
  constructor
  · intro hok n
    apply faultsOf_eq_empty
    intro e he
    rw [List.isEmpty_iff.1 hok] at he
    cases he
  · intro hall
    apply List.isEmpty_iff.2
    apply List.eq_nil_iff_forall_not_mem.2
    intro e he
    have hf := hall e.1
    rw [faultsOf_of_mem h.increasing he] at hf
    exact h.some_fault e he hf

/-- A report without certain faults, whatever the name. -/
structure Lacks (r : Report) (g : Faults) : Prop extends r.WellFormed where
  not_meets : ∀ n, (r.faultsOf n).meets g = false

theorem Lacks.empty {g : Faults} : Report.empty.Lacks g where
  toWellFormed := .empty
  not_meets _ := Faults.not_meets_empty

theorem Lacks.record {g : Faults} (h : r.Lacks g) (hf : f.meets g = false) :
    (r.record name f).Lacks g where
  toWellFormed := h.toWellFormed.record name f
  not_meets n := by
    rw [faultsOf_record h.increasing]
    split
    · rw [Bool.eq_false_iff, ne_eq, Faults.meets_or, h.not_meets, hf]
      simp
    · exact h.not_meets n

theorem Lacks.merge {g : Faults} (h : r.Lacks g) (ho : other.Lacks g) :
    (r.merge other).Lacks g where
  toWellFormed := h.toWellFormed.merge other
  not_meets n := by
    rw [faultsOf_merge h.increasing ho.increasing, Bool.eq_false_iff, ne_eq, Faults.meets_or,
      h.not_meets, ho.not_meets]
    simp

/-- What is known in `r'` is what is known in `r` and what is `new`. -/
structure Adds (r r' : Report) (new : String → Faults → Prop) : Prop where
  wellFormed : r'.WellFormed
  meets_iff : ∀ n g, (r'.faultsOf n).meets g = true ↔ (r.faultsOf n).meets g = true ∨ new n g

variable {r' r'' : Report} {new new' : String → Faults → Prop}

theorem Adds.meets_faultsOf {g : Faults} (h : Report.empty.Adds r new) :
    (r.faultsOf n).meets g = true ↔ new n g := by
  rw [h.meets_iff, faultsOf_empty, Faults.not_meets_empty]
  exact or_iff_right Bool.false_ne_true

theorem Adds.nothing (h : r.WellFormed) : r.Adds r fun _ _ => False where
  wellFormed := h
  meets_iff _ _ := (or_iff_left id).symm

theorem Adds.congr (h : r.Adds r' new) (hn : ∀ n g, new n g ↔ new' n g) : r.Adds r' new' where
  wellFormed := h.wellFormed
  meets_iff n g := by rw [h.meets_iff, hn]

theorem Adds.trans (h : r.Adds r' new) (h' : r'.Adds r'' new') :
    r.Adds r'' fun n g => new n g ∨ new' n g where
  wellFormed := h'.wellFormed
  meets_iff n g := by rw [h'.meets_iff, h.meets_iff, or_assoc]

theorem WellFormed.adds_record (h : r.WellFormed) (name : String) (f : Faults) :
    r.Adds (r.record name f) fun n g => n = name ∧ f.meets g = true where
  wellFormed := h.record name f
  meets_iff n g := by
    rw [faultsOf_record h.increasing]
    by_cases hn : n = name
    · simp [hn, Faults.meets_or]
    · simp [hn]

theorem WellFormed.adds_merge (h : r.WellFormed) (ho : other.WellFormed) :
    r.Adds (r.merge other) fun n g => (other.faultsOf n).meets g = true where
  wellFormed := h.merge other
  meets_iff n g := by rw [faultsOf_merge h.increasing ho.increasing, Faults.meets_or]

theorem adds_foldl {α : Type} {as : List α} {step : Report → α → Report}
    {new : α → String → Faults → Prop}
    (hstep : ∀ a ∈ as, ∀ r : Report, r.WellFormed → r.Adds (step r a) (new a)) (h : r.WellFormed) :
    r.Adds (as.foldl step r) fun n g => ∃ a ∈ as, new a n g := by
  induction as generalizing r with
  | nil =>
    apply (Adds.nothing h).congr
    simp
  | cons a as ih =>
    rw [List.forall_mem_cons] at hstep
    have hone := hstep.1 r h
    apply (hone.trans (ih hstep.2 hone.wellFormed)).congr
    simp

theorem exists_foldlM_adds {α ε : Type} {as : List α} {step : Report → α → Except ε Report}
    {new : α → String → Faults → Prop}
    (hstep : ∀ a ∈ as, ∀ r, r.WellFormed → ∃ r', step r a = .ok r' ∧ r.Adds r' (new a))
    (h : r.WellFormed) :
    ∃ r', as.foldlM step r = .ok r' ∧ r.Adds r' fun n g => ∃ a ∈ as, new a n g := by
  induction as generalizing r with
  | nil =>
    refine ⟨r, rfl, (Adds.nothing h).congr ?_⟩
    simp
  | cons a as ih =>
    obtain ⟨r₁, hone, hadds⟩ := hstep a (List.mem_cons_self ..) r h
    obtain ⟨r₂, hrest, hadds'⟩ :=
      ih (fun b hb => hstep b (List.mem_cons_of_mem _ hb)) hadds.wellFormed
    refine ⟨r₂, ?_, (hadds.trans hadds').congr ?_⟩
    · rw [List.foldlM_cons, bind_eq_ok_iff]
      exact ⟨r₁, hone, hrest⟩
    · simp

end Report

end PolicyTree
