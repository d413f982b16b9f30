import Mathlib
import PolicyTree.Proofs.Resolver.Chains

namespace PolicyTree

theorem LoadReport.loaded_concat (reports : List LoadReport) :
    (concat reports).loaded = (reports.map loaded).sum := by
  induction reports with
  | nil => rfl
  | cons a reports ih => rw [concat_cons, loaded_append, ih, List.map_cons, List.sum_cons]

namespace Resolver

variable {r : Resolver} {base : Path}

theorem loadPolicyFiles_alone (r : Resolver) (base : Path) (e : Entry) :
    r.loadPolicyFiles ⟨[e]⟩ base =
      (⟨[(e.resolve (r.loadNested [] base) "").1]⟩, (e.resolve (r.loadNested [] base) "").2) := by
  rw [loadPolicyFiles, Policy.resolve_eq]
  simp only [List.map_cons, List.map_nil, LoadReport.concat_cons, LoadReport.concat_nil,
    LoadReport.append_empty]

/-- An entry in the midst of others: the chain is empty before it and after it, and it adds to the
entries and to the report what it comes to on its own. -/
theorem runs_amid (r : Resolver) (base : Path) (before after : List Entry) (e : Entry) :
    r.Runs [] (.ofTree base ⟨before ++ e :: after⟩)
        ⟨.entries base "" (r.loadPolicyFiles ⟨before⟩ base).1.entries (e :: after), [], [],
          (r.loadPolicyFiles ⟨before⟩ base).2⟩ ∧
      r.Runs []
        ⟨.entries base "" (r.loadPolicyFiles ⟨before⟩ base).1.entries (e :: after), [], [],
          (r.loadPolicyFiles ⟨before⟩ base).2⟩
        ⟨.entries base "" ((r.loadPolicyFiles ⟨before⟩ base).1.entries ++
            (r.loadPolicyFiles ⟨[e]⟩ base).1.entries) after, [], [],
          (r.loadPolicyFiles ⟨before⟩ base).2 ++ (r.loadPolicyFiles ⟨[e]⟩ base).2⟩ := by
  have hanswers := r.answers [] base
  constructor
  · have hruns := hanswers.entries "" before (e :: after) [] [] .empty
    rw [LoadReport.empty_append] at hruns
    exact hruns
  · exact hanswers.entries "" [e] after _ [] _

/-- The entries of a tree do not influence one another. Together they come to what each of them
comes to in a tree of its own, with as many references loaded and the same failures in the same
order. In the midst of others, too, an entry finds the chain empty and leaves it so, and adds to the
report what it adds to an empty one. -/
theorem loadPolicyFiles_siblings (r : Resolver) (base : Path) (p : Policy) :
    (r.loadPolicyFiles p base).1.entries =
        p.entries.flatMap (fun e => (r.loadPolicyFiles ⟨[e]⟩ base).1.entries) ∧
      (r.loadPolicyFiles p base).2.loaded =
        (p.entries.map fun e => (r.loadPolicyFiles ⟨[e]⟩ base).2.loaded).sum ∧
      (r.loadPolicyFiles p base).2.failures =
        p.entries.flatMap (fun e => (r.loadPolicyFiles ⟨[e]⟩ base).2.failures) ∧
      ∀ before e after, p.entries = before ++ e :: after →
        ∃ e' report, r.loadPolicyFiles ⟨[e]⟩ base = (⟨[e']⟩, report) ∧ e'.name = e.name ∧
          (r.loadPolicyFiles p base).1.entries[before.length]? = some e' ∧
          ∀ done others, r.loadPolicyFiles ⟨before⟩ base = (⟨done⟩, others) →
            ∃ m n, r.after m (.ofTree base p) =
                some ⟨.entries base "" done (e :: after), [], [], others⟩ ∧
              r.after n ⟨.entries base "" done (e :: after), [], [], others⟩ =
                some ⟨.entries base "" (done ++ [e']) after, [], [], others ++ report⟩ := by
  have hall : r.loadPolicyFiles p base = _ := Policy.resolve_eq (r.loadNested [] base) "" p
  refine ⟨?_, ?_, ?_, ?_⟩
  · simp only [hall, loadPolicyFiles_alone]
    exact (List.flatMap_pure_eq_map _ _).symm
  · simp only [hall, loadPolicyFiles_alone, LoadReport.loaded_concat, List.map_map]
    rfl
  · simp only [hall, loadPolicyFiles_alone, LoadReport.failures_concat, List.flatMap_map]
  · intro before e after hsplit
    refine ⟨_, _, r.loadPolicyFiles_alone base e, Entry.name_resolve .., ?_, ?_⟩
    · rw [hall, hsplit, List.map_append, List.getElem?_append_right (by simp)]
      simp
    · intro done others hbefore
      obtain ⟨h, h'⟩ := r.runs_amid base before after e
      rw [loadPolicyFiles_alone, hbefore] at h'
      rw [hbefore] at h
      obtain ⟨es⟩ := p
      cases hsplit
      obtain ⟨m, hm⟩ := h.exists_after
      obtain ⟨n, hn⟩ := h'.exists_after
      exact ⟨m, n, hm, hn⟩

def unevenTree : Policy :=
  ⟨[⟨"gone", [.file "gone.json"]⟩, ⟨"plan", [.file "zones.json"]⟩]⟩

theorem loadPolicyFiles_siblings_mutual :
    ∃ gone plan : Entry, ∃ m n,
      mutualFiles.after m (.ofTree ⟨""⟩ unevenTree) =
        some ⟨.entries ⟨""⟩ "" [gone] [⟨"plan", [.file "zones.json"]⟩], [], [],
          ⟨0, [⟨"gone", "gone.json", .unreadable ⟨"gone.json"⟩ .missing⟩]⟩⟩ ∧
      mutualFiles.after n
          ⟨.entries ⟨""⟩ "" [gone] [⟨"plan", [.file "zones.json"]⟩], [], [],
            ⟨0, [⟨"gone", "gone.json", .unreadable ⟨"gone.json"⟩ .missing⟩]⟩⟩ =
        some ⟨.entries ⟨""⟩ "" [gone, plan] [], [], [],
          ⟨2, [⟨"gone", "gone.json", .unreadable ⟨"gone.json"⟩ .missing⟩,
            ⟨"plan.zone.zones", "zones.json", .referenceCycle ⟨"zones.json"⟩⟩]⟩⟩ := by
  have hgone := mutualFiles.loadPolicyFiles_alone ⟨""⟩ ⟨"gone", [.file "gone.json"]⟩
  have hothers : (mutualFiles.loadPolicyFiles ⟨[⟨"gone", [.file "gone.json"]⟩]⟩ ⟨""⟩).2 =
      ⟨0, [⟨"gone", "gone.json", .unreadable ⟨"gone.json"⟩ .missing⟩]⟩ := by
    decide +kernel
  have hadded : (mutualFiles.loadPolicyFiles ⟨[⟨"plan", [.file "zones.json"]⟩]⟩ ⟨""⟩).2 =
      ⟨2, [⟨"plan.zone.zones", "zones.json", .referenceCycle ⟨"zones.json"⟩⟩]⟩ := by
    decide +kernel
  obtain ⟨-, -, -, hsplit⟩ := loadPolicyFiles_siblings mutualFiles ⟨""⟩ unevenTree
  obtain ⟨plan, report, halone, -, -, hsteps⟩ :=
    hsplit [⟨"gone", [.file "gone.json"]⟩] ⟨"plan", [.file "zones.json"]⟩ [] rfl
  obtain ⟨m, n, hm, hn⟩ := hsteps _ _ hgone
  rw [hgone] at hothers
  rw [halone] at hadded
  obtain rfl : report = _ := hadded
  rw [hothers] at hm hn
  exact ⟨_, plan, m, n, hm, hn⟩

end Resolver

end PolicyTree
