import PolicyTree.Proofs.Resolver.Naming
import PolicyTree.Proofs.Resolver.Steps

namespace PolicyTree

def Task.isOpening : Task → Bool
  | locate .. | seek .. | read .. => true
  | _ => false

theorem Entry.isOpening_task (base : Path) (above : String) (e : Entry) :
    (e.task base above).isOpening = false := by
  rw [task]
  split
  · cases e.values.mapM Value.file? <;> rfl
  · rfl

namespace Resolver

variable {r : Resolver} {s t : Progress}

/-- What a step does to the chain: nothing, or it takes a file off, or it puts one on that was not
there, for which room was found before. -/
theorem chain_of_step (h : r.step s = some t) :
    (t.chain = s.chain ∧
        (t.task.isOpening = true → s.task.isOpening = true ∨ s.chain.length < r.limits.maxDepth)) ∨
      (t.chain = s.chain.tail ∧ t.task.isOpening = false) ∨
      ∃ place ∈ r.files.places, place ∉ s.chain ∧ t.chain = place :: s.chain ∧
        s.task.isOpening = true ∧ t.task.isOpening = false := by
  obtain ⟨task, frames, chain, report⟩ := s
  cases task with
  | entries base above done todo =>
    left
    cases todo with
    | nil =>
      cases h
      exact ⟨rfl, nofun⟩
    | cons e todo =>
      cases h
      exact ⟨rfl, fun ho => absurd ho (by simp [e.isOpening_task])⟩
  | elements base full done todo =>
    left
    cases todo with
    | nil =>
      cases h
      exact ⟨rfl, nofun⟩
    | cons v todo =>
      cases v <;> cases h <;> exact ⟨rfl, nofun⟩
  | references base full values loaded todo =>
    left
    cases todo <;> cases h <;> exact ⟨rfl, nofun⟩
  | nested base full text =>
    left
    rw [step] at h
    split at h
    · cases h
      exact ⟨rfl, nofun⟩
    · rename_i hdepth
      cases h
      exact ⟨rfl, fun _ => .inr (Nat.lt_of_not_le hdepth)⟩
  | locate base full text =>
    left
    rw [step] at h
    split at h <;> cases h <;> exact ⟨rfl, fun _ => .inl rfl⟩
  | seek full whole visited reference base =>
    left
    rw [step] at h
    split at h <;> cases h <;> exact ⟨rfl, fun _ => .inl rfl⟩
  | read full located =>
    rw [step] at h
    split at h
    · cases h
      exact .inl ⟨rfl, nofun⟩
    · rename_i o ho
      cases h
      obtain ⟨hplace, hfresh⟩ := openLocated_eq_ok ho
      exact .inr (.inr ⟨o.place, hplace, hfresh, rfl, rfl, rfl⟩)
  | policy p =>
    cases frames with
    | nil => cases h
    | cons f frames =>
      cases f with
      | file =>
        cases h
        exact .inr (.inl ⟨rfl, rfl⟩)
      | element =>
        cases h
        exact .inl ⟨rfl, nofun⟩
      | entry | reference => cases h
  | array values =>
    left
    cases frames with
    | nil => cases h
    | cons f frames =>
      cases f with
      | entry =>
        cases h
        exact ⟨rfl, nofun⟩
      | file | element | reference => cases h
  | loaded result =>
    left
    cases frames with
    | nil => cases result <;> cases h
    | cons f frames =>
      cases f with
      | reference =>
        cases result <;> cases h <;> exact ⟨rfl, nofun⟩
      | file | element | entry => cases result <;> cases h

/-- The chain holds files that are there, none of them twice and not too many, and there is room for
one more while a file is being opened. -/
structure Chained (r : Resolver) (s : Progress) : Prop where
  places : ∀ place ∈ s.chain, place ∈ r.files.places
  nodup : s.chain.Nodup
  bounded : s.chain.length ≤ max r.limits.maxDepth 1
  room : s.task.isOpening = true → s.chain.length < max r.limits.maxDepth 1

theorem Chained.step (h : r.Chained s) (hst : r.step s = some t) : r.Chained t := by
  rcases chain_of_step hst with ⟨hc, hroom⟩ | ⟨hc, hopen⟩ | ⟨place, hplace, hfresh, hc, hs, hopen⟩
  · refine ⟨hc ▸ h.places, hc ▸ h.nodup, hc ▸ h.bounded, ?_⟩
    intro ht
    rw [hc]
    rcases hroom ht with hs | hlt
    · exact h.room hs
    · omega
  · have hlength : s.chain.tail.length ≤ s.chain.length := (List.tail_sublist s.chain).length_le
    refine ⟨?_, ?_, ?_, fun ht => by simp [hopen] at ht⟩
    · rw [hc]
      exact fun place hp => h.places place (List.mem_of_mem_tail hp)
    · rw [hc]
      exact h.nodup.tail
    · rw [hc]
      exact Nat.le_trans hlength h.bounded
  · have hlt := h.room hs
    refine ⟨?_, ?_, ?_, fun ht => by simp [hopen] at ht⟩
    · rw [hc, List.forall_mem_cons]
      exact ⟨hplace, h.places⟩
    · rw [hc, List.nodup_cons]
      exact ⟨hfresh, h.nodup⟩
    · rw [hc, List.length_cons]
      exact hlt

theorem Chained.after (h : r.Chained s) {n : Nat} (hst : r.after n s = some t) : r.Chained t := by
  induction n generalizing s with
  | zero =>
    cases hst
    exact h
  | succ n ih =>
    obtain ⟨next, hnext, hrest⟩ := Option.bind_eq_some_iff.1 hst
    exact ih (h.step hnext) hrest

end Resolver

namespace Progress

def ofTree (base : Path) (p : Policy) : Progress :=
  ⟨.entries base "" [] p.entries, [], [], .empty⟩

def ofFile (base : Path) (text : String) : Progress :=
  ⟨.locate base "" text, [], [], .empty⟩

inductive IsStart : Progress → Prop
  | tree (base : Path) (p : Policy) : IsStart (ofTree base p)
  | file (base : Path) (text : String) : IsStart (ofFile base text)

end Progress

namespace Resolver

variable {r : Resolver} {s t : Progress}

theorem chained_of_isStart (h : s.IsStart) : r.Chained s := by
  cases h with
  | tree => exact ⟨nofun, List.nodup_nil, Nat.zero_le _, nofun⟩
  | file => exact ⟨nofun, List.nodup_nil, Nat.zero_le _, fun _ => Nat.le_max_right _ 1⟩

/-- Loading ends, whatever files refer to one another, with what the functions give. At each step
the files on the chain are there, all different, and no more than may lie within one another. Each
resolution of a policy, each replacement of an array and each load of a reference, on whatever chain
it starts, comes to its end with that chain, whether or not anything fails. -/
theorem loading_ends (r : Resolver) :
    (∀ base p, r.EndsAt (.ofTree base p)
      ⟨.policy (r.loadPolicyFiles p base).1, [], [], (r.loadPolicyFiles p base).2⟩) ∧
    (∀ base text, r.EndsAt (.ofFile base text)
      ⟨.loaded (r.load text base), [], [], reported (r.loadWithReport text base)⟩) ∧
    (∀ s n t, s.IsStart → r.after n s = some t → (∀ place ∈ t.chain, place ∈ r.files.places) ∧
      t.chain.Nodup ∧ t.chain.length ≤ max r.limits.maxDepth 1) ∧
    ∀ chain base full,
      (∀ p : Policy, r.Returns chain (.entries base full [] p.entries)
        (.policy (p.resolve (r.loadNested chain base) full).1)
        (p.resolve (r.loadNested chain base) full).2) ∧
      (∀ values references, values.mapM Value.file? = some references →
        r.Returns chain (.references base full values [] references)
          (.array (Loader.replace (r.loadNested chain base) full values).1)
          (Loader.replace (r.loadNested chain base) full values).2) ∧
      ∀ text, r.Returns chain (.nested base full text)
        (.loaded (Prod.fst <$> r.loadNested chain base full text))
        (reported (r.loadNested chain base full text)) := by
  refine ⟨?_, ?_, ?_, ?_⟩
  · intro base p
    have hruns := (r.answers [] base).policy "" p [] .empty
    rw [LoadReport.empty_append] at hruns
    exact hruns.endsAt (step_answer rfl)
  · intro base text
    have hruns := runs_loadLocated (fun place _ _ base => r.answers [place] base) [] .empty base
      "" text
    rw [LoadReport.empty_append, ← loadWithReport_eq_loadLocated] at hruns
    exact hruns.endsAt (step_answer rfl)
  · intro s n t hs hst
    have hchained := (chained_of_isStart hs).after hst
    exact ⟨hchained.places, hchained.nodup, hchained.bounded⟩
  · intro chain base full
    have hanswers := r.answers chain base
    refine ⟨hanswers.policy full, ?_, hanswers full⟩
    intro values references hvalues frames report
    rw [← Loader.replaceRest_self hvalues]
    exact hanswers.references values references [] report

theorem loading_ends_mutual :
    (∃ t, mutualFiles.after 10 (.ofFile ⟨""⟩ "zones.json") = some t ∧
      t.chain = [["zone.json"], ["zones.json"]] ∧ t.chain.Nodup ∧ t.chain.length ≤ 32) ∧
    ∃ values, mutualFiles.Returns [["zone.json"], ["zones.json"]]
      (.references ⟨""⟩ "zone.zones" [.file "zones.json"] [] ["zones.json"]) (.array values)
      ⟨0, [⟨"zone.zones", "zones.json", .referenceCycle ⟨"zones.json"⟩⟩]⟩ := by
  obtain ⟨-, -, hchain, hcalls⟩ := loading_ends mutualFiles
  constructor
  · have h : (mutualFiles.after 10 (.ofFile ⟨""⟩ "zones.json")).map Progress.chain =
        some [["zone.json"], ["zones.json"]] := by
      decide +kernel
    obtain ⟨t, ht, htchain⟩ := Option.map_eq_some_iff.1 h
    obtain ⟨-, hnodup, hlength⟩ := hchain _ 10 t (.file ⟨""⟩ "zones.json") ht
    exact ⟨t, ht, htchain, hnodup, hlength⟩
  · have hreport : (Loader.replace (mutualFiles.loadNested [["zone.json"], ["zones.json"]] ⟨""⟩)
        "zone.zones" [.file "zones.json"]).2 =
          ⟨0, [⟨"zone.zones", "zones.json", .referenceCycle ⟨"zones.json"⟩⟩]⟩ := by
      decide +kernel
    obtain ⟨-, harray, -⟩ := hcalls [["zone.json"], ["zones.json"]] ⟨""⟩ "zone.zones"
    exact ⟨_, hreport ▸ harray [.file "zones.json"] ["zones.json"] rfl⟩

end Resolver

end PolicyTree
