import PolicyTree.Proofs.Resolver.Pending
import PolicyTree.Proofs.Resolver.Tally

namespace PolicyTree

variable {r : Resolver} {chain : List Place} {base : Path} {load : Loader}
  {p : Policy} {above name : String} {values : List Value} {t : Tally}

/-- A report is true to a tally and to the arrays of references that are left: it counts all that
was replaced, and its failures are those of the arrays or of what was loaded in vain for them. If
each array has one reference only, nothing was loaded in vain, and the failures are those of the
arrays one by one. -/
structure LoadReport.Accounts (report : LoadReport) (t : Tally)
    (arrays : List (String × List String)) : Prop where
  loaded_eq : report.loaded = t.all
  below : ∀ f ∈ report.failures, ∃ a ∈ arrays, ∃ path : List String,
    f.name = path.foldl Name.join a.1
  exact : (∀ a ∈ arrays, a.2.length = 1) →
    t.wasted = 0 ∧ report.failures.map (fun f => (f.name, [f.reference])) = arrays

namespace LoadReport

variable {a b : LoadReport} {t u : Tally} {arrays others : List (String × List String)}

theorem Accounts.empty : LoadReport.empty.Accounts 0 [] where
  loaded_eq := rfl
  below := by
    intro f hf
    cases hf
  exact := fun _ => ⟨rfl, rfl⟩

theorem Accounts.append (ha : a.Accounts t arrays) (hb : b.Accounts u others) :
    (a ++ b).Accounts (t + u) (arrays ++ others) where
  loaded_eq := by rw [loaded_append, ha.loaded_eq, hb.loaded_eq, Tally.all_add]
  below := by
    intro f hf
    rcases List.mem_append.1 hf with hf | hf
    · obtain ⟨array, harray, hname⟩ := ha.below f hf
      exact ⟨array, List.mem_append_left _ harray, hname⟩
    · obtain ⟨array, harray, hname⟩ := hb.below f hf
      exact ⟨array, List.mem_append_right _ harray, hname⟩
  exact := by
    intro hone
    rw [List.forall_mem_append] at hone
    obtain ⟨hta, hfa⟩ := ha.exact hone.1
    obtain ⟨htb, hfb⟩ := hb.exact hone.2
    rw [failures_append, List.map_append, hfa, hfb, Tally.wasted_add, hta, htb]
    exact ⟨rfl, rfl⟩

theorem Accounts.failures_eq (ha : a.Accounts t arrays) (hb : b.Accounts u arrays)
    (hone : ∀ array ∈ arrays, array.2.length = 1) :
    b.failures.map (fun f => (f.name, f.reference)) =
      a.failures.map (fun f => (f.name, f.reference)) := by
  have hinj : Function.Injective fun f : String × String => (f.1, [f.2]) := by
    rintro ⟨name, text⟩ ⟨name', text'⟩ heq
    simpa using heq
  apply List.map_injective_iff.2 hinj
  rw [List.map_map, List.map_map]
  exact (hb.exact hone).2.trans (ha.exact hone).2.symm

theorem accounts_concat {α : Type} {parts : List α} {report : α → LoadReport} {tally : α → Tally}
    {arrays : α → List (String × List String)}
    (h : ∀ x ∈ parts, (report x).Accounts (tally x) (arrays x)) :
    (concat (parts.map report)).Accounts (parts.map tally).sum (parts.flatMap arrays) := by
  induction parts with
  | nil => exact .empty
  | cons x parts ih =>
    rw [List.forall_mem_cons] at h
    exact h.1.append (ih h.2)

theorem Accounts.count (h : a.Accounts t arrays) (n : Nat) :
    (a ++ ⟨n, []⟩).Accounts (t + ⟨n, 0⟩) arrays := by
  have hcount : LoadReport.Accounts ⟨n, []⟩ ⟨n, 0⟩ [] :=
    ⟨rfl, fun f hf => (List.not_mem_nil hf).elim, fun _ => ⟨rfl, rfl⟩⟩
  have happend := h.append hcount
  rwa [List.append_nil] at happend

/-- The report of an array that is kept: what was loaded for it is dropped, and the failures in
that are below the name of the array. -/
theorem Accounts.keep {full reference : String} {references : List String} {e : Error}
    (h : a.Accounts t arrays)
    (hbelow : ∀ array ∈ arrays, ∃ path : List String, array.1 = path.foldl Name.join full)
    (hone : references.length = 1 → a = .empty ∧ references = [reference]) :
    (a ++ ⟨0, [⟨full, reference, e⟩]⟩).Accounts t.drop [(full, references)] where
  loaded_eq := by
    rw [loaded_append, h.loaded_eq, Tally.all_drop]
    rfl
  below := by
    intro f hf
    refine ⟨_, List.mem_singleton_self _, ?_⟩
    rcases List.mem_append.1 hf with hf | hf
    · obtain ⟨array, harray, path, hname⟩ := h.below f hf
      obtain ⟨way, hway⟩ := hbelow array harray
      exact ⟨way ++ path, by rw [hname, hway, List.foldl_append]⟩
    · obtain rfl := List.mem_singleton.1 hf
      exact ⟨[], rfl⟩
  exact := by
    intro hlength
    obtain ⟨rfl, rfl⟩ := hone (hlength _ (List.mem_singleton_self _))
    exact ⟨h.loaded_eq.symm, rfl⟩

end LoadReport

theorem Loader.exists_eq_map {references : List String} {loaded : List (Policy × LoadReport)}
    (hall : references.map (load name) = loaded.map .ok) :
    ∃ result : String → Policy × LoadReport, loaded = references.map result ∧
      ∀ text ∈ references, load name text = .ok (result text) := by
  have hl : ∀ text ∈ references,
      load name text = .ok ((load name text).toOption.getD (.empty, .empty)) := by
    intro text ht
    obtain ⟨l, -, he⟩ := Loader.exists_loaded hall ht
    rw [he]
    rfl
  refine ⟨_, ?_, hl⟩
  have hinj : Function.Injective (Except.ok : Policy × LoadReport → Except Error _) :=
    fun _ _ => Except.ok.inj
  apply List.map_injective_iff.2 hinj
  rw [← hall, List.map_map]
  exact List.map_congr_left hl

theorem Loader.Refining.wellFormed {text : String} {l : Policy × LoadReport}
    (h : load.Refining r chain base) (hl : load name text = .ok l) : l.1.WellFormed := by
  obtain ⟨o, ho, hrefines⟩ := h.refines hl
  exact hrefines.wellFormed ho.opens.wellFormed

/-- A loader of which the reports account for what it loads. -/
structure Loader.Tallying (load : Loader) (r : Resolver) (chain : List Place)
    (base : Path) : Prop extends load.Refining r chain base where
  tallied : ∀ {name text l}, load name text = .ok l →
    ∃ t, r.Yields chain base text l.1 t ∧ l.2.Accounts t (l.1.pending name)

theorem Loader.Tallying.accounts_of_outcome (h : load.Tallying r chain base)
    {result : Entry × LoadReport}
    (hout : Entry.Outcome load (Name.join above name) name values result)
    (hnested : ∀ sub, Value.policy sub ∈ values → ∃ t,
      sub.Tallied r chain base (sub.resolve load (Name.join above name)).1 t ∧
        (sub.resolve load (Name.join above name)).2.Accounts t
          ((sub.resolve load (Name.join above name)).1.pending (Name.join above name))) :
    ∃ t, Value.ArrayTallied r chain base values result.1.values t ∧
      result.2.Accounts t (result.1.pending above) := by
  cases hout with
  | @replaced references loaded hne hall =>
    obtain ⟨l, rfl, hl⟩ := Loader.exists_eq_map hall
    choose! tally hyields haccounts using fun text ht => h.tallied (hl text ht)
    have hpolicies : (references.map l).map Prod.fst = references.map fun text => (l text).1 := by
      rw [List.map_map]
      rfl
    have hreports : (references.map l).map Prod.snd = references.map fun text => (l text).2 := by
      rw [List.map_map]
      rfl
    rw [hpolicies, hreports]
    refine ⟨_, .of_yields hyields, ?_⟩
    rw [Entry.pending_policies, List.flatMap_map]
    exact (LoadReport.accounts_concat haccounts).count references.length
  | @kept before after reference e loaded hbefore hfail =>
    obtain ⟨l, rfl, hl⟩ := Loader.exists_eq_map hbefore
    choose! tally hyields haccounts using fun text ht => h.tallied (hl text ht)
    have hreports : (before.map l).map Prod.snd = before.map fun text => (l text).2 := by
      rw [List.map_map]
      rfl
    rw [hreports]
    refine ⟨_, .of_fails hyields fun o => h.complete hfail, ?_⟩
    rw [Entry.pending_files (by simp)]
    apply (LoadReport.accounts_concat haccounts).keep
    · intro array harray
      obtain ⟨text, ht, harray⟩ := List.mem_flatMap.1 harray
      obtain ⟨way, -, -, rfl, -⟩ := (h.wellFormed (hl text ht)).mem_pending_iff.1 harray
      exact ⟨way, rfl⟩
    · intro hlength
      obtain ⟨rfl, rfl⟩ : before = [] ∧ after = [] := by
        simp only [List.length_append, List.length_cons] at hlength
        exact ⟨List.eq_nil_of_length_eq_zero (by omega), List.eq_nil_of_length_eq_zero (by omega)⟩
      exact ⟨rfl, rfl⟩
  | @descended subs =>
    choose! tally htallied haccounts using
      fun sub (hs : sub ∈ subs) => hnested sub (List.mem_map_of_mem hs)
    refine ⟨_, .policies htallied, ?_⟩
    rw [Entry.pending_policies, List.flatMap_map]
    exact LoadReport.accounts_concat haccounts
  | untouched hv =>
    refine ⟨0, .others hv, ?_⟩
    rw [Entry.pending_others hv]
    exact .empty

theorem Policy.WellFormed.accounts_resolve (h : p.WellFormed) (above : String)
    (hload : load.Tallying r chain base) :
    ∃ t, p.Tallied r chain base (p.resolve load above).1 t ∧
      (p.resolve load above).2.Accounts t ((p.resolve load above).1.pending above) := by
  induction h generalizing above with
  | @intro es unique leaf array nested ih =>
    have heach : ∀ e ∈ es, ∃ t,
        Value.ArrayTallied r chain base e.values (e.resolve load above).1.values t ∧
          (e.resolve load above).2.Accounts t ((e.resolve load above).1.pending above) := by
      rintro ⟨name, values⟩ he
      have hout := Entry.outcome load above name (array _ he)
      exact hload.accounts_of_outcome hout fun sub hs => ih _ he sub hs _
    choose! tally htallied haccounts using heach
    rw [Policy.resolve_eq, pending_mk, List.flatMap_map]
    exact ⟨_, .intro (fun e _ => Entry.name_resolve load above e) htallied,
      LoadReport.accounts_concat haccounts⟩

theorem Resolver.tallying_loadNested (r : Resolver) (chain : List Place) :
    ∀ base : Path, Loader.Tallying (r.loadNested chain base) r chain base := by
  apply Resolver.chain_induction (r := r) ?_ chain
  intro chain ih base
  refine ⟨r.refining_loadNested chain base, ?_⟩
  intro name text l hl
  obtain ⟨o, ho, rfl⟩ := Resolver.loadNested_eq_ok_iff.1 hl
  have hnested := ih o.place ho.opens.mem_places ho.fresh o.base
  obtain ⟨t, htallied, haccounts⟩ := ho.opens.wellFormed.accounts_resolve name hnested
  exact ⟨t, ⟨o, ho, htallied⟩, haccounts⟩

/-- No array in a policy holds more than one reference, so that none is kept for the sake of
another one. -/
def Policy.Lone (p : Policy) : Prop :=
  ∀ path values, p.HoldsAt path values → (values.filterMap Value.file?).length ≤ 1

theorem Policy.WellFormed.lone_iff (h : p.WellFormed) (above : String) :
    p.Lone ↔ ∀ a ∈ p.pending above, a.2.length = 1 := by
  constructor
  · intro hlone a ha
    obtain ⟨path, values, hp, rfl, hne⟩ := h.mem_pending_iff.1 ha
    have hpos := List.length_pos_iff.2 hne
    have hle := hlone path values hp
    simp only at hpos ⊢
    omega
  · intro hone path values hp
    by_cases hne : values.filterMap Value.file? = []
    · simp [hne]
    · exact Nat.le_of_eq (hone _ (Policy.mem_pending_of_holdsAt _ hp hne))

namespace Resolver

/-- What the report of loading says of the tree that is left. It counts the references that were
replaced in the tree, and also those in policies that are not in the tree in the end; its failures
have names of arrays that are left, or names below these. If no array that is left holds more than
one reference, all that it counts is in the tree, and its failures are the arrays one by one. -/
theorem accounts_loadPolicyFiles (r : Resolver) (base : Path) (p : Policy) (h : p.WellFormed) :
    ∃ t, (∀ p' u, p.Tallied r [] base p' u ↔ p' = (r.loadPolicyFiles p base).1 ∧ u = t) ∧
      (r.loadPolicyFiles p base).2.loaded = t.replaced + t.wasted ∧
      ((r.loadPolicyFiles p base).1 = p → t.replaced = 0) ∧
      (∀ f ∈ (r.loadPolicyFiles p base).2.failures, ∃ path values rest,
        (r.loadPolicyFiles p base).1.HoldsAt path values ∧ (∃ text, Value.file text ∈ values) ∧
          f.name = List.foldl Name.join (Name.ofSegments path) rest) ∧
      ((r.loadPolicyFiles p base).1.Lone → t.wasted = 0 ∧
        (r.loadPolicyFiles p base).2.failures.map (fun f => (f.name, [f.reference])) =
          (r.loadPolicyFiles p base).1.pending "") := by
  have hw := r.wellFormed_loadPolicyFiles base h
  obtain ⟨t, htallied, haccounts⟩ :
      ∃ t, p.Tallied r [] base (r.loadPolicyFiles p base).1 t ∧
        (r.loadPolicyFiles p base).2.Accounts t ((r.loadPolicyFiles p base).1.pending "") :=
    h.accounts_resolve "" (r.tallying_loadNested [] base)
  refine ⟨t, ?_, haccounts.loaded_eq, htallied.replaced_eq_zero, ?_, ?_⟩
  · intro p' u
    constructor
    · intro h'
      exact h'.unique htallied
    · rintro ⟨rfl, rfl⟩
      exact htallied
  · intro f hf
    obtain ⟨array, harray, rest, hname⟩ := haccounts.below f hf
    obtain ⟨path, values, hp, rfl, hne⟩ := hw.mem_pending_iff.1 harray
    obtain ⟨text, ht⟩ := List.exists_mem_of_ne_nil _ hne
    refine ⟨path, values, rest, hp, ⟨text, Value.mem_filterMap_file?.1 ht⟩, ?_⟩
    rw [hname, hw.foldl_join_eq hp]
  · intro hlone
    exact haccounts.exact ((hw.lone_iff "").1 hlone)

theorem accounts_loadPolicyFiles_broken :
    brokenTree.WellFormed ∧
      brokenTree.Tallied brokenFiles [] ⟨""⟩ (brokenFiles.loadPolicyFiles brokenTree ⟨""⟩).1
        ⟨1, 0⟩ := by
  have h : brokenTree.WellFormed := by decide
  have hw := brokenFiles.wellFormed_loadPolicyFiles ⟨""⟩ h
  have hone : ∀ a ∈ (brokenFiles.loadPolicyFiles brokenTree ⟨""⟩).1.pending "", a.2.length = 1 := by
    decide +kernel
  obtain ⟨t, htallied, hloaded, -, -, hexact⟩ :=
    accounts_loadPolicyFiles brokenFiles ⟨""⟩ brokenTree h
  have hwasted := (hexact ((hw.lone_iff "").2 hone)).1
  have hcount : (brokenFiles.loadPolicyFiles brokenTree ⟨""⟩).2.loaded = 1 := by decide +kernel
  obtain ⟨replaced, wasted⟩ := t
  obtain rfl : wasted = 0 := hwasted
  obtain rfl : replaced = 1 := hloaded.symm.trans hcount
  exact ⟨h, (htallied _ _).2 ⟨rfl, rfl⟩⟩

def vainFiles : Resolver where
  files :=
    { files :=
        [(["whole.json"], ("\x7b\"part\": \x7b\"$ref\": \"part.json\"\x7d, " ++
            "\"gone\": \x7b\"$ref\": \"gone.json\"\x7d\x7d").toUTF8),
          (["part.json"], "\x7b\"size\": 4\x7d".toUTF8)]
      directories := [] }
  locator := .table []
  limits := .standard

def vainTree : Policy :=
  ⟨[⟨"pair", [.file "whole.json", .file "missing.json"]⟩]⟩

/-- Nothing is replaced, but one reference counts as loaded, and a failure bears a name that is not
in the tree. -/
theorem accounts_loadPolicyFiles_vain :
    ((vainFiles.loadPolicyFiles vainTree ⟨""⟩).1 == vainTree) = true ∧
      (vainFiles.loadPolicyFiles vainTree ⟨""⟩).2.loaded = 1 ∧
      (vainFiles.loadPolicyFiles vainTree ⟨""⟩).2.failures.map LoadFailure.name =
        ["pair.gone", "pair"] ∧
      (vainFiles.loadPolicyFiles vainTree ⟨""⟩).1.contains "pair.gone" = false := by
  decide +kernel

end Resolver

end PolicyTree
