import PolicyTree.Proofs.Resolver.Refinement

namespace PolicyTree

def LoadFailure.below (above : String) (f : LoadFailure) : LoadFailure :=
  { f with name := Name.join above f.name }

namespace LoadReport

def below (above : String) (report : LoadReport) : LoadReport :=
  ⟨report.loaded, report.failures.map (LoadFailure.below above)⟩

variable {above : String} {a b : LoadReport}

theorem below_append : below above (a ++ b) = below above a ++ below above b := by
  show LoadReport.mk _ _ = LoadReport.mk _ _
  rw [failures_append, List.map_append]
  rfl

theorem below_concat {α : Type} {parts : List α} {report report' : α → LoadReport}
    (h : ∀ part ∈ parts, report' part = below above (report part)) :
    concat (parts.map report') = below above (concat (parts.map report)) := by
  induction parts with
  | nil => rfl
  | cons part parts ih =>
    rw [List.forall_mem_cons] at h
    rw [List.map_cons, List.map_cons, concat_cons, concat_cons, below_append, h.1, ih h.2]

end LoadReport

/-- What a pass leaves, with the names in its report below another one. -/
def nameBelow {α : Type} (above : String) : α × LoadReport → α × LoadReport :=
  Prod.map id (LoadReport.below above)

/-- Below another name the loader does what it does without it, but for the names it reports. -/
def Loader.Prefixes (load : Loader) (above : String) : Prop :=
  ∀ name text, name ≠ "" →
    load (Name.join above name) text = nameBelow above <$> load name text

section Pass

variable {load : Loader} {above name inner outer : String} {p : Policy}

theorem Loader.Prefixes.loadAll (h : load.Prefixes above) (hname : name ≠ "")
    (references : List String) :
    load.loadAll (Name.join above name) references =
      Prod.map (Except.mapError (LoadFailure.below above)) (LoadReport.below above)
        (load.loadAll name references) := by
  induction references with
  | nil => rfl
  | cons text references ih =>
    rw [Loader.loadAll, Loader.loadAll, h name text hname, ih]
    cases load name text with
    | error e => rfl
    | ok l =>
      obtain ⟨p, report⟩ := l
      obtain ⟨loaded, more⟩ := load.loadAll name references
      refine Prod.ext ?_ LoadReport.below_append.symm
      cases loaded <;> rfl

theorem Loader.Prefixes.replace (h : load.Prefixes above) (hname : name ≠ "")
    (values : List Value) :
    load.replace (Name.join above name) values = nameBelow above (load.replace name values) := by
  rw [Loader.replace, Loader.replace]
  cases values.mapM Value.file? with
  | none => rfl
  | some references =>
    simp only [h.loadAll hname]
    obtain ⟨loaded, report⟩ := load.loadAll name references
    cases loaded with
    | error failure => exact Prod.ext rfl (LoadReport.below_append (b := ⟨0, [failure]⟩)).symm
    | ok loaded =>
      exact Prod.ext rfl (LoadReport.below_append (b := ⟨references.length, []⟩)).symm

/-- A pass finds the same under all names that lead to its tree. The names from `outer` on are those
from `inner` on, below another one. -/
theorem Policy.WellFormed.resolve_below (h : p.WellFormed) (hload : load.Prefixes above)
    (hnames : ∀ child, Name.join outer child = Name.join above (Name.join inner child)) :
    p.resolve load outer = nameBelow above (p.resolve load inner) := by
  -- by induction on the tree; both names grow by the same segments and stay apart by the same one
  induction h generalizing inner outer with
  | @intro es unique leaf array nested ih =>
    have hentry : ∀ e ∈ es, e.resolve load outer = nameBelow above (e.resolve load inner) := by
      intro e he
      have hleaf := (Name.isLeaf_iff.1 (leaf e he)).1
      have harr := array e he
      have hsub := ih e he
      obtain ⟨name, values⟩ := e
      have hfull : Name.join inner name ≠ "" := Name.join_ne_empty hleaf
      cases harr.passShape with
      | files hne =>
        rw [Entry.resolve_files hne, Entry.resolve_files hne, hnames, hload.replace hfull]
        rfl
      | @policies subs hne =>
        have hsub : ∀ sub ∈ subs, sub.resolve load (Name.join outer name) =
            nameBelow above (sub.resolve load (Name.join inner name)) := by
          intro sub hs
          rw [hnames]
          exact hsub sub (List.mem_map_of_mem hs) fun child => Name.join_assoc hfull
        have hsubs : subs.map (fun sub =>
            Value.policy (sub.resolve load (Name.join outer name)).1) =
              subs.map fun sub => .policy (sub.resolve load (Name.join inner name)).1 := by
          apply List.map_congr_left
          intro sub hs
          rw [hsub sub hs]
          rfl
        rw [Entry.resolve_policies, Entry.resolve_policies, hsubs]
        exact Prod.ext rfl (LoadReport.below_concat fun sub hs => congrArg Prod.snd (hsub sub hs))
      | others hv =>
        rw [Entry.resolve_others hv, Entry.resolve_others hv]
        rfl
    have hentries : es.map (fun e => (e.resolve load outer).1) =
        es.map fun e => (e.resolve load inner).1 := by
      apply List.map_congr_left
      intro e he
      rw [hentry e he]
      rfl
    rw [Policy.resolve_eq, Policy.resolve_eq, hentries]
    exact Prod.ext rfl (LoadReport.below_concat fun e he => congrArg Prod.snd (hentry e he))

end Pass

namespace Resolver

variable {r : Resolver}

theorem prefixes_loadNested (r : Resolver) (above : String) (chain : List Place) :
    ∀ base : Path, Loader.Prefixes (r.loadNested chain base) above := by
  apply Resolver.chain_induction (r := r) ?_ chain
  intro chain ih base name text hname
  -- the same file is opened under both names, and prolongs the chain for the loads within it
  rw [loadNested_eq, loadNested_eq]
  cases ho : r.openNested chain base text with
  | error e => rfl
  | ok o =>
    have hloads := openNested_eq_ok_iff.1 ho
    have hload := ih o.place hloads.opens.mem_places hloads.fresh o.base
    have hnames (child : String) := Name.join_assoc (n := above) (t := child) hname
    exact congrArg Except.ok (hloads.opens.wellFormed.resolve_below hload hnames)

theorem loadWithReport_eq (h : 1 ≤ r.limits.maxDepth) (text : String) (base : Path) :
    r.loadWithReport text base =
      (fun o => o.policy.resolve (r.loadNested [o.place] o.base) "") <$>
        r.openNested [] base text := by
  have hdepth : ¬r.limits.maxDepth ≤ ([] : List Place).length := Nat.not_le_of_lt h
  rw [loadWithReport_eq_loadLocated, openNested_eq, if_neg hdepth]
  rfl

theorem loadNested_nil_eq (h : 1 ≤ r.limits.maxDepth) (name text : String) (base : Path) :
    r.loadNested [] base name text = nameBelow name <$> r.loadWithReport text base := by
  rw [loadNested_eq, loadWithReport_eq h]
  cases ho : r.openNested [] base text with
  | error e => rfl
  | ok o =>
    have hopens := (openNested_eq_ok_iff.1 ho).opens
    have hload := r.prefixes_loadNested name [o.place] o.base
    exact congrArg Except.ok (hopens.wellFormed.resolve_below hload fun child => rfl)

theorem loadPolicyFiles_single_eq (h : 1 ≤ r.limits.maxDepth) (name text : String) (base : Path) :
    r.loadPolicyFiles ⟨[⟨name, [.file text]⟩]⟩ base =
      match r.loadWithReport text base with
      | .error e => (⟨[⟨name, [.file text]⟩]⟩, ⟨0, [⟨name, text, e⟩]⟩)
      | .ok (q, report) =>
        (⟨[⟨name, [.policy q]⟩]⟩, ⟨report.loaded + 1, (report.below name).failures⟩) := by
  have hentry : (Entry.mk name [.file text]).resolve (r.loadNested [] base) "" =
      (⟨name, (Loader.replace (r.loadNested [] base) name [.file text]).1⟩,
        (Loader.replace (r.loadNested [] base) name [.file text]).2) :=
    Entry.resolve_files (List.cons_ne_nil text [])
  have hreferences : [Value.file text].mapM Value.file? = some [text] := rfl
  rw [loadPolicyFiles, Policy.resolve_eq]
  simp only [List.map_cons, List.map_nil, hentry, Loader.replace, hreferences, Loader.loadAll,
    loadNested_nil_eq h]
  cases r.loadWithReport text base with
  | error e => rfl
  | ok l =>
    obtain ⟨q, report⟩ := l
    refine Prod.ext rfl ?_
    show LoadReport.below name report ++ .empty ++ ⟨1, []⟩ ++ .empty = _
    rw [LoadReport.append_empty, LoadReport.append_empty, LoadReport.append_loaded]
    rfl

/-- A reference that is all there is in a tree comes to what its file comes to on its own. It fails
just if the file cannot be loaded, and is else replaced, with one more file loaded and the failures
within it named below the reference. -/
theorem loadPolicyFiles_single (r : Resolver) (base : Path) (name text : String)
    (hdepth : 1 ≤ r.limits.maxDepth) (hname : Name.isLeaf name = true) :
    (∀ e, r.loadWithReport text base = .error e ↔
      r.loadPolicyFiles ⟨[⟨name, [.file text]⟩]⟩ base =
        (⟨[⟨name, [.file text]⟩]⟩, ⟨0, [⟨name, text, e⟩]⟩)) ∧
    ∀ q report, r.loadWithReport text base = .ok (q, report) →
      r.loadPolicyFiles ⟨[⟨name, [.file text]⟩]⟩ base =
        (⟨[⟨name, [.policy q]⟩]⟩,
          ⟨report.loaded + 1,
            report.failures.map fun f => { f with name := name ++ "." ++ f.name }⟩) := by
  have heq := loadPolicyFiles_single_eq hdepth name text base
  constructor
  · intro e
    rw [heq]
    cases r.loadWithReport text base with
    | error e' => simp
    | ok l => simp
  · intro q report h
    rw [heq, h]
    have hbelow : LoadFailure.below name = fun f => { f with name := name ++ "." ++ f.name } := by
      funext f
      rw [LoadFailure.below, Name.join_of_ne_empty (Name.isLeaf_iff.1 hname).1]
      rfl
    simp only [LoadReport.below, hbelow]

def mutualFiles : Resolver where
  files :=
    { files :=
        [(["zones.json"], "\x7b\"zone\": \x7b\"$ref\": \"zone.json\"\x7d\x7d".toUTF8),
          (["zone.json"], "\x7b\"zones\": \x7b\"$ref\": \"zones.json\"\x7d\x7d".toUTF8)]
      directories := [] }
  locator := .table []
  limits := .standard

def mutualPolicy : Policy :=
  ⟨[⟨"zone", [.policy ⟨[⟨"zones", [.file "zones.json"]⟩]⟩]⟩]⟩

def mutualTexts : Policy → List String
  | ⟨[⟨a, [.policy ⟨[⟨b, [.file c]⟩]⟩]⟩]⟩ => [a, b, c]
  | _ => []

theorem loadWithReport_mutual : mutualFiles.loadWithReport "zones.json" ⟨""⟩ =
    .ok (mutualPolicy, ⟨1, [⟨"zone.zones", "zones.json", .referenceCycle ⟨"zones.json"⟩⟩]⟩) := by
  have h : (mutualFiles.loadWithReport "zones.json" ⟨""⟩).toOption.map (Prod.map mutualTexts id) =
      some (["zone", "zones", "zones.json"],
        ⟨1, [⟨"zone.zones", "zones.json", .referenceCycle ⟨"zones.json"⟩⟩]⟩) := by
    decide +kernel
  obtain ⟨⟨p, report⟩, hfound, hshape⟩ := map_toOption_eq_some_iff.1 h
  rw [hfound]
  obtain ⟨htexts, rfl⟩ := Prod.mk.inj hshape
  unfold mutualTexts at htexts
  split at htexts
  · simp only [List.cons.injEq] at htexts
    obtain ⟨rfl, rfl, rfl, -⟩ := htexts
    rfl
  · cases htexts

theorem loadPolicyFiles_single_mutual :
    1 ≤ mutualFiles.limits.maxDepth ∧ Name.isLeaf "plan" = true ∧
      mutualFiles.loadWithReport "zones.json" ⟨""⟩ =
        .ok (mutualPolicy, ⟨1, [⟨"zone.zones", "zones.json", .referenceCycle ⟨"zones.json"⟩⟩]⟩) ∧
      mutualFiles.loadPolicyFiles ⟨[⟨"plan", [.file "zones.json"]⟩]⟩ ⟨""⟩ =
        (⟨[⟨"plan", [.policy mutualPolicy]⟩]⟩,
          ⟨2, [⟨"plan.zone.zones", "zones.json", .referenceCycle ⟨"zones.json"⟩⟩]⟩) := by
  have hdepth : 1 ≤ mutualFiles.limits.maxDepth := by decide
  have hname : Name.isLeaf "plan" = true := by decide
  have hsingle := loadPolicyFiles_single mutualFiles ⟨""⟩ "plan" "zones.json" hdepth hname
  exact ⟨hdepth, hname, loadWithReport_mutual, hsingle.2 _ _ loadWithReport_mutual⟩

end Resolver

end PolicyTree
