import PolicyTree.Proofs.Resolver.Steps

namespace PolicyTree

namespace Limits

instance : LE Limits :=
  ⟨fun l l' => l.maxIndirections ≤ l'.maxIndirections ∧ l.maxDepth ≤ l'.maxDepth⟩

variable {l l' : Limits}

theorem maxIndirections_le (h : l ≤ l') : l.maxIndirections ≤ l'.maxIndirections :=
  h.1

theorem maxDepth_le (h : l ≤ l') : l.maxDepth ≤ l'.maxDepth :=
  h.2

end Limits

namespace Error

def isLimit : Error → Bool
  | indirectionLoop .. => true
  | _ => false

end Error

section Stands

variable {α β : Type} {x y : Except Error α}

/-- The result `x` of a computation stands, as the result `y` of another one, unless it is due to a
limit. -/
def Stands (x y : Except Error α) : Prop :=
  (∀ e, x = .error e → e.isLimit = false) → y = x

theorem Stands.refl (x : Except Error α) : Stands x x :=
  fun _ => rfl

theorem Stands.limit {e : Error} (h : e.isLimit = true) : Stands (.error e) y := by
  intro hx
  rw [hx e rfl] at h
  cases h

theorem Stands.ok {a : α} (h : Stands x y) (hx : x = .ok a) : y = .ok a := by
  subst hx
  exact h nofun

theorem Stands.error {e : Error} (h : Stands x y) (hx : x = .error e) (he : e.isLimit = false) :
    y = .error e := by
  subst hx
  apply h
  rintro _ ⟨⟩
  exact he

theorem Stands.bind {f g : α → Except Error β} (h : Stands x y)
    (hfg : ∀ a, x = .ok a → Stands (f a) (g a)) : Stands (x >>= f) (y >>= g) := by
  intro hresult
  cases x with
  | error e => rw [h.error rfl (hresult e rfl), error_bind, error_bind]
  | ok a =>
    rw [h.ok rfl]
    exact hfg a rfl hresult

end Stands

namespace Resolver

def withLimits (r : Resolver) (l : Limits) : Resolver :=
  { r with limits := l }

@[simp] theorem files_withLimits (r : Resolver) (l : Limits) : (r.withLimits l).files = r.files :=
  rfl

@[simp] theorem limits_withLimits (r : Resolver) (l : Limits) : (r.withLimits l).limits = l := rfl

variable {r : Resolver} {l : Limits} {chain visited : List Place} {base : Path}
  {whole text : String} {reference : Reference}

theorem stands_hop (hle : r.limits ≤ l) :
    Stands (r.hop whole visited reference base)
      ((r.withLimits l).hop whole visited reference base) := by
  refine .bind (.refl _) ?_
  intro located _
  split
  · exact .refl _
  · by_cases hreached : r.limits.maxIndirections ≤ visited.length
    · rw [if_pos hreached]
      exact .limit rfl
    · have hwithin : ¬l.maxIndirections ≤ visited.length := fun h =>
        hreached (Nat.le_trans (Limits.maxIndirections_le hle) h)
      rw [limits_withLimits, files_withLimits, if_neg hreached, if_neg hwithin]
      cases r.files.read located.file with
      | error fault => exact .refl _
      | ok x =>
        obtain ⟨place, content⟩ := x
        show Stands (if visited.contains place then _ else _)
          (if visited.contains place then _ else _)
        split
        · exact .limit rfl
        · exact .refl _

theorem stands_follow (hle : r.limits ≤ l) (whole : String) (visited : List Place)
    (reference : Reference) (base : Path) :
    Stands (r.follow whole visited reference base)
      ((r.withLimits l).follow whole visited reference base) := by
  rw [follow_eq, follow_eq]
  refine .bind (stands_hop hle) ?_
  rintro (located | ⟨seen, next, b⟩) hh
  · exact .refl _
  · exact stands_follow hle whole seen next b
termination_by r.files.unseen visited
decreasing_by exact unseen_lt_of_hop hh

theorem stands_locate (hle : r.limits ≤ l) (text : String) (base : Path) :
    Stands (r.locate text base) ((r.withLimits l).locate text base) :=
  .bind (.refl _) fun reference _ => stands_follow hle text [] reference base

theorem resolvePath_withLimits (hle : r.limits ≤ l) {path : Path}
    (h : r.resolvePath text base = .ok path) :
    (r.withLimits l).resolvePath text base = .ok path := by
  obtain ⟨located, hlocated, rfl⟩ := map_eq_ok_iff.1 h
  exact map_eq_ok_iff.2 ⟨located, (stands_locate hle text base).ok hlocated, rfl⟩

theorem stands_openNested (hle : r.limits ≤ l) (chain : List Place) (base : Path)
    (text : String) :
    Stands (r.openNested chain base text) ((r.withLimits l).openNested chain base text) := by
  rw [openNested, openNested]
  by_cases hreached : r.limits.maxDepth ≤ chain.length
  · rw [if_pos hreached]
    exact .limit rfl
  · have hwithin : ¬l.maxDepth ≤ chain.length := fun h =>
      hreached (Nat.le_trans (Limits.maxDepth_le hle) h)
    rw [limits_withLimits, if_neg hreached, if_neg hwithin]
    exact .bind (stands_locate hle text base) fun _ _ => .refl _

end Resolver

mutual

/-- How what loading leaves under some limits and what it leaves under higher ones relate: the names
are the same in the same order, and array for array the values are the same, or relate. -/
inductive Policy.GrowsTo : Policy → Policy → Prop
  | intro {es es' : List Entry} (names : es'.map Entry.name = es.map Entry.name)
      (arrays : ∀ (i : Nat) (e e' : Entry), es[i]? = some e → es'[i]? = some e' →
        Value.ArrayGrowsTo e.values e'.values) : Policy.GrowsTo ⟨es⟩ ⟨es'⟩

inductive Value.ArrayGrowsTo : List Value → List Value → Prop
  | same {values : List Value} : Value.ArrayGrowsTo values values
  | policies {subs subs' : List Policy} (length_eq : subs'.length = subs.length)
      (each : ∀ (k : Nat) (sub sub' : Policy), subs[k]? = some sub → subs'[k]? = some sub' →
        Policy.GrowsTo sub sub') :
      Value.ArrayGrowsTo (subs.map .policy) (subs'.map .policy)
  /-- References that are left are all replaced. -/
  | loaded {references : List String} {subs' : List Policy}
      (length_eq : subs'.length = references.length) :
      Value.ArrayGrowsTo (references.map .file) (subs'.map .policy)

end

def LoadReport.Unlimited (report : LoadReport) : Prop :=
  ∀ f ∈ report.failures, f.error.isLimit = false

namespace LoadReport

variable {a b : LoadReport} {reports : List LoadReport}

theorem unlimited_append : (a ++ b).Unlimited ↔ a.Unlimited ∧ b.Unlimited := by
  simp only [Unlimited, failures_append, List.forall_mem_append]

theorem unlimited_concat : (concat reports).Unlimited ↔ ∀ a ∈ reports, a.Unlimited := by
  simp only [Unlimited, failures_concat, List.mem_flatMap]
  constructor
  · intro h a ha f hf
    exact h f ⟨a, ha, hf⟩
  · rintro h f ⟨a, ha, hf⟩
    exact h a ha f hf

end LoadReport

/-- What is loaded under some limits, and under higher ones. Where no limit is met the higher ones
make no difference. -/
structure LoadedGrowsTo (l l' : Policy × LoadReport) : Prop where
  tree : l.1.GrowsTo l'.1
  eq : l.2.Unlimited → l' = l

/-- What a loader loads the other one loads, too, and it fails as the first one does, unless that is
due to a limit. -/
structure Loader.GrowsTo (load load' : Loader) : Prop where
  ok : ∀ {name text l}, load name text = .ok l → ∃ l', load' name text = .ok l' ∧ LoadedGrowsTo l l'
  error : ∀ {name text e}, load name text = .error e → e.isLimit = false →
    load' name text = .error e

section Growth

variable {load load' : Loader} {above full name : String} {references : List String}
  {loaded : List (Policy × LoadReport)} {p : Policy}

theorem Loader.exists_getElem? {k : Nat} {l : Policy × LoadReport}
    (hall : references.map (load name) = loaded.map .ok) (hl : loaded[k]? = some l) :
    ∃ text, references[k]? = some text ∧ load name text = .ok l := by
  have hk := congrArg (·[k]?) hall
  simp only [List.getElem?_map, hl, Option.map_some] at hk
  exact Option.map_eq_some_iff.1 hk

theorem Loader.GrowsTo.arrayGrowsTo_replace (h : load.GrowsTo load') (full : String)
    (references : List String) :
    Value.ArrayGrowsTo (load.replace full (references.map .file)).1
      (load'.replace full (references.map .file)).1 := by
  rcases load.replace_cases full references with
    ⟨loaded, hall, hr⟩ | ⟨_, _, _, _, _, -, -, -, hr⟩ <;>
  rcases load'.replace_cases full references with
    ⟨loaded', hall', hr'⟩ | ⟨before, failing, after, e, _, hsplit, -, hfail, hr'⟩ <;>
  rw [hr, hr']
  -- both load all references, only the first one does, only the second one, or neither
  · rw [Value.map_policy loaded Prod.fst, Value.map_policy loaded' Prod.fst]
    refine .policies ?_ ?_
    · rw [List.length_map, List.length_map, length_loaded hall, length_loaded hall']
    · intro k sub sub' hs hs'
      rw [List.getElem?_map] at hs hs'
      obtain ⟨l, hk, rfl⟩ := Option.map_eq_some_iff.1 hs
      obtain ⟨l', hk', rfl⟩ := Option.map_eq_some_iff.1 hs'
      obtain ⟨text, ht, hl⟩ := exists_getElem? hall hk
      obtain ⟨_, ht', hl'⟩ := exists_getElem? hall' hk'
      obtain rfl := Option.some.inj (ht.symm.trans ht')
      obtain ⟨_, hloaded, hgrows⟩ := h.ok hl
      obtain rfl := Except.ok.inj (hl'.symm.trans hloaded)
      exact hgrows.tree
  · have hmem : failing ∈ references := by simp [hsplit]
    obtain ⟨l, -, hl⟩ := exists_loaded hall hmem
    obtain ⟨l', hl', -⟩ := h.ok hl
    rw [hfail] at hl'
    cases hl'
  · rw [Value.map_policy loaded' Prod.fst]
    refine .loaded ?_
    rw [List.length_map, length_loaded hall']
  · exact .same

theorem Loader.GrowsTo.loadAll_eq (h : load.GrowsTo load')
    (hreport : (load.loadAll name references).2.Unlimited)
    (hresult : ∀ f, (load.loadAll name references).1 = .error f → f.error.isLimit = false) :
    load'.loadAll name references = load.loadAll name references := by
  induction references with
  | nil => rfl
  | cons text references ih =>
    rw [loadAll] at hreport hresult ⊢
    cases hl : load name text with
    | error e =>
      rw [hl] at hresult
      rw [h.error hl (hresult _ rfl), loadAll, hl]
    | ok l =>
      rw [hl] at hreport hresult
      obtain ⟨hhere, hrest⟩ := LoadReport.unlimited_append.1 hreport
      obtain ⟨l', hl', hgrows⟩ := h.ok hl
      have hresultrest : ∀ f, (load.loadAll name references).1 = .error f →
          f.error.isLimit = false := by
        intro f hf
        apply hresult f
        show Except.map _ (load.loadAll name references).1 = .error f
        rw [hf]
        rfl
      rw [hl', hgrows.eq hhere, ih hrest hresultrest, loadAll, hl]

theorem Loader.GrowsTo.replace_eq (h : load.GrowsTo load')
    (hreport : (load.replace full (references.map .file)).2.Unlimited) :
    load'.replace full (references.map .file) = load.replace full (references.map .file) := by
  have hall : load'.loadAll full references = load.loadAll full references := by
    simp only [replace, mapM_file?] at hreport
    apply h.loadAll_eq
    · split at hreport <;> rename_i hl <;> rw [hl]
      · exact (LoadReport.unlimited_append.1 hreport).1
      · exact (LoadReport.unlimited_append.1 hreport).1
    · intro f hf
      split at hreport <;> rename_i hl <;> rw [hl] at hf
      · cases hf
      · cases hf
        exact (LoadReport.unlimited_append.1 hreport).2 f (List.mem_singleton_self f)
  simp only [replace, mapM_file?, hall]

theorem exists_mem_of_getElem?_map {α β γ : Type} {f : α → β} {g : α → γ} {as : List α} {k : Nat}
    {b : β} {c : γ} (hb : (as.map f)[k]? = some b) (hc : (as.map g)[k]? = some c) :
    ∃ a ∈ as, f a = b ∧ g a = c := by
  rw [List.getElem?_map] at hb hc
  obtain ⟨a, ha, hfa⟩ := Option.map_eq_some_iff.1 hb
  rw [ha, Option.map_some, Option.some.injEq] at hc
  exact ⟨a, List.mem_of_getElem? ha, hfa, hc⟩

theorem Loader.GrowsTo.entry (h : load.GrowsTo load') {e : Entry} (harr : Value.IsArray e.values)
    (hnested : ∀ sub full, Value.policy sub ∈ e.values →
      LoadedGrowsTo (sub.resolve load full) (sub.resolve load' full)) :
    Value.ArrayGrowsTo (e.resolve load above).1.values (e.resolve load' above).1.values ∧
      ((e.resolve load above).2.Unlimited → e.resolve load' above = e.resolve load above) := by
  obtain ⟨name, values⟩ := e
  have hshape : Value.PassShape values := harr.passShape
  cases hshape with
  | @files references hne =>
    rw [Entry.resolve_files hne, Entry.resolve_files hne]
    refine ⟨h.arrayGrowsTo_replace _ references, ?_⟩
    intro hreport
    rw [h.replace_eq hreport]
  | @policies subs hne =>
    have hsub := fun sub (hs : sub ∈ subs) => hnested sub (Name.join above name)
      (List.mem_map_of_mem hs)
    rw [Entry.resolve_policies, Entry.resolve_policies]
    constructor
    · rw [Value.map_policy subs fun sub => (sub.resolve load (Name.join above name)).1,
        Value.map_policy subs fun sub => (sub.resolve load' (Name.join above name)).1]
      refine .policies (by rw [List.length_map, List.length_map]) ?_
      intro k x x' hx hx'
      obtain ⟨sub, hs, rfl, rfl⟩ := exists_mem_of_getElem?_map hx hx'
      exact (hsub sub hs).tree
    · intro hreport
      rw [LoadReport.unlimited_concat, List.forall_mem_map] at hreport
      have heq := fun sub hs => (hsub sub hs).eq (hreport sub hs)
      have hvalues : (subs.map fun sub =>
          Value.policy (sub.resolve load' (Name.join above name)).1) =
            subs.map fun sub => .policy (sub.resolve load (Name.join above name)).1 :=
        List.map_congr_left fun sub hs => by rw [heq sub hs]
      have hreports : (subs.map fun sub => (sub.resolve load' (Name.join above name)).2) =
          subs.map fun sub => (sub.resolve load (Name.join above name)).2 :=
        List.map_congr_left fun sub hs => by rw [heq sub hs]
      rw [hvalues, hreports]
  | others hv =>
    rw [Entry.resolve_others hv, Entry.resolve_others hv]
    exact ⟨.same, fun _ => rfl⟩

theorem Policy.WellFormed.growsTo_resolve (h : p.WellFormed) (hload : load.GrowsTo load')
    (above : String) : LoadedGrowsTo (p.resolve load above) (p.resolve load' above) := by
  induction h generalizing above with
  | @intro es unique leaf array nested ih =>
    have hentry : ∀ e ∈ es,
        Value.ArrayGrowsTo (e.resolve load above).1.values (e.resolve load' above).1.values ∧
          ((e.resolve load above).2.Unlimited → e.resolve load' above = e.resolve load above) := by
      intro e he
      exact hload.entry (array e he) fun sub full hs => ih e he sub hs full
    rw [Policy.resolve_eq, Policy.resolve_eq]
    constructor
    · refine .intro ?_ ?_
      · rw [List.map_map, List.map_map]
        apply List.map_congr_left
        intro e _
        rw [Function.comp_apply, Function.comp_apply, Entry.name_resolve, Entry.name_resolve]
      · intro i x x' hx hx'
        obtain ⟨e, he, rfl, rfl⟩ := exists_mem_of_getElem?_map hx hx'
        exact (hentry e he).1
    · intro hreport
      rw [LoadReport.unlimited_concat, List.forall_mem_map] at hreport
      have heq := fun e he => (hentry e he).2 (hreport e he)
      rw [List.map_congr_left fun e he => congrArg Prod.fst (heq e he),
        List.map_congr_left fun e he => congrArg Prod.snd (heq e he)]

end Growth

namespace Resolver

variable {r : Resolver} {l : Limits} {base : Path} {p : Policy}

/-- By induction on the chain, which a file prolongs under both limits. -/
theorem growsTo_loadNested (hle : r.limits ≤ l) (chain : List Place) : ∀ base : Path,
    Loader.GrowsTo (r.loadNested chain base) ((r.withLimits l).loadNested chain base) := by
  apply chain_induction (r := r) ?_ chain
  intro chain ih base
  constructor
  · intro name text found hfound
    rw [loadNested_eq] at hfound ⊢
    obtain ⟨o, ho, rfl⟩ := map_eq_ok_iff.1 hfound
    rw [(stands_openNested hle chain base text).ok ho]
    have hloads := openNested_eq_ok_iff.1 ho
    have hnested := ih o.place hloads.opens.mem_places hloads.fresh o.base
    exact ⟨_, rfl, hloads.opens.wellFormed.growsTo_resolve hnested name⟩
  · intro name text e hfound he
    rw [loadNested_eq] at hfound ⊢
    cases ho : r.openNested chain base text with
    | ok o =>
      rw [ho] at hfound
      cases hfound
    | error e' =>
      rw [ho] at hfound
      cases hfound
      rw [(stands_openNested hle chain base text).error ho he]
      rfl

theorem loadPolicyFiles_withLimits_eq (hle : r.limits ≤ l) (h : p.WellFormed)
    (hreport : (r.loadPolicyFiles p base).2.Unlimited) :
    (r.withLimits l).loadPolicyFiles p base = r.loadPolicyFiles p base :=
  (h.growsTo_resolve (growsTo_loadNested hle [] base) "").eq hreport

/-- Higher limits lose nothing. References lead where they led to before. Of what is loaded, arrays
of references that were left may be replaced as a whole, and nothing else changes; nothing at all
changes if none were left. -/
theorem loadPolicyFiles_withLimits (r : Resolver) (l : Limits) (hle : r.limits ≤ l) (base : Path)
    (p : Policy) (h : p.WellFormed) :
    (∀ text path, r.resolvePath text base = .ok path →
      (r.withLimits l).resolvePath text base = .ok path) ∧
    (r.loadPolicyFiles p base).1.GrowsTo ((r.withLimits l).loadPolicyFiles p base).1 ∧
    ((r.loadPolicyFiles p base).2.isComplete = true →
      (r.withLimits l).loadPolicyFiles p base = r.loadPolicyFiles p base) := by
  refine ⟨?_, ?_, ?_⟩
  · intro text path hpath
    exact resolvePath_withLimits hle hpath
  · exact (h.growsTo_resolve (growsTo_loadNested hle [] base) "").tree
  · intro hcomplete
    apply loadPolicyFiles_withLimits_eq hle h
    rw [LoadReport.Unlimited, List.isEmpty_iff.1 hcomplete]
    exact nofun

/-- One file within another is too many at first; where both can be loaded, more limits change
nothing. -/
theorem loadPolicyFiles_withLimits_sharing :
    sharingTree.WellFormed ∧ (⟨8, 1⟩ : Limits) ≤ ⟨8, 2⟩ ∧ (⟨8, 2⟩ : Limits) ≤ .standard ∧
      (sharingFiles.withLimits ⟨8, 2⟩).resolvePath "left.json" ⟨""⟩ = .ok ⟨"left.json"⟩ ∧
      (∃ p p' : Policy, p.GrowsTo p' ∧
        (p == ⟨[⟨"sides", [.policy ⟨[⟨"size", [.file "size.json"]⟩]⟩,
          .policy ⟨[⟨"size", [.file "size.json"]⟩]⟩]⟩, ⟨"title", [.string "plain"]⟩]⟩) = true ∧
        (p' == ⟨[⟨"sides", [.policy ⟨[⟨"size", [.policy ⟨[⟨"width", [.string "4"]⟩]⟩]⟩]⟩,
          .policy ⟨[⟨"size", [.policy ⟨[⟨"width", [.string "4"]⟩]⟩]⟩]⟩]⟩,
          ⟨"title", [.string "plain"]⟩]⟩) = true) ∧
      sharingFiles.loadPolicyFiles sharingTree ⟨""⟩ =
        (sharingFiles.withLimits ⟨8, 2⟩).loadPolicyFiles sharingTree ⟨""⟩ := by
  have hwell : sharingTree.WellFormed := by decide
  have hlow : (⟨8, 1⟩ : Limits) ≤ ⟨8, 2⟩ := ⟨by decide, by decide⟩
  have hhigh : (⟨8, 2⟩ : Limits) ≤ .standard := ⟨by decide, by decide⟩
  obtain ⟨hpath, hgrows, -⟩ := loadPolicyFiles_withLimits (sharingFiles.withLimits ⟨8, 1⟩) ⟨8, 2⟩
    hlow ⟨""⟩ sharingTree hwell
  obtain ⟨-, -, heq⟩ := loadPolicyFiles_withLimits (sharingFiles.withLimits ⟨8, 2⟩) .standard hhigh
    ⟨""⟩ sharingTree hwell
  refine ⟨hwell, hlow, hhigh, hpath _ _ (by decide +kernel), ⟨_, _, hgrows, ?_, ?_⟩, ?_⟩
  · decide +kernel
  · decide +kernel
  · exact heq (by decide +kernel)

end Resolver

end PolicyTree
