import PolicyTree.Proofs.Policy.Attainable
import PolicyTree.Proofs.Policy.Nesting
import PolicyTree.Proofs.Resolver.Completeness

namespace PolicyTree

mutual

/-- The arrays of references in a policy that `above` leads to, with their dotted names. -/
def Policy.pending (above : String) : Policy → List (String × List String)
  | ⟨es⟩ => Entry.pendingAll above es
termination_by structural p => p

def Entry.pendingAll (above : String) : List Entry → List (String × List String)
  | [] => []
  | e :: es => e.pending above ++ Entry.pendingAll above es
termination_by structural es => es

def Entry.pending (above : String) : Entry → List (String × List String)
  | ⟨name, values⟩ =>
    let full := Name.join above name
    match values.filterMap Value.file? with
    | [] => Value.pendingAll full values
    | references => (full, references) :: Value.pendingAll full values
termination_by structural e => e

def Value.pendingAll (full : String) : List Value → List (String × List String)
  | [] => []
  | v :: vs => v.pending full ++ Value.pendingAll full vs
termination_by structural vs => vs

def Value.pending (full : String) : Value → List (String × List String)
  | .policy p => p.pending full
  | _ => []
termination_by structural v => v

end

variable {p sub : Policy} {above full name : String} {values : List Value}
  {references path : List String}

theorem Entry.pendingAll_eq (above : String) (es : List Entry) :
    Entry.pendingAll above es = es.flatMap fun e => e.pending above := by
  induction es with
  | nil => rfl
  | cons e es ih => rw [pendingAll, ih, List.flatMap_cons]

theorem Value.pendingAll_eq (full : String) (values : List Value) :
    Value.pendingAll full values = values.flatMap fun v => v.pending full := by
  induction values with
  | nil => rfl
  | cons v values ih => rw [pendingAll, ih, List.flatMap_cons]

theorem Policy.pending_mk (above : String) (es : List Entry) :
    Policy.pending above ⟨es⟩ = es.flatMap fun e => e.pending above := by
  rw [pending, Entry.pendingAll_eq]

theorem Value.mem_pendingAll_iff {a : String × List String} :
    a ∈ Value.pendingAll full values ↔
      ∃ sub, Value.policy sub ∈ values ∧ a ∈ sub.pending full := by
  rw [pendingAll_eq, List.mem_flatMap]
  constructor
  · rintro ⟨v, hv, ha⟩
    cases v with
    | policy sub => exact ⟨sub, hv, ha⟩
    | undefined | bool | int | double | string | file => cases ha
  · rintro ⟨sub, hs, ha⟩
    exact ⟨.policy sub, hs, ha⟩

theorem Value.mem_filterMap_file? {text : String} :
    text ∈ values.filterMap Value.file? ↔ Value.file text ∈ values := by
  rw [List.mem_filterMap]
  constructor
  · rintro ⟨v, hv, ht⟩
    cases v with
    | file reference =>
      obtain rfl := Option.some.inj ht
      exact hv
    | undefined | bool | int | double | string | policy => cases ht
  · intro h
    exact ⟨.file text, h, rfl⟩

theorem Entry.mem_pending_iff {e : Entry} {a : String × List String} :
    a ∈ e.pending above ↔
      (a = (Name.join above e.name, e.values.filterMap Value.file?) ∧ a.2 ≠ []) ∨
        ∃ sub, Value.policy sub ∈ e.values ∧ a ∈ sub.pending (Name.join above e.name) := by
  obtain ⟨name, values⟩ := e
  rw [pending, ← Value.mem_pendingAll_iff]
  split
  · rename_i hnone
    simp only [hnone]
    constructor
    · exact .inr
    · rintro (⟨rfl, hne⟩ | h)
      · exact absurd rfl hne
      · exact h
  · rename_i hsome
    rw [List.mem_cons]
    apply or_congr_left
    constructor
    · rintro rfl
      exact ⟨rfl, hsome⟩
    · exact And.left

theorem Entry.pending_files (hne : references ≠ []) :
    (Entry.mk name (references.map .file)).pending above =
      [(Name.join above name, references)] := by
  have hrefs : (references.map Value.file).filterMap Value.file? = references := by
    rw [List.filterMap_map]
    exact List.filterMap_some
  have hnested : Value.pendingAll (Name.join above name) (references.map .file) = [] := by
    rw [Value.pendingAll_eq, List.flatMap_map]
    exact List.flatMap_eq_nil_iff.2 fun _ _ => rfl
  rw [pending, hrefs, hnested]
  split
  · exact absurd rfl hne
  · rfl

theorem Entry.pending_policies {subs : List Policy} :
    (Entry.mk name (subs.map .policy)).pending above =
      subs.flatMap fun sub => sub.pending (Name.join above name) := by
  have hrefs : (subs.map Value.policy).filterMap Value.file? = [] := by
    rw [List.filterMap_map]
    exact List.filterMap_eq_nil_iff.2 fun _ _ => rfl
  rw [pending, hrefs, Value.pendingAll_eq, List.flatMap_map]
  rfl

theorem Entry.pending_others (h : ∀ v ∈ values, v.kind ≠ .file ∧ v.kind ≠ .policy) :
    (Entry.mk name values).pending above = [] := by
  have hrefs : values.filterMap Value.file? = [] := by
    rw [List.filterMap_eq_nil_iff]
    intro v hv
    cases v with
    | file reference => exact absurd rfl (h _ hv).1
    | undefined | bool | int | double | string | policy => rfl
  rw [pending, hrefs, Value.pendingAll_eq, List.flatMap_eq_nil_iff]
  intro v hv
  cases v with
  | policy sub => exact absurd rfl (h _ hv).2
  | undefined | bool | int | double | string | file => rfl

theorem Policy.mem_pending_of_holdsAt (above : String) (h : p.HoldsAt path values)
    (hne : values.filterMap Value.file? ≠ []) :
    (path.foldl Name.join above, values.filterMap Value.file?) ∈ p.pending above := by
  induction h generalizing above with
  | @here es e he =>
    rw [pending_mk, List.mem_flatMap]
    exact ⟨e, he, Entry.mem_pending_iff.2 (.inl ⟨rfl, hne⟩)⟩
  | @deeper es e sub path values he hs h ih =>
    rw [pending_mk, List.mem_flatMap]
    exact ⟨e, he, Entry.mem_pending_iff.2 (.inr ⟨sub, hs, ih _ hne⟩)⟩

/-- What is listed are the arrays that hold references, under the names that lead to them. -/
theorem Policy.WellFormed.mem_pending_iff (h : p.WellFormed) {a : String × List String} :
    a ∈ p.pending above ↔ ∃ path values, p.HoldsAt path values ∧
      a = (path.foldl Name.join above, values.filterMap Value.file?) ∧ a.2 ≠ [] := by
  constructor
  · intro ha
    induction h generalizing above with
    | @intro es unique leaf array nested ih =>
      rw [pending_mk, List.mem_flatMap] at ha
      obtain ⟨e, he, ha⟩ := ha
      rcases Entry.mem_pending_iff.1 ha with ⟨rfl, hne⟩ | ⟨sub, hs, ha⟩
      · exact ⟨[e.name], e.values, .here he, rfl, hne⟩
      · obtain ⟨path, values, hsub, ha, hne⟩ := ih e he sub hs ha
        exact ⟨e.name :: path, values, .deeper he hs hsub, ha, hne⟩
  · rintro ⟨path, values, hp, rfl, hne⟩
    exact mem_pending_of_holdsAt _ hp hne

theorem Policy.RefersAt.holdsAt {text : String} (h : p.RefersAt path text) :
    ∃ values, p.HoldsAt path values ∧ Value.file text ∈ values := by
  induction h with
  | file he ht => exact ⟨_, .here he, ht⟩
  | policy he hs h ih =>
    obtain ⟨values, hp, ht⟩ := ih
    exact ⟨values, .deeper he hs hp, ht⟩

/-- Each array of references in a list has a failure in a report, under its name and with one of
its references. -/
def LoadReport.Covers (report : LoadReport) (arrays : List (String × List String)) : Prop :=
  ∀ a ∈ arrays, ∃ f ∈ report.failures, f.name = a.1 ∧ f.reference ∈ a.2

namespace LoadReport

variable {a b : LoadReport} {arrays : List (String × List String)}

theorem Covers.append_right (h : a.Covers arrays) (b : LoadReport) : (a ++ b).Covers arrays := by
  intro array harray
  obtain ⟨f, hf, hname⟩ := h array harray
  exact ⟨f, List.mem_append_left _ hf, hname⟩

theorem Covers.append_left (h : b.Covers arrays) (a : LoadReport) : (a ++ b).Covers arrays := by
  intro array harray
  obtain ⟨f, hf, hname⟩ := h array harray
  exact ⟨f, List.mem_append_right _ hf, hname⟩

theorem Covers.eq_nil (h : a.Covers arrays) (hnone : a.failures = []) : arrays = [] := by
  rw [List.eq_nil_iff_forall_not_mem]
  intro array harray
  obtain ⟨f, hf, -⟩ := h array harray
  rw [hnone] at hf
  cases hf

theorem covers_concat {α : Type} {parts : List α} {report : α → LoadReport}
    {arrays : α → List (String × List String)}
    (h : ∀ x ∈ parts, (report x).Covers (arrays x)) :
    (concat (parts.map report)).Covers (parts.flatMap arrays) := by
  intro array harray
  obtain ⟨x, hx, harray⟩ := List.mem_flatMap.1 harray
  obtain ⟨f, hf, hname⟩ := h x hx array harray
  refine ⟨f, ?_, hname⟩
  rw [failures_concat, List.mem_flatMap]
  exact ⟨report x, List.mem_map_of_mem hx, hf⟩

end LoadReport

section Pass

variable {load : Loader} {result : Entry × LoadReport}

/-- A loader that reports the arrays of references which are left in what it loads. -/
def Loader.Accountable (load : Loader) : Prop :=
  ∀ {name text l}, load name text = .ok l → l.2.Covers (l.1.pending name)

theorem Loader.Accountable.covers_of_outcome (hload : load.Accountable)
    (h : Entry.Outcome load (Name.join above name) name values result)
    (hnested : ∀ sub, Value.policy sub ∈ values →
      (sub.resolve load (Name.join above name)).2.Covers
        ((sub.resolve load (Name.join above name)).1.pending (Name.join above name))) :
    result.2.Covers (result.1.pending above) := by
  cases h with
  | @replaced references loaded hne hall =>
    rw [Entry.pending_policies, List.flatMap_map]
    apply LoadReport.Covers.append_right
    apply LoadReport.covers_concat
    intro l hl
    obtain ⟨text, -, ht⟩ := Loader.exists_reference hall hl
    exact hload ht
  | @kept before after reference e loaded hbefore hfail =>
    rw [Entry.pending_files (by simp)]
    apply LoadReport.Covers.append_left
    intro array harray
    obtain rfl := List.mem_singleton.1 harray
    exact ⟨_, List.mem_singleton_self _, rfl, by simp⟩
  | @descended subs =>
    rw [Entry.pending_policies, List.flatMap_map]
    apply LoadReport.covers_concat
    intro sub hs
    exact hnested sub (List.mem_map_of_mem hs)
  | untouched hv =>
    rw [Entry.pending_others hv]
    intro array harray
    cases harray

theorem Policy.WellFormed.covers_resolve (h : p.WellFormed) (hload : load.Accountable) :
    (p.resolve load above).2.Covers ((p.resolve load above).1.pending above) := by
  induction h generalizing above with
  | @intro es unique leaf array nested ih =>
    rw [Policy.resolve_eq, pending_mk, List.flatMap_map]
    apply LoadReport.covers_concat
    rintro ⟨name, values⟩ he
    have hout := Entry.outcome load above name (array _ he)
    exact hload.covers_of_outcome hout fun sub hs => ih _ he sub hs

end Pass

theorem Resolver.accountable_loadNested (r : Resolver) (chain : List Place) :
    ∀ base : Path, Loader.Accountable (r.loadNested chain base) := by
  apply Resolver.chain_induction (r := r) ?_ chain
  intro chain ih base name text l hl
  obtain ⟨o, ho, rfl⟩ := Resolver.loadNested_eq_ok_iff.1 hl
  exact ho.opens.wellFormed.covers_resolve (ih o.place ho.opens.mem_places ho.fresh o.base)

namespace Resolver

theorem wellFormed_loadPolicyFiles (r : Resolver) (base : Path) (h : p.WellFormed) :
    (r.loadPolicyFiles p base).1.WellFormed :=
  (h.refines_resolve (r.refining_loadNested [] base)).wellFormed h

/-- Every array of references that loading leaves, wherever it stands, has a failure under its
dotted name and with one of its references. So no reference is left where no failure is reported,
or where the report counts as no error. -/
theorem covers_loadPolicyFiles (r : Resolver) (base : Path) (p : Policy) (h : p.WellFormed) :
    (∀ path values text, (r.loadPolicyFiles p base).1.HoldsAt path values →
      Value.file text ∈ values → ∃ f ∈ (r.loadPolicyFiles p base).2.failures,
        f.name = Name.ofSegments path ∧ Value.file f.reference ∈ values) ∧
    ((r.loadPolicyFiles p base).2.isComplete = true →
      ∀ path text, ¬(r.loadPolicyFiles p base).1.RefersAt path text) ∧
    ∀ n, (r.loadPolicyFiles p base).2.toResult = .ok n →
      ∀ path text, ¬(r.loadPolicyFiles p base).1.RefersAt path text := by
  have hw := r.wellFormed_loadPolicyFiles base h
  have hcovers : (r.loadPolicyFiles p base).2.Covers ((r.loadPolicyFiles p base).1.pending "") :=
    h.covers_resolve (r.accountable_loadNested [] base)
  have hleft : ∀ path values text, (r.loadPolicyFiles p base).1.HoldsAt path values →
      Value.file text ∈ values → ∃ f ∈ (r.loadPolicyFiles p base).2.failures,
        f.name = Name.ofSegments path ∧ Value.file f.reference ∈ values := by
    intro path values text hp ht
    have hne := List.ne_nil_of_mem (Value.mem_filterMap_file?.2 ht)
    obtain ⟨f, hf, hname, href⟩ := hcovers _ (Policy.mem_pending_of_holdsAt _ hp hne)
    exact ⟨f, hf, hname.trans (hw.foldl_join_eq hp), Value.mem_filterMap_file?.1 href⟩
  have hnone : (r.loadPolicyFiles p base).2.failures = [] →
      ∀ path text, ¬(r.loadPolicyFiles p base).1.RefersAt path text := by
    intro hempty path text href
    obtain ⟨values, hp, ht⟩ := href.holdsAt
    obtain ⟨f, hf, -⟩ := hleft path values text hp ht
    rw [hempty] at hf
    cases hf
  refine ⟨hleft, ?_, ?_⟩
  · intro hcomplete
    exact hnone (List.isEmpty_iff.1 hcomplete)
  · intro n hn
    apply hnone
    unfold LoadReport.toResult at hn
    split at hn
    · assumption
    · cases hn

def brokenFiles : Resolver where
  files :=
    { files :=
        [(["map.json"],
          "\x7b\"legend\": \x7b\"font\": \x7b\"$ref\": \"gone.json\"\x7d\x7d\x7d".toUTF8)]
      directories := [] }
  locator := .table []
  limits := .standard

def brokenTree : Policy :=
  ⟨[⟨"zone", [.policy ⟨[⟨"map", [.file "map.json"]⟩]⟩, .policy .empty]⟩]⟩

theorem covers_loadPolicyFiles_broken :
    brokenTree.WellFormed ∧ ∃ f ∈ (brokenFiles.loadPolicyFiles brokenTree ⟨""⟩).2.failures,
      f.name = "zone.map.legend.font" ∧ f.reference = "gone.json" := by
  have h : brokenTree.WellFormed := by decide
  have hmem : ("zone.map.legend.font", ["gone.json"]) ∈
      (brokenFiles.loadPolicyFiles brokenTree ⟨""⟩).1.pending "" := by decide +kernel
  have hw := brokenFiles.wellFormed_loadPolicyFiles ⟨""⟩ h
  obtain ⟨path, values, hp, heq, -⟩ := hw.mem_pending_iff.1 hmem
  obtain ⟨hname, hvalues⟩ := Prod.mk.inj heq
  have ht : Value.file "gone.json" ∈ values := by
    rw [← Value.mem_filterMap_file?, ← hvalues]
    exact List.mem_singleton_self _
  obtain ⟨f, hf, hdotted, href⟩ :=
    (covers_loadPolicyFiles brokenFiles ⟨""⟩ brokenTree h).1 path values "gone.json" hp ht
  rw [← hw.foldl_join_eq hp, ← hname] at hdotted
  rw [← Value.mem_filterMap_file?, ← hvalues, List.mem_singleton] at href
  exact ⟨h, f, hf, hdotted, href⟩

end Resolver

end PolicyTree
