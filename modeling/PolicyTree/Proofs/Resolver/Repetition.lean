import PolicyTree.Proofs.Resolver.Accounting

namespace PolicyTree

variable {load : Loader} {above name text : String} {values : List Value} {p p' : Policy}
  {path : List String} {r : Resolver} {chain : List Place} {base b : Path}

/-- A pass leaves an array of references alone if one of them fails to load. -/
def Loader.Halts (load : Loader) (a : String × List String) : Prop :=
  ∃ text ∈ a.2, ∃ e, load a.1 text = .error e

theorem Entry.Outcome.eq_self_iff {result : Entry × LoadReport}
    (h : Outcome load (Name.join above name) name values result)
    (hnested : ∀ sub, Value.policy sub ∈ values →
      ((sub.resolve load (Name.join above name)).1 = sub ↔
        ∀ a ∈ sub.pending (Name.join above name), load.Halts a)) :
    result.1 = ⟨name, values⟩ ↔ ∀ a ∈ (Entry.mk name values).pending above, load.Halts a := by
  cases h with
  | @replaced references loaded hne hall =>
    rw [Entry.pending_files hne, List.forall_mem_singleton]
    obtain ⟨first, rest, rfl⟩ := List.exists_cons_of_ne_nil hne
    constructor
    · intro heq
      have hvalues := congrArg Entry.values heq
      cases loaded with
      | nil => cases hall
      | cons l loaded => cases (List.cons.inj hvalues).1
    · rintro ⟨text, ht, e, he⟩
      obtain ⟨l, -, hl⟩ := Loader.exists_loaded hall ht
      rw [he] at hl
      cases hl
  | @kept before after reference e loaded hbefore hfail =>
    rw [Entry.pending_files (by simp), List.forall_mem_singleton]
    exact iff_of_true rfl ⟨reference, by simp, e, hfail⟩
  | @descended subs =>
    have hself : Entry.mk name
          ((subs.map fun sub => (sub.resolve load (Name.join above name)).1).map .policy) =
            ⟨name, subs.map .policy⟩ ↔
        ∀ sub ∈ subs, (sub.resolve load (Name.join above name)).1 = sub := by
      rw [Entry.mk.injEq, and_iff_right rfl, (List.map_injective_iff.2 Value.policy_injective).eq_iff,
        map_eq_self_iff]
    rw [hself, Entry.pending_policies, List.forall_mem_flatMap]
    exact forall₂_congr fun sub hs => hnested sub (List.mem_map_of_mem hs)
  | untouched hv =>
    rw [Entry.pending_others hv]
    exact iff_of_true rfl fun a ha => (List.not_mem_nil ha).elim

theorem Policy.WellFormed.resolve_eq_self_iff (h : p.WellFormed) :
    (p.resolve load above).1 = p ↔ ∀ a ∈ p.pending above, load.Halts a := by
  induction h generalizing above with
  | @intro es unique leaf array nested ih =>
    rw [Policy.resolve_eq, Policy.mk.injEq, map_eq_self_iff, pending_mk, List.forall_mem_flatMap]
    apply forall₂_congr
    rintro ⟨name, values⟩ he
    have hout := Entry.outcome load above name (array _ he)
    exact hout.eq_self_iff fun sub hs => ih _ he sub hs

namespace Resolver

theorem exists_error_iff :
    (∃ e, r.loadNested chain base name text = .error e) ↔ ∀ o, ¬r.Loads chain base text o := by
  constructor
  · rintro ⟨e, he⟩ o
    exact not_loads_of_error he
  · intro hnone
    cases hl : r.loadNested chain base name text with
    | error e => exact ⟨e, rfl⟩
    | ok l =>
      obtain ⟨o, ho, -⟩ := loadNested_eq_ok_iff.1 hl
      exact absurd ho (hnone o)

/-- In each array of references in a policy, one cannot be loaded from a base and in no file. -/
def Stuck (r : Resolver) (p : Policy) (base : Path) : Prop :=
  ∀ path values, p.HoldsAt path values → (∃ text, Value.file text ∈ values) →
    ∃ text, Value.file text ∈ values ∧ ∀ o, ¬r.Loads [] base text o

theorem stuck_iff (h : p.WellFormed) :
    r.Stuck p base ↔ ∀ a ∈ p.pending "", Loader.Halts (r.loadNested [] base) a := by
  constructor
  · intro hstuck a ha
    obtain ⟨path, values, hp, rfl, hne⟩ := h.mem_pending_iff.1 ha
    obtain ⟨text, ht⟩ := List.exists_mem_of_ne_nil _ hne
    obtain ⟨failing, hf, hnone⟩ := hstuck path values hp ⟨text, Value.mem_filterMap_file?.1 ht⟩
    exact ⟨failing, Value.mem_filterMap_file?.2 hf, exists_error_iff.2 hnone⟩
  · rintro hall path values hp ⟨text, ht⟩
    have hne := List.ne_nil_of_mem (Value.mem_filterMap_file?.2 ht)
    obtain ⟨failing, hf, he⟩ := hall _ (Policy.mem_pending_of_holdsAt _ hp hne)
    exact ⟨failing, Value.mem_filterMap_file?.1 hf, exists_error_iff.1 he⟩

theorem loadPolicyFiles_eq_self_iff (h : p.WellFormed) :
    (r.loadPolicyFiles p base).1 = p ↔ r.Stuck p base := by
  rw [stuck_iff h]
  exact h.resolve_eq_self_iff

/-- A reference in a chain of files that cannot be loaded there cannot be loaded from the base of
the whole tree either. -/
def Settled (r : Resolver) (p : Policy) (base : Path) : Prop :=
  ∀ chain q b, r.Chain p base chain q b → ∀ path text, q.RefersAt path text →
    (∀ o, ¬r.Loads chain b text o) → ∀ o, ¬r.Loads [] base text o

/-- An array of references that is left was in the tree or in a file at the end of a chain, and one
of its references could not be loaded there. -/
theorem exists_chain_of_holdsAt {start : Policy} (h : p'.HoldsAt path values)
    (hfile : ∃ text, Value.file text ∈ values) :
    ∀ {chain : List Place} {p q : Policy} {b : Path} {t : Tally},
      p.Tallied r chain b p' t → r.Chain start base chain q b →
      (∀ way text, p.RefersAt way text → ∃ way, q.RefersAt way text) →
      ∃ chain q b, r.Chain start base chain q b ∧ ∃ text way, Value.file text ∈ values ∧
        q.RefersAt way text ∧ ∀ o, ¬r.Loads chain b text o := by
  induction h with
  | @here es' e' he' =>
    rintro chain p q b t (@⟨_, _, es, result, tally, names, arrays⟩) hc hin
    obtain ⟨e, he, rfl⟩ := List.mem_map.1 he'
    obtain ⟨text, ht⟩ := hfile
    obtain ⟨failing, hleft, hheld, hnone⟩ := (arrays e he).exists_of_file ht
    obtain ⟨way, hq⟩ := hin _ failing (.file he hheld)
    exact ⟨chain, q, b, hc, failing, way, hleft, hq, hnone⟩
  | @deeper es' e' sub' path values he' hs' h ih =>
    rintro chain p q b t (@⟨_, _, es, result, tally, names, arrays⟩) hc hin
    obtain ⟨e, he, rfl⟩ := List.mem_map.1 he'
    rcases (arrays e he).exists_of_policy hs' with
      ⟨sub, t, hs, htallied⟩ | ⟨text, t, ht, o, ho, htallied⟩
    · exact ih hfile htallied hc fun way text hway => hin _ text (.policy he hs hway)
    · obtain ⟨way, hq⟩ := hin _ text (.file he ht)
      exact ih hfile htallied (hc.next hq ho.opens) fun way text hway => ⟨way, hway⟩

/-- What is left of a settled tree cannot be loaded the second time. -/
theorem Settled.stuck (h : r.Settled p base) (hp : p.WellFormed) :
    r.Stuck (r.loadPolicyFiles p base).1 base := by
  intro path values hheld hfile
  obtain ⟨t, htallied, -⟩ := hp.accounts_resolve "" (r.tallying_loadNested [] base)
  obtain ⟨chain, q, b, hc, text, way, ht, href, hnone⟩ :=
    exists_chain_of_holdsAt hheld hfile htallied .start fun way text hway => ⟨way, hway⟩
  exact ⟨text, ht, h chain q b hc way text href hnone⟩

/-- Loading a tree a second time, with the same files and the same base, leaves it as it is exactly
if no array of references that is left can be loaded from that base alone. Then nothing counts as
loaded, and the same references fail, where each array holds a single one. A tree without
references is always left as it is. -/
theorem loadPolicyFiles_again (r : Resolver) (base : Path) (p : Policy) (h : p.WellFormed)
    {first second : Policy × LoadReport} (hfirst : r.loadPolicyFiles p base = first)
    (hsecond : r.loadPolicyFiles first.1 base = second) :
    (second.1 = first.1 ↔ r.Stuck first.1 base) ∧
      (r.Settled p base → second.1 = first.1) ∧
      (second.1 = first.1 → first.1.Lone → second.2.loaded = 0 ∧
        second.2.failures.map (fun f => (f.name, f.reference)) =
          first.2.failures.map (fun f => (f.name, f.reference))) ∧
      (first.2.isComplete = true → second = (first.1, .empty)) := by
  have hw : first.1.WellFormed := hfirst ▸ r.wellFormed_loadPolicyFiles base h
  have hiff : second.1 = first.1 ↔ r.Stuck first.1 base :=
    hsecond ▸ loadPolicyFiles_eq_self_iff hw
  obtain ⟨t, htallied, haccounts⟩ :
      ∃ t, p.Tallied r [] base first.1 t ∧ first.2.Accounts t (first.1.pending "") :=
    hfirst ▸ h.accounts_resolve "" (r.tallying_loadNested [] base)
  obtain ⟨t', htallied', haccounts'⟩ :
      ∃ t, first.1.Tallied r [] base second.1 t ∧ second.2.Accounts t (second.1.pending "") :=
    hsecond ▸ hw.accounts_resolve "" (r.tallying_loadNested [] base)
  have hagain : second.1 = first.1 → first.1.Lone → second.2.loaded = 0 ∧
      second.2.failures.map (fun f => (f.name, f.reference)) =
        first.2.failures.map (fun f => (f.name, f.reference)) := by
    intro hsame hlone
    have hone := (hw.lone_iff "").1 hlone
    have hreplaced := htallied'.replaced_eq_zero hsame
    rw [hsame] at haccounts'
    have hwasted := (haccounts'.exact hone).1
    exact ⟨by rw [haccounts'.loaded_eq, Tally.all, hreplaced, hwasted],
      haccounts.failures_eq haccounts' hone⟩
  refine ⟨hiff, ?_, hagain, ?_⟩
  · intro hsettled
    rw [hiff, ← hfirst]
    exact hsettled.stuck h
  · intro hcomplete
    have hnone : first.2.failures = [] := List.isEmpty_iff.1 hcomplete
    have hcovers : first.2.Covers (first.1.pending "") :=
      hfirst ▸ h.covers_resolve (r.accountable_loadNested [] base)
    have hpending := hcovers.eq_nil hnone
    have hsame : second.1 = first.1 := by
      rw [hiff, stuck_iff hw, hpending]
      exact fun a ha => (List.not_mem_nil ha).elim
    have hlone : first.1.Lone := by
      rw [hw.lone_iff "", hpending]
      exact fun a ha => (List.not_mem_nil ha).elim
    obtain ⟨hloaded, hfailures⟩ := hagain hsame hlone
    rw [hnone, List.map_nil, List.map_eq_nil_iff] at hfailures
    obtain ⟨tree, loaded, failures⟩ := second
    subst hsame hloaded hfailures
    rfl

theorem loadPolicyFiles_again_sharing :
    sharingTree.WellFormed ∧
      sharingFiles.loadPolicyFiles (sharingFiles.loadPolicyFiles sharingTree ⟨""⟩).1 ⟨""⟩ =
        ((sharingFiles.loadPolicyFiles sharingTree ⟨""⟩).1, .empty) := by
  have h : sharingTree.WellFormed := by decide
  obtain ⟨-, -, -, hcomplete⟩ := loadPolicyFiles_again sharingFiles ⟨""⟩ sharingTree h rfl rfl
  exact ⟨h, hcomplete (by decide +kernel)⟩

def ringFiles : Resolver where
  files :=
    { files := [(["ring.json"], "\x7b\"next\": \x7b\"$ref\": \"ring.json\"\x7d\x7d".toUTF8)]
      directories := [] }
  locator := .table []
  limits := .standard

def ringTree : Policy :=
  ⟨[⟨"start", [.file "ring.json"]⟩]⟩

/-- A reference that closes a ring fails only as long as the file around it is being loaded, and so
each time one more file is loaded. -/
theorem loadPolicyFiles_again_ring :
    (ringFiles.loadPolicyFiles ringTree ⟨""⟩).2.failures.map LoadFailure.name = ["start.next"] ∧
      (ringFiles.loadPolicyFiles (ringFiles.loadPolicyFiles ringTree ⟨""⟩).1 ⟨""⟩).2.loaded = 1 ∧
      (ringFiles.loadPolicyFiles (ringFiles.loadPolicyFiles ringTree ⟨""⟩).1 ⟨""⟩).2.failures.map
        LoadFailure.name = ["start.next.next"] ∧
      ((ringFiles.loadPolicyFiles (ringFiles.loadPolicyFiles ringTree ⟨""⟩).1 ⟨""⟩).1 ==
        (ringFiles.loadPolicyFiles ringTree ⟨""⟩).1) = false := by
  decide +kernel

end Resolver

end PolicyTree
