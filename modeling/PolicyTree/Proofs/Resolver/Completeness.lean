import PolicyTree.Proofs.Resolver.Refinement

namespace PolicyTree

/-- A reference stands in a policy, at any depth and in any element of an array, under the names
of a path. -/
inductive Policy.RefersAt : Policy → List String → String → Prop
  | file {es : List Entry} {e : Entry} {text : String} (he : e ∈ es)
      (ht : Value.file text ∈ e.values) : RefersAt ⟨es⟩ [e.name] text
  | policy {es : List Entry} {e : Entry} {sub : Policy} {path : List String} {text : String}
      (he : e ∈ es) (hs : Value.policy sub ∈ e.values) (h : RefersAt sub path text) :
      RefersAt ⟨es⟩ (e.name :: path) text

/-- A chain of files: a reference in the policy opens the first one, and a reference in each file
the next one. The places of the files stand in reverse order, before the policy in the last file
and the base of the references in it. -/
inductive Resolver.Chain (r : Resolver) (p : Policy) (base : Path) :
    List Place → Policy → Path → Prop
  | start : Chain r p base [] p base
  | next {chain : List Place} {q : Policy} {b : Path} {path : List String} {text : String}
      {o : Opened} (h : Chain r p base chain q b) (hr : q.RefersAt path text)
      (ho : r.Opens b text o) : Chain r p base (o.place :: chain) o.policy o.base

variable {r : Resolver} {p q : Policy} {base b : Path} {load : Loader} {above : String}
  {chain : List Place}

namespace Entry

theorem failures_resolve_eq_nil_iff {name : String} {values : List Value}
    (h : Value.IsArray values) :
    ((Entry.mk name values).resolve load above).2.failures = [] ↔
      (∀ text, Value.file text ∈ values →
        ∃ l, load (Name.join above name) text = .ok l ∧ l.2.failures = []) ∧
      ∀ sub, Value.policy sub ∈ values →
        (sub.resolve load (Name.join above name)).2.failures = [] := by
  cases h.passShape with
  | @files references hne =>
    rw [Entry.resolve_files hne, load.failures_replace_eq_nil_iff]
    simp
  | @policies subs hne =>
    rw [Entry.resolve_policies, LoadReport.failures_concat_eq_nil_iff]
    simp
  | others hv =>
    rw [Entry.resolve_others hv]
    refine ⟨fun _ => ⟨fun text ht => ?_, fun sub hs => ?_⟩, fun _ => rfl⟩
    · exact absurd rfl (hv _ ht).1
    · exact absurd rfl (hv _ hs).2

end Entry

namespace Policy

theorem refersAt_iff {es : List Entry} {path : List String} {text : String} :
    RefersAt ⟨es⟩ path text ↔
      ∃ e ∈ es, (path = [e.name] ∧ Value.file text ∈ e.values) ∨
        ∃ sub rest, Value.policy sub ∈ e.values ∧ path = e.name :: rest ∧
          sub.RefersAt rest text := by
  constructor
  · intro h
    cases h with
    | @file _ e _ he ht => exact ⟨e, he, .inl ⟨rfl, ht⟩⟩
    | @policy _ e sub rest _ he hs h => exact ⟨e, he, .inr ⟨sub, rest, hs, rfl, h⟩⟩
  · rintro ⟨e, he, ⟨rfl, ht⟩ | ⟨sub, rest, hs, rfl, h⟩⟩
    · exact .file he ht
    · exact .policy he hs h

/-- A pass fails nowhere exactly if each reference in the policy is loaded without failures, under
the dotted name of its path. -/
theorem WellFormed.failures_resolve_eq_nil_iff (h : p.WellFormed) :
    (p.resolve load above).2.failures = [] ↔
      ∀ path text, p.RefersAt path text →
        ∃ l, load (path.foldl Name.join above) text = .ok l ∧ l.2.failures = [] := by
  induction h generalizing above with
  | @intro es unique leaf array nested ih =>
    rw [Policy.resolve_eq, LoadReport.failures_concat_eq_nil_iff, List.forall_mem_map]
    constructor
    · intro h path text href
      obtain ⟨e, he, hcases⟩ := refersAt_iff.1 href
      obtain ⟨name, values⟩ := e
      obtain ⟨hfiles, hsubs⟩ :=
        (Entry.failures_resolve_eq_nil_iff (array ⟨name, values⟩ he)).1 (h ⟨name, values⟩ he)
      rcases hcases with ⟨rfl, ht⟩ | ⟨sub, rest, hs, rfl, ht⟩
      · exact hfiles text ht
      · exact (ih ⟨name, values⟩ he sub hs).1 (hsubs sub hs) rest text ht
    · rintro h ⟨name, values⟩ he
      rw [Entry.failures_resolve_eq_nil_iff (array ⟨name, values⟩ he)]
      constructor
      · intro text ht
        exact h [name] text (.file he ht)
      · intro sub hs
        rw [ih ⟨name, values⟩ he sub hs]
        intro rest text ht
        exact h (name :: rest) text (.policy he hs ht)

end Policy

namespace Resolver

theorem Opens.unique {text : String} {o o' : Opened} (h : r.Opens base text o)
    (h' : r.Opens base text o') : o = o' := by
  obtain ⟨file, content, hd, hread, hparse⟩ := h
  obtain ⟨file', content', hd', hread', hparse'⟩ := h'
  have hl := (locate_eq_ok_iff.2 hd).symm.trans (locate_eq_ok_iff.2 hd')
  obtain ⟨hfile, hbase⟩ := Located.mk.inj (Except.ok.inj hl)
  subst hfile
  rw [hread] at hread'
  obtain ⟨hplace, rfl⟩ := Prod.mk.inj (Except.ok.inj hread')
  rw [hparse] at hparse'
  cases o
  cases o'
  simp_all

theorem Chain.wellFormed (h : r.Chain p base chain q b) (hp : p.WellFormed) : q.WellFormed := by
  cases h with
  | start => exact hp
  | next h hr ho => exact ho.wellFormed

/-- A pass without failures passes through every chain. -/
theorem Chain.failures_eq_nil (h : r.Chain p base chain q b) (hp : p.WellFormed)
    (hnone : (r.loadPolicyFiles p base).2.failures = []) :
    ∃ name, (q.resolve (r.loadNested chain b) name).2.failures = [] := by
  induction h with
  | start => exact ⟨"", hnone⟩
  | @next chain q b path text o h hr ho ih =>
    obtain ⟨name, hq⟩ := ih
    obtain ⟨l, hl, hempty⟩ := (h.wellFormed hp).failures_resolve_eq_nil_iff.1 hq path text hr
    obtain ⟨o', ho', rfl⟩ := loadNested_eq_ok_iff.1 hl
    obtain rfl := ho.unique ho'.opens
    exact ⟨_, hempty⟩

/-- What every file on a chain, and the reference after the last one, must satisfy. -/
def ChainsOpen (r : Resolver) (p : Policy) (base : Path) : Prop :=
  ∀ chain q b, r.Chain p base chain q b → ∀ path text, q.RefersAt path text →
    ∃ o, r.Loads chain b text o

theorem ChainsOpen.failures_eq_nil (hall : r.ChainsOpen p base) (hp : p.WellFormed)
    (chain : List Place) :
    ∀ {q : Policy} {b : Path} {name : String}, r.Chain p base chain q b →
      (q.resolve (r.loadNested chain b) name).2.failures = [] := by
  apply chain_induction (r := r) ?_ chain
  intro chain ih q b name hc
  rw [(hc.wellFormed hp).failures_resolve_eq_nil_iff]
  intro path text ht
  obtain ⟨o, ho⟩ := hall chain q b hc path text ht
  refine ⟨_, loadNested_eq_ok_iff.2 ⟨o, ho, rfl⟩, ?_⟩
  exact ih o.place ho.opens.mem_places ho.fresh (hc.next ht ho.opens)

/-- Loading the files of a tree fails nowhere exactly if all chains of references in it can be
followed; a file that is reached from within itself is a failure. -/
theorem failures_loadPolicyFiles_eq_nil_iff (r : Resolver) (base : Path) (p : Policy)
    (h : p.WellFormed) :
    ((r.loadPolicyFiles p base).2.failures = [] ↔ r.ChainsOpen p base) ∧
      ∀ chain q b path text o, r.Chain p base chain q b → q.RefersAt path text →
        r.Opens b text o → o.place ∈ chain → (r.loadPolicyFiles p base).2.failures ≠ [] := by
  have hiff : (r.loadPolicyFiles p base).2.failures = [] ↔ r.ChainsOpen p base := by
    constructor
    · intro hnone chain q b hc path text ht
      obtain ⟨name, hq⟩ := hc.failures_eq_nil h hnone
      obtain ⟨l, hl, -⟩ := (hc.wellFormed h).failures_resolve_eq_nil_iff.1 hq path text ht
      obtain ⟨o, ho, -⟩ := loadNested_eq_ok_iff.1 hl
      exact ⟨o, ho⟩
    · intro hall
      exact hall.failures_eq_nil h [] .start
  refine ⟨hiff, ?_⟩
  intro chain q b path text o hc ht ho hmem hnone
  obtain ⟨o', ho'⟩ := hiff.1 hnone chain q b hc path text ht
  rw [ho.unique ho'.opens] at hmem
  exact ho'.fresh hmem

/-- A file that two chains have in common is no obstacle. -/
theorem failures_loadPolicyFiles_eq_nil_iff_sharing :
    sharingTree.WellFormed ∧ sharingFiles.ChainsOpen sharingTree ⟨""⟩ :=
  ⟨by decide, (failures_loadPolicyFiles_eq_nil_iff sharingFiles ⟨""⟩ sharingTree
    (by decide)).1.1 (by decide +kernel)⟩

end Resolver

end PolicyTree
