import PolicyTree.Proofs.Policy.Walk
import PolicyTree.Proofs.Resolver.Pending

namespace PolicyTree

variable {p x y sub : Policy} {load : Loader} {above full leaf name text : String} {v w : Value}
  {values vs : List Value} {path : List String} {base : Path} {r : Resolver}

/-- What a pass that fails nowhere makes of a value. -/
inductive Value.Resolves (load : Loader) (full : String) : Value → Value → Prop
  | file {text : String} {l : Policy × LoadReport} (hl : load full text = .ok l)
      (hnone : l.2.failures = []) : Resolves load full (.file text) (.policy l.1)
  | policy {sub : Policy} (hnone : (sub.resolve load full).2.failures = []) :
      Resolves load full (.policy sub) (.policy (sub.resolve load full).1)
  | other {v : Value} (hfile : v.kind ≠ .file) (hpolicy : v.kind ≠ .policy) :
      Resolves load full v v

theorem Loader.forall₂_resolves {references : List String} {loaded : List (Policy × LoadReport)}
    (hall : references.map (load full) = loaded.map .ok)
    (hnone : ∀ l ∈ loaded, l.2.failures = []) :
    List.Forall₂ (Value.Resolves load full) (references.map .file)
      ((loaded.map Prod.fst).map .policy) := by
  induction references generalizing loaded with
  | nil =>
    obtain rfl : loaded = [] := by simpa using hall
    exact .nil
  | cons text references ih =>
    cases loaded with
    | nil => cases hall
    | cons l loaded =>
      rw [List.map_cons, List.map_cons, List.cons.injEq] at hall
      rw [List.forall_mem_cons] at hnone
      exact .cons (.file hall.1 hnone.1) (ih hall.2 hnone.2)

theorem Entry.forall₂_resolves (h : Value.IsArray values)
    (hnone : ((Entry.mk name values).resolve load above).2.failures = []) :
    List.Forall₂ (Value.Resolves load (Name.join above name)) values
      ((Entry.mk name values).resolve load above).1.values := by
  have hout := Entry.outcome load above name h
  generalize (Entry.mk name values).resolve load above = result at hout hnone
  cases hout with
  | replaced hne hall =>
    rw [LoadReport.failures_append, List.append_nil, LoadReport.failures_concat_eq_nil_iff,
      List.forall_mem_map] at hnone
    exact Loader.forall₂_resolves hall hnone
  | kept => simp at hnone
  | descended =>
    rw [LoadReport.failures_concat_eq_nil_iff, List.forall_mem_map] at hnone
    rw [List.map_map, List.forall₂_map_left_iff, List.forall₂_map_right_iff, List.forall₂_same]
    intro sub hs
    exact .policy (hnone sub hs)
  | untouched hvalues =>
    exact List.forall₂_same.2 fun v hv => .other (hvalues v hv).1 (hvalues v hv).2

namespace Policy

theorem entry?_resolve (load : Loader) (above : String) (p : Policy) (leaf : String) :
    Policy.entry? (p.resolve load above).1 leaf =
      (p.entry? leaf).map fun e => (e.resolve load above).1 := by
  rw [resolve_eq, entry?, List.find?_map]
  congr 2
  funext e
  rw [Function.comp_apply, Entry.name_resolve]

theorem WellFormed.rel_valuesAt?_resolve (h : p.WellFormed)
    (hnone : (p.resolve load above).2.failures = []) (name : String) :
    Option.Rel (List.Forall₂ (Value.Resolves load (Name.join above name))) (p.valuesAt? [name])
      ((p.resolve load above).1.valuesAt? [name]) := by
  rw [Policy.valuesAt?, Policy.valuesAt?, entry?_resolve]
  cases he : p.entry? name with
  | none => exact .none
  | some e =>
    have hmem := mem_of_entry?_eq_some he
    obtain rfl := name_of_entry?_eq_some he
    rw [resolve_eq, LoadReport.failures_concat_eq_nil_iff, List.forall_mem_map] at hnone
    obtain ⟨name, values⟩ := e
    have hall := Entry.forall₂_resolves (h.storable hmem).toIsArray (hnone _ hmem)
    exact .some hall

theorem WellFormed.rel_last?_resolve (h : p.WellFormed)
    (hnone : (p.resolve load above).2.failures = []) (leaf : String) :
    Option.Rel (Value.Resolves load (Name.join above leaf)) (p.last? leaf)
      ((p.resolve load above).1.last? leaf) := by
  have hvalues := h.rel_valuesAt?_resolve hnone leaf
  rw [last?_eq_bind, last?_eq_bind]
  generalize p.valuesAt? [leaf] = vs, (p.resolve load above).1.valuesAt? [leaf] = ws at hvalues
  cases hvalues with
  | none => exact .none
  | some hall => exact rel_getLast? hall

/-- A pass fails nowhere exactly if each value of each array can be resolved. -/
theorem WellFormed.failures_resolve_eq_nil_iff_values (h : p.WellFormed) :
    (p.resolve load above).2.failures = [] ↔ ∀ name vs, p.valuesAt? [name] = some vs →
      ∀ v ∈ vs, ∃ w, Value.Resolves load (Name.join above name) v w := by
  constructor
  · intro hnone name vs hvs v hv
    have hvalues := h.rel_valuesAt?_resolve hnone name
    rw [hvs] at hvalues
    generalize (p.resolve load above).1.valuesAt? [name] = ws at hvalues
    cases hvalues with
    | some hall =>
      obtain ⟨w, -, hvw⟩ := exists_mem_of_forall₂ hall hv
      exact ⟨w, hvw⟩
  · intro hall
    rw [resolve_eq, LoadReport.failures_concat_eq_nil_iff, List.forall_mem_map]
    intro e he
    obtain ⟨name, values⟩ := e
    have hvalues : p.valuesAt? [name] = some values := by
      rw [Policy.valuesAt?, h.entry?_of_mem he, Option.map_some]
    rw [Entry.failures_resolve_eq_nil_iff (h.storable he).toIsArray]
    constructor
    · intro text ht
      obtain ⟨w, hw⟩ := hall name values hvalues _ ht
      cases hw with
      | file hl hnone => exact ⟨_, hl, hnone⟩
      | other hfile => exact absurd rfl hfile
    · intro sub hs
      obtain ⟨w, hw⟩ := hall name values hvalues _ hs
      cases hw with
      | policy hnone => exact hnone
      | other _ hpolicy => exact absurd rfl hpolicy

theorem WellFormed.subAt?_resolve (h : p.WellFormed)
    (hnone : (p.resolve load above).2.failures = []) (hx : p.subAt? path = some x) :
    ∃ name, (p.resolve load above).1.subAt? path = some (x.resolve load name).1 ∧
      (x.resolve load name).2.failures = [] := by
  induction path generalizing p above with
  | nil =>
    obtain rfl := Option.some.inj hx
    exact ⟨above, rfl, hnone⟩
  | cons seg path ih =>
    obtain ⟨sub, hsub, hrest⟩ := subAt?_cons_eq_some_iff.1 hx
    have hlast := h.rel_last?_resolve hnone seg
    rw [child?_eq_some_iff.1 hsub] at hlast
    generalize hv : (p.resolve load above).1.last? seg = v at hlast
    cases hlast with
    | some hresolves =>
      cases hresolves with
      | policy hsubnone =>
        obtain ⟨name, hy, hynone⟩ := ih (h.child? hsub) hsubnone hrest
        exact ⟨name, subAt?_cons_eq_some_iff.2 ⟨_, child?_eq_some_iff.2 hv, hy⟩, hynone⟩
      | other _ hpolicy => exact absurd rfl hpolicy

/-- Where a walk leads after a pass: to what the pass made of the policy that it led to before, or
into a policy that was loaded for a reference. -/
theorem WellFormed.subAt?_resolve_cases (h : p.WellFormed)
    (hnone : (p.resolve load above).2.failures = [])
    (hy : (p.resolve load above).1.subAt? path = some y) :
    (∃ x name, p.subAt? path = some x ∧ (x.resolve load name).2.failures = [] ∧
        y = (x.resolve load name).1) ∨
      ∃ front leaf rest x text name l, path = front ++ leaf :: rest ∧ p.subAt? front = some x ∧
        x.last? leaf = some (.file text) ∧ load name text = .ok l ∧ l.2.failures = [] ∧
        l.1.subAt? rest = some y := by
  induction path generalizing p above with
  | nil => exact .inl ⟨p, above, rfl, hnone, (Option.some.inj hy).symm⟩
  | cons seg path ih =>
    obtain ⟨sub', hsub', hrest⟩ := subAt?_cons_eq_some_iff.1 hy
    have hlast := h.rel_last?_resolve hnone seg
    rw [child?_eq_some_iff.1 hsub'] at hlast
    generalize hu : p.last? seg = u at hlast
    cases hlast with
    | some hresolves =>
      cases hresolves with
      | @file text l hl hlnone =>
        exact .inr ⟨[], seg, path, p, text, _, l, rfl, rfl, hu, hl, hlnone, hrest⟩
      | @policy sub hsubnone =>
        have hsub := child?_eq_some_iff.2 hu
        rcases ih (h.child? hsub) hsubnone hrest with
          ⟨x, name, hx, hxnone, rfl⟩ | ⟨front, leaf, rest, x, text, name, l, rfl, hx, htext⟩
        · exact .inl ⟨x, name, subAt?_cons_eq_some_iff.2 ⟨sub, hsub, hx⟩, hxnone, rfl⟩
        · exact .inr ⟨seg :: front, leaf, rest, x, text, name, l, rfl,
            subAt?_cons_eq_some_iff.2 ⟨sub, hsub, hx⟩, htext⟩
      | other _ hpolicy => exact absurd rfl hpolicy

theorem exists_mem_of_valuesAt? (h : p.valuesAt? [name] = some values) :
    ∃ e ∈ p.entries, e.name = name ∧ e.values = values := by
  obtain ⟨e, he, rfl⟩ := Option.map_eq_some_iff.1 h
  exact ⟨e, mem_of_entry?_eq_some he, name_of_entry?_eq_some he, rfl⟩

theorem refersAt_file (h : p.valuesAt? [name] = some values) (ht : Value.file text ∈ values) :
    p.RefersAt [name] text := by
  obtain ⟨e, he, rfl, rfl⟩ := exists_mem_of_valuesAt? h
  obtain ⟨es⟩ := p
  exact .file he ht

theorem refersAt_policy (h : p.valuesAt? [name] = some values) (hs : Value.policy sub ∈ values)
    (href : sub.RefersAt path text) : p.RefersAt (name :: path) text := by
  obtain ⟨e, he, rfl, rfl⟩ := exists_mem_of_valuesAt? h
  obtain ⟨es⟩ := p
  exact .policy he hs href

theorem WellFormed.refersAt_iff_valuesAt? (h : p.WellFormed) :
    p.RefersAt path text ↔ ∃ name values, p.valuesAt? [name] = some values ∧
      ((path = [name] ∧ .file text ∈ values) ∨ ∃ sub rest, .policy sub ∈ values ∧
        path = name :: rest ∧ sub.RefersAt rest text) := by
  constructor
  · intro href
    obtain ⟨es⟩ := p
    obtain ⟨e, he, hcase⟩ := refersAt_iff.1 href
    refine ⟨e.name, e.values, ?_, hcase⟩
    rw [Policy.valuesAt?, h.entry?_of_mem he, Option.map_some]
  · rintro ⟨name, values, hvalues, ⟨rfl, ht⟩ | ⟨sub, rest, hs, rfl, href⟩⟩
    · exact refersAt_file hvalues ht
    · exact refersAt_policy hvalues hs href

theorem refersAt_of_subAt? {rest : List String} (hx : p.subAt? path = some x)
    (href : x.RefersAt rest text) : p.RefersAt (path ++ rest) text := by
  induction path generalizing p with
  | nil =>
    obtain rfl := Option.some.inj hx
    exact href
  | cons seg path ih =>
    obtain ⟨sub, hsub, hrest⟩ := subAt?_cons_eq_some_iff.1 hx
    obtain ⟨front, hfront⟩ := valuesAt?_of_last? (child?_eq_some_iff.1 hsub)
    exact refersAt_policy hfront (by simp) (ih hrest)

theorem refersAt_of_last? (hx : p.subAt? path = some x) (hlast : x.last? leaf = some (.file text)) :
    p.RefersAt (path ++ [leaf]) text := by
  obtain ⟨front, hfront⟩ := valuesAt?_of_last? hlast
  exact refersAt_of_subAt? hx (refersAt_file hfront (by simp))

/-- A pass without failures leaves no references. -/
theorem WellFormed.not_refersAt_resolve (h : p.WellFormed) {chain : List Place}
    (hnone : (p.resolve (r.loadNested chain base) above).2.failures = []) (path : List String)
    (text : String) : ¬(p.resolve (r.loadNested chain base) above).1.RefersAt path text := by
  intro href
  obtain ⟨values, hp, ht⟩ := href.holdsAt
  have hcovers : (p.resolve (r.loadNested chain base) above).2.Covers
      ((p.resolve (r.loadNested chain base) above).1.pending above) :=
    h.covers_resolve fun hl => r.accountable_loadNested chain base hl
  have hmem := mem_pending_of_holdsAt above hp (List.ne_nil_of_mem (Value.mem_filterMap_file?.2 ht))
  rw [hcovers.eq_nil hnone] at hmem
  cases hmem

end Policy

end PolicyTree
