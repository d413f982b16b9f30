import PolicyTree.Proofs.Policy.Lister

namespace PolicyTree

namespace Policy

variable {p q sub : Policy} {e : Entry} {es : List Entry} {n name : String}
  {path rest segs : List String} {f : NameFilter} {v : Value}

/-- The order of the tree on paths: a path precedes those below it, and where two part, the one with
the earlier entry precedes the other. -/
inductive Precedes (p : Policy) : List String → List String → Prop
  | parent {path rest : List String} (hne : rest ≠ []) : Precedes p path (path ++ rest)
  | sibling {q : Policy} {path as bs : List String} {s t : String} (hq : p.subAt? path = some q)
      (hst : [s, t].Sublist (q.entries.map Entry.name)) :
      Precedes p (path ++ s :: as) (path ++ t :: bs)

theorem Precedes.cons {as bs : List String} (h : sub.Precedes as bs)
    (hsub : p.child? name = some sub) : p.Precedes (name :: as) (name :: bs) := by
  cases h with
  | parent hne => exact .parent hne
  | @sibling q path as bs s t hq hst =>
    rw [← List.cons_append, ← List.cons_append]
    exact .sibling (subAt?_cons_eq_some_iff.2 ⟨sub, hsub, hq⟩) hst

theorem eq_of_parting {front as bs cs ds : List String} {a b s t : String} (hab : a ≠ b)
    (hst : s ≠ t) (h : front ++ a :: as = path ++ s :: cs)
    (h' : front ++ b :: bs = path ++ t :: ds) : front = path ∧ a = s ∧ b = t := by
  induction front generalizing path with
  | nil =>
    cases path with
    | nil => exact ⟨rfl, (List.cons.inj h).1, (List.cons.inj h').1⟩
    | cons seg path => exact absurd ((List.cons.inj h).1.trans (List.cons.inj h').1.symm) hab
  | cons seg front ih =>
    cases path with
    | nil => exact absurd ((List.cons.inj h).1.symm.trans (List.cons.inj h').1) hst
    | cons next path =>
      obtain ⟨rfl, hrest⟩ := List.cons.inj h
      obtain ⟨rfl, hs, ht⟩ := ih hrest (List.cons.inj h').2
      exact ⟨rfl, hs, ht⟩

/-- Where two paths part, the order of the entries decides. -/
theorem WellFormed.precedes_iff (h : p.WellFormed) {as bs : List String} {s t : String}
    (hq : p.subAt? path = some q) (hne : s ≠ t) :
    p.Precedes (path ++ s :: as) (path ++ t :: bs) ↔ [s, t].Sublist (q.entries.map Entry.name) := by
  refine ⟨fun hprecedes => ?_, .sibling hq⟩
  generalize hl : path ++ s :: as = l, hr : path ++ t :: bs = r at hprecedes
  cases hprecedes with
  | @parent l rest =>
    rw [← hl, List.append_assoc, List.append_cancel_left_eq] at hr
    exact absurd (List.cons.inj hr).1.symm hne
  | @sibling q' path' as' bs' s' t' hq' hst =>
    have hne' : s' ≠ t' := by
      rintro rfl
      exact List.nodup_iff_sublist.1 (h.subAt? hq').unique s' hst
    obtain ⟨rfl, rfl, rfl⟩ := eq_of_parting hne hne' hl hr
    obtain rfl := Option.some.inj (hq.symm.trans hq')
    exact hst

/-- The paths are in the order of the tree. Induction on the tree: from one entry go its own path
and those through its last sub-policy, and paths from two entries part at once. -/
theorem WellFormed.pairwise_precedes_paths (h : p.WellFormed) : p.paths.Pairwise p.Precedes := by
  induction h with
  | @intro es unique leaf array nested ih =>
    have hw : WellFormed ⟨es⟩ := .intro unique leaf array nested
    rw [paths, Entry.pathsAll_eq, List.pairwise_flatMap]
    constructor
    · rintro ⟨name, values⟩ he
      rw [Entry.paths, List.pairwise_cons, List.forall_mem_map, List.pairwise_map,
        Value.pathsOfLast_eq]
      cases hl : values.getLast? with
      | none => exact ⟨fun _ h => absurd h List.not_mem_nil, .nil⟩
      | some v =>
        cases v with
        | policy sub =>
          have hchild : Policy.child? ⟨es⟩ name = some sub :=
            child?_eq_some_iff.2 (last?_eq_some_iff.2 ⟨_, hw.entry?_of_mem he, hl⟩)
          refine ⟨fun path hpath => ?_, ?_⟩
          · rw [← List.singleton_append]
            exact .parent (ne_nil_of_mem_paths hpath)
          · exact (ih _ he sub (List.mem_of_getLast? hl)).imp fun h => h.cons hchild
        | undefined | bool | int | double | string | file =>
          exact ⟨fun _ h => absurd h List.not_mem_nil, .nil⟩
    · rw [List.pairwise_iff_forall_sublist]
      intro e f hef path hpath path' hpath'
      have hst : [e.name, f.name].Sublist (es.map Entry.name) := hef.map Entry.name
      have hhead : ∀ {e : Entry} {path : List String}, path ∈ e.paths →
          ∃ rest, path = e.name :: rest := by
        intro e path he
        rcases Entry.mem_paths_iff.1 he with rfl | ⟨sub, rest, -, -, rfl⟩
        · exact ⟨[], rfl⟩
        · exact ⟨rest, rfl⟩
      obtain ⟨as, rfl⟩ := hhead hpath
      obtain ⟨bs, rfl⟩ := hhead hpath'
      have hroot : Policy.subAt? ⟨es⟩ [] = some ⟨es⟩ := rfl
      exact .sibling hroot hst

theorem paths_eq_append (hsub : p.subAt? path = some sub) (hne : path ≠ []) :
    ∃ before after, p.paths = before ++ path :: sub.paths.map (path ++ ·) ++ after := by
  induction path generalizing p with
  | nil => exact absurd rfl hne
  | cons name rest ih =>
    obtain ⟨child, hchild, hrest⟩ := subAt?_cons_eq_some_iff.1 hsub
    obtain ⟨⟨seg, values⟩, hentry, hl⟩ := last?_eq_some_iff.1 (child?_eq_some_iff.1 hchild)
    obtain rfl := name_of_entry?_eq_some hentry
    obtain ⟨es⟩ := p
    obtain ⟨front, back, rfl⟩ := List.append_of_mem (mem_of_entry?_eq_some hentry)
    have hpaths : paths ⟨front ++ ⟨seg, values⟩ :: back⟩ = front.flatMap Entry.paths ++
        ([seg] :: child.paths.map (seg :: ·)) ++ back.flatMap Entry.paths := by
      rw [paths, Entry.pathsAll_eq, List.flatMap_append, List.flatMap_cons, Entry.paths,
        Value.pathsOfLast_eq, hl, List.append_assoc]
      rfl
    rw [hpaths]
    -- the block is that of the entry, or lies within it
    by_cases hend : rest = []
    · subst hend
      obtain rfl := Option.some.inj hrest
      exact ⟨_, _, rfl⟩
    · obtain ⟨before, after, hblock⟩ := ih hrest hend
      refine ⟨front.flatMap Entry.paths ++ [seg] :: before.map (seg :: ·),
        after.map (seg :: ·) ++ back.flatMap Entry.paths, ?_⟩
      rw [hblock]
      simp only [List.map_append, List.map_cons, List.map_map, List.append_assoc,
        List.cons_append]
      rfl

theorem toOption_get (hn : Name.segments n = .ok segs) :
    (p.get n).toOption = (p.valuesAt? segs).bind List.getLast? := by
  apply Option.ext
  intro v
  rw [toOption_eq_some_iff, get_eq_ok_iff, Option.bind_eq_some_iff]
  simp only [getArray_eq_ok_iff, hn, Except.ok.injEq, exists_eq_left']

theorem toOption_kindOf (hn : Name.segments n = .ok segs) :
    (p.kindOf n).toOption = ((p.valuesAt? segs).bind List.getLast?).map Value.kind := by
  rw [← toOption_get hn, kindOf]
  cases p.get n <;> rfl

theorem WellFormed.segments_of_mem_paths (h : p.WellFormed) (hpath : path ∈ p.paths) :
    Name.segments (Name.ofSegments path) = .ok path :=
  Name.segments_ofSegments (ne_nil_of_mem_paths hpath) (h.isLeaf_of_mem_paths hpath)

theorem WellFormed.mem_names_iff (h : p.WellFormed) :
    n ∈ p.names false .all ↔ p.contains n = true := by
  rw [h.names_eq, List.mem_map, contains, lookup?]
  constructor
  · rintro ⟨path, hpath, rfl⟩
    rw [h.segments_of_mem_paths hpath]
    exact h.mem_paths_iff.1 hpath
  · intro hn
    cases hsegs : Name.segments n with
    | error e => simp [hsegs] at hn
    | ok segs =>
      rw [hsegs] at hn
      exact ⟨segs, h.mem_paths_iff.2 hn, (Name.segments_eq_ok_iff.1 hsegs).2.2.symm⟩

theorem WellFormed.nodup_names (h : p.WellFormed) : (p.names false .all).Nodup := by
  rw [h.names_eq]
  apply h.nodup_paths.map_on
  intro path hpath path' hpath' heq
  exact Name.ofSegments_inj (h.isLeaf_of_mem_paths hpath) (h.isLeaf_of_mem_paths hpath') heq

def NamePrecedes (p : Policy) (m n : String) : Prop :=
  ∃ as bs, Name.segments m = .ok as ∧ Name.segments n = .ok bs ∧ p.Precedes as bs

theorem WellFormed.pairwise_namePrecedes (h : p.WellFormed) :
    (p.names false .all).Pairwise p.NamePrecedes := by
  rw [h.names_eq, List.pairwise_map]
  refine h.pairwise_precedes_paths.imp_of_mem ?_
  intro as bs has hbs hprecedes
  exact ⟨as, bs, h.segments_of_mem_paths has, h.segments_of_mem_paths hbs, hprecedes⟩

theorem WellFormed.names_eq_append (h : p.WellFormed) (hn : p.get n = .ok (.policy sub)) :
    ∃ before after, p.names false .all =
      before ++ n :: (sub.names false .all).map (Name.join n) ++ after := by
  obtain ⟨segs, hsegs, hsub⟩ := get_policy_eq_ok_iff.1 hn
  obtain ⟨hne, hleaf, rfl⟩ := Name.segments_eq_ok_iff.1 hsegs
  obtain ⟨before, after, hblock⟩ := paths_eq_append hsub hne
  refine ⟨before.map Name.ofSegments, after.map Name.ofSegments, ?_⟩
  have hbelow : (sub.names false .all).map (Name.join (Name.ofSegments segs)) =
      (sub.paths.map (segs ++ ·)).map Name.ofSegments := by
    rw [(h.subAt? hsub).names_eq, List.map_map, List.map_map]
    apply List.map_congr_left
    intro path hpath
    exact Name.join_ofSegments_append hleaf (ne_nil_of_mem_paths hpath)
  rw [h.names_eq, hblock, hbelow, List.map_append, List.map_append, List.map_cons]

theorem WellFormed.names_eq_filter (h : p.WellFormed) (f : NameFilter) :
    p.names false f =
      (p.names false .all).filter fun n => (p.kindOf n).toOption.any f.accepts := by
  rw [h.names_filter_eq, h.names_eq, List.filter_map]
  congr 1
  apply List.filter_congr
  intro path hpath
  rw [Function.comp_apply, toOption_kindOf (h.segments_of_mem_paths hpath), Option.any_map]
  rfl

theorem WellFormed.exists_kindOf (h : p.WellFormed) (hn : n ∈ p.names false .all) :
    ∃ k, (p.kindOf n).toOption = some k := by
  rw [h.names_eq] at hn
  obtain ⟨path, hpath, rfl⟩ := List.mem_map.1 hn
  obtain ⟨values, hvalues⟩ := Option.isSome_iff_exists.1 (h.mem_paths_iff.1 hpath)
  rw [toOption_kindOf (h.segments_of_mem_paths hpath), hvalues, Option.bind_some,
    List.getLast?_eq_some_getLast (h.valuesAt? hvalues).ne_nil]
  exact ⟨_, rfl⟩

theorem perm_of_filters {α : Type} {a b c : α → Bool} {l : List α}
    (hb : ∀ x ∈ l, (b x && !a x) = b x) (hc : ∀ x ∈ l, (!b x && !a x) = c x) :
    (l.filter a ++ (l.filter b ++ l.filter c)).Perm l := by
  have hsplit := List.filter_append_perm b (l.filter fun x => !a x)
  rw [List.filter_filter, List.filter_filter, List.filter_congr hb, List.filter_congr hc] at hsplit
  exact (hsplit.append_left _).trans (List.filter_append_perm a l)

theorem WellFormed.perm_listings (h : p.WellFormed) :
    (p.names false .params ++ (p.names false .policies ++ p.names false .files)).Perm
      (p.names false .all) := by
  rw [h.names_eq_filter .params, h.names_eq_filter .policies, h.names_eq_filter .files]
  apply perm_of_filters
  · intro n hn
    obtain ⟨k, hk⟩ := h.exists_kindOf hn
    rw [hk]
    cases k <;> rfl
  · intro n hn
    obtain ⟨k, hk⟩ := h.exists_kindOf hn
    rw [hk]
    cases k <;> rfl

/-- The listing of a policy is its tree. It has the names under which there is something, each of
them once and in the order of the tree, with all that is below a name in one block after it. The
listings by kind are the parts of it with that kind and make up the whole, and a lister that goes
through the tree level by level yields the same names. -/
theorem names_listing (p : Policy) (h : p.WellFormed) :
    (∀ n, n ∈ p.names false .all ↔ p.contains n = true) ∧
      (p.names false .all).Nodup ∧
      (p.names false .all).Pairwise p.NamePrecedes ∧
      (∀ n sub, p.get n = .ok (.policy sub) → ∃ before after, p.names false .all =
        before ++ n :: (sub.names false .all).map (Name.join n) ++ after) ∧
      p.names false .params = (p.names false .all).filter (fun n =>
        (p.kindOf n).toOption.any fun k => k != .policy && k != .file) ∧
      p.names false .policies = (p.names false .all).filter (fun n =>
        (p.kindOf n).toOption.any (· == .policy)) ∧
      p.names false .files = (p.names false .all).filter (fun n =>
        (p.kindOf n).toOption.any (· == .file)) ∧
      (p.names false .params ++ (p.names false .policies ++ p.names false .files)).Perm
        (p.names false .all) ∧
      ∀ topOnly f ns, (p.lister topOnly f).Yields ns ↔ ns = p.names topOnly f :=
  ⟨fun _ => h.mem_names_iff, h.nodup_names, h.pairwise_namePrecedes,
    fun _ _ hn => h.names_eq_append hn, h.names_eq_filter .params, h.names_eq_filter .policies,
    h.names_eq_filter .files, h.perm_listings, fun _ _ _ => Lister.yields_iff⟩

def zonesAndSize : Policy :=
  ⟨[⟨"zone", [.policy ⟨[⟨"old", [.int 1]⟩]⟩,
    .policy ⟨[⟨"name", [.string "main"]⟩, ⟨"map", [.file "map.json"]⟩]⟩]⟩, ⟨"size", [.int 2]⟩]⟩

theorem names_listing_zonesAndSize :
    "zone.old" ∉ zonesAndSize.names false .all ∧
      zonesAndSize.NamePrecedes "zone.map" "size" ∧
      (zonesAndSize.lister false .files).Yields ["zone.map"] := by
  obtain ⟨hmem, -, hordered, -, -, -, -, -, hyields⟩ :=
    names_listing zonesAndSize (by decide +kernel)
  have hnames : zonesAndSize.names false .all = ["zone", "zone.name", "zone.map", "size"] := by
    decide +kernel
  refine ⟨fun hold => ?_, ?_, (hyields _ _ _).2 (by decide +kernel)⟩
  · have hnone : zonesAndSize.contains "zone.old" = false := by decide +kernel
    rw [(hmem _).1 hold] at hnone
    cases hnone
  · rw [hnames] at hordered
    simp only [List.pairwise_cons] at hordered
    exact hordered.2.2.1 "size" (List.mem_singleton_self _)

end Policy

end PolicyTree
