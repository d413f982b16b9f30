import PolicyTree.Proofs.Policy.Writing

namespace PolicyTree

namespace Policy

variable {p q x : Policy} {leaf seg path : String} {front way back : List String} {v : Value}
  {values rest : List Value} {e : Entry}

/-- The array under `leaf` is cut down to `rest`; without values the name goes, too. -/
def cut (p : Policy) (leaf : String) (rest : List Value) : Policy :=
  if rest.isEmpty then p.erase leaf else p.put leaf rest

theorem cut_of_ne_nil (p : Policy) (leaf : String) (hne : rest ≠ []) :
    p.cut leaf rest = p.put leaf rest := by
  rw [cut, if_neg (mt List.isEmpty_iff.1 hne)]

theorem WellFormed.entry?_cut (h : p.WellFormed) (leaf : String) (rest : List Value)
    (name : String) : Policy.entry? (p.cut leaf rest) name =
      if name = leaf then if rest.isEmpty then none else some ⟨leaf, rest⟩ else p.entry? name := by
  rw [cut]
  cases rest.isEmpty with
  | true => exact h.entry?_erase leaf name
  | false => exact entry?_put p leaf rest name

theorem mem_names_of_entry (h : p.entry? leaf = some e) : leaf ∈ p.names true .all := by
  rw [names_top, ← name_of_entry?_eq_some h]
  exact List.mem_map_of_mem (mem_of_entry?_eq_some h)

theorem names_erase (p : Policy) (leaf : String) :
    (p.erase leaf).names true .all = (p.names true .all).erase leaf := by
  rw [names_top, names_top, List.erase_eq_eraseP', List.eraseP_map]
  rfl

theorem names_cut (h : p.entry? leaf = some e) (rest : List Value) :
    (p.cut leaf rest).names true .all =
      if rest.isEmpty then (p.names true .all).erase leaf else p.names true .all := by
  rw [cut]
  cases rest.isEmpty with
  | true => exact names_erase p leaf
  | false => exact (names_put p leaf rest).trans (if_pos (mem_names_of_entry h))

/-- The walk under `path` ends in `x`, at its entry `e`. -/
structure LeadsTo (p : Policy) (path : String) (front : List String) (x : Policy) (e : Entry) :
    Prop where
  segments : Name.segments path = .ok (front ++ [e.name])
  walk : p.subAt? front = some x
  entry : x.entry? e.name = some e

theorem getArray_eq_ok_iff_leadsTo :
    p.getArray path = .ok values ↔ ∃ front x e, p.LeadsTo path front x e ∧ e.values = values := by
  rw [getArray_eq_ok_iff]
  constructor
  · rintro ⟨segs, hsegs, hvalues⟩
    obtain ⟨front, leaf, rfl⟩ := Name.exists_leaf_of_segments hsegs
    rw [valuesAt?_concat] at hvalues
    obtain ⟨x, hx, hentry⟩ := Option.bind_eq_some_iff.1 hvalues
    obtain ⟨e, he, rfl⟩ := Option.map_eq_some_iff.1 hentry
    obtain rfl := name_of_entry?_eq_some he
    exact ⟨front, x, e, ⟨hsegs, hx, he⟩, rfl⟩
  · rintro ⟨front, x, e, h, rfl⟩
    refine ⟨_, h.segments, ?_⟩
    rw [valuesAt?_concat, h.walk, Option.bind_some, h.entry]
    rfl

theorem LeadsTo.remove? (h : p.LeadsTo path front x e) :
    p.remove? path = some (e.values, p.putAt front (x.cut e.name [])) := by
  rw [Policy.remove?, edit_of_segments h.segments h.walk, h.entry]
  rfl

theorem LeadsTo.pop? (h : p.LeadsTo path front x e) (he : e.values = rest ++ [v]) :
    p.pop? path = some (v, p.putAt front (x.cut e.name rest)) := by
  rw [Policy.pop?, edit_of_segments h.segments h.walk, h.entry]
  simp only [Option.map_some, he, List.getLast?_concat, List.dropLast_concat]
  cases rest with
  | nil => rfl
  | cons w rest =>
    rw [if_neg (by simp)]
    rfl

theorem WellFormed.remove?_eq_some_iff (h : p.WellFormed) : p.remove? path = some (values, q) ↔
    ∃ front x e, p.LeadsTo path front x e ∧ e.values = values ∧
      q = p.putAt front (x.cut e.name []) := by
  constructor
  · intro hq
    obtain ⟨front, leaf, y, hsegs, -, hsub, hy, rfl⟩ := h.edit_eq_ok (toOption_eq_some_iff.1 hq)
    cases hentry : Policy.entry? (p.holderAt front) leaf with
    | none =>
      rw [hentry] at hy
      cases hy
    | some e =>
      rw [hentry] at hy
      obtain ⟨rfl, rfl⟩ := Prod.mk.inj (Except.ok.inj hy)
      obtain rfl := name_of_entry?_eq_some hentry
      exact ⟨front, _, e, ⟨hsegs, hsub rfl, hentry⟩, rfl, rfl⟩
  · rintro ⟨front, x, e, hleads, rfl, rfl⟩
    exact hleads.remove?

theorem WellFormed.pop?_eq_some_iff (h : p.WellFormed) : p.pop? path = some (v, q) ↔
    ∃ front x e rest, p.LeadsTo path front x e ∧ e.values = rest ++ [v] ∧
      q = p.putAt front (x.cut e.name rest) := by
  constructor
  · intro hq
    obtain ⟨front, leaf, y, hsegs, -, hsub, hy, -⟩ := h.edit_eq_ok (toOption_eq_some_iff.1 hq)
    cases hentry : Policy.entry? (p.holderAt front) leaf with
    | none =>
      rw [hentry] at hy
      cases hy
    | some e =>
      obtain rfl := name_of_entry?_eq_some hentry
      have hleads : p.LeadsTo path front (p.holderAt front) e := ⟨hsegs, hsub rfl, hentry⟩
      have hne := ((h.holderAt front).storable (mem_of_entry?_eq_some hentry)).ne_nil
      have hvalues : e.values = e.values.dropLast ++ [e.values.getLast hne] :=
        (List.dropLast_append_getLast hne).symm
      obtain ⟨rfl, rfl⟩ := Prod.mk.inj (Option.some.inj (hq.symm.trans (hleads.pop? hvalues)))
      exact ⟨front, _, e, _, hleads, hvalues, rfl⟩
  · rintro ⟨front, x, e, rest, hleads, he, rfl⟩
    exact hleads.pop? he

theorem contains_eq_true_iff : p.contains path = true ↔ ∃ values, p.getArray path = .ok values := by
  rw [contains, Option.isSome_iff_exists]
  apply exists_congr
  intro values
  rw [getArray_eq_ok_iff, lookup?]
  cases Name.segments path <;> simp

/-- `q` is `p` with less under `path`. Nothing else is changed, the names above are still there, and
the names that remain are in the order in which they were. -/
structure Reduced (p : Policy) (path : String) (q : Policy) : Prop extends
    p.ChangesOnly path q where
  still : ∀ {above}, Name.Above above path → q.contains above = true
  names : ∀ {front seg back}, Name.segments path = .ok (front ++ seg :: back) →
    (q.holderAt front).names true .all =
      if back = [] ∧ q.contains path = false then ((p.holderAt front).names true .all).erase seg
      else (p.holderAt front).names true .all

theorem LeadsTo.open (h : p.LeadsTo path front x e) : p.Open path :=
  (open_iff h.segments).2 (clear_of_subAt? h.walk)

theorem LeadsTo.contains_cut (h : p.LeadsTo path front x e) (hw : x.WellFormed) :
    (p.putAt front (x.cut e.name rest)).contains path = !rest.isEmpty := by
  rw [contains_of_segments h.segments, valuesAt?_putAt p front _ (List.cons_ne_nil _ []),
    valuesAt?, hw.entry?_cut, if_pos rfl]
  cases rest.isEmpty <;> rfl

theorem names_holderAt_cut (rest : List Value) (hsub : p.subAt? front = some x)
    (he : x.entry? leaf = some e) (hway : front ++ [leaf] = way ++ seg :: back) :
    ((p.putAt front (x.cut leaf rest)).holderAt way).names true .all =
      if back = [] ∧ rest.isEmpty = true then ((p.holderAt way).names true .all).erase seg
      else (p.holderAt way).names true .all := by
  rcases eq_or_exists_of_concat_eq hway with ⟨rfl, rfl, rfl⟩ | ⟨inner, hback, rfl⟩
  · rw [holderAt_putAt, holderAt_of_subAt? hsub, names_cut he]
    simp
  · rw [subAt?_append] at hsub
    obtain ⟨y, hy, hsub⟩ := Option.bind_eq_some_iff.1 hsub
    obtain ⟨sub, hchild, -⟩ := subAt?_cons_eq_some_iff.1 hsub
    obtain ⟨f, hf, -⟩ := last?_eq_some_iff.1 (child?_eq_some_iff.1 hchild)
    rw [names_holderAt_putAt, holderAt_of_subAt? hy, if_pos (mem_names_of_entry hf),
      if_neg (fun h => hback h.1)]

theorem LeadsTo.reduced_cut (h : p.LeadsTo path front x e) (hp : p.WellFormed) :
    p.Reduced path (p.putAt front (x.cut e.name rest)) := by
  have hx := holderAt_of_subAt? h.walk
  have hw := hp.subAt? h.walk
  have honly : p.ChangesOnly path (p.putAt front (x.cut e.name rest)) := by
    apply hp.changesOnly_putAt h.segments h.open
    intro name hname
    rw [hw.entry?_cut, if_neg hname, hx]
  refine ⟨honly, ?_, ?_⟩
  · intro above habove
    obtain ⟨before, sub, hvalues, -⟩ := honly.above habove
    exact contains_eq_true_iff.2 ⟨_, hvalues⟩
  · intro way seg back hway
    have hnames := names_holderAt_cut rest h.walk h.entry
      (Except.ok.inj (h.segments.symm.trans hway))
    simpa only [h.contains_cut hw, Bool.not_eq_false'] using hnames

theorem LeadsTo.putAt_put (h : p.LeadsTo path front x e) (values : List Value) :
    (p.putAt front (x.put e.name values)).putAt front ((x.put e.name values).put e.name e.values) =
      p := by
  rw [putAt_putAt, put_put, put_self h.entry, putAt_self h.walk]

theorem WellFormed.pop?_of_add (h : p.WellFormed) (hpath : p.contains path = true)
    (hq : p.add path v = .ok q) : q.pop? path = some (v, p) := by
  obtain ⟨values, hvalues⟩ := contains_eq_true_iff.1 hpath
  obtain ⟨front, x, e, hleads, rfl⟩ := getArray_eq_ok_iff_leadsTo.1 hvalues
  have hadded : q = p.putAt front (x.put e.name (e.values ++ [v])) := by
    rw [Policy.add] at hq
    split at hq
    · cases hq
    · rw [edit_of_segments hleads.segments hleads.walk, hleads.entry] at hq
      by_cases hk : (v.kind == e.kind) = true
      · simp only [if_pos hk] at hq
        exact (Except.ok.inj hq).symm
      · simp only [if_neg hk] at hq
        cases hq
  subst hadded
  have hne := ((h.subAt? hleads.walk).storable (mem_of_entry?_eq_some hleads.entry)).ne_nil
  have hadded : Policy.LeadsTo (p.putAt front (x.put e.name (e.values ++ [v]))) path front
      (x.put e.name (e.values ++ [v])) ⟨e.name, e.values ++ [v]⟩ :=
    ⟨hleads.segments, subAt?_putAt .., (entry?_put ..).trans (if_pos rfl)⟩
  rw [hadded.pop? rfl, cut_of_ne_nil _ _ hne, hleads.putAt_put]

theorem WellFormed.exists_remove?_iff (h : p.WellFormed) :
    (∃ q, p.remove? path = some (values, q)) ↔ p.getArray path = .ok values := by
  rw [getArray_eq_ok_iff_leadsTo]
  constructor
  · rintro ⟨q, hq⟩
    obtain ⟨front, x, e, hleads, he, -⟩ := h.remove?_eq_some_iff.1 hq
    exact ⟨front, x, e, hleads, he⟩
  · rintro ⟨front, x, e, hleads, rfl⟩
    exact ⟨_, hleads.remove?⟩

theorem get_eq_ok_iff_append :
    p.get path = .ok v ↔ ∃ rest, p.getArray path = .ok (rest ++ [v]) := by
  rw [get_eq_ok_iff]
  constructor
  · rintro ⟨values, hvalues, hlast⟩
    exact ⟨values.dropLast, by rw [hvalues, List.dropLast_append_getLast? _ hlast]⟩
  · rintro ⟨rest, hrest⟩
    exact ⟨_, hrest, List.getLast?_concat⟩

theorem WellFormed.exists_pop?_iff (h : p.WellFormed) :
    (∃ q, p.pop? path = some (v, q)) ↔ p.get path = .ok v := by
  rw [get_eq_ok_iff_append]
  simp only [getArray_eq_ok_iff_leadsTo]
  constructor
  · rintro ⟨q, hq⟩
    obtain ⟨front, x, e, rest, hleads, he, -⟩ := h.pop?_eq_some_iff.1 hq
    exact ⟨rest, front, x, e, hleads, he⟩
  · rintro ⟨rest, front, x, e, hleads, he⟩
    exact ⟨_, hleads.pop? he⟩

theorem WellFormed.reduced_remove? (h : p.WellFormed) (hq : p.remove? path = some (values, q)) :
    q.contains path = false ∧ p.Reduced path q := by
  obtain ⟨front, x, e, hleads, -, rfl⟩ := h.remove?_eq_some_iff.1 hq
  exact ⟨hleads.contains_cut (h.subAt? hleads.walk), hleads.reduced_cut h⟩

theorem WellFormed.reduced_pop? (h : p.WellFormed) (hq : p.pop? path = some (v, q)) :
    ∃ rest, p.getArray path = .ok (rest ++ [v]) ∧ (rest ≠ [] → q.getArray path = .ok rest) ∧
      (q.contains path = false ↔ rest = []) ∧ p.Reduced path q := by
  obtain ⟨front, x, e, rest, hleads, he, rfl⟩ := h.pop?_eq_some_iff.1 hq
  refine ⟨rest, getArray_eq_ok_iff_leadsTo.2 ⟨front, x, e, hleads, he⟩, fun hne => ?_, ?_,
    hleads.reduced_cut h⟩
  · rw [getArray_of_segments hleads.segments, valuesAt?_putAt p front _ (List.cons_ne_nil _ []),
      cut_of_ne_nil x e.name hne, Policy.valuesAt?, entry?_put, if_pos rfl]
    rfl
  · rw [hleads.contains_cut (h.subAt? hleads.walk), Bool.not_eq_false', List.isEmpty_iff]

/-- Removal mirrors lookup. Just what can be read can be removed: all of an array, or its last
value, and the name goes with the only one. Nothing else goes, and taking back what was added to an
array gives the policy as it was. -/
theorem removal_mirrors_lookup (p : Policy) (h : p.WellFormed) (path : String) :
    (∀ values, (∃ q, p.remove? path = some (values, q)) ↔ p.getArray path = .ok values) ∧
      (∀ v, (∃ q, p.pop? path = some (v, q)) ↔ p.get path = .ok v) ∧
      (∀ values q, p.remove? path = some (values, q) →
        q.contains path = false ∧ p.Reduced path q) ∧
      (∀ v q, p.pop? path = some (v, q) → ∃ rest, p.getArray path = .ok (rest ++ [v]) ∧
        (rest ≠ [] → q.getArray path = .ok rest) ∧ (q.contains path = false ↔ rest = []) ∧
          p.Reduced path q) ∧
      ∀ v q, p.contains path = true → p.add path v = .ok q → q.pop? path = some (v, p) :=
  ⟨fun _ => h.exists_remove?_iff, fun _ => h.exists_pop?_iff, fun _ _ hq => h.reduced_remove? hq,
    fun _ _ hq => h.reduced_pop? hq, fun _ _ hpath hq => h.pop?_of_add hpath hq⟩

theorem removal_mirrors_lookup_zonesAndSize :
    ∃ v q, zonesAndSize.get "zone" = .ok v ∧ zonesAndSize.pop? "zone" = some (v, q) ∧
      q.contains "zone" = true ∧ q.getArray "size" = zonesAndSize.getArray "size" ∧
        q.names true .all = ["zone", "size"] := by
  obtain ⟨-, hpop, -, hreduced, -⟩ :=
    removal_mirrors_lookup zonesAndSize (by decide +kernel) "zone"
  obtain ⟨v, hv⟩ : ∃ v, zonesAndSize.get "zone" = .ok v := ⟨_, rfl⟩
  obtain ⟨q, hq⟩ := (hpop v).2 hv
  obtain ⟨rest, hrest, -, hgone, hreduced⟩ := hreduced v q hq
  have hcontains : q.contains "zone" = true := by
    rw [← Bool.not_eq_false, hgone]
    rintro rfl
    have hlength : (zonesAndSize.getArray "zone").toOption.map List.length = some 2 := by
      decide +kernel
    rw [hrest] at hlength
    cases hlength
  have hsegs : Name.segments "zone" = .ok ([] ++ "zone" :: []) := by decide +kernel
  refine ⟨v, q, hv, hq, hcontains, hreduced.apart ?_, ?_⟩
  · intro as bs has hbs
    obtain rfl := Except.ok.inj (hsegs.symm.trans has)
    obtain rfl := Except.ok.inj ((Name.segments_of_isLeaf (by decide +kernel)).symm.trans hbs)
    decide
  · have hnames := hreduced.names hsegs
    rw [hcontains, if_neg (by decide)] at hnames
    exact hnames.trans (by decide +kernel)

end Policy

end PolicyTree
