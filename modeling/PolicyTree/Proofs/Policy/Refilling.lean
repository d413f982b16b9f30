import PolicyTree.Proofs.Policy.Gaps

namespace PolicyTree

variable {p d sub y : Policy} {e f : Entry} {es : List Entry} {leaf name seg : String} {i : Nat}
  {pos rest : Position} {gap : Position × String} {values : List Value} {v : Value}

namespace Policy

theorem fst_fill_of_gaps_eq_empty (h : ∀ y, Value.policy y ∈ f.values →
    ∀ sub : Policy, sub.gaps y = ∅ → (sub.fillFrom y).1 = sub) (hgaps : p.gaps ⟨[f]⟩ = ∅) :
    (Entry.fill p f).1 = p := by
  cases he : p.entry? f.name with
  | none =>
    rw [gaps_singleton_of_entry?_eq_none he] at hgaps
    exact absurd hgaps (Set.singleton_ne_empty _)
  | some e =>
    have hfill : (Entry.fill p f).1 =
        p.put f.name (e.values.map (Value.filledFrom (f.values.getLast?.bind Value.policy?))) := by
      obtain ⟨fname, fvalues⟩ := f
      rw [Entry.fill, he, ← Value.fst_fillFromLast]
    have hsame : e.values.map (Value.filledFrom (f.values.getLast?.bind Value.policy?)) =
        e.values.map id := by
      apply List.map_congr_left
      intro v hv
      cases hy : f.values.getLast?.bind Value.policy? with
      | none => exact v.filledFrom_none
      | some y =>
        obtain ⟨w, hlast, hw⟩ := Option.bind_eq_some_iff.1 hy
        obtain rfl := Value.policy?_eq_some_iff.1 hw
        rw [gaps_singleton_of_getLast? he hlast, Set.image_eq_empty] at hgaps
        cases v with
        | policy sub =>
          have hnone : sub.gaps y = ∅ := by
            obtain ⟨i, hi⟩ := List.mem_iff_getElem?.1 hv
            rw [Set.eq_empty_iff_forall_notMem] at hgaps ⊢
            exact fun gap hgap => hgaps (i, gap) ⟨sub, hi, hgap⟩
          exact congrArg Value.policy (h y (List.mem_of_getLast? hlast) sub hnone)
        | undefined | bool | int | double | string | file => rfl
    rw [hfill, hsame, List.map_id, put_self he]

theorem fst_fillAll_of_gaps_eq_empty (hu : (es.map Entry.name).Nodup)
    (h : ∀ f ∈ es, p.gaps ⟨[f]⟩ = ∅ → (Entry.fill p f).1 = p) (hgaps : p.gaps ⟨es⟩ = ∅) :
    (Entry.fillAll p es).1 = p := by
  induction es with
  | nil => rfl
  | cons f es ih =>
    rw [List.map_cons, List.nodup_cons] at hu
    rw [List.forall_mem_cons] at h
    rw [(gaps_cons hu.1).1, Set.union_empty_iff] at hgaps
    change (Entry.fillAll (Entry.fill p f).1 es).1 = p
    rw [h.1 hgaps.1]
    exact ih hu.2 h.2 hgaps.2

theorem WellFormed.fst_fillFrom_of_gaps_eq_empty (hd : d.WellFormed) (h : p.gaps d = ∅) :
    (p.fillFrom d).1 = p := by
  induction hd generalizing p with
  | intro unique leaf array nested ih =>
    apply fst_fillAll_of_gaps_eq_empty unique _ h
    intro f hf
    exact fst_fill_of_gaps_eq_empty fun y hy sub hsub => ih f hf y hy hsub

theorem WellFormed.mergeDefaults_eq_self_iff (hd : d.WellFormed) :
    p.mergeDefaults d = (p, 0) ↔ p.gaps d = ∅ := by
  rw [mergeDefaults]
  constructor
  · intro h
    have hcount := hd.snd_fillFrom p
    rw [h] at hcount
    exact Set.encard_eq_zero.1 hcount.symm
  · intro h
    have hcount := hd.snd_fillFrom p
    rw [h, Set.encard_empty] at hcount
    exact Prod.ext (hd.fst_fillFrom_of_gaps_eq_empty h) (Nat.cast_eq_zero.1 hcount)

theorem mem_gaps_append : (pos ++ rest, leaf) ∈ p.gaps d ↔
    ∃ x y, p.elementAt? pos = some x ∧ d.subAt? pos.names = some y ∧ (rest, leaf) ∈ x.gaps y := by
  rw [gaps, Set.mem_ofPred_eq, elementAt?_append, Position.names, List.map_append, subAt?_append]
  constructor
  · rintro ⟨x', y', hx', hy', h⟩
    obtain ⟨x, hx, hx'⟩ := Option.bind_eq_some_iff.1 hx'
    obtain ⟨y, hy, hy'⟩ := Option.bind_eq_some_iff.1 hy'
    exact ⟨x, y, hx, hy, x', y', hx', hy', h⟩
  · rintro ⟨x, y, hx, hy, x', y', hx', hy', h⟩
    exact ⟨x', y', Option.bind_eq_some_iff.2 ⟨x, hx, hx'⟩,
      Option.bind_eq_some_iff.2 ⟨y, hy, hy'⟩, h⟩

/-- A gap that filling leaves. It is in an element of an array that closed another gap, and this
element lacks a name that the last one has. -/
inductive LeftBy (p d : Policy) : Position × String → Prop
  | intro {pos rest : Position} {leaf name : String} {values : List Value} {i : Nat}
      {sub y : Policy}
      (closed : (pos, leaf) ∈ p.gaps d)
      (values_eq : (p.fillFrom d).1.arrayAt? pos leaf = some values)
      (element : values[i]? = some (.policy sub)) (last : values.getLast? = some (.policy y))
      (lacks : (rest, name) ∈ sub.gaps y) : LeftBy p d (pos ++ (leaf, i) :: rest, name)

/-- Induction on the position: a gap is at its end, or begins where the defaults were copied. -/
theorem WellFormed.leftBy_of_mem_gaps (hd : d.WellFormed)
    (h : (pos, name) ∈ Policy.gaps (p.fillFrom d).1 d) : p.LeftBy d (pos, name) := by
  induction pos generalizing p d with
  | nil =>
    obtain ⟨hnone, hsome⟩ := mem_gaps_nil.1 h
    cases he : p.entry? name with
    | none =>
      rw [hd.entry?_fillFrom_of_none he] at hnone
      rw [hnone] at hsome
      cases hsome
    | some e =>
      rw [hd.entry?_fillFrom_of_some he] at hnone
      cases hnone
  | cons step rest ih =>
    obtain ⟨seg, i⟩ := step
    obtain ⟨sub, y, hsub, hy, hgap⟩ := mem_gaps_cons.1 h
    cases he : p.entry? seg with
    | none =>
      rw [hd.element?_fillFrom_of_none he] at hsub
      obtain ⟨f, hf, hv⟩ := element?_eq_some_iff.1 hsub
      obtain ⟨f', hf', hlast⟩ := last?_eq_some_iff.1 (child?_eq_some_iff.1 hy)
      obtain rfl := Option.some.inj (hf.symm.trans hf')
      have hclosed : ([], seg) ∈ p.gaps d := mem_gaps_nil.2 ⟨he, Option.isSome_of_eq_some hf⟩
      have hvalues : (p.fillFrom d).1.arrayAt? [] seg = some f.values := by
        rw [arrayAt?_nil, hd.entry?_fillFrom_of_none he, hf, Option.map_some]
      exact .intro hclosed hvalues hv hlast hgap
    | some e =>
      rw [hd.element?_fillFrom_of_some he, hy] at hsub
      obtain ⟨x, hx, rfl⟩ := Option.map_eq_some_iff.1 hsub
      have hstep : (p.fillFrom d).1.element? seg i = some (x.fillFrom y).1 := by
        rw [hd.element?_fillFrom hx, hy, filledFrom_some]
      cases ih (hd.child? hy) hgap with
      | @intro pos back leaf name values j sub z hclosed hvalues hv hlast hlacks =>
        have hclosed' : ((seg, i) :: pos, leaf) ∈ p.gaps d :=
          mem_gaps_cons.2 ⟨x, y, hx, hy, hclosed⟩
        have hvalues' : (p.fillFrom d).1.arrayAt? ((seg, i) :: pos) leaf = some values := by
          rw [arrayAt?_cons, hstep, Option.bind_some, hvalues]
        exact .intro hclosed' hvalues' hv hlast hlacks

theorem LeftBy.mem_gaps (h : p.LeftBy d gap) (hd : d.WellFormed) :
    gap ∈ Policy.gaps (p.fillFrom d).1 d := by
  obtain ⟨⟨x, y, hx, hy, hnone, hsome⟩, hvalues, hv, hlast, hlacks⟩ := h
  have hfilled := hd.elementAt?_fillFrom hx
  rw [hy, filledFrom_some] at hfilled
  rw [arrayAt?, hfilled, Option.bind_some, Option.map_eq_some_iff] at hvalues
  obtain ⟨f, hf, rfl⟩ := hvalues
  have hf' := hf
  rw [(hd.subAt? hy).entry?_fillFrom_of_none hnone] at hf'
  exact mem_gaps_append.2 ⟨_, y, hfilled, hy, mem_gaps_cons.2 ⟨_, _,
    element?_eq_some_iff.2 ⟨f, hf, hv⟩, child?_eq_some_iff.2 (last?_eq_some_iff.2 ⟨f, hf', hlast⟩),
    hlacks⟩⟩

theorem LeftBy.elementAt?_eq_none (h : p.LeftBy d (pos, name)) : p.elementAt? pos = none := by
  cases h with
  | @intro pos rest leaf name values i sub y hclosed hvalues hv hlast hlacks =>
    obtain ⟨x, y, hx, hy, hnone, hsome⟩ := hclosed
    rw [elementAt?_append, hx, Option.bind_some, Policy.elementAt?, element?, hnone]
    rfl

end Policy

/-- Each policy in an array has what the last one has: there is nothing to fill from it. -/
def Value.Saturated (values : List Value) : Prop :=
  ∀ sub y, .policy sub ∈ values → values.getLast? = some (.policy y) →
    sub.mergeDefaults y = (sub, 0)

namespace Policy

theorem Single.gaps_self (h : d.Single) : d.gaps d = ∅ := by
  rw [Set.eq_empty_iff_forall_notMem]
  rintro gap ⟨x, y, hx, hy, hnone, hsome⟩
  rw [h.subAt?_names hx] at hy
  obtain rfl := Option.some.inj hy
  rw [hnone] at hsome
  cases hsome

theorem Single.saturated (h : d.Single) (hd : d.WellFormed)
    (hvalues : d.arrayAt? pos leaf = some values) : Value.Saturated values := by
  intro sub y hsub hlast
  obtain rfl := h pos leaf values sub hvalues hsub
  obtain rfl := Value.policy.inj (Option.some.inj hlast)
  obtain ⟨i, hi⟩ := exists_elementAt?_of_mem hvalues hsub
  exact (hd.elementAt? hi).mergeDefaults_eq_self_iff.2 (h.elementAt? hi).gaps_self

/-- Filling again does nothing exactly if the arrays that were copied are saturated. -/
theorem WellFormed.mergeDefaults_again_iff (hd : d.WellFormed) (p : Policy) :
    Policy.mergeDefaults (p.mergeDefaults d).1 d = ((p.mergeDefaults d).1, 0) ↔
      ∀ pos leaf values, (p.elementAt? pos).isSome = true → p.arrayAt? pos leaf = none →
        (p.mergeDefaults d).1.arrayAt? pos leaf = some values → Value.Saturated values := by
  rw [hd.mergeDefaults_eq_self_iff, Set.eq_empty_iff_forall_notMem]
  constructor
  · intro h pos leaf values hpos hnone hvalues sub y hsub hlast
    have hclosed : (pos, leaf) ∈ p.gaps d :=
      hd.mem_gaps_iff.2 ⟨hpos, hnone, Option.isSome_of_eq_some hvalues⟩
    obtain ⟨pos', -, hcopied⟩ := hd.exists_arrayAt?_of_fillFrom hvalues hnone
    have hy := hd.of_arrayAt? hcopied (List.mem_of_getLast? hlast)
    obtain ⟨i, hi⟩ := List.mem_iff_getElem?.1 hsub
    rw [hy.mergeDefaults_eq_self_iff, Set.eq_empty_iff_forall_notMem]
    rintro ⟨rest, name⟩ hlacks
    exact h _ (LeftBy.mem_gaps (.intro hclosed hvalues hi hlast hlacks) hd)
  · rintro h ⟨pos, name⟩ hgap
    cases hd.leftBy_of_mem_gaps hgap with
    | @intro pos rest leaf name values i sub y hclosed hvalues hv hlast hlacks =>
      obtain ⟨hpos, hnone, -⟩ := hd.mem_gaps_iff.1 hclosed
      obtain ⟨pos', -, hcopied⟩ := hd.exists_arrayAt?_of_fillFrom hvalues hnone
      have hy := hd.of_arrayAt? hcopied (List.mem_of_getLast? hlast)
      have hself := h pos leaf values hpos hnone hvalues sub y (List.mem_of_getElem? hv) hlast
      rw [hy.mergeDefaults_eq_self_iff] at hself
      rw [hself] at hlacks
      exact hlacks

/-- A second filling with the same defaults does nothing exactly if the arrays that the first one
copied are saturated, as they are if the defaults have no array of several policies. In any case it
adds nothing to the policies that were there before the first. -/
theorem mergeDefaults_again (p : Policy) (hd : d.WellFormed) :
    (Policy.mergeDefaults (p.mergeDefaults d).1 d = ((p.mergeDefaults d).1, 0) ↔
      ∀ pos leaf values, (p.elementAt? pos).isSome = true → p.arrayAt? pos leaf = none →
        (p.mergeDefaults d).1.arrayAt? pos leaf = some values → Value.Saturated values) ∧
    (d.Single → Policy.mergeDefaults (p.mergeDefaults d).1 d = ((p.mergeDefaults d).1, 0)) ∧
    ∀ pos leaf, (p.elementAt? pos).isSome = true →
      (p.mergeDefaults d).1.arrayAt? pos leaf = none →
        (Policy.mergeDefaults (p.mergeDefaults d).1 d).1.arrayAt? pos leaf = none := by
  have hiff := hd.mergeDefaults_again_iff p
  apply And.intro hiff (And.intro _ _)
  · intro hsingle
    apply hiff.2
    intro pos leaf values _ hnone hvalues
    obtain ⟨pos', -, hcopied⟩ := hd.exists_arrayAt?_of_fillFrom hvalues hnone
    exact hsingle.saturated hd hcopied
  · intro pos leaf hpos hnone
    obtain ⟨x, hx⟩ := Option.isSome_iff_exists.1 hpos
    have hfilled : ((p.mergeDefaults d).1.elementAt? pos).isSome = true :=
      Option.isSome_of_eq_some (hd.elementAt?_fillFrom hx)
    rw [Option.eq_none_iff_forall_ne_some]
    intro values hvalues
    have hgap := hd.mem_gaps_iff.2 ⟨hfilled, hnone, Option.isSome_of_eq_some hvalues⟩
    rw [(hd.leftBy_of_mem_gaps hgap).elementAt?_eq_none] at hx
    cases hx

theorem single_zoneDefaults : zoneDefaults.Single := by
  have hmap : Single ⟨[⟨"scale", [.double 1]⟩]⟩ := .of_entries (by simp)
  have hzone : Single ⟨[⟨"name", [.string "zone"]⟩,
      ⟨"map", [.policy ⟨[⟨"scale", [.double 1]⟩]⟩]⟩]⟩ :=
    .of_entries (by simpa using hmap)
  exact .of_entries (by simpa [zoneDefaults] using hzone)

/-- The zone defaults have no array of several policies. -/
theorem mergeDefaults_again_zonesAndSize :
    Policy.mergeDefaults (zonesAndSize.mergeDefaults zoneDefaults).1 zoneDefaults =
      ((zonesAndSize.mergeDefaults zoneDefaults).1, 0) :=
  (mergeDefaults_again zonesAndSize (by decide +kernel)).2.1 single_zoneDefaults

def unevenDefaults : Policy :=
  ⟨[⟨"zone", [.policy .empty, .policy ⟨[⟨"name", [.string "zone"]⟩]⟩]⟩]⟩

/-- The first zone is copied as it is, and gets its name when the policy is filled again. -/
theorem mergeDefaults_again_uneven :
    Policy.empty.WellFormed ∧ unevenDefaults.WellFormed ∧
      (Policy.mergeDefaults (Policy.empty.mergeDefaults unevenDefaults).1 unevenDefaults).2 = 1 ∧
      (Policy.mergeDefaults (Policy.empty.mergeDefaults unevenDefaults).1 unevenDefaults).1 ≠
        (Policy.empty.mergeDefaults unevenDefaults).1 := by
  refine ⟨by decide +kernel, by decide +kernel, by decide +kernel, fun h => ?_⟩
  have hname := congrArg (fun q => (q.arrayAt? [("zone", 0)] "name").isSome) h
  revert hname
  decide +kernel

end Policy

end PolicyTree
