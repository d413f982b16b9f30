import Mathlib.Data.Set.Card
import PolicyTree.Proofs.Policy.Additions

namespace PolicyTree

variable {p q d d' sub y : Policy} {e f : Entry} {es : List Entry} {leaf seg : String} {i : Nat}
  {pos rest : Position} {gap : Position × String} {v : Value} {targets : List Value}

namespace Policy

/-- The gaps of a policy, each with the position of the policy that has it. -/
def gaps (p d : Policy) : Set (Position × String) :=
  {gap | ∃ x y, p.elementAt? gap.1 = some x ∧ d.subAt? gap.1.names = some y ∧
    x.entry? gap.2 = none ∧ (y.entry? gap.2).isSome = true}

theorem mem_gaps_nil :
    ([], leaf) ∈ p.gaps d ↔ p.entry? leaf = none ∧ (d.entry? leaf).isSome = true := by
  constructor
  · rintro ⟨x, y, hx, hy, h⟩
    obtain rfl := Option.some.inj hx
    obtain rfl := Option.some.inj hy
    exact h
  · intro h
    exact ⟨p, d, rfl, rfl, h⟩

theorem mem_gaps_cons : ((seg, i) :: rest, leaf) ∈ p.gaps d ↔
    ∃ sub y, p.element? seg i = some sub ∧ d.child? seg = some y ∧ (rest, leaf) ∈ sub.gaps y := by
  constructor
  · rintro ⟨x, z, hx, hz, h⟩
    obtain ⟨sub, hsub, hx⟩ := elementAt?_cons_eq_some_iff.1 hx
    obtain ⟨y, hy, hz⟩ := subAt?_cons_eq_some_iff.1 hz
    exact ⟨sub, y, hsub, hy, x, z, hx, hz, h⟩
  · rintro ⟨sub, y, hsub, hy, x, z, hx, hz, h⟩
    exact ⟨x, z, elementAt?_cons_eq_some_iff.2 ⟨sub, hsub, hx⟩,
      subAt?_cons_eq_some_iff.2 ⟨y, hy, hz⟩, h⟩

/-- The gaps are where filling adds something to a policy that was there. -/
theorem WellFormed.mem_gaps_iff (hd : d.WellFormed) : (pos, leaf) ∈ p.gaps d ↔
    (p.elementAt? pos).isSome = true ∧ p.arrayAt? pos leaf = none ∧
      ((p.fillFrom d).1.arrayAt? pos leaf).isSome = true := by
  constructor
  · rintro ⟨x, y, hx, hy, hnone, hsome⟩
    have hfilled := hd.elementAt?_fillFrom hx
    rw [hy, filledFrom_some] at hfilled
    rw [arrayAt?, arrayAt?, hx, hfilled, Option.bind_some, Option.bind_some, Option.isSome_map,
      (hd.subAt? hy).entry?_fillFrom_of_none hnone, hnone]
    exact ⟨rfl, rfl, hsome⟩
  · rintro ⟨hx, hnone, hsome⟩
    obtain ⟨x, hx⟩ := Option.isSome_iff_exists.1 hx
    rw [arrayAt?, hx, Option.bind_some, Option.map_eq_none_iff] at hnone
    rw [arrayAt?, hd.elementAt?_fillFrom hx, Option.bind_some, Option.isSome_map] at hsome
    cases hy : d.subAt? pos.names with
    | none =>
      rw [hy, filledFrom_none, hnone] at hsome
      cases hsome
    | some y =>
      rw [hy, filledFrom_some, (hd.subAt? hy).entry?_fillFrom_of_none hnone] at hsome
      exact ⟨x, y, hx, hy, hnone, hsome⟩

def firstName : Position × String → String
  | ([], leaf) => leaf
  | ((seg, _) :: _, _) => seg

theorem isSome_entry?_firstName (h : gap ∈ p.gaps d) :
    (d.entry? (firstName gap)).isSome = true := by
  obtain ⟨pos, leaf⟩ := gap
  cases pos with
  | nil => exact (mem_gaps_nil.1 h).2
  | cons step rest =>
    obtain ⟨sub, y, -, hy, -⟩ := mem_gaps_cons.1 h
    obtain ⟨f, hf, -⟩ := last?_eq_some_iff.1 (child?_eq_some_iff.1 hy)
    exact Option.isSome_of_eq_some hf

theorem mem_gaps_congr (hp : p.entry? (firstName gap) = q.entry? (firstName gap))
    (hd : d.entry? (firstName gap) = d'.entry? (firstName gap)) :
    gap ∈ p.gaps d ↔ gap ∈ q.gaps d' := by
  obtain ⟨pos, leaf⟩ := gap
  cases pos with
  | nil =>
    change p.entry? leaf = _ at hp
    change d.entry? leaf = _ at hd
    rw [mem_gaps_nil, mem_gaps_nil, hp, hd]
    rfl
  | cons step rest =>
    change p.entry? step.1 = _ at hp
    change d.entry? step.1 = _ at hd
    rw [mem_gaps_cons, mem_gaps_cons, element?_congr hp, child?_eq_bind, hd, ← child?_eq_bind]
    rfl

theorem gaps_congr (h : ∀ name, (d.entry? name).isSome = true → p.entry? name = q.entry? name) :
    p.gaps d = q.gaps d := by
  ext gap
  by_cases hd : (d.entry? (firstName gap)).isSome = true
  · exact mem_gaps_congr (h _ hd) rfl
  · exact iff_of_false (fun hgap => hd (isSome_entry?_firstName hgap))
      fun hgap => hd (isSome_entry?_firstName hgap)

theorem entry?_cons (f : Entry) (es : List Entry) (name : String) :
    entry? ⟨f :: es⟩ name = if f.name = name then some f else entry? ⟨es⟩ name := by
  by_cases h : f.name = name
  · rw [Policy.entry?, List.find?_cons_of_pos (by simpa using h), if_pos h]
  · rw [Policy.entry?, List.find?_cons_of_neg (by simpa using h), if_neg h, Policy.entry?]

theorem gaps_cons (hf : f.name ∉ es.map Entry.name) :
    p.gaps ⟨f :: es⟩ = p.gaps ⟨[f]⟩ ∪ p.gaps ⟨es⟩ ∧
      ∀ gap ∈ p.gaps ⟨[f]⟩, gap ∉ p.gaps ⟨es⟩ := by
  have hnone : entry? ⟨es⟩ f.name = none := entry?_eq_none_iff.2 hf
  have hone : ∀ {gap}, gap ∈ p.gaps ⟨[f]⟩ → firstName gap = f.name := by
    intro gap hgap
    have hsome := isSome_entry?_firstName hgap
    by_contra hne
    rw [entry?_cons, if_neg (Ne.symm hne)] at hsome
    cases hsome
  have hother : ∀ {gap}, gap ∈ p.gaps ⟨es⟩ → firstName gap ≠ f.name := by
    intro gap hgap heq
    have hsome := isSome_entry?_firstName hgap
    rw [heq, hnone] at hsome
    cases hsome
  constructor
  · ext gap
    by_cases h : firstName gap = f.name
    · have hmem : gap ∈ p.gaps ⟨f :: es⟩ ↔ gap ∈ p.gaps ⟨[f]⟩ := by
        apply mem_gaps_congr rfl
        rw [entry?_cons, entry?_cons, h, if_pos rfl, if_pos rfl]
      rw [hmem, Set.mem_union, or_iff_left]
      exact fun hgap => hother hgap h
    · have hmem : gap ∈ p.gaps ⟨f :: es⟩ ↔ gap ∈ p.gaps ⟨es⟩ := by
        apply mem_gaps_congr rfl
        rw [entry?_cons, if_neg (Ne.symm h)]
      rw [hmem, Set.mem_union, or_iff_right]
      exact fun hgap => h (hone hgap)
  · intro gap hgap hgap'
    exact hother hgap' (hone hgap)

end Policy

def Value.gaps (targets : List Value) (d : Policy) : Set (Nat × Position × String) :=
  {a | ∃ sub, targets[a.1]? = some (.policy sub) ∧ a.2 ∈ sub.gaps d}

namespace Value

theorem gaps_cons (v : Value) (targets : List Value) (d : Policy) :
    gaps (v :: targets) d =
      Prod.mk 0 '' {gap | ∃ sub, v = .policy sub ∧ gap ∈ sub.gaps d} ∪
        Prod.map Nat.succ id '' gaps targets d := by
  ext ⟨i, gap⟩
  cases i with
  | zero => simp [gaps]
  | succ i => simp [gaps]

theorem snd_fillEach_cons (v : Value) (targets : List Value) (d : Policy) :
    (fillEach (v :: targets) (.policy d)).2 =
      (v.policy?.map fun sub => (sub.fillFrom d).2).getD 0 + (fillEach targets (.policy d)).2 := by
  cases v <;> rfl

variable (h : ∀ sub : Policy, ((sub.fillFrom d).2 : ℕ∞) = (sub.gaps d).encard)
include h

theorem snd_fillEach (targets : List Value) :
    ((fillEach targets (.policy d)).2 : ℕ∞) = (gaps targets d).encard := by
  induction targets with
  | nil =>
    have hnone : gaps [] d = ∅ := by
      ext a
      simp [gaps]
    rw [hnone, Set.encard_empty]
    rfl
  | cons v targets ih =>
    have hdisjoint : Disjoint (Prod.mk 0 '' {gap | ∃ sub, v = .policy sub ∧ gap ∈ sub.gaps d})
        (Prod.map Nat.succ id '' gaps targets d) := by
      rw [Set.disjoint_left]
      rintro _ ⟨gap, -, rfl⟩ ⟨a, -, ha⟩
      cases ha
    have hfirst : (((v.policy?.map fun sub => (sub.fillFrom d).2).getD 0 : Nat) : ℕ∞) =
        {gap | ∃ sub, v = .policy sub ∧ gap ∈ sub.gaps d}.encard := by
      cases v with
      | policy sub =>
        change ((sub.fillFrom d).2 : ℕ∞) = _
        simpa using h sub
      | undefined | bool | int | double | string | file => simp [policy?]
    rw [gaps_cons, Set.encard_union_eq hdisjoint, (Prod.mk_right_injective 0).encard_image,
      (Nat.succ_injective.prodMap Function.injective_id).encard_image, snd_fillEach_cons,
      Nat.cast_add, hfirst, ih]

end Value

namespace Policy

def gapUnder (name : String) (a : Nat × Position × String) : Position × String :=
  ((name, a.1) :: a.2.1, a.2.2)

theorem gapUnder_injective (name : String) : Function.Injective (gapUnder name) := by
  rintro ⟨i, pos, leaf⟩ ⟨j, pos', leaf'⟩ h
  cases h
  rfl

section Entry

variable (he : p.entry? f.name = some e)
include he

theorem mem_gaps_singleton : ((seg, i) :: rest, leaf) ∈ p.gaps ⟨[f]⟩ ↔
    seg = f.name ∧ ∃ y, f.values.getLast? = some (.policy y) ∧
      (i, rest, leaf) ∈ Value.gaps e.values y := by
  rw [mem_gaps_cons]
  constructor
  · rintro ⟨sub, y, hsub, hy, hgap⟩
    obtain ⟨f', hf', hlast⟩ := last?_eq_some_iff.1 (child?_eq_some_iff.1 hy)
    rw [entry?_cons] at hf'
    split at hf'
    · obtain rfl := Option.some.inj hf'
      rename_i hseg
      obtain rfl := hseg
      obtain ⟨e', he', hv⟩ := element?_eq_some_iff.1 hsub
      obtain rfl := Option.some.inj (he.symm.trans he')
      exact ⟨rfl, y, hlast, sub, hv, hgap⟩
    · cases hf'
  · rintro ⟨rfl, y, hlast, sub, hv, hgap⟩
    have hf : entry? ⟨[f]⟩ f.name = some f := by rw [entry?_cons, if_pos rfl]
    exact ⟨sub, y, element?_eq_some_iff.2 ⟨e, he, hv⟩,
      child?_eq_some_iff.2 (last?_eq_some_iff.2 ⟨f, hf, hlast⟩), hgap⟩

theorem nil_not_mem_gaps_singleton : ([], leaf) ∉ p.gaps ⟨[f]⟩ := by
  rw [mem_gaps_nil, entry?_cons]
  rintro ⟨hnone, hsome⟩
  split at hsome
  · rename_i hname
    rw [← hname, he] at hnone
    cases hnone
  · cases hsome

theorem gaps_singleton_of_getLast? (hlast : f.values.getLast? = some (.policy y)) :
    p.gaps ⟨[f]⟩ = gapUnder f.name '' Value.gaps e.values y := by
  ext ⟨pos, leaf⟩
  cases pos with
  | nil =>
    apply iff_of_false (nil_not_mem_gaps_singleton he)
    rintro ⟨a, -, ⟨⟩⟩
  | cons step rest =>
    obtain ⟨seg, i⟩ := step
    rw [mem_gaps_singleton he, hlast]
    constructor
    · rintro ⟨rfl, y, ⟨⟩, hgap⟩
      exact ⟨_, hgap, rfl⟩
    · rintro ⟨a, ha, ⟨⟩⟩
      exact ⟨rfl, y, rfl, ha⟩

theorem gaps_singleton_eq_empty (hlast : ∀ y, f.values.getLast? ≠ some (.policy y)) :
    p.gaps ⟨[f]⟩ = ∅ := by
  rw [Set.eq_empty_iff_forall_notMem]
  rintro ⟨pos, leaf⟩ hgap
  cases pos with
  | nil => exact nil_not_mem_gaps_singleton he hgap
  | cons step rest =>
    obtain ⟨-, y, hy, -⟩ := (mem_gaps_singleton he).1 hgap
    exact hlast y hy

end Entry

theorem gaps_singleton_of_entry?_eq_none (he : p.entry? f.name = none) :
    p.gaps ⟨[f]⟩ = {([], f.name)} := by
  ext ⟨pos, leaf⟩
  rw [Set.mem_singleton_iff]
  constructor
  · intro hgap
    have hname := isSome_entry?_firstName hgap
    rw [entry?_cons] at hname
    split at hname
    · rename_i hname
      cases pos with
      | nil => rw [hname, firstName]
      | cons step rest =>
        obtain ⟨sub, y, hsub, -⟩ := mem_gaps_cons.1 hgap
        obtain ⟨e, he', -⟩ := element?_eq_some_iff.1 hsub
        rw [hname, firstName, he'] at he
        cases he
    · cases hname
  · rintro ⟨⟩
    rw [mem_gaps_nil, entry?_cons, if_pos rfl]
    exact ⟨he, rfl⟩

theorem snd_fill (h : ∀ y, Value.policy y ∈ f.values →
    ∀ sub : Policy, ((sub.fillFrom y).2 : ℕ∞) = (sub.gaps y).encard) (p : Policy) :
    ((Entry.fill p f).2 : ℕ∞) = (p.gaps ⟨[f]⟩).encard := by
  cases he : p.entry? f.name with
  | none =>
    have hone : (Entry.fill p f).2 = 1 := by
      obtain ⟨name, values⟩ := f
      rw [Entry.fill, he]
    rw [hone, gaps_singleton_of_entry?_eq_none he, Set.encard_singleton, Nat.cast_one]
  | some e =>
    have hcount : (Entry.fill p f).2 =
        ((f.values.getLast?.map (Value.fillEach e.values)).getD (e.values, 0)).2 := by
      obtain ⟨name, values⟩ := f
      rw [Entry.fill, he, ← Value.fillFromLast_eq]
    by_cases hlast : ∃ y, f.values.getLast? = some (.policy y)
    · obtain ⟨y, hlast⟩ := hlast
      rw [hcount, hlast, Option.map_some, Option.getD_some, gaps_singleton_of_getLast? he hlast,
        (gapUnder_injective f.name).encard_image,
        Value.snd_fillEach (h y (List.mem_of_getLast? hlast))]
    · rw [not_exists] at hlast
      rw [hcount, gaps_singleton_eq_empty he hlast, Set.encard_empty]
      cases hv : f.values.getLast? with
      | none => rfl
      | some v =>
        cases v with
        | policy y => exact absurd hv (hlast y)
        | undefined | bool | int | double | string | file => rfl

theorem gaps_fill (hf : f.name ∉ es.map Entry.name) (p : Policy) :
    Policy.gaps (Entry.fill p f).1 ⟨es⟩ = p.gaps ⟨es⟩ := by
  apply gaps_congr
  intro name hname
  rw [entry?_fill, if_neg]
  rintro rfl
  rw [entry?_eq_none_iff.2 hf] at hname
  cases hname

theorem snd_fillAll (hu : (es.map Entry.name).Nodup) (h : ∀ f ∈ es, ∀ p : Policy,
    ((Entry.fill p f).2 : ℕ∞) = (p.gaps ⟨[f]⟩).encard) (p : Policy) :
    ((Entry.fillAll p es).2 : ℕ∞) = (p.gaps ⟨es⟩).encard := by
  induction es generalizing p with
  | nil =>
    have hempty : p.gaps ⟨[]⟩ = ∅ := by
      rw [Set.eq_empty_iff_forall_notMem]
      intro gap hgap
      cases isSome_entry?_firstName hgap
    rw [hempty, Set.encard_empty]
    rfl
  | cons f es ih =>
    rw [List.map_cons, List.nodup_cons] at hu
    rw [List.forall_mem_cons] at h
    obtain ⟨hcons, hdisjoint⟩ := gaps_cons (p := p) hu.1
    change (((Entry.fill p f).2 + (Entry.fillAll (Entry.fill p f).1 es).2 : Nat) : ℕ∞) = _
    rw [hcons, Set.encard_union_eq (Set.disjoint_left.2 hdisjoint), Nat.cast_add, h.1 p,
      ih hu.2 h.2, gaps_fill hu.1]

/-- Filling counts the gaps. Induction on the defaults. -/
theorem WellFormed.snd_fillFrom (hd : d.WellFormed) (p : Policy) :
    ((p.fillFrom d).2 : ℕ∞) = (p.gaps d).encard := by
  induction hd generalizing p with
  | intro unique leaf array nested ih =>
    exact snd_fillAll unique (fun f hf => snd_fill (ih f hf)) p

/-- `q` is `p` with what it lacked of `d`, and `n` is the number of gaps that were closed. -/
structure Filled (p d q : Policy) (n : Nat) : Prop where
  keeps : ∀ {pos x}, p.elementAt? pos = some x → ∃ y, q.elementAt? pos = some y ∧ x.Keeps y
  complete : ∀ {name}, d.contains name = true → (q.contains name = true ↔ p.Open name)
  whole : ∀ {pos leaf values}, q.arrayAt? pos leaf = some values →
    p.arrayAt? pos leaf = none →
      ∃ pos' : Position, pos'.names = pos.names ∧ d.arrayAt? pos' leaf = some values
  count : (n : ℕ∞) = {gap : Position × String | (p.elementAt? gap.1).isSome = true ∧
    p.arrayAt? gap.1 gap.2 = none ∧ (q.arrayAt? gap.1 gap.2).isSome = true}.encard

/-- Filling adds what is missing and nothing else: what was there is kept, at every level and in
every element of an array. A default is there afterwards unless something else than a policy was in
its way, all that is new are whole defaults, and the number is that of the names that were added to
the policies that were there. -/
theorem mergeDefaults_fills (hp : p.WellFormed) (hd : d.WellFormed) :
    p.Filled d (p.mergeDefaults d).1 (p.mergeDefaults d).2 where
  keeps hx := ⟨_, hd.elementAt?_fillFrom hx,
    (hp.elementAt? hx).keeps_filledFrom fun _ hy => hd.subAt? hy⟩
  complete h := hp.contains_fillFrom hd h
  whole hnew hold := hd.exists_arrayAt?_of_fillFrom hnew hold
  count := by
    rw [mergeDefaults, hd.snd_fillFrom]
    congr 1
    ext ⟨pos, leaf⟩
    exact hd.mem_gaps_iff

def zoneDefaults : Policy :=
  ⟨[⟨"zone", [.policy ⟨[⟨"name", [.string "zone"]⟩,
    ⟨"map", [.policy ⟨[⟨"scale", [.double 1]⟩]⟩]⟩]⟩]⟩, ⟨"title", [.string "plan"]⟩]⟩

/-- The first zone gets a name and a map, and the plan a title. The file of the second zone stays.
-/
theorem mergeDefaults_fills_zonesAndSize :
    {gap : Position × String | (zonesAndSize.elementAt? gap.1).isSome = true ∧
      zonesAndSize.arrayAt? gap.1 gap.2 = none ∧
        ((zonesAndSize.mergeDefaults zoneDefaults).1.arrayAt? gap.1 gap.2).isSome = true}.encard =
      3 ∧ (zonesAndSize.mergeDefaults zoneDefaults).1.contains "title" = true := by
  have hfills := mergeDefaults_fills (p := zonesAndSize) (d := zoneDefaults) (by decide +kernel)
    (by decide +kernel)
  have htitle : Name.segments "title" = .ok ([] ++ ["title"]) := by decide +kernel
  exact ⟨hfills.count.symm, (hfills.complete (by decide +kernel)).2 ((open_iff htitle).2 (.nil _))⟩

end Policy

end PolicyTree
