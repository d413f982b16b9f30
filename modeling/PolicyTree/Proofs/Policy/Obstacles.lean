import PolicyTree.Proofs.Name.Above
import PolicyTree.Proofs.Policy.Names

namespace PolicyTree

namespace Policy

variable {α : Type} {p q x sub : Policy} {leaf seg name path walked : String}
  {segs front rest : List String} {v : Value} {k : Kind} {create : Bool}

def lastAt? (p : Policy) (path : List String) : Option Value :=
  (p.valuesAt? path).bind List.getLast?

theorem lastAt?_singleton (p : Policy) (leaf : String) : p.lastAt? [leaf] = p.last? leaf :=
  (p.last?_eq_bind leaf).symm

theorem lastAt?_cons (p : Policy) (seg : String) (hne : rest ≠ []) :
    p.lastAt? (seg :: rest) = (p.child? seg).bind fun sub => sub.lastAt? rest := by
  rw [lastAt?, valuesAt?_cons p seg hne, Option.bind_assoc]
  rfl

theorem lastAt?_cons_of_child? (h : p.child? seg = some sub) (hne : rest ≠ []) :
    p.lastAt? (seg :: rest) = sub.lastAt? rest := by
  rw [lastAt?_cons p seg hne, h, Option.bind_some]

/-- Nothing but policies was added last under the names on the way. -/
def Clear : Policy → List String → Prop
  | _, [] => True
  | p, seg :: rest =>
    (∀ v, p.last? seg = some v → v.kind = .policy) ∧ ∀ sub, p.child? seg = some sub → Clear sub rest

/-- The first name on the way under which something else than a policy was added last, with those
before it, and the kind of what is there. -/
inductive ObstructedAt : Policy → List String → List String → Kind → Prop
  | here {p : Policy} {seg : String} {rest : List String} {v : Value} (hv : p.last? seg = some v)
      (hk : v.kind ≠ .policy) : ObstructedAt p (seg :: rest) [seg] v.kind
  | deeper {p sub : Policy} {seg : String} {rest front : List String} {k : Kind}
      (hsub : p.child? seg = some sub) (h : ObstructedAt sub rest front k) :
      ObstructedAt p (seg :: rest) (seg :: front) k

theorem Clear.nil (p : Policy) : p.Clear [] := trivial

theorem Clear.of_child? (h : p.Clear (seg :: rest)) (hsub : p.child? seg = some sub) :
    sub.Clear rest :=
  h.2 sub hsub

theorem Clear.last?_eq_none (h : p.Clear (seg :: rest)) (hsub : p.child? seg = none) :
    p.last? seg = none := by
  rw [Option.eq_none_iff_forall_ne_some]
  intro v hv
  have hk := h.1 v hv
  cases v with
  | policy sub =>
    rw [child?_eq_some_iff.2 hv] at hsub
    cases hsub
  | undefined | bool | int | double | string | file => cases hk

theorem WellFormed.clear_cons_iff (hp : p.WellFormed) {e : Entry}
    (he : p.entry? seg = some e) :
    p.Clear (seg :: rest) ↔ ∃ sub, p.child? seg = some sub ∧ sub.Clear rest := by
  constructor
  · intro h
    cases hsub : p.child? seg with
    | none =>
      have hnone := hp.valuesAt?_eq_none (h.last?_eq_none hsub)
      rw [Policy.valuesAt?, he] at hnone
      cases hnone
    | some sub => exact ⟨sub, rfl, h.of_child? hsub⟩
  · rintro ⟨sub, hsub, hclear⟩
    apply And.intro
    · intro v hv
      rw [child?_eq_some_iff.1 hsub] at hv
      exact Option.some.inj hv ▸ rfl
    · intro sub' hsub'
      obtain rfl := Option.some.inj (hsub.symm.trans hsub')
      exact hclear

theorem Clear.empty (segs : List String) : Policy.empty.Clear segs := by
  cases segs with
  | nil => exact .nil .empty
  | cons seg rest => exact ⟨nofun, nofun⟩

theorem clear_of_subAt? (h : p.subAt? segs = some x) : p.Clear segs := by
  induction segs generalizing p with
  | nil => exact .nil p
  | cons seg rest ih =>
    obtain ⟨sub, hsub, hx⟩ := subAt?_cons_eq_some_iff.1 h
    refine ⟨fun v hv => ?_, fun sub' hsub' => ?_⟩
    · rw [child?_eq_some_iff.1 hsub] at hv
      exact Option.some.inj hv ▸ rfl
    · obtain rfl := Option.some.inj (hsub.symm.trans hsub')
      exact ih hx

theorem clear_or_obstructedAt (p : Policy) (segs : List String) :
    p.Clear segs ∨ ∃ front k, p.ObstructedAt segs front k := by
  induction segs generalizing p with
  | nil => exact .inl (.nil p)
  | cons seg rest ih =>
    by_cases hclear : ∀ v, p.last? seg = some v → v.kind = .policy
    · cases hsub : p.child? seg with
      | none =>
        refine .inl ⟨hclear, fun sub hsub' => ?_⟩
        rw [hsub] at hsub'
        cases hsub'
      | some sub =>
        rcases ih sub with hrest | ⟨front, k, hrest⟩
        · refine .inl ⟨hclear, fun sub' hsub' => ?_⟩
          obtain rfl := Option.some.inj (hsub.symm.trans hsub')
          exact hrest
        · exact .inr ⟨seg :: front, k, .deeper hsub hrest⟩
    · rw [not_forall] at hclear
      obtain ⟨v, hv⟩ := hclear
      rw [Classical.not_imp] at hv
      exact .inr ⟨[seg], v.kind, .here hv.1 hv.2⟩

theorem clear_iff : p.Clear segs ↔
    ∀ front v, front ≠ [] → front <+: segs → p.lastAt? front = some v → v.kind = .policy := by
  induction segs generalizing p with
  | nil =>
    refine iff_of_true (.nil p) fun front v hne hfront _ => ?_
    exact absurd (List.prefix_nil.1 hfront) hne
  | cons seg rest ih =>
    constructor
    · intro h front v hne hfront hv
      obtain ⟨next, front, rfl⟩ := List.exists_cons_of_ne_nil hne
      obtain ⟨rfl, hrest⟩ := List.cons_prefix_cons.1 hfront
      by_cases hend : front = []
      · subst hend
        rw [lastAt?_singleton] at hv
        exact h.1 v hv
      · rw [lastAt?_cons p next hend] at hv
        obtain ⟨sub, hsub, hv⟩ := Option.bind_eq_some_iff.1 hv
        exact ih.1 (h.of_child? hsub) front v hend hrest hv
    · intro h
      refine ⟨fun v hv => ?_, fun sub hsub => ih.2 fun front v hne hfront hv => ?_⟩
      · rw [← lastAt?_singleton] at hv
        exact h [seg] v (List.cons_ne_nil _ _) ⟨rest, rfl⟩ hv
      · rw [← lastAt?_cons_of_child? hsub hne] at hv
        exact h (seg :: front) v (List.cons_ne_nil _ _) (List.cons_prefix_cons.2 ⟨rfl, hfront⟩) hv

theorem ObstructedAt.exists_lastAt? (h : p.ObstructedAt segs front k) :
    front ≠ [] ∧ front <+: segs ∧ k ≠ .policy ∧ ∃ v, p.lastAt? front = some v ∧ v.kind = k := by
  induction h with
  | @here p seg rest v hv hk =>
    refine ⟨List.cons_ne_nil _ _, ⟨rest, rfl⟩, hk, v, ?_, rfl⟩
    rw [lastAt?_singleton, hv]
  | @deeper p sub seg rest front k hsub _ ih =>
    obtain ⟨hne, hfront, hk, v, hv, hkind⟩ := ih
    refine ⟨List.cons_ne_nil _ _, List.cons_prefix_cons.2 ⟨rfl, hfront⟩, hk, v, ?_, hkind⟩
    rw [lastAt?_cons_of_child? hsub hne, hv]

theorem obstructedAt_of_lastAt? (hne : front ≠ []) (hfront : front <+: segs)
    (hv : p.lastAt? front = some v) (hk : v.kind ≠ .policy) : p.ObstructedAt segs front v.kind := by
  induction front generalizing p segs with
  | nil => exact absurd rfl hne
  | cons seg front ih =>
    obtain ⟨rest, rfl⟩ := hfront
    by_cases hend : front = []
    · subst hend
      rw [lastAt?_singleton] at hv
      exact .here hv hk
    · rw [lastAt?_cons p seg hend] at hv
      obtain ⟨sub, hsub, hv⟩ := Option.bind_eq_some_iff.1 hv
      exact .deeper hsub (ih hend ⟨rest, rfl⟩ hv)

theorem exists_subAt?_of_lastAt? (hv : p.lastAt? (front ++ [leaf]) = some v) :
    ∃ x, p.subAt? front = some x ∧ x.last? leaf = some v := by
  rw [lastAt?, getLast?_valuesAt?] at hv
  exact Option.bind_eq_some_iff.1 hv

theorem child_eq_error (hv : p.last? seg = some v) (hk : v.kind ≠ .policy) (full : String) :
    p.child seg full = .error (.wrongType full .policy v.kind) := by
  rw [child, ← last?, hv]
  cases v with
  | policy => exact absurd rfl hk
  | undefined | bool | int | double | string | file => rfl

theorem editHolder_of_obstructedAt (h : p.ObstructedAt segs front k) (create : Bool)
    (edit : Policy → String → Except Error (α × Policy)) (walked leaf : String) :
    p.editHolder create edit walked (segs ++ [leaf]) =
      .error (.wrongType (front.foldl Name.join walked) .policy k) := by
  induction h generalizing walked with
  | @here p seg rest v hv hk =>
    rw [List.cons_append, editHolder_cons create edit walked p seg (List.concat_ne_nil leaf rest),
      enter_of_last? hv, child_eq_error hv hk]
    rfl
  | @deeper p sub seg rest front k hsub _ ih =>
    rw [List.cons_append, editHolder_cons create edit walked p seg (List.concat_ne_nil leaf rest),
      enter_of_child? hsub, ok_bind, ih]
    rfl

/-- The policy that a change at the end of a walk is made to; an empty one if the walk leads
nowhere. -/
def holderAt (p : Policy) (path : List String) : Policy :=
  (p.subAt? path).getD .empty

@[simp] theorem holderAt_nil (p : Policy) : p.holderAt [] = p := rfl

theorem holderAt_of_subAt? (h : p.subAt? segs = some x) : p.holderAt segs = x := by
  rw [holderAt, h, Option.getD_some]

theorem holderAt_empty (path : List String) : Policy.empty.holderAt path = .empty := by
  cases path <;> rfl

theorem holderAt_cons (p : Policy) (seg : String) (rest : List String) :
    p.holderAt (seg :: rest) = ((p.child? seg).getD .empty).holderAt rest := by
  cases h : p.child? seg with
  | none =>
    rw [holderAt, subAt?, h, Option.getD_none, holderAt_empty]
    rfl
  | some sub =>
    rw [holderAt, subAt?, h]
    rfl

theorem WellFormed.holderAt (h : p.WellFormed) (front : List String) :
    (p.holderAt front).WellFormed := by
  cases hsub : p.subAt? front with
  | none =>
    rw [Policy.holderAt, hsub]
    exact .empty
  | some x =>
    rw [holderAt_of_subAt? hsub]
    exact h.subAt? hsub

theorem Clear.holderAt (h : p.Clear (front ++ rest)) : (p.holderAt front).Clear rest := by
  induction front generalizing p with
  | nil => exact h
  | cons seg front ih =>
    rw [holderAt_cons]
    cases hsub : p.child? seg with
    | none =>
      rw [Option.getD_none, holderAt_empty]
      exact .empty rest
    | some sub => exact ih (h.of_child? hsub)

theorem valuesAt?_empty (path : List String) : Policy.empty.valuesAt? path = none := by
  cases path with
  | nil => rfl
  | cons seg rest => cases rest <;> rfl

theorem valuesAt?_cons_holder (p : Policy) (seg : String) (hne : rest ≠ []) :
    p.valuesAt? (seg :: rest) = ((p.child? seg).getD .empty).valuesAt? rest := by
  rw [valuesAt?_cons p seg hne]
  cases p.child? seg with
  | none => rw [Option.bind_none, Option.getD_none, valuesAt?_empty]
  | some sub => rfl

theorem valuesAt?_append (p : Policy) (front : List String) (hne : rest ≠ []) :
    p.valuesAt? (front ++ rest) = (p.holderAt front).valuesAt? rest := by
  induction front generalizing p with
  | nil => rfl
  | cons seg front ih =>
    have hne' : front ++ rest ≠ [] := List.append_ne_nil_of_right_ne_nil front hne
    rw [List.cons_append, valuesAt?_cons_holder p seg hne', holderAt_cons, ih]

theorem WellFormed.enter_of_clear (h : p.WellFormed) (hclear : p.Clear (seg :: rest))
    (full : String) : p.enter true seg full = .ok ((p.child? seg).getD .empty) := by
  cases hsub : p.child? seg with
  | some sub => rw [enter_of_child? hsub, Option.getD_some]
  | none =>
    have hnone := h.isSome_last? seg
    rw [hclear.last?_eq_none hsub, Option.isSome_none, eq_comm, Option.isSome_eq_false_iff] at hnone
    rw [Policy.enter, hnone, Option.getD_none]
    rfl

/-- Without obstacles, a change that may make policies is one of the policy at the end of the walk.
Induction on the names: the policies on the way are well-formed, or new. -/
theorem WellFormed.editHolder_of_clear (h : p.WellFormed) (hclear : p.Clear segs)
    (edit : Policy → String → Except Error (α × Policy)) (walked leaf : String) :
    p.editHolder true edit walked (segs ++ [leaf]) =
      (edit (p.holderAt segs) leaf).map fun result => (result.1, p.putAt segs result.2) := by
  induction segs generalizing p walked with
  | nil =>
    rw [List.nil_append, Policy.editHolder, holderAt_nil]
    cases edit p leaf <;> rfl
  | cons seg rest ih =>
    have hsub : ((p.child? seg).getD .empty).WellFormed ∧
        ((p.child? seg).getD .empty).Clear rest := by
      cases hsub : p.child? seg with
      | none => exact ⟨.empty, Clear.empty rest⟩
      | some sub => exact ⟨h.child? hsub, hclear.of_child? hsub⟩
    rw [List.cons_append, editHolder_cons true edit walked p seg (List.concat_ne_nil leaf rest),
      h.enter_of_clear hclear, ok_bind, ih hsub.1 hsub.2, holderAt_cons]
    cases edit (((p.child? seg).getD .empty).holderAt rest) leaf <;> rfl

theorem editHolder_of_missing (hclear : p.Clear segs) (hnone : p.subAt? segs = none)
    (edit : Policy → String → Except Error (α × Policy)) (walked leaf : String) :
    ∃ n, p.editHolder false edit walked (segs ++ [leaf]) = .error (.nameNotFound n) := by
  induction segs generalizing p walked with
  | nil => cases hnone
  | cons seg rest ih =>
    rw [List.cons_append, editHolder_cons false edit walked p seg (List.concat_ne_nil leaf rest)]
    cases hsub : p.child? seg with
    | none =>
      refine ⟨Name.join walked seg, ?_⟩
      rw [enter, Bool.false_and, if_neg Bool.false_ne_true, child, ← last?,
        hclear.last?_eq_none hsub]
      rfl
    | some sub =>
      rw [subAt?, hsub, Option.bind_some] at hnone
      obtain ⟨n, hn⟩ := ih (hclear.of_child? hsub) hnone (Name.join walked seg)
      exact ⟨n, by rw [enter_of_child? hsub, ok_bind, hn, error_bind]⟩

/-- Nothing but policies was added last under the names above `path`. -/
def Open (p : Policy) (path : String) : Prop :=
  ∀ name k, Name.Above name path → p.kindOf name = .ok k → k = .policy

/-- `name` is the shortest name above `path` under which something else than a policy was added
last, and `k` is its kind. -/
structure BlockedAt (p : Policy) (path name : String) (k : Kind) : Prop where
  above : Name.Above name path
  kind : p.kindOf name = .ok k
  ne : k ≠ .policy
  shortest : p.Open name

theorem kindOf_of_segments (hsegs : Name.segments name = .ok segs) :
    p.kindOf name = .ok k ↔ ∃ v, p.lastAt? segs = some v ∧ v.kind = k := by
  rw [← toOption_eq_some_iff, toOption_kindOf hsegs, Option.map_eq_some_iff]
  rfl

section Leaf

variable (hsegs : Name.segments path = .ok (segs ++ [leaf]))
include hsegs

theorem open_iff : p.Open path ↔ p.Clear segs := by
  have hname : ∀ {front}, front ≠ [] → front <+: segs →
      Name.segments (Name.ofSegments front) = .ok front :=
    fun hne hfront => Name.segments_of_prefix hsegs hne (hfront.trans (List.prefix_append _ _))
  rw [clear_iff]
  constructor
  · intro h front v hne hfront hv
    apply h (Name.ofSegments front) v.kind
    · exact (Name.above_iff hsegs).2 ⟨front, hne, hfront, rfl⟩
    · exact (kindOf_of_segments (hname hne hfront)).2 ⟨v, hv, rfl⟩
  · intro h name k habove hk
    obtain ⟨front, hne, hfront, rfl⟩ := (Name.above_iff hsegs).1 habove
    obtain ⟨v, hv, rfl⟩ := (kindOf_of_segments (hname hne hfront)).1 hk
    exact h front v hne hfront hv

theorem blockedAt_iff : p.BlockedAt path name k ↔
    ∃ front, p.ObstructedAt segs front k ∧ name = Name.ofSegments front := by
  have hname : ∀ {front}, front ≠ [] → front <+: segs →
      Name.segments (Name.ofSegments front) = .ok front :=
    fun hne hfront => Name.segments_of_prefix hsegs hne (hfront.trans (List.prefix_append _ _))
  constructor
  · rintro ⟨habove, hk, hne, -⟩
    obtain ⟨front, hfne, hfront, rfl⟩ := (Name.above_iff hsegs).1 habove
    obtain ⟨v, hv, rfl⟩ := (kindOf_of_segments (hname hfne hfront)).1 hk
    exact ⟨front, obstructedAt_of_lastAt? hfne hfront hv hne, rfl⟩
  · rintro ⟨front, h, rfl⟩
    obtain ⟨hfne, hfront, hne, v, hv, rfl⟩ := h.exists_lastAt?
    have hsegs' := hname hfne hfront
    refine ⟨(Name.above_iff hsegs).2 ⟨front, hfne, hfront, rfl⟩,
      (kindOf_of_segments hsegs').2 ⟨v, hv, rfl⟩, hne, ?_⟩
    -- the walk to the obstacle goes through policies only
    obtain ⟨inner, last, rfl⟩ := (List.eq_nil_or_concat' front).resolve_left hfne
    obtain ⟨x, hx, -⟩ := exists_subAt?_of_lastAt? hv
    exact (open_iff hsegs').2 (clear_of_subAt? hx)

end Leaf

theorem badName_of_segments {e : Error} (h : Name.segments path = .error e) :
    ∃ reason, e = .badName path reason := by
  rw [Name.segments_eq] at h
  split at h
  · cases h
  · exact ⟨_, (Except.error.inj h).symm⟩

theorem edit_of_blockedAt (h : p.BlockedAt path name k) (create : Bool)
    (change : Policy → String → Except Error (α × Policy)) :
    p.edit create path change = .error (.wrongType name .policy k) := by
  obtain ⟨above, below, -, hsegs, -⟩ := h.above
  obtain ⟨front, leaf, hfront⟩ := Name.exists_leaf_of_segments hsegs
  rw [hfront] at hsegs
  obtain ⟨obstacle, hobstacle, rfl⟩ := (blockedAt_iff hsegs).1 h
  have hnames : ∀ s ∈ obstacle, Name.isLeaf s = true := by
    intro s hs
    apply Name.isLeaf_of_mem_segments hsegs
    exact List.mem_append_left _ (hobstacle.exists_lastAt?.2.1.subset hs)
  have hjoin : obstacle.foldl Name.join "" = Name.ofSegments obstacle :=
    Name.foldl_join_ofSegments (List.forall_mem_nil _) hnames
  rw [edit, hsegs, ok_bind, editHolder_of_obstructedAt hobstacle, hjoin]

/-- What comes of a change under a name. With `create`, policies may be made on the way. -/
inductive EditResult (p : Policy) (create : Bool) (path : String)
    (change : Policy → String → Except Error (α × Policy)) : Except Error (α × Policy) → Prop
  | badName {reason : String} (hsegs : Name.segments path = .error (.badName path reason)) :
      EditResult p create path change (.error (.badName path reason))
  | blocked {name : String} {k : Kind} (hblocked : p.BlockedAt path name k) :
      EditResult p create path change (.error (.wrongType name .policy k))
  | missing {front : List String} {leaf name : String} (hcreate : create = false)
      (hsegs : Name.segments path = .ok (front ++ [leaf])) (hsub : p.subAt? front = none) :
      EditResult p create path change (.error (.nameNotFound name))
  /-- The change is that of the policy that the name leads to. -/
  | changed {front : List String} {leaf : String}
      (hsegs : Name.segments path = .ok (front ++ [leaf])) (hopen : p.Open path)
      (hsub : create = false → p.subAt? front = some (p.holderAt front)) :
      EditResult p create path change ((change (p.holderAt front) leaf).map fun result =>
        (result.1, p.putAt front result.2))

theorem WellFormed.editResult (h : p.WellFormed) (create : Bool) (path : String)
    (change : Policy → String → Except Error (α × Policy)) :
    p.EditResult create path change (p.edit create path change) := by
  cases hsegs : Name.segments path with
  | error e =>
    obtain ⟨reason, rfl⟩ := badName_of_segments hsegs
    rw [Policy.edit, hsegs, error_bind]
    exact .badName hsegs
  | ok segs =>
    obtain ⟨front, leaf, rfl⟩ := Name.exists_leaf_of_segments hsegs
    rcases p.clear_or_obstructedAt front with hclear | ⟨obstacle, k, hobstacle⟩
    · have hopen := (open_iff hsegs).2 hclear
      rw [Policy.edit, hsegs, ok_bind]
      cases hsub : p.subAt? front with
      | some x =>
        have hx := holderAt_of_subAt? hsub
        rw [editHolder_concat hsub, ← hx]
        exact .changed hsegs hopen fun _ => hx.symm ▸ hsub
      | none =>
        cases create with
        | true =>
          rw [h.editHolder_of_clear hclear]
          exact .changed hsegs hopen fun hcreate => absurd hcreate.symm Bool.false_ne_true
        | false =>
          obtain ⟨name, hname⟩ := editHolder_of_missing hclear hsub change "" leaf
          rw [hname]
          exact .missing rfl hsegs hsub
    · have hblocked := (blockedAt_iff hsegs).2 ⟨obstacle, hobstacle, rfl⟩
      rw [edit_of_blockedAt hblocked]
      exact .blocked hblocked

theorem WellFormed.edit_eq_ok (h : p.WellFormed)
    {change : Policy → String → Except Error (α × Policy)} {answer : α}
    (hq : p.edit create path change = .ok (answer, q)) :
    ∃ front leaf x, Name.segments path = .ok (front ++ [leaf]) ∧ p.Open path ∧
      (create = false → p.subAt? front = some (p.holderAt front)) ∧
      change (p.holderAt front) leaf = .ok (answer, x) ∧ q = p.putAt front x := by
  have hresult := h.editResult create path change
  generalize p.edit create path change = result at hq hresult
  cases hresult with
  | badName | blocked | missing => cases hq
  | @changed front leaf hsegs hopen hsub =>
    obtain ⟨⟨answer', x⟩, hx, hpair⟩ := map_eq_ok_iff.1 hq
    obtain ⟨rfl, rfl⟩ := Prod.mk.inj hpair
    exact ⟨front, leaf, x, hsegs, hopen, hsub, hx, rfl⟩

end Policy

end PolicyTree
