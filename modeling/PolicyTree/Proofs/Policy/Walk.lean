import PolicyTree.Proofs.Schema.Dictionary

namespace PolicyTree

theorem rel_getLast? {α β : Type} {R : α → β → Prop} {as : List α} {bs : List β}
    (h : List.Forall₂ R as bs) : Option.Rel R as.getLast? bs.getLast? := by
  induction h with
  | nil => exact .none
  | @cons a b as bs hab hall ih =>
    cases hall with
    | nil => exact .some hab
    | cons => exact ih

theorem isSome_eq_of_rel {α : Type} {R : α → α → Prop} {a b : Option α} (h : Option.Rel R a b) :
    a.isSome = b.isSome := by
  cases h <;> rfl

namespace Policy

variable {p q x sub : Policy} {leaf name seg : String} {path rest : List String} {v : Value}
  {values : List Value} {e : Entry}

theorem find?_put (leaf : String) (values : List Value) (es : List Entry) (name : String) :
    (Entry.put leaf values es).find? (fun e => e.name == name) =
      if name = leaf then some ⟨leaf, values⟩ else es.find? fun e => e.name == name := by
  induction es with
  | nil =>
    by_cases h : name = leaf
    · simp [Entry.put, h]
    · simp [Entry.put, h, Ne.symm h]
  | cons e es ih =>
    rw [Entry.put]
    by_cases he : e.name = leaf
    · by_cases h : name = leaf
      · simp [he, h]
      · simp [he, h, Ne.symm h]
    · rw [if_neg (by simpa using he), List.find?_cons, List.find?_cons, ih]
      by_cases h : name = leaf
      · subst h
        rw [beq_eq_false_iff_ne.2 he, if_pos rfl]
      · simp [h]

theorem entry?_put (p : Policy) (leaf : String) (values : List Value) (name : String) :
    Policy.entry? (p.put leaf values) name =
      if name = leaf then some ⟨leaf, values⟩ else p.entry? name :=
  find?_put leaf values p.entries name

theorem WellFormed.entry?_erase (h : p.WellFormed) (leaf name : String) :
    Policy.entry? (p.erase leaf) name = if name = leaf then none else p.entry? name := by
  have hu := h.unique
  rw [Policy.erase, entry?, entry?]
  generalize p.entries = es at hu
  induction es with
  | nil => simp
  | cons e es ih =>
    rw [List.map_cons, List.nodup_cons] at hu
    have ih := ih hu.2
    by_cases he : e.name = leaf
    · rw [List.eraseP_cons_of_pos (by simpa using he)]
      by_cases hn : name = leaf
      · rw [if_pos hn, List.find?_eq_none]
        intro f hf hname
        apply hu.1
        rw [he, ← hn, ← eq_of_beq hname]
        exact List.mem_map_of_mem hf
      · rw [if_neg hn, List.find?_cons_of_neg]
        simpa [he] using Ne.symm hn
    · rw [List.eraseP_cons_of_neg (by simpa using he), List.find?_cons, List.find?_cons, ih]
      by_cases hn : name = leaf
      · subst hn
        rw [beq_eq_false_iff_ne.2 he, if_pos rfl]
      · simp [hn]

theorem put_put (p : Policy) (leaf : String) (values values' : List Value) :
    (p.put leaf values).put leaf values' = p.put leaf values' := by
  rw [put, put, put, mk.injEq]
  generalize p.entries = es
  induction es with
  | nil => simp [Entry.put]
  | cons e es ih =>
    by_cases he : e.name = leaf
    · simp [Entry.put, he]
    · have hb : (e.name == leaf) = false := by simpa using he
      simp only [Entry.put, hb, Bool.false_eq_true, if_false, ih]

theorem put_self (h : p.entry? leaf = some e) : p.put leaf e.values = p := by
  obtain ⟨es⟩ := p
  rw [put, mk.injEq]
  rw [Policy.entry?] at h
  induction es with
  | nil => cases h
  | cons f es ih =>
    by_cases hf : f.name = leaf
    · rw [List.find?_cons_of_pos (by simpa using hf)] at h
      obtain rfl := Option.some.inj h
      obtain ⟨name, values⟩ := f
      rw [Entry.put, if_pos (by simpa using hf)]
    · rw [List.find?_cons_of_neg (by simpa using hf)] at h
      rw [Entry.put, if_neg (by simpa using hf), ih h]

/-- The value added last under a single-segment name. -/
def last? (p : Policy) (leaf : String) : Option Value :=
  (p.entry? leaf).bind (·.values.getLast?)

theorem last?_eq_bind (p : Policy) (leaf : String) :
    p.last? leaf = (p.valuesAt? [leaf]).bind List.getLast? := by
  rw [last?, valuesAt?, Option.bind_map]
  rfl

theorem last?_eq_some_iff :
    p.last? leaf = some v ↔ ∃ e, p.entry? leaf = some e ∧ e.values.getLast? = some v :=
  Option.bind_eq_some_iff

theorem valuesAt?_of_last? (h : p.last? leaf = some v) :
    ∃ front, p.valuesAt? [leaf] = some (front ++ [v]) := by
  rw [last?_eq_bind] at h
  obtain ⟨values, hvalues, hlast⟩ := Option.bind_eq_some_iff.1 h
  exact ⟨values.dropLast, by rw [hvalues, List.dropLast_append_getLast? _ hlast]⟩

theorem child?_eq_some_iff : p.child? leaf = some sub ↔ p.last? leaf = some (.policy sub) := by
  rw [child?, ← last?, Option.bind_eq_some_iff]
  constructor
  · rintro ⟨v, hv, hsub⟩
    rw [hv, Value.policy?_eq_some_iff.1 hsub]
  · intro h
    exact ⟨_, h, rfl⟩

theorem WellFormed.isSome_last? (h : p.WellFormed) (leaf : String) :
    (p.last? leaf).isSome = (p.entry? leaf).isSome := by
  rw [last?]
  cases he : p.entry? leaf with
  | none => rfl
  | some e =>
    have hne := (h.storable (mem_of_entry?_eq_some he)).ne_nil
    rw [Option.bind_some, List.getLast?_eq_some_getLast hne]
    rfl

theorem WellFormed.valuesAt?_eq_none (h : p.WellFormed) (hlast : p.last? leaf = none) :
    p.valuesAt? [leaf] = none := by
  have hnone := h.isSome_last? leaf
  rw [hlast, Option.isSome_none, eq_comm, Option.isSome_eq_false_iff, Option.isNone_iff_eq_none]
    at hnone
  rw [Policy.valuesAt?, hnone]
  rfl

theorem WellFormed.kind_eq_of_last? {front after : List Value} {w : Value} (h : p.WellFormed)
    (hv : p.valuesAt? [leaf] = some (front ++ v :: after)) (hw : p.last? leaf = some w) :
    v.kind = w.kind := by
  have harray := (h.valuesAt? hv).toIsArray
  rw [last?_eq_bind, hv, Option.bind_some] at hw
  have hmem : v ∈ front ++ v :: after := List.mem_append_right _ (List.mem_cons_self ..)
  exact (harray.kind_of_mem hmem leaf).symm.trans
    (harray.kind_of_mem (List.mem_of_getLast? hw) leaf)

theorem last?_put (p : Policy) (leaf : String) (values : List Value) (name : String) :
    (p.put leaf values).last? name = if name = leaf then values.getLast? else p.last? name := by
  rw [last?, entry?_put]
  split <;> rfl

theorem last?_putChild (p : Policy) (leaf : String) (sub : Policy) (name : String) :
    (p.putChild leaf sub).last? name =
      if name = leaf then some (.policy sub) else p.last? name := by
  rw [putChild, last?_put, List.getLast?_concat]

theorem child?_putChild (p : Policy) (leaf : String) (sub : Policy) (name : String) :
    (p.putChild leaf sub).child? name = if name = leaf then some sub else p.child? name := by
  apply Option.ext
  intro found
  rw [child?_eq_some_iff, last?_putChild]
  split
  · simp
  · exact child?_eq_some_iff.symm

theorem exists_valuesAt?_putChild (hsub : p.child? seg = some sub) :
    ∃ front, p.valuesAt? [seg] = some (front ++ [.policy sub]) ∧ ∀ sub' name,
      (p.putChild seg sub').valuesAt? [name] =
        if name = seg then some (front ++ [.policy sub']) else p.valuesAt? [name] := by
  obtain ⟨e, he, hlast⟩ := last?_eq_some_iff.1 (child?_eq_some_iff.1 hsub)
  refine ⟨e.values.dropLast, ?_, fun sub' name => ?_⟩
  · rw [Policy.valuesAt?, he, Option.map_some, List.dropLast_append_getLast? _ hlast]
  · rw [Policy.valuesAt?, putChild, he, entry?_put]
    split
    · rfl
    · rfl

theorem putChild_putChild (p : Policy) (leaf : String) (sub sub' : Policy) :
    (p.putChild leaf sub).putChild leaf sub' = p.putChild leaf sub' := by
  have hbefore :
      ((Policy.entry? (p.putChild leaf sub) leaf).map fun e => e.values.dropLast).getD [] =
        ((p.entry? leaf).map fun e => e.values.dropLast).getD [] := by
    rw [putChild, entry?_put, if_pos rfl, Option.map_some, Option.getD_some,
      List.dropLast_concat]
  rw [putChild, hbefore, putChild, put_put, ← putChild]

theorem putChild_self (h : p.child? leaf = some sub) : p.putChild leaf sub = p := by
  obtain ⟨e, he, hlast⟩ := last?_eq_some_iff.1 (child?_eq_some_iff.1 h)
  rw [putChild, he, Option.map_some, Option.getD_some, List.dropLast_append_getLast? _ hlast,
    put_self he]

/-- The sub-policy that a walk leads to. -/
def subAt? (p : Policy) : List String → Option Policy
  | [] => some p
  | seg :: rest => (p.child? seg).bind fun sub => sub.subAt? rest

@[simp] theorem subAt?_nil (p : Policy) : p.subAt? [] = some p := rfl

theorem subAt?_singleton (p : Policy) (seg : String) : p.subAt? [seg] = p.child? seg := by
  rw [subAt?]
  cases p.child? seg <;> rfl

theorem subAt?_cons_eq_some_iff :
    p.subAt? (seg :: rest) = some x ↔ ∃ sub, p.child? seg = some sub ∧ sub.subAt? rest = some x :=
  Option.bind_eq_some_iff

theorem subAt?_append (p : Policy) (path rest : List String) :
    p.subAt? (path ++ rest) = (p.subAt? path).bind fun q => q.subAt? rest := by
  induction path generalizing p with
  | nil => rfl
  | cons seg path ih =>
    rw [List.cons_append, subAt?, subAt?, Option.bind_assoc]
    simp only [ih]

theorem WellFormed.subAt? (h : p.WellFormed) (hx : p.subAt? path = some x) : x.WellFormed := by
  induction path generalizing p with
  | nil =>
    obtain rfl := Option.some.inj hx
    exact h
  | cons seg path ih =>
    obtain ⟨sub, hsub, hx⟩ := subAt?_cons_eq_some_iff.1 hx
    exact ih (h.child? hsub) hx

theorem WellFormed.isLeaf_of_subAt? (h : p.WellFormed) (hx : p.subAt? path = some x) :
    ∀ s ∈ path, Name.isLeaf s = true := by
  induction path generalizing p with
  | nil => simp
  | cons seg path ih =>
    obtain ⟨sub, hsub, hx⟩ := subAt?_cons_eq_some_iff.1 hx
    obtain ⟨e, he, -⟩ := last?_eq_some_iff.1 (child?_eq_some_iff.1 hsub)
    have hleaf := h.leaf (mem_of_entry?_eq_some he)
    rw [name_of_entry?_eq_some he] at hleaf
    exact List.forall_mem_cons.2 ⟨hleaf, ih (h.child? hsub) hx⟩

theorem valuesAt?_cons (p : Policy) (seg : String) (hne : rest ≠ []) :
    p.valuesAt? (seg :: rest) = (p.child? seg).bind fun sub => sub.valuesAt? rest := by
  obtain ⟨next, rest, rfl⟩ := List.exists_cons_of_ne_nil hne
  rfl

theorem valuesAt?_concat (p : Policy) (path : List String) (leaf : String) :
    p.valuesAt? (path ++ [leaf]) =
      (p.subAt? path).bind fun q => (q.entry? leaf).map Entry.values := by
  induction path generalizing p with
  | nil => rfl
  | cons seg path ih =>
    rw [List.cons_append, valuesAt?_cons p seg (List.concat_ne_nil leaf path), subAt?,
      Option.bind_assoc]
    simp only [ih]

theorem getLast?_valuesAt? (p : Policy) (path : List String) (leaf : String) :
    (p.valuesAt? (path ++ [leaf])).bind List.getLast? =
      (p.subAt? path).bind fun q => q.last? leaf := by
  rw [valuesAt?_concat, Option.bind_assoc]
  congr 1
  funext q
  rw [last?, Option.bind_map]
  rfl

/-- What is read under a dotted name is the last value at the end of the walk. -/
theorem get_ofSegments_eq_ok_iff (hpath : ∀ s ∈ path, Name.isLeaf s = true)
    (hleaf : Name.isLeaf leaf = true) :
    p.get (Name.ofSegments (path ++ [leaf])) = .ok v ↔
      ∃ q, p.subAt? path = some q ∧ q.last? leaf = some v := by
  have hsegs := Name.segments_ofSegments (List.concat_ne_nil leaf path)
    (Name.isLeaf_concat hpath hleaf)
  rw [← Option.bind_eq_some_iff, ← getLast?_valuesAt?, Option.bind_eq_some_iff, get_eq_ok_iff]
  apply exists_congr
  intro values
  rw [getArray_eq_ok_iff, hsegs]
  simp

theorem get_policy_eq_ok_iff :
    p.get name = .ok (.policy sub) ↔ ∃ segs, Name.segments name = .ok segs ∧
      p.subAt? segs = some sub := by
  have hwalk : ∀ {segs}, Name.segments name = .ok segs →
      (p.get name = .ok (.policy sub) ↔ p.subAt? segs = some sub) := by
    intro segs hsegs
    obtain ⟨front, leaf, rfl, hfront, hleaf, rfl⟩ := Name.exists_concat_of_segments hsegs
    rw [get_ofSegments_eq_ok_iff hfront hleaf, subAt?_append, Option.bind_eq_some_iff]
    apply exists_congr
    intro holder
    apply and_congr_right
    intro _
    rw [← child?_eq_some_iff, subAt?_singleton]
  constructor
  · intro h
    obtain ⟨values, harray, -⟩ := get_eq_ok_iff.1 h
    obtain ⟨segs, hsegs, -⟩ := getArray_eq_ok_iff.1 harray
    exact ⟨segs, hsegs, (hwalk hsegs).1 h⟩
  · rintro ⟨segs, hsegs, hsub⟩
    exact (hwalk hsegs).2 hsub

theorem get_of_isLeaf (hleaf : Name.isLeaf leaf = true) :
    p.get leaf = .ok v ↔ p.last? leaf = some v := by
  have hget := get_ofSegments_eq_ok_iff (p := p) (v := v) (List.forall_mem_nil _) hleaf
  simpa using hget

theorem child?_of_getAs (hleaf : Name.isLeaf leaf = true) (h : p.getAs .policy leaf = .ok q) :
    p.child? leaf = some q :=
  child?_eq_some_iff.2 ((get_of_isLeaf hleaf).1 (get_of_getAs_policy h))

/-- Puts a policy in the place of the one that a walk leads to. -/
def putAt (p : Policy) : List String → Policy → Policy
  | [], x => x
  | seg :: rest, x => p.putChild seg (((p.child? seg).getD .empty).putAt rest x)

@[simp] theorem putAt_nil (p x : Policy) : p.putAt [] x = x := rfl

theorem putAt_cons (h : p.child? seg = some sub) (rest : List String) (x : Policy) :
    p.putAt (seg :: rest) x = p.putChild seg (sub.putAt rest x) := by
  rw [putAt, h, Option.getD_some]

theorem subAt?_putAt (p : Policy) (path : List String) (x : Policy) :
    (p.putAt path x).subAt? path = some x := by
  induction path generalizing p with
  | nil => rfl
  | cons seg path ih =>
    rw [putAt, subAt?, child?_putChild, if_pos rfl, Option.bind_some, ih]

theorem putAt_self (h : p.subAt? path = some x) : p.putAt path x = p := by
  induction path generalizing p with
  | nil => exact (Option.some.inj h).symm
  | cons seg path ih =>
    obtain ⟨sub, hsub, hx⟩ := subAt?_cons_eq_some_iff.1 h
    rw [putAt_cons hsub, ih hx, putChild_self hsub]

theorem putAt_putAt (p : Policy) (path : List String) (x y : Policy) :
    (p.putAt path x).putAt path y = p.putAt path y := by
  induction path generalizing p with
  | nil => rfl
  | cons seg path ih =>
    rw [putAt, putAt, child?_putChild, if_pos rfl, Option.getD_some, ih, putChild_putChild,
      ← putAt]

theorem editHolder_cons {α : Type} (create : Bool)
    (edit : Policy → String → Except Error (α × Policy)) (walked : String) (p : Policy)
    (seg : String) (hne : rest ≠ []) :
    p.editHolder create edit walked (seg :: rest) = (do
      let sub ← p.enter create seg (Name.join walked seg)
      let result ← sub.editHolder create edit (Name.join walked seg) rest
      return (result.1, p.putChild seg result.2)) := by
  obtain ⟨next, rest, rfl⟩ := List.exists_cons_of_ne_nil hne
  rfl

theorem enter_of_last? (h : p.last? seg = some v) (create : Bool) (full : String) :
    p.enter create seg full = p.child seg full := by
  obtain ⟨e, he, -⟩ := last?_eq_some_iff.1 h
  rw [enter, he, Option.isNone_some, Bool.and_false, if_neg Bool.false_ne_true]

theorem enter_of_child? (h : p.child? seg = some sub) (create : Bool) (full : String) :
    p.enter create seg full = .ok sub := by
  rw [enter_of_last? (child?_eq_some_iff.1 h)]
  exact child_eq_ok_iff.2 (child?_eq_some_iff.1 h)

/-- A change beyond a walk that exists is one of the policy that it leads to. -/
theorem editHolder_append {α : Type} {create : Bool} {walked : String}
    {edit : Policy → String → Except Error (α × Policy)} (hx : p.subAt? path = some x)
    (hne : rest ≠ []) :
    p.editHolder create edit walked (path ++ rest) =
      (x.editHolder create edit (path.foldl Name.join walked) rest).map fun result =>
        (result.1, p.putAt path result.2) := by
  induction path generalizing p walked with
  | nil =>
    obtain rfl := Option.some.inj hx
    rw [List.nil_append, List.foldl_nil]
    cases p.editHolder create edit walked rest <;> rfl
  | cons seg path ih =>
    obtain ⟨sub, hsub, hx⟩ := subAt?_cons_eq_some_iff.1 hx
    have hne' : path ++ rest ≠ [] := List.append_ne_nil_of_right_ne_nil path hne
    rw [List.cons_append, editHolder_cons create edit walked p seg hne', enter_of_child? hsub,
      ok_bind, ih hx, List.foldl_cons]
    cases x.editHolder create edit (path.foldl Name.join (Name.join walked seg)) rest with
    | error e => rfl
    | ok result =>
      simp only [Except.map, ok_bind, putAt_cons hsub]
      rfl

theorem editHolder_concat {α : Type} {create : Bool} {walked : String}
    {edit : Policy → String → Except Error (α × Policy)} (hx : p.subAt? path = some x) :
    p.editHolder create edit walked (path ++ [leaf]) =
      (edit x leaf).map fun result => (result.1, p.putAt path result.2) :=
  editHolder_append hx (List.cons_ne_nil leaf [])

theorem edit_of_segments {α : Type} {create : Bool} {name : String}
    {change : Policy → String → Except Error (α × Policy)}
    (hsegs : Name.segments name = .ok (path ++ [leaf])) (hx : p.subAt? path = some x) :
    p.edit create name change =
      (change x leaf).map fun result => (result.1, p.putAt path result.2) := by
  rw [edit, hsegs, ok_bind, editHolder_concat hx]

theorem edit_ofSegments {α : Type} {create : Bool}
    {change : Policy → String → Except Error (α × Policy)}
    (hpath : ∀ s ∈ path, Name.isLeaf s = true) (hleaf : Name.isLeaf leaf = true)
    (hx : p.subAt? path = some x) :
    p.edit create (Name.ofSegments (path ++ [leaf])) change =
      (change x leaf).map fun result => (result.1, p.putAt path result.2) := by
  have hsegs := Name.segments_ofSegments (List.concat_ne_nil leaf path)
    (Name.isLeaf_concat hpath hleaf)
  exact edit_of_segments hsegs hx

theorem remove?_ofSegments (hpath : ∀ s ∈ path, Name.isLeaf s = true)
    (hleaf : Name.isLeaf leaf = true) (hx : p.subAt? path = some x)
    (he : x.entry? leaf = some e) :
    p.remove? (Name.ofSegments (path ++ [leaf])) =
      some (e.values, p.putAt path (x.erase leaf)) := by
  rw [remove?, edit_ofSegments hpath hleaf hx, he]
  rfl

theorem set_ofSegments (hpath : ∀ s ∈ path, Name.isLeaf s = true)
    (hleaf : Name.isLeaf leaf = true) (hx : p.subAt? path = some x)
    (hv : v.isUndefined = false) :
    p.set (Name.ofSegments (path ++ [leaf])) v = .ok (p.putAt path (x.put leaf [v])) := by
  rw [set, if_neg (by simp [hv]), edit_ofSegments hpath hleaf hx]
  rfl

end Policy

end PolicyTree
