import PolicyTree.Proofs.Policy.Listing

namespace PolicyTree

/-- The entries still to be listed of one policy, which `above` leads to. -/
structure Level where
  above : String
  entries : List Entry

/-- A listing under way, the deepest level first. -/
structure Lister where
  levels : List Level
  topOnly : Bool
  filter : NameFilter

def Policy.lister (p : Policy) (topOnly : Bool) (f : NameFilter) : Lister :=
  ⟨[⟨"", p.entries⟩], topOnly, f⟩

namespace Lister

def opened (topOnly : Bool) (full : String) (values : List Value) : List Level :=
  if topOnly then []
  else
    match values.getLast? with
    | some (.policy sub) => [⟨full, sub.entries⟩]
    | _ => []

/-- One turn, which may yield a name. A level without entries is closed. -/
def turn : Lister → Option (Option String × Lister)
  | ⟨[], _, _⟩ => none
  | ⟨⟨_, []⟩ :: levels, topOnly, f⟩ => some (none, ⟨levels, topOnly, f⟩)
  | ⟨⟨above, e :: es⟩ :: levels, topOnly, f⟩ =>
    let full := Name.join above e.name
    some (if f.accepts e.kind then some full else none,
      ⟨opened topOnly full e.values ++ ⟨above, es⟩ :: levels, topOnly, f⟩)

/-- A lister comes to its end, and yields these names on the way. -/
inductive Yields : Lister → List String → Prop
  | ended {l : Lister} (h : l.turn = none) : Yields l []
  | skip {l l' : Lister} {ns : List String} (h : l.turn = some (none, l')) (hrest : Yields l' ns) :
      Yields l ns
  | name {l l' : Lister} {n : String} {ns : List String} (h : l.turn = some (some n, l'))
      (hrest : Yields l' ns) : Yields l (n :: ns)

variable {l : Lister} {levels : List Level} {topOnly : Bool} {f : NameFilter} {above : String}
  {e : Entry} {es : List Entry} {ns ns' : List String}

theorem Yields.unique (h : l.Yields ns) (h' : l.Yields ns') : ns = ns' := by
  induction h generalizing ns' with
  | ended h =>
    cases h' with
    | ended => rfl
    | skip h' | name h' =>
      rw [h] at h'
      cases h'
  | skip h hrest ih =>
    cases h' with
    | ended h' | name h' =>
      rw [h] at h'
      cases h'
    | skip h' hrest' =>
      rw [h] at h'
      cases h'
      exact ih hrest'
  | name h hrest ih =>
    cases h' with
    | ended h' | skip h' =>
      rw [h] at h'
      cases h'
    | name h' hrest' =>
      rw [h] at h'
      cases h'
      rw [ih hrest']

/-- The turn that takes an entry: its own name comes first, if it is accepted. -/
theorem Yields.entry
    (h : Yields ⟨opened topOnly (Name.join above e.name) e.values ++ ⟨above, es⟩ :: levels,
      topOnly, f⟩ ns) :
    Yields ⟨⟨above, e :: es⟩ :: levels, topOnly, f⟩
      ((if f.accepts e.kind then [Name.join above e.name] else []) ++ ns) := by
  split
  · rename_i hf
    exact .name (by rw [turn, if_pos hf]) h
  · rename_i hf
    exact .skip (by rw [turn, if_neg hf]) h

theorem yields_top (h : Yields ⟨levels, true, f⟩ ns) (es : List Entry) :
    Yields ⟨⟨"", es⟩ :: levels, true, f⟩
      ((es.filter fun e => f.accepts e.kind).map Entry.name ++ ns) := by
  induction es with
  | nil => exact .skip rfl h
  | cons e es ih =>
    have hbelow : Yields ⟨opened true (Name.join "" e.name) e.values ++ ⟨"", es⟩ :: levels,
        true, f⟩ _ := ih
    have hentry := hbelow.entry
    rw [List.filter_cons]
    split at hentry <;> rename_i hf
    · rw [if_pos hf]
      exact hentry
    · rw [if_neg hf]
      exact hentry

theorem yields_below (p : Policy) : ∀ (above : String) (levels : List Level) (ns : List String),
    Yields ⟨levels, false, f⟩ ns →
      Yields ⟨⟨above, p.entries⟩ :: levels, false, f⟩ (p.namesBelow f above ++ ns) := by
  intro above levels ns h
  -- a level loses its entries one by one, so the statement is about any part of them
  have hall : ∀ es, es ⊆ p.entries →
      Yields ⟨⟨above, es⟩ :: levels, false, f⟩ (Entry.namesBelow f above es ++ ns) := by
    intro es hes
    induction es with
    | nil => exact .skip rfl h
    | cons e es ih =>
      rw [List.cons_subset] at hes
      obtain ⟨he, hes⟩ := hes
      have hbelow : Yields ⟨opened false (Name.join above e.name) e.values ++ ⟨above, es⟩ :: levels,
          false, f⟩ (Value.namesOfLast f (Name.join above e.name) e.values ++
            (Entry.namesBelow f above es ++ ns)) := by
        rw [Value.namesOfLast_eq, opened, if_neg Bool.false_ne_true]
        cases hl : e.values.getLast? with
        | none => exact ih hes
        | some v =>
          cases v with
          | policy sub => exact yields_below sub _ _ _ (ih hes)
          | undefined | bool | int | double | string | file => exact ih hes
      obtain ⟨name, values⟩ := e
      have hentry := hbelow.entry
      rw [Entry.namesBelow, Entry.namesFrom, List.append_assoc, List.append_assoc]
      exact hentry
  obtain ⟨es⟩ := p
  exact hall es (List.Subset.refl es)
termination_by sizeOf p
decreasing_by exact Policy.sizeOf_lt_of_mem he (List.mem_of_getLast? hl)

theorem yields_names (p : Policy) (topOnly : Bool) (f : NameFilter) :
    (p.lister topOnly f).Yields (p.names topOnly f) := by
  have hend : ∀ topOnly, Yields ⟨[], topOnly, f⟩ [] := fun _ => .ended rfl
  cases topOnly with
  | true =>
    have h := yields_top (hend true) p.entries
    rwa [List.append_nil] at h
  | false =>
    have h := yields_below p "" [] [] (hend false)
    rwa [List.append_nil] at h

/-- A lister ends, and it has yielded the names that are listed at once. -/
theorem yields_iff {p : Policy} : (p.lister topOnly f).Yields ns ↔ ns = p.names topOnly f := by
  constructor
  · intro h
    exact h.unique (yields_names p topOnly f)
  · rintro rfl
    exact yields_names p topOnly f

end Lister

end PolicyTree
