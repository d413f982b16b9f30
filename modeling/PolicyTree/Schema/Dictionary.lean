import PolicyTree.Policy.Listing
import PolicyTree.Schema.Definition

namespace PolicyTree

theorem Policy.sizeOf_lt_of_mem {p sub : Policy} {e : Entry} (he : e ∈ p.entries)
    (hs : Value.policy sub ∈ e.values) : sizeOf sub < sizeOf p := by
  have h₁ := List.sizeOf_lt_of_mem he
  have h₂ := List.sizeOf_lt_of_mem hs
  cases p with
  | mk es =>
    cases e with
    | mk name values =>
      simp only [Policy.mk.sizeOf_spec, Entry.mk.sizeOf_spec, Value.policy.sizeOf_spec] at *
      omega

theorem Policy.sizeOf_lt_of_valuesAt? {sub : Policy} {values : List Value} :
    ∀ {p : Policy} {segs : List String}, p.valuesAt? segs = some values →
      Value.policy sub ∈ values → sizeOf sub < sizeOf p
  | p, [], h, _ => by simp [valuesAt?] at h
  | p, [leaf], h, hs => by
    simp only [valuesAt?, entry?, Option.map_eq_some_iff] at h
    obtain ⟨e, he, rfl⟩ := h
    exact sizeOf_lt_of_mem (List.mem_of_find?_eq_some he) hs
  | p, seg :: s :: rest, h, hs => by
    simp only [valuesAt?, Option.bind_eq_some_iff] at h
    obtain ⟨q, hq, h⟩ := h
    have ih := sizeOf_lt_of_valuesAt? h hs
    simp only [child?, entry?, Option.bind_eq_some_iff, Value.policy?_eq_some_iff] at hq
    obtain ⟨v, ⟨e, he, hv⟩, rfl⟩ := hq
    have hlt := sizeOf_lt_of_mem (List.mem_of_find?_eq_some he) (List.mem_of_getLast? hv)
    omega

theorem Policy.sizeOf_lt_of_get {p sub : Policy} {path : String}
    (h : p.get path = .ok (.policy sub)) : sizeOf sub < sizeOf p := by
  simp only [get, getArray, bind, Except.bind] at h
  split at h
  · exact absurd h (by simp)
  · rename_i values hvalues
    split at h
    · rename_i v hlast
      obtain rfl : v = .policy sub := by simpa using h
      split at hvalues
      · exact absurd hvalues (by simp)
      · split at hvalues
        · exact absurd hvalues (by simp)
        · split at hvalues
          · rename_i found hfound
            obtain rfl : found = values := by simpa using hvalues
            exact sizeOf_lt_of_valuesAt? hfound (List.mem_of_getLast? hlast)
          · exact absurd hvalues (by simp)
    · exact absurd h (by simp)

theorem Policy.get_of_getAs_policy {p sub : Policy} {path : String}
    (h : p.getAs .policy path = .ok sub) : p.get path = .ok (.policy sub) := by
  simp only [getAs, bind, Except.bind] at h
  split at h
  · exact absurd h (by simp)
  · rename_i v hv
    rw [hv]
    cases v <;> simp_all [Accessor.read, Accessor.policy, Value.policy?]

namespace Dictionary

/-- The only section of definitions of a dictionary held by `p`. -/
def definitionsOf (p : Policy) : Except Error Policy :=
  match p.valueCount definitionsKey with
  | 0 => .error (.dictionary "no \"definitions\" section found")
  | 1 =>
    match p.getAs .policy definitionsKey with
    | .ok defs => .ok defs
    | .error _ =>
      let found := ((p.kindOf definitionsKey).toOption.getD .undefined).name
      .error (.dictionary s!"\"definitions\" must be a Policy; found {found}")
  | n => .error (.dictionary s!"expected a single \"definitions\" section; found {n}")

/-- The policy that gives the definition of `seg`; `name` is the whole name asked for. -/
def fieldsOf (name : String) (p : Policy) (seg : String) : Except Error Policy := do
  let defs ← definitionsOf p
  if defs.contains seg then
    match defs.getAs .policy seg with
    | .ok fields => .ok fields
    | .error _ => .error (.dictionary s!"definition for \"{seg}\" is not a Policy")
  else .error (.nameNotFound name)

/-- The definition at the end of a walk through nested dictionaries. -/
def definitionAt (name : String) (p : Policy) : List String → Except Error Definition
  | [] => .error (.nameNotFound name)
  | [leaf] => do Definition.ofPolicy name (← fieldsOf name p leaf)
  | seg :: rest => do
    match (← fieldsOf name p seg).get dictionaryKey with
    | .ok (.policy nested) => definitionAt name nested rest
    | _ => .error (.dictionary s!"{seg}.dictionary not found.")

def definitionIn (p : Policy) (name : String) : Except Error Definition := do
  definitionAt name p (← Name.segments name)

theorem sizeOf_lt_of_fieldsOf {name seg : String} {p fields : Policy}
    (h : fieldsOf name p seg = .ok fields) : sizeOf fields < sizeOf p := by
  simp only [fieldsOf, bind, Except.bind] at h
  split at h
  · exact absurd h (by simp)
  · rename_i defs hdefs
    have hd : sizeOf defs < sizeOf p := by
      simp only [definitionsOf] at hdefs
      split at hdefs
      · exact absurd hdefs (by simp)
      · split at hdefs
        · rename_i q hq
          obtain rfl : q = defs := by simpa using hdefs
          exact Policy.sizeOf_lt_of_get (Policy.get_of_getAs_policy hq)
        · exact absurd hdefs (by simp)
      · exact absurd hdefs (by simp)
    split at h
    · split at h
      · rename_i q hq
        obtain rfl : q = fields := by simpa using h
        have := Policy.sizeOf_lt_of_get (Policy.get_of_getAs_policy hq)
        omega
      · exact absurd h (by simp)
    · exact absurd h (by simp)

theorem policy_of_ofPolicy {p : Policy} {d : Dictionary} (h : ofPolicy p = .ok d) :
    d.policy = p := by
  simp only [ofPolicy] at h
  split at h
  · obtain rfl := Except.ok.inj h
    rfl
  · exact absurd h (by simp)

end Dictionary

namespace Definition

theorem sizeOf_lt_of_nestedDictionary {name : String} {kind : Kind} {fields : Policy}
    {sub : Dictionary} (h : nestedDictionary name kind fields = .ok (some sub)) :
    sizeOf sub.policy < sizeOf fields := by
  simp only [nestedDictionary] at h
  split at h
  · exact absurd h (by simp)
  · rename_i v hv
    split at h
    · exact absurd h (by simp)
    · split at h
      · rename_i p
        cases hp : Dictionary.ofPolicy p with
        | error e => simp [hp, Functor.map, Except.map] at h
        | ok d =>
          obtain rfl : d = sub := by simpa [hp, Functor.map, Except.map] using h
          rw [Dictionary.policy_of_ofPolicy hp]
          exact Policy.sizeOf_lt_of_get hv
      · exact absurd h (by simp)
      · exact absurd h (by simp)

theorem dictionary_of_ofPolicy {name : String} {fields : Policy} {d : Definition}
    (h : ofPolicy name fields = .ok d) : nestedDictionary name d.kind fields = .ok d.dictionary := by
  simp only [ofPolicy, bind, Except.bind, pure, Except.pure] at h
  repeat' (split at h; · exact absurd h (by simp))
  obtain rfl := Except.ok.inj h
  assumption

end Definition

namespace Dictionary

theorem sizeOf_lt_of_definitionAt {name : String} {d : Definition} {sub : Dictionary} :
    ∀ {p : Policy} {segs : List String}, definitionAt name p segs = .ok d →
      d.dictionary = some sub → sizeOf sub.policy < sizeOf p
  | p, [], h, _ => by simp [definitionAt] at h
  | p, [leaf], h, hs => by
    simp only [definitionAt, bind, Except.bind] at h
    split at h
    · exact absurd h (by simp)
    · rename_i fields hfields
      have h₁ := Definition.dictionary_of_ofPolicy h
      rw [hs] at h₁
      have h₂ := Definition.sizeOf_lt_of_nestedDictionary h₁
      have h₃ := sizeOf_lt_of_fieldsOf hfields
      omega
  | p, seg :: s :: rest, h, hs => by
    simp only [definitionAt, bind, Except.bind] at h
    split at h
    · exact absurd h (by simp)
    · rename_i fields hfields
      split at h
      · rename_i nested hnested
        have h₁ := sizeOf_lt_of_definitionAt h hs
        have h₂ := Policy.sizeOf_lt_of_get hnested
        have h₃ := sizeOf_lt_of_fieldsOf hfields
        omega
      · exact absurd h (by simp)

/-- A nested dictionary is smaller than the one that leads to it. -/
theorem sizeOf_lt_of_definitionIn {p : Policy} {name : String} {d : Definition}
    {sub : Dictionary} (h : definitionIn p name = .ok d) (hs : d.dictionary = some sub) :
    sizeOf sub.policy < sizeOf p := by
  simp only [definitionIn, bind, Except.bind] at h
  split at h
  · exact absurd h (by simp)
  · exact sizeOf_lt_of_definitionAt h hs

def namesIn (p : Policy) : Except Error (List String) := do
  return (← definitionsOf p).names true .all

/-- The dictionary held by `p` is sound: one section of definitions, each of which makes sense,
and sound nested dictionaries. -/
def checkIn (p : Policy) : Except Error Unit := do
  (← namesIn p).forM fun leaf =>
    match h : definitionIn p leaf with
    | .error e => .error e
    | .ok d =>
      match hs : d.dictionary with
      | none => .ok ()
      | some sub =>
        have := sizeOf_lt_of_definitionIn h hs
        checkIn sub.policy
termination_by sizeOf p

def definitions (d : Dictionary) : Except Error Policy :=
  definitionsOf d.policy

def definitionNames (d : Dictionary) : Except Error (List String) :=
  namesIn d.policy

/-- The definition of `name`; `a.b` is `b` in the dictionary of definition `a`. -/
def definition (d : Dictionary) (name : String) : Except Error Definition :=
  definitionIn d.policy name

def check (d : Dictionary) : Except Error Unit :=
  checkIn d.policy

end Dictionary

end PolicyTree
