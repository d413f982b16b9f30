import PolicyTree.Proofs.Policy.Alike

namespace PolicyTree

variable {p q dict dict' defs defs' fields fields' : Policy} {name leaf key label what : String}
  {k : Kind} {v w : Value} {vs ws : List Value} {known known' : Option Value}

namespace Definition

structure Bounds.Alike (a b : Bounds) : Prop where
  min : Option.Rel (Value.Alike Policy.Alike) a.min b.min
  max : Option.Rel (Value.Alike Policy.Alike) a.max b.max

/-- Definitions that are the same but for the order of names in the policies they hold. -/
structure Alike (d d' : Definition) : Prop where
  name : d.name = d'.name
  kind : d.kind = d'.kind
  minOccurs : d.minOccurs = d'.minOccurs
  maxOccurs : d.maxOccurs = d'.maxOccurs
  min : Option.Rel (Value.Alike Policy.Alike) d.min d'.min
  max : Option.Rel (Value.Alike Policy.Alike) d.max d'.max
  allowed : List.Forall₂ (Value.Alike Policy.Alike) d.allowed d'.allowed
  defaults : List.Forall₂ (Value.Alike Policy.Alike) d.defaults d'.defaults
  description : d.description = d'.description
  dictionary : Option.Rel (fun a b => a.policy.Alike b.policy) d.dictionary d'.dictionary

theorem declaredKind_eq (h : fields.Alike fields') (name : String) :
    declaredKind name fields = declaredKind name fields' := by
  have hkey : Name.isLeaf "type" = true := rfl
  have hget := (h.alikeAt _).get hkey
  unfold declaredKind
  generalize fields.get "type" = x, fields'.get "type" = y at hget
  cases hget with
  | error => rfl
  | ok hvw =>
    cases hvw with
    | policy => rfl
    | same => rfl

theorem occurs_eq (h : fields.Alike fields') (hkey : Name.isLeaf key = true) (name : String) :
    occurs name fields key = occurs name fields' key := by
  have hget := (h.alikeAt _).get hkey
  unfold occurs
  generalize fields.get key = x, fields'.get key = y at hget
  cases hget with
  | error => rfl
  | ok hvw =>
    cases hvw with
    | policy => rfl
    | same => rfl

theorem occurrences_eq (h : fields.Alike fields') (name : String) :
    occurrences name fields = occurrences name fields' := by
  have hmin : Name.isLeaf "minOccurs" = true := rfl
  have hmax : Name.isLeaf "maxOccurs" = true := rfl
  unfold occurrences
  rw [(h.alikeAt _).contains_eq hmin, (h.alikeAt _).contains_eq hmax, occurs_eq h hmin,
    occurs_eq h hmax]

theorem agree_coerce (h : v.Alike Policy.Alike w) (name : String) (k : Kind) (what : String) :
    Agree (Value.Alike Policy.Alike) (coerce name k what v) (coerce name k what w) := by
  cases h with
  | policy hpq =>
    cases k with
    | undefined | policy => exact .ok (.policy hpq)
    | bool | int | double | string | file => exact .error
  | same => exact .refl (Value.Alike.refl Policy.Alike.refl)

theorem agree_takeBound (h : p.Alike q)
    (hknown : Option.Rel (Value.Alike Policy.Alike) known known')
    (hkey : Name.isLeaf key = true) (name : String) (k : Kind) (label : String) :
    Agree (Option.Rel (Value.Alike Policy.Alike)) (takeBound name k key label known p)
      (takeBound name k key label known' q) := by
  have hget := (h.alikeAt _).get hkey
  unfold takeBound
  have hsome : known.isSome = known'.isSome := by cases hknown <;> rfl
  rw [(h.alikeAt _).valueCount_eq hkey, hsome]
  generalize p.get key = x, q.get key = y at hget
  cases hget with
  | error => exact .ok hknown
  | ok hvw =>
    dsimp only
    split
    · exact .error
    · exact (agree_coerce hvw name k key).map fun _ _ => .some

theorem agree_take {b b' : Bounds} (hb : b.Alike b') (h : p.Alike q) (name : String) (k : Kind) :
    Agree Bounds.Alike (b.take name k p) (b'.take name k q) :=
  (agree_takeBound h hb.min rfl name k "Min").bind fun _ _ hmin =>
    (agree_takeBound h hb.max rfl name k "Max").bind fun _ _ hmax => .ok ⟨hmin, hmax⟩

theorem agree_givenValues (h : p.Alike q) (hkey : Name.isLeaf key = true) (name : String)
    (k : Kind) (what : String) :
    Agree (List.Forall₂ (Value.Alike Policy.Alike)) (givenValues name k p key what)
      (givenValues name k q key what) := by
  have harray := (h.alikeAt _).getArray hkey
  unfold givenValues
  generalize p.getArray key = x, q.getArray key = y at harray
  cases harray with
  | error => exact .ok .nil
  | ok hall => exact .mapM hall fun _ _ hvw => agree_coerce hvw name k what

theorem agree_takeAllowed {b b' : Bounds} (hb : b.Alike b')
    (h : List.Forall₂ (Value.Alike Policy.Alike) vs ws) (name : String) (k : Kind) :
    Agree (fun a c => a.1.Alike c.1 ∧ List.Forall₂ (Value.Alike Policy.Alike) a.2 c.2)
      (takeAllowed name k b vs) (takeAllowed name k b' ws) := by
  induction h generalizing b b' with
  | nil => exact .ok ⟨hb, .nil⟩
  | @cons v w vs ws hvw _ ih =>
    cases hvw with
    | policy hpq =>
      exact (agree_take hb hpq name k).bind fun _ _ hb =>
        (agree_givenValues hpq rfl name k "allowed").bind fun _ _ hvalues =>
          (ih hb).bind fun _ _ hmore => .ok ⟨hmore.1, List.rel_append hvalues hmore.2⟩
    | same hk =>
      have hcoerce := agree_coerce (Value.Alike.refl Policy.Alike.refl v) name k "allowed"
      cases v with
      | policy => exact absurd rfl hk
      | undefined | bool | int | double | string | file =>
        exact hcoerce.bind fun _ _ hv => (ih hb).bind fun _ _ hmore =>
          .ok ⟨hmore.1, .cons hv hmore.2⟩

/-- Where the policies of nested dictionaries both have definitions, or neither has, they both make
a dictionary or neither does. -/
theorem agree_nestedDictionary {R : Policy → Policy → Prop}
    (hR : ∀ p q, R p q → p.contains definitionsKey = q.contains definitionsKey)
    (h : Policy.AlikeAt R dictionaryKey fields fields') (name : String) (k : Kind) :
    Agree (Option.Rel fun a b => R a.policy b.policy) (nestedDictionary name k fields)
      (nestedDictionary name k fields') := by
  have hkey : Name.isLeaf dictionaryKey = true := rfl
  have hget := h.get hkey
  unfold nestedDictionary
  generalize fields.get dictionaryKey = x, fields'.get dictionaryKey = y at hget
  cases hget with
  | error => exact .ok .none
  | @ok v w hvw =>
    dsimp only
    split
    · exact .error
    · cases hvw with
      | @policy p q hpq =>
        have hcontains := hR p q hpq
        have hof : Agree (fun a b => R a.policy b.policy) (Dictionary.ofPolicy p)
            (Dictionary.ofPolicy q) := by
          unfold Dictionary.ofPolicy
          by_cases hc : p.contains definitionsKey = true
          · rw [dif_pos hc, dif_pos (hcontains ▸ hc)]
            exact .ok hpq
          · rw [dif_neg hc, dif_neg (hcontains ▸ hc)]
            exact .error
        exact hof.map fun _ _ hpq => .some hpq
      | same hk =>
        cases v with
        | policy => exact absurd rfl hk
        | undefined | bool | int | double | string | file => exact .error

theorem contains_definitionsKey_eq (p q : Policy) (h : p.Alike q) :
    p.contains definitionsKey = q.contains definitionsKey :=
  (h.alikeAt _).contains_eq rfl

theorem agree_ofPolicy (h : fields.Alike fields') (name : String) :
    Agree Alike (ofPolicy name fields) (ofPolicy name fields') := by
  have hallowed : List.Forall₂ (Value.Alike Policy.Alike)
      ((fields.getArray "allowed").toOption.getD [])
      ((fields'.getArray "allowed").toOption.getD []) := by
    have hkey : Name.isLeaf "allowed" = true := rfl
    have harray := (h.alikeAt _).getArray hkey
    generalize fields.getArray "allowed" = x, fields'.getArray "allowed" = y at harray
    cases harray with
    | ok hall => exact hall
    | error => exact .nil
  have hdescription : (fields.getAs .string "description").toOption =
      (fields'.getAs .string "description").toOption := by
    have hkey : Name.isLeaf "description" = true := rfl
    have hget := (h.alikeAt _).get hkey
    unfold Policy.getAs
    generalize fields.get "description" = x, fields'.get "description" = y at hget
    cases hget with
    | error => rfl
    | ok hvw =>
      cases hvw with
      | policy => rfl
      | same => rfl
  unfold ofPolicy
  rw [declaredKind_eq h, occurrences_eq h, hdescription]
  apply (Agree.refl (fun _ => rfl)).bind
  rintro k _ rfl
  apply (Agree.refl (fun _ => rfl)).bind
  rintro ⟨minOccurs, maxOccurs⟩ _ rfl
  apply (agree_take ⟨.none, .none⟩ h name k).bind
  intro bounds bounds' hbounds
  apply (agree_takeAllowed hbounds hallowed name k).bind
  rintro ⟨bounds, allowed⟩ ⟨bounds', allowed'⟩ ⟨hbounds, hvalues⟩
  apply (agree_givenValues h rfl name k "default").bind
  intro defaults defaults' hdefaults
  apply (agree_nestedDictionary contains_definitionsKey_eq (h.alikeAt _) name k).bind
  intro dictionary dictionary' hdictionary
  exact .ok ⟨rfl, rfl, rfl, rfl, hbounds.min, hbounds.max, hvalues, hdefaults, rfl, hdictionary⟩

end Definition

namespace Dictionary

section Related

variable {R S : Policy → Policy → Prop} (h : Policy.AlikeAt R definitionsKey dict dict')

include h

theorem agree_definitionsOf : Agree R (definitionsOf dict) (definitionsOf dict') := by
  have hkey : Name.isLeaf definitionsKey = true := rfl
  have hget := h.getAs_policy hkey
  unfold definitionsOf
  rw [h.valueCount_eq hkey]
  generalize dict.getAs .policy definitionsKey = x, dict'.getAs .policy definitionsKey = y at hget
  split
  · exact .error
  · cases hget with
    | ok hdefs => exact .ok hdefs
    | error => exact .error
  · exact .error

variable (hleaf : Name.isLeaf leaf = true) (hR : ∀ a b, R a b → Policy.AlikeAt S leaf a b)

include hleaf hR

theorem agree_fieldsOf (name : String) :
    Agree S (fieldsOf name dict leaf) (fieldsOf name dict' leaf) := by
  apply (agree_definitionsOf h).bind
  intro defs defs' hdefs
  have hget := (hR defs defs' hdefs).getAs_policy hleaf
  rw [(hR defs defs' hdefs).contains_eq hleaf]
  generalize defs.getAs .policy leaf = x, defs'.getAs .policy leaf = y at hget
  split
  · cases hget with
    | ok hfields => exact .ok hfields
    | error => exact .error
  · exact .error

theorem agree_definitionIn {T : Definition → Definition → Prop}
    (hS : ∀ a b, S a b → Agree T (Definition.ofPolicy leaf a) (Definition.ofPolicy leaf b)) :
    Agree T (definitionIn dict leaf) (definitionIn dict' leaf) := by
  rw [definitionIn, definitionIn, Name.segments_of_isLeaf hleaf]
  exact (agree_fieldsOf h hleaf hR leaf).bind hS

end Related

/-- A check does not depend on the order of names, at whatever depth. -/
theorem checkIn_of_alike {dict dict' : Policy} (hw : dict.WellFormed) (h : dict.Alike dict')
    (hc : checkIn dict = .ok ⟨⟩) : checkIn dict' = .ok ⟨⟩ := by
  obtain ⟨defs, hdefs, hall⟩ := checkIn_eq_ok_iff.1 hc
  obtain ⟨defs', hdefs', halike⟩ := (agree_definitionsOf (h.alikeAt _)).exists_of_ok hdefs
  refine checkIn_eq_ok_iff.2 ⟨defs', hdefs', ?_⟩
  intro leaf hmem
  rw [Policy.names_top] at hmem
  have hname : leaf ∈ defs.names true .all := by
    rw [Policy.names_top]
    exact halike.symm.mem_names hmem
  have hleaf := (wellFormed_definitionsOf hw hdefs).isLeaf_of_mem_names hname
  obtain ⟨d, hd, hsub⟩ := hall leaf hname
  have hagree := agree_definitionIn (h.alikeAt _) hleaf (fun _ _ hdefs => hdefs.alikeAt leaf)
    fun _ _ hfields => Definition.agree_ofPolicy hfields leaf
  obtain ⟨d', hd', hdd⟩ := hagree.exists_of_ok hd
  refine ⟨d', hd', fun sub' hs' => ?_⟩
  have hnested := hdd.dictionary
  rw [hs'] at hnested
  cases hs : d.dictionary with
  | none =>
    rw [hs] at hnested
    cases hnested
  | some sub =>
    rw [hs] at hnested
    cases hnested with
    | some hnested =>
      exact checkIn_of_alike (wellFormed_of_definitionIn hw hleaf hd hs) hnested (hsub sub hs)
termination_by sizeOf dict
decreasing_by exact sizeOf_lt_of_definitionIn hd hs

end Dictionary

end PolicyTree
