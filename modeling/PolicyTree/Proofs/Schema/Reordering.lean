import Mathlib.Logic.Relation
import PolicyTree.Proofs.Policy.Frame
import PolicyTree.Proofs.Report.Parts
import PolicyTree.Proofs.Schema.Order
import PolicyTree.Proofs.Schema.Unknown

namespace PolicyTree

namespace Policy

inductive Exchanges (name : String) (sub sub' p : Policy) : Policy → Prop
  | intro {front back : List Value} (h : p.valuesAt? [name] = some (front ++ .policy sub :: back)) :
      Exchanges name sub sub' p (p.put name (front ++ .policy sub' :: back))

variable {p q sub sub' : Policy} {R : Policy → Policy → Prop} {name leaf : String}

theorem Exchanges.single (h : p.valuesAt? [name] = some [.policy sub]) :
    Exchanges name sub sub' p (p.put name [.policy sub']) :=
  @intro name sub sub' p [] [] h

theorem Exchanges.valuesAt?_of_ne (h : Exchanges name sub sub' p q) (hne : leaf ≠ name) :
    p.valuesAt? [leaf] = q.valuesAt? [leaf] := by
  cases h with
  | intro h => rw [Policy.valuesAt?, Policy.valuesAt?, entry?_put, if_neg hne]

theorem Exchanges.alikeAt (h : Exchanges name sub sub' p q) (hR : ∀ p, R p p) (hsub : R sub sub')
    (leaf : String) : AlikeAt R leaf p q := by
  by_cases hleaf : leaf = name
  · cases h with
    | @intro front back h =>
      rw [AlikeAt, hleaf, h, Policy.valuesAt?, entry?_put, if_pos rfl]
      have hrefl : ∀ values : List Value, List.Forall₂ (Value.Alike R) values values :=
        fun _ => List.forall₂_same.2 fun v _ => Value.Alike.refl hR v
      exact .some (List.rel_append (hrefl front) (.cons (.policy hsub) (hrefl back)))
  · exact .of_eq hR (h.valuesAt?_of_ne hleaf)

theorem Exchanges.wellFormed_sub (h : Exchanges name sub sub' p q) (hp : p.WellFormed) :
    sub.WellFormed := by
  cases h with
  | intro h => exact (hp.valuesAt? h).nested _ (by simp) sub rfl

theorem Exchanges.wellFormed (h : Exchanges name sub sub' p q) (hp : p.WellFormed)
    (hsub : sub'.WellFormed) : q.WellFormed := by
  cases h with
  | @intro front back h =>
    have hstorable := hp.valuesAt? h
    obtain ⟨e, he, -⟩ := Option.map_eq_some_iff.1 h
    have hleaf := hp.leaf (mem_of_entry?_eq_some he)
    rw [name_of_entry?_eq_some he] at hleaf
    have hkind : ∀ w ∈ front ++ .policy sub' :: back,
        ∃ v ∈ front ++ .policy sub :: back, w.kind = v.kind := by
      simp only [List.mem_append, List.mem_cons]
      rintro w (hw | rfl | hw)
      · exact ⟨w, .inl hw, rfl⟩
      · exact ⟨_, .inr (.inl rfl), rfl⟩
      · exact ⟨w, .inr (.inr hw), rfl⟩
    refine hp.put hleaf ⟨hstorable.toIsArray.of_mem (by simp) hkind, ?_⟩
    simp only [List.mem_append, List.mem_cons]
    rintro w (hw | rfl | hw)
    · exact hstorable.nested w (List.mem_append_left _ hw)
    · exact Value.wellFormed_policy.2 hsub
    · exact hstorable.nested w (List.mem_append_right _ (List.mem_cons_of_mem _ hw))

theorem getArray_eq_of_isLeaf (hleaf : Name.isLeaf leaf = true)
    (h : p.valuesAt? [leaf] = q.valuesAt? [leaf]) : p.getArray leaf = q.getArray leaf := by
  apply getArray_congr
  intro segs hsegs
  obtain rfl := Except.ok.inj (hsegs.symm.trans (Name.segments_of_isLeaf hleaf))
  exact h

theorem get_eq_of_isLeaf (hleaf : Name.isLeaf leaf = true)
    (h : p.valuesAt? [leaf] = q.valuesAt? [leaf]) : p.get leaf = q.get leaf := by
  rw [get, get, getArray_eq_of_isLeaf hleaf h]

theorem lookup?_eq_of_isLeaf (hleaf : Name.isLeaf leaf = true)
    (h : p.valuesAt? [leaf] = q.valuesAt? [leaf]) : p.lookup? leaf = q.lookup? leaf := by
  rw [lookup?_of_isLeaf hleaf, lookup?_of_isLeaf hleaf, h]

theorem WellFormed.of_perm (hp : p.WellFormed) (h : p.entries.Perm q.entries) : q.WellFormed := by
  cases q
  apply WellFormed.of_entries ((h.map Entry.name).nodup_iff.1 hp.unique)
  intro e he
  have he := h.mem_iff.2 he
  exact ⟨hp.leaf he, hp.storable he⟩

theorem WellFormed.entry?_of_perm (hp : p.WellFormed) (h : p.entries.Perm q.entries)
    (leaf : String) : p.entry? leaf = q.entry? leaf := by
  have hq := hp.of_perm h
  apply Option.ext
  intro e
  constructor
  · intro he
    have hmem := h.mem_iff.1 (mem_of_entry?_eq_some he)
    rw [← name_of_entry?_eq_some he]
    exact hq.entry?_of_mem hmem
  · intro he
    have hmem := h.mem_iff.2 (mem_of_entry?_eq_some he)
    rw [← name_of_entry?_eq_some he]
    exact hp.entry?_of_mem hmem

end Policy

namespace Definition

structure Twin (R : Policy → Policy → Prop) (d d' : Definition) : Prop where
  same : d' = { d with dictionary := d'.dictionary }
  nested : Option.Rel (fun a b => R a.policy b.policy) d.dictionary d'.dictionary

variable {fields fields' : Policy} {R : Policy → Policy → Prop} {d d' : Definition}

theorem Twin.refl (hR : ∀ p, R p p) (d : Definition) : d.Twin R d where
  same := rfl
  nested := by
    cases d.dictionary with
    | none => exact .none
    | some sub => exact .some (hR sub.policy)

theorem Twin.kind_eq (h : d.Twin R d') : d.kind = d'.kind :=
  (congrArg kind h.same).symm

theorem Twin.prescribed_eq (h : d.Twin R d') (o : Option Entry) :
    d.prescribed o = d'.prescribed o := by
  rw [h.same]
  cases o <;> rfl

theorem agree_ofPolicy_twin
    (hR : ∀ p q, R p q → p.contains definitionsKey = q.contains definitionsKey)
    (hsame : ∀ key, key ≠ dictionaryKey → fields.valuesAt? [key] = fields'.valuesAt? [key])
    (hnested : Policy.AlikeAt R dictionaryKey fields fields') (name : String) :
    Agree (Twin R) (ofPolicy name fields) (ofPolicy name fields') := by
  have harray : ∀ key, Name.isLeaf key = true → key ≠ dictionaryKey →
      fields.getArray key = fields'.getArray key :=
    fun key hleaf hkey => Policy.getArray_eq_of_isLeaf hleaf (hsame key hkey)
  have hget : ∀ key, Name.isLeaf key = true → key ≠ dictionaryKey →
      fields.get key = fields'.get key :=
    fun key hleaf hkey => Policy.get_eq_of_isLeaf hleaf (hsame key hkey)
  have hlookup : ∀ key, Name.isLeaf key = true → key ≠ dictionaryKey →
      fields.lookup? key = fields'.lookup? key :=
    fun key hleaf hkey => Policy.lookup?_eq_of_isLeaf hleaf (hsame key hkey)
  have hkind : declaredKind name fields = declaredKind name fields' := by
    unfold declaredKind
    rw [hget "type" (by decide) (by decide)]
  have hoccurs : occurrences name fields = occurrences name fields' := by
    unfold occurrences occurs Policy.contains
    rw [hget "minOccurs" (by decide) (by decide), hget "maxOccurs" (by decide) (by decide),
      hlookup "minOccurs" (by decide) (by decide), hlookup "maxOccurs" (by decide) (by decide)]
  have hbounds : ∀ b k, Bounds.take name k b fields = Bounds.take name k b fields' := by
    intro b k
    unfold Bounds.take takeBound Policy.valueCount
    rw [hget "min" (by decide) (by decide), hget "max" (by decide) (by decide),
      hlookup "min" (by decide) (by decide), hlookup "max" (by decide) (by decide)]
  have hdefaults : ∀ k, givenValues name k fields "default" "default" =
      givenValues name k fields' "default" "default" := by
    intro k
    unfold givenValues
    rw [harray "default" (by decide) (by decide)]
  -- all but the nested dictionary is read from what is the same in both
  unfold ofPolicy Policy.getAs
  rw [hkind, hoccurs, harray "allowed" (by decide) (by decide),
    hget "description" (by decide) (by decide)]
  simp only [hbounds, hdefaults]
  apply (Agree.refl fun _ => rfl).bind
  rintro k _ rfl
  apply (Agree.refl fun _ => rfl).bind
  rintro ⟨minOccurs, maxOccurs⟩ _ rfl
  apply (Agree.refl fun _ => rfl).bind
  rintro bounds _ rfl
  apply (Agree.refl fun _ => rfl).bind
  rintro ⟨bounds, allowed⟩ _ rfl
  apply (Agree.refl fun _ => rfl).bind
  rintro defaults _ rfl
  apply (agree_nestedDictionary hR hnested name k).bind
  intro dictionary dictionary' hdictionary
  exact .ok ⟨rfl, hdictionary⟩

end Definition

namespace Dictionary

/-- One dictionary is another one with the definitions in another order, be they its own or those
of one dictionary that is nested in it, at whatever depth. -/
inductive Reorders : Policy → Policy → Prop
  | own {dict dict' defs defs' : Policy} (hperm : defs.entries.Perm defs'.entries)
      (h : Policy.Exchanges definitionsKey defs defs' dict dict') : Reorders dict dict'
  | nested {dict dict' defs defs' fields fields' sub sub' : Policy} {leaf : String}
      (hsub : Reorders sub sub') (hfields : Policy.Exchanges dictionaryKey sub sub' fields fields')
      (hdefs : Policy.Exchanges leaf fields fields' defs defs')
      (h : Policy.Exchanges definitionsKey defs defs' dict dict') : Reorders dict dict'

/-- Dictionaries are interchangeable if they are alike and a validation notes the same by both. -/
structure Interchangeable (dict dict' : Policy) : Prop where
  alike : dict.Alike dict'
  reached : ∀ o g p path n,
    Reached (Noted o g) dict p path n ↔ Reached (Noted o g) dict' p path n

variable {dict dict' p q : Policy} {d d' : Definition} {o : ValidateOptions} {g : Faults}
  {leaf n : String} {path : List String}

theorem Interchangeable.refl (dict : Policy) : Interchangeable dict dict :=
  ⟨.refl dict, fun _ _ _ _ _ => Iff.rfl⟩

theorem Interchangeable.contains_eq (dict dict' : Policy) (h : Interchangeable dict dict') :
    dict.contains definitionsKey = dict'.contains definitionsKey :=
  (h.alike.alikeAt _).contains_eq rfl

theorem Reorders.wellFormed (h : Reorders dict dict') (hw : dict.WellFormed) :
    dict'.WellFormed := by
  induction h with
  | own hperm h => exact h.wellFormed hw ((h.wellFormed_sub hw).of_perm hperm)
  | nested _ hfields hdefs h ih =>
    have hwdefs := h.wellFormed_sub hw
    have hwfields := hdefs.wellFormed_sub hwdefs
    have hwsub := hfields.wellFormed_sub hwfields
    exact h.wellFormed hw (hdefs.wellFormed hwdefs (hfields.wellFormed hwfields (ih hwsub)))

theorem reachedUnder_twin (h : d.Twin Interchangeable d') :
    ReachedUnder (Noted o g) d p path leaf n ↔ ReachedUnder (Noted o g) d' p path leaf n := by
  have hnested := h.nested
  unfold ReachedUnder
  rw [h.kind_eq]
  generalize d.dictionary = sub, d'.dictionary = sub' at hnested
  cases hnested with
  | none => exact Iff.rfl
  | some hsub => simp [hsub.reached]

theorem UnknownAt.of_alike (halike : dict.Alike dict') (h : UnknownAt leaf (dict, p)) :
    UnknownAt leaf (dict', p) := by
  obtain ⟨names, hnames, hnot⟩ := h.undefined
  obtain ⟨defs, hdefs, hnames⟩ := bind_eq_ok_iff.1 hnames
  obtain rfl := Except.ok.inj hnames
  obtain ⟨defs', hdefs', hdd⟩ := (agree_definitionsOf (halike.alikeAt _)).exists_of_ok hdefs
  refine ⟨h.held, _, bind_eq_ok_iff.2 ⟨defs', hdefs', rfl⟩, ?_⟩
  rw [Policy.names_top] at hnot ⊢
  exact mt hdd.symm.mem_names hnot

/-- Where the definitions of two dictionaries are the same but for interchangeable dictionaries
that are nested in them, the same is noted by both. -/
theorem interchangeable_of_agree (halike : dict.Alike dict')
    (hdef : ∀ leaf, Name.isLeaf leaf = true → Agree (Definition.Twin Interchangeable)
      (definitionIn dict leaf) (definitionIn dict' leaf)) : Interchangeable dict dict' := by
  refine ⟨halike, fun o g p path n => ?_⟩
  have hnoted : ∀ leaf, Name.isLeaf leaf = true →
      (Noted o g leaf (dict, p) ↔ Noted o g leaf (dict', p)) := by
    intro leaf hleaf
    have hfaults : faultsAt leaf (dict, p) = faultsAt leaf (dict', p) := by
      have hagree := hdef leaf hleaf
      unfold faultsAt
      dsimp only
      generalize definitionIn dict leaf = x, definitionIn dict' leaf = y at hagree
      cases hagree with
      | ok htwin => exact htwin.prescribed_eq _
      | error => rfl
    have hunknown : UnknownAt leaf (dict, p) ↔ UnknownAt leaf (dict', p) :=
      ⟨.of_alike halike, .of_alike halike.symm⟩
    rw [Noted, Noted, hfaults, hunknown]
  rw [reached_iff, reached_iff]
  apply or_congr
  · apply exists_congr
    intro leaf
    apply and_congr_right
    intro hleaf
    rw [hnoted leaf hleaf]
  · constructor
    · rintro ⟨leaf, d, hleaf, hd, hunder⟩
      obtain ⟨d', hd', htwin⟩ := (hdef leaf hleaf).exists_of_ok hd
      exact ⟨leaf, d', hleaf, hd', (reachedUnder_twin htwin).1 hunder⟩
    · rintro ⟨leaf, d', hleaf, hd', hunder⟩
      obtain ⟨d, hd, htwin⟩ := (hdef leaf hleaf).flip.exists_of_ok hd'
      exact ⟨leaf, d, hleaf, hd, (reachedUnder_twin htwin).2 hunder⟩

def SameDefinition (fields fields' : Policy) : Prop :=
  ∀ name, Agree (Definition.Twin Interchangeable) (Definition.ofPolicy name fields)
    (Definition.ofPolicy name fields')

theorem SameDefinition.refl (fields : Policy) : SameDefinition fields fields :=
  fun _ => .refl (Definition.Twin.refl Interchangeable.refl)

theorem interchangeable_of_exchanges {defs defs' : Policy}
    (h : Policy.Exchanges definitionsKey defs defs' dict dict') (halike : defs.Alike defs')
    (hsame : ∀ leaf, Policy.AlikeAt SameDefinition leaf defs defs') :
    Interchangeable dict dict' := by
  apply interchangeable_of_agree
  · exact Policy.alike_of_valuesAt? (h.alikeAt Policy.Alike.refl halike)
  · intro leaf hleaf
    have hdefs : Policy.AlikeAt (fun a b => ∀ leaf, Policy.AlikeAt SameDefinition leaf a b)
        definitionsKey dict dict' :=
      h.alikeAt (fun _ _ => .of_eq SameDefinition.refl rfl) hsame _
    exact agree_definitionIn hdefs hleaf (fun _ _ hsame => hsame leaf) fun _ _ hsame => hsame leaf

theorem Reorders.interchangeable (h : Reorders dict dict') (hw : dict.WellFormed) :
    Interchangeable dict dict' := by
  induction h with
  | own hperm h =>
    have hvalues : ∀ leaf, Policy.valuesAt? _ [leaf] = Policy.valuesAt? _ [leaf] := fun leaf =>
      congrArg (Option.map Entry.values) ((h.wellFormed_sub hw).entry?_of_perm hperm leaf)
    apply interchangeable_of_exchanges h
    · exact Policy.alike_of_valuesAt? fun leaf =>
        Policy.AlikeAt.of_eq Policy.Alike.refl (hvalues leaf)
    · exact fun leaf => .of_eq SameDefinition.refl (hvalues leaf)
  | nested _ hfields hdefs h ih =>
    have hsub := ih (hfields.wellFormed_sub (hdefs.wellFormed_sub (h.wellFormed_sub hw)))
    have halike := Policy.alike_of_valuesAt? (hfields.alikeAt Policy.Alike.refl hsub.alike)
    have hsame : SameDefinition _ _ := Definition.agree_ofPolicy_twin Interchangeable.contains_eq
      (fun _ hne => hfields.valuesAt?_of_ne hne) (hfields.alikeAt Interchangeable.refl hsub _)
    apply interchangeable_of_exchanges h
    · exact Policy.alike_of_valuesAt? (hdefs.alikeAt Policy.Alike.refl halike)
    · exact hdefs.alikeAt SameDefinition.refl hsame

theorem interchangeable_of_reorders (h : Relation.ReflTransGen Reorders dict dict')
    (hw : dict.WellFormed) :
    dict'.WellFormed ∧ (checkIn dict' = .ok ⟨⟩ ↔ checkIn dict = .ok ⟨⟩) ∧
      dict'.contains definitionsKey = dict.contains definitionsKey ∧
      ∀ o g p path n, Reached (Noted o g) dict p path n ↔ Reached (Noted o g) dict' p path n := by
  -- along the chain, since that the definitions are well-formed is carried from one to the next
  induction h with
  | refl => exact ⟨hw, Iff.rfl, rfl, fun _ _ _ _ _ => Iff.rfl⟩
  | tail _ h ih =>
    obtain ⟨hw, hcheck, hcontains, hreached⟩ := ih
    have hsame := h.interchangeable hw
    have hw' := h.wellFormed hw
    refine ⟨hw', ?_, ?_, fun o g p path n => (hreached ..).trans (hsame.reached ..)⟩
    · rw [← hcheck]
      exact ⟨checkIn_of_alike hw' hsame.alike.symm, checkIn_of_alike hw hsame.alike⟩
    · rw [← hcontains, Interchangeable.contains_eq _ _ hsame]

/-- What is noted for a policy does not depend on the order of its names. -/
theorem reached_of_entry? (h : ∀ leaf, p.entry? leaf = q.entry? leaf) :
    Reached (Noted o g) dict p path n ↔ Reached (Noted o g) dict q path n := by
  have hnoted : ∀ leaf, Noted o g leaf (dict, p) ↔ Noted o g leaf (dict, q) := by
    intro leaf
    have hfaults : faultsAt leaf (dict, p) = faultsAt leaf (dict, q) := by
      unfold faultsAt
      dsimp only
      rw [h leaf]
    have hunknown : UnknownAt leaf (dict, p) ↔ UnknownAt leaf (dict, q) := by
      constructor
      · intro hu
        exact ⟨(congrArg Option.isSome (h leaf)).symm.trans hu.held, hu.undefined⟩
      · intro hu
        exact ⟨(congrArg Option.isSome (h leaf)).trans hu.held, hu.undefined⟩
    rw [Noted, Noted, hfaults, hunknown]
  have hunder : ∀ d leaf, ReachedUnder (Noted o g) d p path leaf n ↔
      ReachedUnder (Noted o g) d q path leaf n := by
    intro d leaf
    unfold ReachedUnder Policy.subPolicies
    rw [h leaf]
  rw [reached_iff, reached_iff]
  simp only [hnoted, hunder]

/-- The order of the definitions in a dictionary, and in those nested in it, makes no difference to
its check, nor to what is reported by it; neither does the order of the names in a policy. -/
theorem validate_reordered (d : Dictionary) {q : Policy} (hd : d.policy.WellFormed)
    (h : Relation.ReflTransGen Reorders d.policy q) :
    ∃ d', Dictionary.ofPolicy q = .ok d' ∧ (d'.check = .ok ⟨⟩ ↔ d.check = .ok ⟨⟩) ∧
      (d.check = .ok ⟨⟩ → ∀ o p p', p.WellFormed → p.entries.Perm p'.entries →
        ∃ r, d.validateWith o p = .ok r ∧ d'.validateWith o p' = .ok r) := by
  obtain ⟨hq, hcheck, hcontains, hreached⟩ := interchangeable_of_reorders h hd
  have hdefs : q.contains definitionsKey = true := hcontains.trans d.hasDefinitions
  refine ⟨⟨q, hdefs⟩, dif_pos hdefs, hcheck, ?_⟩
  intro hc o p p' hp hperm
  have hp' := hp.of_perm hperm
  obtain ⟨r, hr, hadds⟩ := exists_validateWith_adds o hd hc hp
  obtain ⟨r', hr', hadds'⟩ :=
    exists_validateWith_adds (d := ⟨q, hdefs⟩) o hq (hcheck.2 hc) hp'
  have hsame : r = r' := by
    apply hadds.wellFormed.eq_of_meets hadds'.wellFormed
    intro n g
    rw [hadds.meets_faultsOf, hadds'.meets_faultsOf, hreached,
      reached_of_entry? (hp.entry?_of_perm hperm)]
  exact ⟨r, hr, hsame ▸ hr'⟩

def schemaOf (defs : List Entry) : Policy :=
  ⟨[⟨definitionsKey, [.policy ⟨defs⟩]⟩]⟩

theorem reorders_schemaOf {defs defs' : List Entry} (h : defs.Perm defs') :
    Reorders (schemaOf defs) (schemaOf defs') := by
  have hperm : (Policy.mk defs).entries.Perm (Policy.mk defs').entries := h
  exact .own hperm (.single rfl)

def typed (name type : String) : Entry :=
  ⟨name, [.policy ⟨[⟨"type", [.string type]⟩]⟩]⟩

def zonesOf (defs : List Entry) : Entry :=
  ⟨"zone", [.policy ⟨[⟨"type", [.string "Policy"]⟩, ⟨dictionaryKey, [.policy (schemaOf defs)]⟩]⟩]⟩

def sizedZones : Dictionary where
  policy := schemaOf [typed "size" "int", zonesOf [typed "name" "string", typed "number" "int"]]
  hasDefinitions := by decide +kernel

def sizedZonesBackwards : Policy :=
  schemaOf [zonesOf [typed "number" "int", typed "name" "string"], typed "size" "int"]

theorem reorders_sizedZones :
    Relation.ReflTransGen Reorders sizedZones.policy sizedZonesBackwards := by
  have hzones : Policy.Exchanges "zone" _ _
      ⟨[typed "size" "int", zonesOf [typed "name" "string", typed "number" "int"]]⟩
      ⟨[typed "size" "int", zonesOf [typed "number" "int", typed "name" "string"]]⟩ :=
    .single rfl
  have hnested : Reorders sizedZones.policy
      (schemaOf [typed "size" "int", zonesOf [typed "number" "int", typed "name" "string"]]) :=
    .nested (reorders_schemaOf (.swap ..)) (.single rfl) hzones (.single rfl)
  exact .tail (.single hnested) (reorders_schemaOf (.swap ..))

def areaAndZone : Policy :=
  ⟨[⟨"area", [.int 1]⟩, ⟨"zone", [.policy ⟨[⟨"name", [.int 2]⟩]⟩]⟩]⟩

theorem validate_reordered_sizedZones :
    ∃ d' r, Dictionary.ofPolicy sizedZonesBackwards = .ok d' ∧
      sizedZones.validateWith ⟨true⟩ areaAndZone = .ok r ∧
      d'.validateWith ⟨true⟩ ⟨areaAndZone.entries.reverse⟩ = .ok r ∧
      r.names = ["area", "size", "zone.name", "zone.number"] := by
  obtain ⟨d', hd', -, hsame⟩ :=
    validate_reordered sizedZones (by decide +kernel) reorders_sizedZones
  have hc : sizedZones.check = .ok ⟨⟩ := toOption_eq_some_iff.1 (by decide +kernel)
  have hperm : areaAndZone.entries.Perm areaAndZone.entries.reverse :=
    (List.reverse_perm _).symm
  obtain ⟨r, hr, hr'⟩ := hsame hc ⟨true⟩ areaAndZone ⟨_⟩ (by decide +kernel) hperm
  refine ⟨d', r, hd', hr, hr', ?_⟩
  have hnames : (sizedZones.validateWith ⟨true⟩ areaAndZone).toOption.map Report.names =
      some ["area", "size", "zone.name", "zone.number"] := by
    decide +kernel
  rw [hr] at hnames
  exact Option.some.inj hnames

end Dictionary

end PolicyTree
