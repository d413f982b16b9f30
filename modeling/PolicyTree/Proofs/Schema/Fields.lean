import PolicyTree.Proofs.Schema.Dictionary

namespace PolicyTree

/-- A value as it counts where values of kind `k` are declared: an int stands for a double. -/
def Value.widened (v : Value) (k : Kind) : Value :=
  match k, v with
  | .double, .int i => .double i.toFloat
  | _, v => v

namespace Policy

variable {p : Policy} {key : String} {v : Value}

def valuesUnder (p : Policy) (key : String) : List Value :=
  (p.getArray key).toOption.getD []

theorem get_eq_ok_iff_valuesUnder : p.get key = .ok v ↔ (p.valuesUnder key).getLast? = some v := by
  rw [get_eq_ok_iff, valuesUnder]
  cases p.getArray key with
  | ok values => simp [Except.toOption]
  | error e => simp [Except.toOption]

theorem get_cases (p : Policy) (key : String) :
    (∃ e, p.get key = .error e ∧ p.valuesUnder key = []) ∨
      ∃ front v, p.get key = .ok v ∧ p.valuesUnder key = front ++ [v] := by
  cases hget : p.get key with
  | error e =>
    refine .inl ⟨e, rfl, ?_⟩
    rw [← List.getLast?_eq_none_iff, Option.eq_none_iff_forall_ne_some]
    intro v hv
    cases hget.symm.trans (get_eq_ok_iff_valuesUnder.2 hv)
  | ok v =>
    obtain ⟨front, hfront⟩ := List.getLast?_eq_some_iff.1 (get_eq_ok_iff_valuesUnder.1 hget)
    exact .inr ⟨front, v, rfl, hfront⟩

theorem valueCount_eq (p : Policy) (key : String) :
    p.valueCount key = (p.valuesUnder key).length := by
  have hlookup : p.lookup? key = (p.getArray key).toOption := by
    apply Option.ext
    intro values
    rw [toOption_eq_some_iff, getArray_eq_ok_iff, lookup?]
    cases Name.segments key with
    | ok segs => simp
    | error e => simp
  rw [valueCount, hlookup, valuesUnder]
  cases (p.getArray key).toOption <;> rfl

end Policy

namespace Definition

variable {fields source : Policy} {d : Definition} {k : Kind} {v w : Value} {b b' : Bounds}
  {given given' values values' : List Value} {known bound : Option Value} {most : Option Nat}
  {name key label what : String} {least : Nat} {nested : Option Dictionary}

/-- A value can be given where values of kind `k` are declared. -/
def Fits (k : Kind) (v : Value) : Prop :=
  k ≠ .undefined → (v.widened k).kind = k

/-- Values as a definition of kind `k` holds them, and the values that the schema gives. -/
structure Coerced (k : Kind) (given values : List Value) : Prop where
  fits : ∀ v ∈ given, Fits k v
  eq : values = given.map fun v => v.widened k

theorem coerce_eq_ok_iff : coerce name k what v = .ok w ↔ Fits k v ∧ v.widened k = w := by
  unfold coerce
  split
  · simp [Fits, Value.widened, Value.kind]
  · simp [Fits, Value.widened]
  · rename_i hk hint
    have hsame : v.widened k = v := by
      unfold Value.widened
      split
      · exact (hint _ rfl rfl).elim
      · rfl
    rw [hsame, Fits, hsame]
    split
    · rename_i hkind
      simp [eq_of_beq hkind]
    · rename_i hkind
      have hne : ¬(k ≠ .undefined → v.kind = k) := fun h => hkind (beq_iff_eq.2 (h hk))
      simp [hne]

theorem mapM_coerce_eq_ok_iff :
    given.mapM (coerce name k what) = .ok values ↔ Coerced k given values := by
  rw [mapM_eq_ok_iff]
  simp only [coerce_eq_ok_iff]
  constructor
  · intro h
    induction h with
    | nil => exact ⟨List.forall_mem_nil _, rfl⟩
    | cons hv _ ih =>
      refine ⟨List.forall_mem_cons.2 ⟨hv.1, ih.fits⟩, ?_⟩
      rw [List.map_cons, ← hv.2, ← ih.eq]
  · rintro ⟨hfits, rfl⟩
    rw [List.forall₂_map_right_iff, List.forall₂_same]
    exact fun v hv => ⟨hfits v hv, rfl⟩

theorem coerced_nil_iff : Coerced k [] values ↔ values = [] :=
  ⟨fun h => h.eq, fun h => ⟨List.forall_mem_nil _, h⟩⟩

theorem coerced_singleton_iff : Coerced k [v] values ↔ Fits k v ∧ values = [v.widened k] :=
  ⟨fun h => ⟨h.fits v (List.mem_singleton_self v), h.eq⟩,
    fun h => ⟨List.forall_mem_singleton.2 h.1, h.2⟩⟩

theorem Coerced.append_iff : Coerced k (given ++ given') values ↔
    ∃ front back, Coerced k given front ∧ Coerced k given' back ∧ values = front ++ back := by
  constructor
  · rintro ⟨hfits, rfl⟩
    rw [List.forall_mem_append] at hfits
    exact ⟨_, _, ⟨hfits.1, rfl⟩, ⟨hfits.2, rfl⟩, List.map_append⟩
  · rintro ⟨_, _, ⟨hfits, rfl⟩, ⟨hfits', rfl⟩, rfl⟩
    exact ⟨List.forall_mem_append.2 ⟨hfits, hfits'⟩, List.map_append.symm⟩

theorem Coerced.kind_eq (h : Coerced k given values) (hk : k ≠ .undefined) (hw : w ∈ values) :
    w.kind = k := by
  rw [h.eq, List.mem_map] at hw
  obtain ⟨v, hv, rfl⟩ := hw
  exact h.fits v hv hk

theorem givenValues_eq_ok_iff :
    givenValues name k source key what = .ok values ↔
      Coerced k (source.valuesUnder key) values := by
  unfold givenValues Policy.valuesUnder
  cases source.getArray key with
  | ok given => exact mapM_coerce_eq_ok_iff
  | error e =>
    constructor
    · intro h
      obtain rfl := Except.ok.inj h
      exact ⟨List.forall_mem_nil _, rfl⟩
    · rintro ⟨-, rfl⟩
      rfl

/-- Of a bound that may be known before, and those given now, there is one at most. -/
def Bounded (k : Kind) (known : Option Value) (given : List Value) (bound : Option Value) : Prop :=
  ∃ values, Coerced k given values ∧ bound.toList = known.toList ++ values

theorem bounded_nil_iff : Bounded k known [] bound ↔ bound = known := by
  constructor
  · rintro ⟨values, ⟨-, rfl⟩, h⟩
    cases known <;> cases bound <;> simp_all
  · rintro rfl
    exact ⟨[], ⟨List.forall_mem_nil _, rfl⟩, (List.append_nil _).symm⟩

theorem bounded_singleton_iff :
    Bounded k none [v] bound ↔ Fits k v ∧ some (v.widened k) = bound := by
  constructor
  · rintro ⟨values, ⟨hfits, rfl⟩, h⟩
    refine ⟨hfits v (List.mem_singleton_self v), ?_⟩
    cases bound <;> simp_all
  · rintro ⟨hfits, rfl⟩
    exact ⟨[v.widened k], ⟨List.forall_mem_singleton.2 hfits, rfl⟩, rfl⟩

theorem Bounded.length_le (h : Bounded k known given bound) :
    known.toList.length + given.length ≤ 1 := by
  obtain ⟨values, hvalues, h⟩ := h
  have hlength := congrArg List.length h
  rw [List.length_append, hvalues.eq, List.length_map] at hlength
  rw [← hlength]
  cases bound <;> simp

theorem Bounded.append_iff : Bounded k known (given ++ given') bound ↔
    ∃ middle, Bounded k known given middle ∧ Bounded k middle given' bound := by
  constructor
  · intro h
    have hlength := h.length_le
    rw [List.length_append] at hlength
    obtain ⟨_, hvalues, h⟩ := h
    obtain ⟨front, back, hfront, hback, rfl⟩ := Coerced.append_iff.1 hvalues
    have hmiddle : ∃ middle : Option Value, middle.toList = known.toList ++ front := by
      have hshort : (known.toList ++ front).length ≤ 1 := by
        rw [List.length_append, hfront.eq, List.length_map]
        omega
      match known.toList ++ front, hshort with
      | [], _ => exact ⟨none, rfl⟩
      | [v], _ => exact ⟨some v, rfl⟩
    obtain ⟨middle, hmiddle⟩ := hmiddle
    exact ⟨middle, ⟨front, hfront, hmiddle⟩, back, hback, by rw [h, hmiddle, List.append_assoc]⟩
  · rintro ⟨middle, ⟨front, hfront, hmiddle⟩, back, hback, h⟩
    refine ⟨front ++ back, Coerced.append_iff.2 ⟨front, back, hfront, hback, rfl⟩, ?_⟩
    rw [h, hmiddle, List.append_assoc]

theorem bounded_none_iff : Bounded k none given bound ↔ Coerced k given bound.toList := by
  constructor
  · rintro ⟨values, hvalues, h⟩
    rwa [h, Option.toList_none, List.nil_append]
  · intro h
    exact ⟨_, h, rfl⟩

theorem Coerced.length_le (h : Coerced k given bound.toList) : given.length ≤ 1 := by
  simpa using (bounded_none_iff.2 h).length_le

theorem takeBound_eq_ok_iff : takeBound name k key label known source = .ok bound ↔
    Bounded k known (source.valuesUnder key) bound := by
  unfold takeBound
  rcases source.get_cases key with ⟨e, hget, hnone⟩ | ⟨front, v, hget, hvalues⟩
  · rw [hget, hnone, bounded_nil_iff, Except.ok.injEq, eq_comm]
  · rw [hget, hvalues, Policy.valueCount_eq, hvalues]
    dsimp only
    split
    · rename_i hmore
      refine iff_of_false (fun h => by cases h) fun h => ?_
      have hlength := h.length_le
      rw [List.length_append, List.length_singleton] at hlength
      cases known with
      | none => simp_all
      | some w =>
        rw [Option.toList_some, List.length_singleton] at hlength
        omega
    · rename_i honly
      rw [Bool.or_eq_true, not_or, decide_eq_true_iff] at honly
      obtain rfl : known = none := by simpa using honly.1
      obtain rfl : front = [] := by simpa using honly.2
      rw [List.nil_append, bounded_singleton_iff, map_eq_ok_iff]
      simp only [coerce_eq_ok_iff, and_assoc, exists_and_left, exists_eq_left']

theorem take_eq_ok_iff : b.take name k source = .ok b' ↔
    Bounded k b.min (source.valuesUnder "min") b'.min ∧
      Bounded k b.max (source.valuesUnder "max") b'.max := by
  obtain ⟨min, max⟩ := b'
  simp only [Bounds.take, bind_eq_ok_iff, takeBound_eq_ok_iff]
  constructor
  · rintro ⟨min, hmin, max, hmax, h⟩
    cases h
    exact ⟨hmin, hmax⟩
  · rintro ⟨hmin, hmax⟩
    exact ⟨min, hmin, max, hmax, rfl⟩

def underEach (key : String) (values : List Value) : List Value :=
  (values.filterMap Value.policy?).flatMap fun p => p.valuesUnder key

/-- The values that an entry of `allowed` stands for: those that a policy gives, or itself. -/
def allowedBy : Value → List Value
  | .policy p => p.valuesUnder "value"
  | v => [v]

theorem underEach_cons_policy (key : String) (p : Policy) (values : List Value) :
    underEach key (.policy p :: values) = p.valuesUnder key ++ underEach key values := rfl

theorem underEach_cons_of_kind (key : String) (h : v.kind ≠ .policy) (values : List Value) :
    underEach key (v :: values) = underEach key values := by
  cases v with
  | policy p => exact absurd rfl h
  | undefined | bool | int | double | string | file => rfl

theorem allowedBy_of_kind (h : v.kind ≠ .policy) : allowedBy v = [v] := by
  cases v with
  | policy p => exact absurd rfl h
  | undefined | bool | int | double | string | file => rfl

theorem takeAllowed_bind_eq_ok_iff {f : List Value → List Value} :
    (do let rest ← takeAllowed name k b given; return (rest.1, f rest.2)) = .ok (b', values) ↔
      ∃ back, takeAllowed name k b given = .ok (b', back) ∧ f back = values := by
  rw [bind_eq_ok_iff]
  constructor
  · rintro ⟨⟨b'', back⟩, hrest, h⟩
    cases h
    exact ⟨back, hrest, rfl⟩
  · rintro ⟨back, hrest, rfl⟩
    exact ⟨_, hrest, rfl⟩

theorem takeAllowed_cons_policy {p : Policy} :
    takeAllowed name k b (.policy p :: given) = .ok (b', values) ↔
      ∃ m, b.take name k p = .ok m ∧ ∃ front, givenValues name k p "value" "allowed" = .ok front ∧
        ∃ back, takeAllowed name k m given = .ok (b', back) ∧ front ++ back = values := by
  rw [takeAllowed, bind_eq_ok_iff]
  apply exists_congr
  intro m
  rw [bind_eq_ok_iff]
  apply and_congr_right
  intro _
  apply exists_congr
  intro front
  exact and_congr_right fun _ => takeAllowed_bind_eq_ok_iff

theorem takeAllowed_cons_of_kind (h : v.kind ≠ .policy) :
    takeAllowed name k b (v :: given) = .ok (b', values) ↔
      ∃ w, coerce name k "allowed" v = .ok w ∧
        ∃ back, takeAllowed name k b given = .ok (b', back) ∧ w :: back = values := by
  rw [takeAllowed, bind_eq_ok_iff]
  · apply exists_congr
    intro w
    exact and_congr_right fun _ => takeAllowed_bind_eq_ok_iff
  · rintro p rfl
    exact h rfl

theorem takeAllowed_eq_ok_iff : takeAllowed name k b given = .ok (b', values) ↔
    Bounded k b.min (underEach "min" given) b'.min ∧
      Bounded k b.max (underEach "max" given) b'.max ∧
        Coerced k (given.flatMap allowedBy) values := by
  induction given generalizing b values with
  | nil =>
    obtain ⟨min, max⟩ := b
    obtain ⟨min', max'⟩ := b'
    have hnone : ∀ key, underEach key [] = [] := fun _ => rfl
    rw [takeAllowed, hnone, hnone, List.flatMap_nil, bounded_nil_iff, bounded_nil_iff,
      coerced_nil_iff]
    simp only [Except.ok.injEq, Prod.mk.injEq, Bounds.mk.injEq, eq_comm, and_assoc]
  | cons v given ih =>
    rw [List.flatMap_cons]
    by_cases hv : v.kind = .policy
    · obtain ⟨p, rfl⟩ : ∃ p, v = .policy p := by
        cases v with
        | policy p => exact ⟨p, rfl⟩
        | undefined | bool | int | double | string | file => cases hv
      rw [takeAllowed_cons_policy, underEach_cons_policy, underEach_cons_policy,
        Bounded.append_iff, Bounded.append_iff, Coerced.append_iff]
      simp only [take_eq_ok_iff, givenValues_eq_ok_iff, ih]
      constructor
      · rintro ⟨m, ⟨hmin, hmax⟩, front, hfront, back, ⟨hmin', hmax', hback⟩, rfl⟩
        exact ⟨⟨m.min, hmin, hmin'⟩, ⟨m.max, hmax, hmax'⟩, front, back, hfront, hback, rfl⟩
      · rintro ⟨⟨min, hmin, hmin'⟩, ⟨max, hmax, hmax'⟩, front, back, hfront, hback, rfl⟩
        exact ⟨⟨min, max⟩, ⟨hmin, hmax⟩, front, hfront, back, ⟨hmin', hmax', hback⟩, rfl⟩
    · rw [takeAllowed_cons_of_kind hv, underEach_cons_of_kind _ hv, underEach_cons_of_kind _ hv,
        allowedBy_of_kind hv, Coerced.append_iff]
      simp only [coerce_eq_ok_iff, coerced_singleton_iff, ih]
      constructor
      · rintro ⟨w, ⟨hfits, rfl⟩, back, ⟨hmin, hmax, hback⟩, rfl⟩
        exact ⟨hmin, hmax, _, back, ⟨hfits, rfl⟩, hback, rfl⟩
      · rintro ⟨hmin, hmax, _, back, ⟨hfits, rfl⟩, hback, rfl⟩
        exact ⟨_, ⟨hfits, rfl⟩, back, ⟨hmin, hmax, hback⟩, rfl⟩

inductive Declares (fields : Policy) : Kind → Prop
  | nothing (h : fields.valuesUnder "type" = []) : Declares fields .undefined
  | type {text : String} {k : Kind} (h : fields.get "type" = .ok (.string text))
      (hk : Kind.ofName? text = some k) (hfile : k ≠ .file) : Declares fields k

/-- A bound on the number of values; a negative one is none. -/
inductive Occurs (fields : Policy) (key : String) : Option Nat → Prop
  | nothing (h : fields.valuesUnder key = []) : Occurs fields key none
  | negative {n : Int64} (h : fields.get key = .ok (.int n)) (hn : n < 0) : Occurs fields key none
  | bound {n : Int64} (h : fields.get key = .ok (.int n)) (hn : ¬n < 0) :
      Occurs fields key (some n.toInt.toNat)

/-- The least and the greatest number of values. One is required if nothing is said, and the least
number alone does not contradict the greatest one. -/
structure Counts (fields : Policy) (least : Nat) (most : Option Nat) : Prop where
  minOccurs : if fields.contains "minOccurs" then
      ∃ m, Occurs fields "minOccurs" m ∧ m.getD 0 = least else 1 = least
  maxOccurs : if fields.contains "maxOccurs" then Occurs fields "maxOccurs" most
    else some (Nat.max least 1) = most
  le : ∀ m, most = some m → least ≤ m

theorem declaredKind_eq_ok_iff : declaredKind name fields = .ok k ↔ Declares fields k := by
  unfold declaredKind
  rcases fields.get_cases "type" with ⟨e, hget, hnone⟩ | ⟨front, v, hget, hvalues⟩
  · rw [hget]
    constructor
    · intro h
      obtain rfl := Except.ok.inj h
      exact .nothing hnone
    · rintro (_ | ⟨h, -, -⟩)
      · rfl
      · cases hget.symm.trans h
  · rw [hget]
    constructor
    · intro h
      split at h
      · rename_i heq
        cases heq
      · rename_i text heq
        obtain rfl := Except.ok.inj heq
        split at h
        · cases h
        · cases h
        · rename_i k' hfile hk
          obtain rfl := Except.ok.inj h
          exact .type hget hk hfile
      · cases h
    · rintro (h | ⟨h, hk, hfile⟩)
      · simp [h] at hvalues
      · obtain rfl := Except.ok.inj (hget.symm.trans h)
        dsimp only
        rw [hk]
        cases k with
        | file => exact absurd rfl hfile
        | undefined | bool | int | double | string | policy => rfl

theorem occurs_eq_ok_iff : occurs name fields key = .ok most ↔ Occurs fields key most := by
  unfold occurs
  rcases fields.get_cases key with ⟨e, hget, hnone⟩ | ⟨front, v, hget, hvalues⟩
  · rw [hget]
    constructor
    · intro h
      obtain rfl := Except.ok.inj h
      exact .nothing hnone
    · rintro (_ | ⟨h, -⟩ | ⟨h, -⟩)
      · rfl
      · cases hget.symm.trans h
      · cases hget.symm.trans h
  · rw [hget]
    constructor
    · intro h
      split at h
      · rename_i heq
        cases heq
      · rename_i n heq
        obtain rfl := Except.ok.inj heq
        obtain rfl := Except.ok.inj h
        split
        · exact .negative hget ‹_›
        · exact .bound hget ‹_›
      · cases h
    · rintro (h | ⟨h, hn⟩ | ⟨h, hn⟩)
      · simp [h] at hvalues
      · obtain rfl := Except.ok.inj (hget.symm.trans h)
        exact congrArg Except.ok (if_pos hn)
      · obtain rfl := Except.ok.inj (hget.symm.trans h)
        exact congrArg Except.ok (if_neg hn)

theorem exceeds_eq_ok_iff {e : Nat → Error} {least' : Nat} {most' : Option Nat} :
    (match most' with
      | some m => if m < least' then .error (e m) else pure (least', most')
      | none => pure (least', most')) = (.ok (least, most) : Except Error (Nat × Option Nat)) ↔
      (least' = least ∧ most' = most) ∧ ∀ m, most' = some m → least' ≤ m := by
  rw [← Prod.mk.injEq]
  cases most' with
  | none => simp [pure_eq_ok_iff]
  | some m =>
    by_cases hm : m < least'
    · simp [hm]
    · simp [hm, pure_eq_ok_iff, Nat.le_of_not_lt hm]

theorem occurrences_eq_ok_iff :
    occurrences name fields = .ok (least, most) ↔ Counts fields least most := by
  have hleast : ∀ least', (if fields.contains "minOccurs" then
      (·.getD 0) <$> occurs name fields "minOccurs" else pure 1) = .ok least' ↔
        if fields.contains "minOccurs" then ∃ m, Occurs fields "minOccurs" m ∧ m.getD 0 = least'
        else 1 = least' := by
    intro least'
    split
    · simp only [map_eq_ok_iff, occurs_eq_ok_iff]
    · exact pure_eq_ok_iff
  have hmost : ∀ least' most', (if fields.contains "maxOccurs" then
      occurs name fields "maxOccurs" else pure (some (Nat.max least' 1))) = .ok most' ↔
        if fields.contains "maxOccurs" then Occurs fields "maxOccurs" most'
        else some (Nat.max least' 1) = most' := by
    intro least' most'
    split
    · exact occurs_eq_ok_iff
    · exact pure_eq_ok_iff
  unfold occurrences
  dsimp only
  rw [ite_bind_eq_ok_iff]
  simp only [ite_bind_eq_ok_iff, hleast, hmost]
  constructor
  · rintro ⟨least', hl, most', hm, h⟩
    obtain ⟨⟨rfl, rfl⟩, hle⟩ := exceeds_eq_ok_iff.1 h
    exact ⟨hl, hm, hle⟩
  · rintro ⟨hl, hm, hle⟩
    exact ⟨least, hl, most, hm, exceeds_eq_ok_iff.2 ⟨⟨rfl, rfl⟩, hle⟩⟩

theorem dictionary_eq_ok_iff {p : Policy} {sub : Dictionary} :
    Dictionary.ofPolicy p = .ok sub ↔ sub.policy = p := by
  constructor
  · exact Dictionary.policy_of_ofPolicy
  · rintro rfl
    exact dif_pos sub.hasDefinitions

/-- What stands under the key of nested dictionaries is the nested dictionary. Only a definition of
the policy type has one. -/
theorem nestedDictionary_eq_ok_iff : nestedDictionary name k fields = .ok nested ↔
    (fields.get dictionaryKey).toOption = nested.map (fun sub => .policy sub.policy) ∧
      (nested.isSome → k = .policy) := by
  unfold nestedDictionary
  cases fields.get dictionaryKey with
  | error e =>
    cases nested with
    | none => simp [Except.toOption]
    | some sub => simp [Except.toOption]
  | ok v =>
    change _ ↔ some v = _ ∧ _
    dsimp only
    split
    · rename_i hk
      constructor
      · intro h
        cases h
      · rintro ⟨h, hpolicy⟩
        cases nested with
        | none => cases h
        | some sub =>
          rw [hpolicy rfl] at hk
          exact absurd hk (by decide)
    · rename_i hk
      have hpolicy : k = .policy := by simpa using hk
      cases v with
      | policy p =>
        rw [map_eq_ok_iff]
        simp only [dictionary_eq_ok_iff]
        constructor
        · rintro ⟨sub, rfl, rfl⟩
          exact ⟨rfl, fun _ => hpolicy⟩
        · rintro ⟨h, -⟩
          obtain ⟨sub, rfl, heq⟩ := Option.map_eq_some_iff.1 h.symm
          exact ⟨sub, (Value.policy.inj heq), rfl⟩
      | undefined | bool | int | double | string | file =>
        constructor
        · intro h
          cases h
        · rintro ⟨h, -⟩
          cases nested <;> cases h

def boundsGiven (fields : Policy) (key : String) : List Value :=
  fields.valuesUnder key ++ underEach key (fields.valuesUnder "allowed")

/-- A definition is made of what its policy holds, and contradicts itself nowhere. -/
structure MadeOf (fields : Policy) (d : Definition) : Prop where
  kind : Declares fields d.kind
  counts : Counts fields d.minOccurs d.maxOccurs
  min : Coerced d.kind (boundsGiven fields "min") d.min.toList
  max : Coerced d.kind (boundsGiven fields "max") d.max.toList
  allowed : Coerced d.kind ((fields.valuesUnder "allowed").flatMap allowedBy) d.allowed
  defaults : Coerced d.kind (fields.valuesUnder "default") d.defaults
  description : d.description = (fields.getAs .string "description").toOption
  dictionary : (fields.get dictionaryKey).toOption =
    d.dictionary.map fun sub => .policy sub.policy
  nested : d.dictionary.isSome → d.kind = .policy

theorem ofPolicy_eq_ok_iff : ofPolicy name fields = .ok d ↔ d.name = name ∧ MadeOf fields d := by
  unfold ofPolicy
  simp only [bind_eq_ok_iff, declaredKind_eq_ok_iff, take_eq_ok_iff, givenValues_eq_ok_iff,
    nestedDictionary_eq_ok_iff]
  constructor
  · rintro ⟨k, hk, ⟨least, most⟩, hcounts, b, ⟨hmin, hmax⟩, ⟨b', allowed⟩, hallowed, defaults,
      hdefaults, nested, ⟨hdictionary, hnested⟩, h⟩
    obtain ⟨hmin', hmax', hallowed⟩ := takeAllowed_eq_ok_iff.1 hallowed
    obtain rfl := Except.ok.inj h
    exact ⟨rfl, hk, occurrences_eq_ok_iff.1 hcounts,
      bounded_none_iff.1 (Bounded.append_iff.2 ⟨_, hmin, hmin'⟩),
      bounded_none_iff.1 (Bounded.append_iff.2 ⟨_, hmax, hmax'⟩), hallowed, hdefaults, rfl,
      hdictionary, hnested⟩
  · rintro ⟨rfl, h⟩
    obtain ⟨min, hmin, hmin'⟩ := Bounded.append_iff.1 (bounded_none_iff.2 h.min)
    obtain ⟨max, hmax, hmax'⟩ := Bounded.append_iff.1 (bounded_none_iff.2 h.max)
    refine ⟨d.kind, h.kind, ⟨d.minOccurs, d.maxOccurs⟩, occurrences_eq_ok_iff.2 h.counts,
      ⟨min, max⟩, ⟨hmin, hmax⟩, ⟨⟨d.min, d.max⟩, d.allowed⟩, ?_, d.defaults, h.defaults,
      d.dictionary, ⟨h.dictionary, h.nested⟩, ?_⟩
    · exact takeAllowed_eq_ok_iff.2 ⟨hmin', hmax', h.allowed⟩
    · rw [← h.description]
      rfl

/-- A definition is consistent. It is not declared to be a file, some number of values is neither
too small nor too great, of each bound one value at most is given anywhere, all that the schema
gives is of the declared kind once ints stand for doubles, and only a definition of the policy type
has a nested dictionary, the one with definitions that its policy holds. -/
theorem ofPolicy_consistent (h : ofPolicy name fields = .ok d) :
    d.kind ≠ .file ∧
      (∀ m, d.maxOccurs = some m → d.minOccurs ≤ m) ∧
      ((boundsGiven fields "min").length ≤ 1 ∧ (boundsGiven fields "max").length ≤ 1) ∧
      (d.min.toList = (boundsGiven fields "min").map (·.widened d.kind) ∧
        d.max.toList = (boundsGiven fields "max").map (·.widened d.kind) ∧
        d.allowed = ((fields.valuesUnder "allowed").flatMap allowedBy).map (·.widened d.kind) ∧
        d.defaults = (fields.valuesUnder "default").map (·.widened d.kind)) ∧
      (d.kind ≠ .undefined →
        ∀ v ∈ d.min.toList ++ d.max.toList ++ d.allowed ++ d.defaults, v.kind = d.kind) ∧
      ∀ sub, d.dictionary = some sub → d.kind = .policy ∧
        fields.get dictionaryKey = .ok (.policy sub.policy) ∧
          sub.policy.contains definitionsKey = true := by
  obtain ⟨-, hmade⟩ := ofPolicy_eq_ok_iff.1 h
  refine ⟨?_, hmade.counts.le, ⟨hmade.min.length_le, hmade.max.length_le⟩,
    ⟨hmade.min.eq, hmade.max.eq, hmade.allowed.eq, hmade.defaults.eq⟩, ?_, ?_⟩
  · intro hfile
    have hkind := hmade.kind
    rw [hfile] at hkind
    cases hkind with
    | type _ _ hne => exact hne rfl
  · intro hk v hv
    simp only [List.mem_append] at hv
    rcases hv with ((hv | hv) | hv) | hv
    · exact hmade.min.kind_eq hk hv
    · exact hmade.max.kind_eq hk hv
    · exact hmade.allowed.kind_eq hk hv
    · exact hmade.defaults.kind_eq hk hv
  · intro sub hs
    have hdictionary := hmade.dictionary
    rw [hs, Option.map_some, toOption_eq_some_iff] at hdictionary
    exact ⟨hmade.nested (by rw [hs]; rfl), hdictionary, sub.hasDefinitions⟩

def lengthFields : Policy :=
  ⟨[⟨"type", [.string "double"]⟩, ⟨"min", [.int 0]⟩, ⟨"maxOccurs", [.int 3]⟩,
    ⟨"allowed", [.policy ⟨[⟨"max", [.int 300]⟩]⟩, .policy ⟨[⟨"value", [.int 1, .int 2]⟩]⟩]⟩]⟩

theorem ofPolicy_consistent_length : ∃ d, ofPolicy "length" lengthFields = .ok d ∧
    d.max.toList = [.double (300 : Int64).toFloat] ∧
      ∀ v ∈ d.min.toList ++ d.max.toList ++ d.allowed ++ d.defaults, v.kind = .double := by
  have hkind : (ofPolicy "length" lengthFields).toOption.map kind = some .double := by
    decide +kernel
  obtain ⟨d, hd, hk⟩ := map_toOption_eq_some_iff.1 hkind
  obtain ⟨-, -, -, ⟨-, hmax, -⟩, hvalues, -⟩ := ofPolicy_consistent hd
  rw [hk] at hmax hvalues
  exact ⟨d, hd, hmax, hvalues (by decide)⟩

end Definition

end PolicyTree
