import Mathlib.Data.List.Nodup
import PolicyTree.Proofs.Policy.Walk

namespace PolicyTree

mutual

/-- The paths to all arrays that a walk reaches, each before those below it. -/
def Policy.paths : Policy → List (List String)
  | ⟨es⟩ => Entry.pathsAll es
termination_by structural p => p

def Entry.pathsAll : List Entry → List (List String)
  | [] => []
  | e :: es => e.paths ++ Entry.pathsAll es
termination_by structural es => es

def Entry.paths : Entry → List (List String)
  | ⟨name, values⟩ => [name] :: (Value.pathsOfLast values).map (name :: ·)
termination_by structural e => e

def Value.pathsOfLast : List Value → List (List String)
  | [] => []
  | [v] => v.paths
  | _ :: vs => Value.pathsOfLast vs
termination_by structural vs => vs

def Value.paths : Value → List (List String)
  | .policy p => p.paths
  | _ => []
termination_by structural v => v

end

variable {p : Policy} {e : Entry} {es : List Entry} {values : List Value} {above path : List String}
  {full name holder : String}

theorem Entry.pathsAll_eq (es : List Entry) : Entry.pathsAll es = es.flatMap Entry.paths := by
  induction es with
  | nil => rfl
  | cons e es ih => rw [pathsAll, ih, List.flatMap_cons]

theorem Value.pathsOfLast_eq (values : List Value) :
    pathsOfLast values = (values.getLast?.map paths).getD [] := by
  induction values with
  | nil => rfl
  | cons v values ih =>
    cases values with
    | nil => rfl
    | cons w values => rw [pathsOfLast, ih, List.getLast?_cons_cons]; simp

theorem Value.namesOfLast_eq (f : NameFilter) (full : String) (values : List Value) :
    namesOfLast f full values = (values.getLast?.map (namesWithin f full)).getD [] := by
  induction values with
  | nil => rfl
  | cons v values ih =>
    cases values with
    | nil => rfl
    | cons w values => rw [namesOfLast, ih, List.getLast?_cons_cons]; simp

theorem Entry.namesBelow_eq (f : NameFilter) (full : String) (es : List Entry) :
    Entry.namesBelow f full es = es.flatMap fun e => e.namesFrom f full := by
  induction es with
  | nil => rfl
  | cons e es ih => rw [namesBelow, ih, List.flatMap_cons]

/-- The paths from an entry on: its own, and those through the last of its sub-policies. -/
theorem Entry.mem_paths_iff :
    path ∈ e.paths ↔ path = [e.name] ∨ ∃ sub rest, e.values.getLast? = some (.policy sub) ∧
      rest ∈ sub.paths ∧ path = e.name :: rest := by
  obtain ⟨name, values⟩ := e
  rw [paths, List.mem_cons, List.mem_map, Value.pathsOfLast_eq]
  apply or_congr_right
  constructor
  · rintro ⟨rest, hrest, rfl⟩
    cases hl : values.getLast? with
    | none => simp [hl] at hrest
    | some v =>
      rw [hl] at hrest
      cases v with
      | policy sub => exact ⟨sub, rest, rfl, hrest, rfl⟩
      | undefined | bool | int | double | string | file => cases hrest
  · rintro ⟨sub, rest, hl, hrest, rfl⟩
    refine ⟨rest, ?_, rfl⟩
    rw [hl]
    exact hrest

namespace Policy

theorem mem_paths_mk : path ∈ paths ⟨es⟩ ↔ ∃ e ∈ es, path ∈ e.paths := by
  rw [paths, Entry.pathsAll_eq, List.mem_flatMap]

theorem ne_nil_of_mem_paths (h : path ∈ p.paths) : path ≠ [] := by
  obtain ⟨es⟩ := p
  obtain ⟨e, -, he⟩ := mem_paths_mk.1 h
  rcases Entry.mem_paths_iff.1 he with rfl | ⟨sub, rest, -, -, rfl⟩
  · exact List.cons_ne_nil _ _
  · exact List.cons_ne_nil _ _

/-- A path is listed exactly if there is an array at its end. -/
theorem WellFormed.mem_paths_iff (h : p.WellFormed) :
    path ∈ p.paths ↔ (p.valuesAt? path).isSome := by
  induction h generalizing path with
  | @intro es unique leaf array nested ih =>
    have hw : WellFormed ⟨es⟩ := .intro unique leaf array nested
    rw [mem_paths_mk]
    constructor
    · rintro ⟨e, he, hpath⟩
      have hentry : entry? ⟨es⟩ e.name = some e := hw.entry?_of_mem he
      rcases Entry.mem_paths_iff.1 hpath with rfl | ⟨sub, rest, hl, hrest, rfl⟩
      · rw [Policy.valuesAt?, hentry]
        rfl
      · have hchild : Policy.child? ⟨es⟩ e.name = some sub :=
          child?_eq_some_iff.2 (last?_eq_some_iff.2 ⟨e, hentry, hl⟩)
        obtain ⟨seg, rest, rfl⟩ := List.exists_cons_of_ne_nil (ne_nil_of_mem_paths hrest)
        rw [Policy.valuesAt?, hchild, Option.bind_some]
        · exact (ih e he sub (List.mem_of_getLast? hl)).1 hrest
        · exact List.cons_ne_nil _ _
    · intro hsome
      cases path with
      | nil => cases hsome
      | cons seg rest =>
        cases rest with
        | nil =>
          rw [Policy.valuesAt?, Option.isSome_map, Option.isSome_iff_exists] at hsome
          obtain ⟨e, he⟩ := hsome
          refine ⟨e, mem_of_entry?_eq_some he, Entry.mem_paths_iff.2 (.inl ?_)⟩
          rw [name_of_entry?_eq_some he]
        | cons next rest =>
          rw [Policy.valuesAt?, Option.isSome_bind] at hsome
          · cases hc : Policy.child? ⟨es⟩ seg with
            | none => simp [hc] at hsome
            | some sub =>
              rw [hc] at hsome
              obtain ⟨e, he, hl⟩ := last?_eq_some_iff.1 (child?_eq_some_iff.1 hc)
              have hmem := mem_of_entry?_eq_some he
              refine ⟨e, hmem, Entry.mem_paths_iff.2 (.inr ⟨sub, next :: rest, hl, ?_, ?_⟩)⟩
              · exact (ih e hmem sub (List.mem_of_getLast? hl)).2 hsome
              · rw [name_of_entry?_eq_some he]
          · exact List.cons_ne_nil _ _

theorem WellFormed.isLeaf_of_mem_paths (h : p.WellFormed) (hp : path ∈ p.paths) :
    ∀ s ∈ path, Name.isLeaf s = true := by
  have hne := ne_nil_of_mem_paths hp
  obtain ⟨front, leaf, rfl⟩ : ∃ front leaf, path = front ++ [leaf] :=
    ⟨_, _, (List.dropLast_append_getLast hne).symm⟩
  have hsome := h.mem_paths_iff.1 hp
  rw [valuesAt?_concat, Option.isSome_iff_exists] at hsome
  obtain ⟨values, hvalues⟩ := hsome
  obtain ⟨q, hq, hentry⟩ := Option.bind_eq_some_iff.1 hvalues
  obtain ⟨e, he, -⟩ := Option.map_eq_some_iff.1 hentry
  have hleaf := (h.subAt? hq).leaf (mem_of_entry?_eq_some he)
  rw [name_of_entry?_eq_some he] at hleaf
  exact Name.isLeaf_concat (h.isLeaf_of_subAt? hq) hleaf

theorem WellFormed.nodup_paths (h : p.WellFormed) : p.paths.Nodup := by
  induction h with
  | @intro es unique leaf array nested ih =>
    rw [paths, Entry.pathsAll_eq, List.nodup_flatMap]
    constructor
    · rintro ⟨name, values⟩ he
      have htails : (Value.pathsOfLast values).Nodup := by
        rw [Value.pathsOfLast_eq]
        cases hl : values.getLast? with
        | none => exact List.nodup_nil
        | some v =>
          cases v with
          | policy sub => exact ih _ he sub (List.mem_of_getLast? hl)
          | undefined | bool | int | double | string | file => exact List.nodup_nil
      rw [Entry.paths, List.nodup_cons]
      refine ⟨?_, htails.map List.cons_injective⟩
      intro hmem
      obtain ⟨rest, hrest, heq⟩ := List.mem_map.1 hmem
      obtain rfl : rest = [] := (List.cons.inj heq).2
      rw [Value.pathsOfLast_eq] at hrest
      cases hl : values.getLast? with
      | none => simp [hl] at hrest
      | some v =>
        rw [hl] at hrest
        cases v with
        | policy sub => exact ne_nil_of_mem_paths hrest rfl
        | undefined | bool | int | double | string | file => cases hrest
    · -- paths from different entries differ in their first segment
      have hne := List.pairwise_map.1 unique
      apply hne.imp
      intro e f hname path he hf
      apply hname
      have hhead : ∀ {e : Entry}, path ∈ e.paths → path.head? = some e.name := by
        intro e he
        rcases Entry.mem_paths_iff.1 he with rfl | ⟨sub, rest, -, -, rfl⟩
        · rfl
        · rfl
      exact Option.some.inj ((hhead he).symm.trans (hhead hf))

def accepts (f : NameFilter) (p : Policy) (path : List String) : Bool :=
  ((p.valuesAt? path).bind List.getLast?).any fun v => f.accepts v.kind

theorem accepts_cons {f : NameFilter} {sub : Policy} (hsub : p.child? name = some sub)
    (hne : path ≠ []) : p.accepts f (name :: path) = sub.accepts f path := by
  rw [accepts, Policy.valuesAt?, hsub, Option.bind_some, ← accepts]
  exact hne

theorem WellFormed.accepts_singleton {f : NameFilter} (h : p.WellFormed) (he : e ∈ p.entries) :
    p.accepts f [e.name] = f.accepts e.kind := by
  have hne := (h.storable he).ne_nil
  rw [accepts, Policy.valuesAt?, h.entry?_of_mem he, Option.map_some, Option.bind_some,
    List.getLast?_eq_some_getLast hne, Option.any_some,
    ← (h.storable he).kind_of_mem (List.getLast_mem hne) e.name]
  cases e
  rfl

/-- The names that are listed are those of the paths to arrays that the filter accepts. -/
theorem WellFormed.namesBelow_eq (h : p.WellFormed) (f : NameFilter)
    (habove : ∀ s ∈ above, Name.isLeaf s = true) :
    p.namesBelow f (Name.ofSegments above) =
      (p.paths.filter (p.accepts f)).map fun path => Name.ofSegments (above ++ path) := by
  induction h generalizing above with
  | @intro es unique leaf array nested ih =>
    have hw : WellFormed ⟨es⟩ := .intro unique leaf array nested
    rw [namesBelow, Entry.namesBelow_eq, paths, Entry.pathsAll_eq, List.filter_flatMap,
      List.map_flatMap]
    apply List.flatMap_congr
    rintro ⟨name, values⟩ he
    have hfull : ∀ s ∈ above ++ [name], Name.isLeaf s = true :=
      Name.isLeaf_concat habove (leaf _ he)
    have hown : accepts f ⟨es⟩ [name] = f.accepts (Entry.mk name values).kind :=
      hw.accepts_singleton he
    have hbelow : Value.namesOfLast f (Name.ofSegments (above ++ [name])) values =
        ((Value.pathsOfLast values).map (name :: ·) |>.filter (accepts f ⟨es⟩)).map
          fun path => Name.ofSegments (above ++ path) := by
      rw [Value.namesOfLast_eq, Value.pathsOfLast_eq]
      cases hl : values.getLast? with
      | none => rfl
      | some v =>
        cases v with
        | policy sub =>
          have hchild : Policy.child? ⟨es⟩ name = some sub :=
            child?_eq_some_iff.2 (last?_eq_some_iff.2 ⟨_, hw.entry?_of_mem he, hl⟩)
          have hsub := ih _ he sub (List.mem_of_getLast? hl) hfull
          rw [Option.map_some, Option.getD_some, Option.map_some, Option.getD_some]
          change sub.namesBelow f _ = List.map _ (List.filter _ (List.map _ sub.paths))
          rw [hsub, List.filter_map, List.map_map]
          have hfilter : sub.paths.filter (accepts f ⟨es⟩ ∘ (name :: ·)) =
              sub.paths.filter (sub.accepts f) :=
            List.filter_congr fun path hpath => accepts_cons hchild (ne_nil_of_mem_paths hpath)
          rw [hfilter]
          apply List.map_congr_left
          intro path _
          rw [Function.comp_apply, List.append_assoc, List.singleton_append]
        | undefined | bool | int | double | string | file => rfl
    rw [Entry.namesFrom, Entry.paths, List.filter_cons, hown, Name.join_ofSegments habove, hbelow]
    split
    · rfl
    · rfl

theorem WellFormed.names_filter_eq (h : p.WellFormed) (f : NameFilter) :
    p.names false f = (p.paths.filter (p.accepts f)).map Name.ofSegments :=
  h.namesBelow_eq f (List.forall_mem_nil _)

/-- At the end of a path there is a value, so that all paths are listed. -/
theorem WellFormed.names_eq (h : p.WellFormed) :
    p.names false .all = p.paths.map Name.ofSegments := by
  rw [h.names_filter_eq, List.filter_eq_self.2]
  intro path hpath
  obtain ⟨values, hvalues⟩ := Option.isSome_iff_exists.1 (h.mem_paths_iff.1 hpath)
  rw [accepts, hvalues, Option.bind_some,
    List.getLast?_eq_some_getLast (h.valuesAt? hvalues).ne_nil]
  rfl

end Policy

end PolicyTree
