import PolicyTree.Proofs.Policy.Operations
import PolicyTree.Proofs.Resolver.Refinement

namespace PolicyTree

variable {r : Resolver}

theorem exists_getElem?_of_length_eq {α β : Type} {as : List α} {bs : List β} {b : β}
    (h : bs.length = as.length) (hb : b ∈ bs) :
    ∃ (k : Nat) (a : α), as[k]? = some a ∧ bs[k]? = some b := by
  obtain ⟨k, hk, rfl⟩ := List.mem_iff_getElem.1 hb
  have hk' : k < as.length := by omega
  exact ⟨k, as[k], List.getElem?_eq_getElem hk', List.getElem?_eq_getElem hk⟩

mutual

theorem Policy.Refines.wellFormed : ∀ {chain : List Place} {base : Path} {p p' : Policy},
    p.Refines r chain base p' → p.WellFormed → p'.WellFormed
  | chain, base, ⟨es⟩, ⟨es'⟩, .intro names arrays, h => by
    apply Policy.WellFormed.of_entries
    · rw [names]
      exact h.unique
    · intro e' he'
      have hlen : es'.length = es.length := by
        simpa using congrArg List.length names
      obtain ⟨i, e, he, he'⟩ := exists_getElem?_of_length_eq hlen he'
      have hmem : e ∈ es := List.mem_of_getElem? he
      have hname : e'.name = e.name := by
        have hi := congrArg (·[i]?) names
        simpa [he, he'] using hi
      rw [hname]
      exact ⟨h.leaf hmem, (arrays i e e' he he').storable (h.storable hmem)⟩

theorem Value.ArrayRefines.storable : ∀ {chain : List Place} {base : Path}
    {values values' : List Value}, Value.ArrayRefines r chain base values values' →
      Value.Storable values → Value.Storable values'
  | _, _, _, _, .others _, h => h
  | _, _, _, _, .kept _ _, h => h
  | _, _, _, _, @Value.ArrayRefines.policies _ _ _ subs subs' length_eq each, h => by
    apply Value.storable_policies
    · have hne := h.ne_nil
      rw [← List.length_pos_iff, length_eq]
      simpa [List.length_pos_iff] using hne
    · intro sub' hs'
      obtain ⟨k, sub, hs, hs'⟩ := exists_getElem?_of_length_eq length_eq hs'
      have hmem := List.mem_map_of_mem (f := Value.policy) (List.mem_of_getElem? hs)
      exact (each k sub sub' hs hs').wellFormed (h.nested _ hmem sub rfl)
  | _, _, _, _, @Value.ArrayRefines.loaded _ _ _ _ opened subs' loads length_eq each, h => by
    apply Value.storable_policies
    · have hne := h.ne_nil
      rw [← List.length_pos_iff, length_eq]
      simpa [List.length_pos_iff] using hne
    · intro sub' hs'
      have hlen := length_eq.trans loads.length_eq
      obtain ⟨k, o, ho, hs'⟩ := exists_getElem?_of_length_eq hlen hs'
      obtain ⟨j, text, ht, ho'⟩ :=
        exists_getElem?_of_length_eq loads.length_eq.symm (List.mem_of_getElem? ho)
      exact (each k o sub' ho hs').wellFormed (forall₂_getElem? loads ht ho').opens.wellFormed

end

inductive Policy.Attainable : Policy → Prop
  | empty : Attainable .empty
  | parsed {text : String} {p : Policy} (h : Policy.parse text = .ok p) : Attainable p
  | performed {op : Policy.Operation} {p : Policy} (h : Attainable p) (hop : op.Admissible) :
      Attainable (Policy.perform op p)
  | loaded {p : Policy} (h : Attainable p) (r : Resolver) (base : Path) :
      Attainable (r.loadPolicyFiles p base).1

/-- At every level of a policy that a program comes to hold, names are unique and well-formed, and
arrays are not empty, of one kind and defined. -/
theorem wellFormed_of_attainable {p : Policy} (h : p.Attainable) : p.WellFormed := by
  induction h with
  | empty => exact .empty
  | parsed h => exact Policy.wellFormed_of_parse h
  | performed _ hop ih => exact ih.perform hop
  | @loaded p _ r base ih =>
    exact (ih.refines_resolve (r.refining_loadNested [] base)).wellFormed ih

/-- A rejected value of another kind leaves the policy as it is. -/
theorem wellFormed_of_attainable_sizes :
    (Policy.perform (.add "zone.size" (.string "wide"))
      (Policy.perform (.set "zone.size" (.int 1)) .empty)).WellFormed := by
  apply wellFormed_of_attainable
  refine .performed (.performed .empty ?_) ?_
  · exact Value.wellFormed_of_kind (by decide)
  · exact Value.wellFormed_of_kind (by decide)

end PolicyTree
