import Mathlib.Data.List.Forall2

namespace PolicyTree

universe u v w

variable {ε : Type u} {α β : Type v} {x : Except ε α}

theorem ok_bind {a : α} {f : α → Except ε β} : (.ok a : Except ε α) >>= f = f a := rfl

theorem error_bind {e : ε} {f : α → Except ε β} : (.error e : Except ε α) >>= f = .error e := rfl

theorem not_exists_error_eq_ok {e : ε} : ¬∃ a, (.error e : Except ε α) = .ok a := by
  rintro ⟨a, ha⟩
  cases ha

theorem bind_eq_ok_iff {f : α → Except ε β} {b : β} :
    (x >>= f) = .ok b ↔ ∃ a, x = .ok a ∧ f a = .ok b := by
  cases x with
  | error e => simp [bind, Except.bind]
  | ok a => simp [bind, Except.bind]

theorem pure_eq_ok_iff {a b : α} : (pure a : Except ε α) = .ok b ↔ a = b :=
  ⟨Except.ok.inj, fun h => h ▸ rfl⟩

theorem ite_bind_eq_ok_iff {c : Prop} [Decidable c] {y : Except ε α} {f : α → Except ε β} {b : β} :
    (if c then x >>= f else y >>= f) = .ok b ↔ ∃ a, (if c then x else y) = .ok a ∧ f a = .ok b := by
  split <;> exact bind_eq_ok_iff

theorem map_eq_ok_iff {f : α → β} {b : β} : f <$> x = .ok b ↔ ∃ a, x = .ok a ∧ f a = b := by
  cases x with
  | error e => simp [Functor.map, Except.map]
  | ok a => simp [Functor.map, Except.map]

theorem map_eq_error_iff {f : α → β} {e : ε} : f <$> x = .error e ↔ x = .error e := by
  cases x with
  | error e' => simp [Functor.map, Except.map]
  | ok a => simp [Functor.map, Except.map]

theorem map_snd_unit (x : Except ε (Unit × α)) :
    (Prod.snd <$> x).map (fun a => ((), a)) = x := by
  cases x <;> rfl

theorem toOption_eq_some_iff {a : α} : x.toOption = some a ↔ x = .ok a := by
  cases x with
  | error e => simp [Except.toOption]
  | ok b => simp [Except.toOption]

theorem map_toOption_eq_some_iff {f : α → β} {b : β} :
    x.toOption.map f = some b ↔ ∃ a, x = .ok a ∧ f a = b := by
  simp only [Option.map_eq_some_iff, toOption_eq_some_iff]

theorem forM_eq_ok_iff {ι : Type w} {f : ι → Except ε PUnit.{v + 1}} {as : List ι} :
    as.forM f = .ok ⟨⟩ ↔ ∀ a ∈ as, f a = .ok ⟨⟩ := by
  induction as with
  | nil => simp [pure, Except.pure]
  | cons a as ih =>
    rw [List.forM, bind_eq_ok_iff, List.forall_mem_cons]
    constructor
    · rintro ⟨⟨⟩, ha, has⟩
      exact ⟨ha, ih.1 has⟩
    · rintro ⟨ha, has⟩
      exact ⟨⟨⟩, ha, ih.2 has⟩

theorem mapM_eq_ok_iff {ι : Type w} {f : ι → Except ε β} {as : List ι} {bs : List β} :
    as.mapM f = .ok bs ↔ List.Forall₂ (fun a b => f a = .ok b) as bs := by
  induction as generalizing bs with
  | nil =>
    rw [List.mapM_nil, List.forall₂_nil_left_iff]
    exact ⟨fun h => (Except.ok.inj h).symm, fun h => h ▸ rfl⟩
  | cons a as ih =>
    rw [List.mapM_cons, bind_eq_ok_iff, List.forall₂_cons_left_iff]
    apply exists_congr
    intro b
    rw [bind_eq_ok_iff]
    constructor
    · rintro ⟨ha, rest, hrest, h⟩
      exact ⟨rest, ha, ih.1 hrest, (Except.ok.inj h).symm⟩
    · rintro ⟨rest, ha, hrest, rfl⟩
      exact ⟨ha, rest, ih.2 hrest, rfl⟩

theorem exists_mem_of_forall₂ {γ δ : Type*} {R : γ → δ → Prop} {as : List γ} {bs : List δ}
    (h : List.Forall₂ R as bs) {a : γ} (ha : a ∈ as) : ∃ b ∈ bs, R a b := by
  induction h with
  | nil => cases ha
  | cons hab _ ih =>
    rcases List.mem_cons.1 ha with rfl | ha
    · exact ⟨_, List.mem_cons_self .., hab⟩
    · obtain ⟨b, hb, hR⟩ := ih ha
      exact ⟨b, List.mem_cons_of_mem _ hb, hR⟩

theorem exists_mem_of_mapM {ι : Type w} {f : ι → Except ε β} {as : List ι} {bs : List β}
    (h : as.mapM f = .ok bs) {b : β} (hb : b ∈ bs) : ∃ a ∈ as, f a = .ok b := by
  have hall := mapM_eq_ok_iff.1 h
  exact exists_mem_of_forall₂ (R := fun b a => f a = .ok b) (List.Forall₂.flip hall) hb

theorem exists_foldlM_eq_ok {ι : Type w} {f : β → ι → Except ε β} {as : List ι}
    (h : ∀ a ∈ as, ∀ b, ∃ b', f b a = .ok b') (b : β) : ∃ b', as.foldlM f b = .ok b' := by
  induction as generalizing b with
  | nil => exact ⟨b, rfl⟩
  | cons a as ih =>
    rw [List.forall_mem_cons] at h
    obtain ⟨next, hnext⟩ := h.1 b
    obtain ⟨last, hlast⟩ := ih h.2 next
    exact ⟨last, by rw [List.foldlM_cons, hnext, ok_bind, hlast]⟩

theorem of_foldlM_eq_ok {ι : Type w} {P : β → Prop} {f : β → ι → Except ε β} {as : List ι}
    {b b' : β} (hstep : ∀ a ∈ as, ∀ b b', P b → f b a = .ok b' → P b') (hb : P b)
    (h : as.foldlM f b = .ok b') : P b' := by
  induction as generalizing b with
  | nil =>
    cases h
    exact hb
  | cons a as ih =>
    rw [List.forall_mem_cons] at hstep
    rw [List.foldlM_cons] at h
    obtain ⟨next, hnext, hrest⟩ := bind_eq_ok_iff.1 h
    exact ih hstep.2 (hstep.1 b next hb hnext) hrest

theorem of_foldlM_eq_some {ι : Type w} {P : β → Prop} {f : β → ι → Option β} {as : List ι}
    {b b' : β} (hstep : ∀ a ∈ as, ∀ b b', P b → f b a = some b' → P b') (hb : P b)
    (h : as.foldlM f b = some b') : P b' := by
  induction as generalizing b with
  | nil =>
    cases h
    exact hb
  | cons a as ih =>
    rw [List.forall_mem_cons] at hstep
    rw [List.foldlM_cons] at h
    obtain ⟨next, hnext, hrest⟩ := Option.bind_eq_some_iff.1 h
    exact ih hstep.2 (hstep.1 b next hb hnext) hrest

/-- Two computations agree if both fail, or both succeed and their results are related. -/
inductive Agree {γ : Type w} (R : α → γ → Prop) : Except ε α → Except ε γ → Prop
  | ok {a : α} {c : γ} (h : R a c) : Agree R (.ok a) (.ok c)
  | error {e e' : ε} : Agree R (.error e) (.error e')

namespace Agree

variable {γ : Type v} {R : α → γ → Prop} {y : Except ε γ}

theorem exists_of_ok {a : α} (h : Agree R x y) (hx : x = .ok a) : ∃ c, y = .ok c ∧ R a c := by
  subst hx
  cases h with
  | ok h => exact ⟨_, rfl, h⟩

theorem isSome_toOption (h : Agree R x y) : x.toOption.isSome = y.toOption.isSome := by
  cases h with
  | ok => rfl
  | error => rfl

theorem refl {R : α → α → Prop} (hR : ∀ a, R a a) : Agree R x x := by
  cases x with
  | ok a => exact .ok (hR a)
  | error => exact .error

theorem bind {δ : Type v} {S : β → δ → Prop} {f : α → Except ε β} {g : γ → Except ε δ}
    (h : Agree R x y) (hfg : ∀ a c, R a c → Agree S (f a) (g c)) : Agree S (x >>= f) (y >>= g) := by
  cases h with
  | ok h => exact hfg _ _ h
  | error => exact .error

theorem map {δ : Type v} {S : β → δ → Prop} {f : α → β} {g : γ → δ} (h : Agree R x y)
    (hfg : ∀ a c, R a c → S (f a) (g c)) : Agree S (f <$> x) (g <$> y) := by
  cases h with
  | ok h => exact .ok (hfg _ _ h)
  | error => exact .error

theorem flip (h : Agree R x y) : Agree (fun c a => R a c) y x := by
  cases h with
  | ok h => exact .ok h
  | error => exact .error

theorem of_ok (hx : ∀ a, x = .ok a → ∃ c, y = .ok c ∧ R a c)
    (hy : ∀ c, y = .ok c → ∃ a, x = .ok a) : Agree R x y := by
  cases x with
  | ok a =>
    obtain ⟨c, rfl, hR⟩ := hx a rfl
    exact .ok hR
  | error e =>
    cases y with
    | ok c =>
      obtain ⟨a, ha⟩ := hy c rfl
      cases ha
    | error e' => exact .error

theorem mapM {S : β → γ → Prop} {ι : Type w} {R : ι → ι → Prop} {f : ι → Except ε β}
    {g : ι → Except ε γ} {as bs : List ι} (h : List.Forall₂ R as bs)
    (hfg : ∀ a b, R a b → Agree S (f a) (g b)) :
    Agree (List.Forall₂ S) (as.mapM f) (bs.mapM g) := by
  induction h with
  | nil => exact .ok .nil
  | cons hab _ ih =>
    rw [List.mapM_cons, List.mapM_cons]
    exact (hfg _ _ hab).bind fun _ _ hc => ih.bind fun _ _ hcs => .ok (.cons hc hcs)

end Agree

end PolicyTree
