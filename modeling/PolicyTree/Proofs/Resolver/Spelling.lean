import PolicyTree.Proofs.Policy.Alike
import PolicyTree.Proofs.Resolver.Dictionary

namespace PolicyTree

variable {p x : Policy} {r : Resolver} {o : Opened} {base : Path} {path : List String}
  {reference above : String} {report : LoadReport} {k : Nat} {d : Dictionary} {v : Value}

theorem Value.file?_eq_some_iff {text : String} : v.file? = some text ↔ v = .file text := by
  cases v <;> simp [file?]

namespace Resolver

/-- A policy, seen from a base, names a dictionary file by a reference: in itself at the end of a
path, or in a file that a reference on the path leads into. -/
inductive Cites (r : Resolver) : Policy → Path → List String → Prop
  | here {p x : Policy} {base : Path} {path : List String} {text : String}
      (hx : p.subAt? path = some x) (hv : x.last? dictionaryFileKey = some (.file text)) :
      Cites r p base path
  | inside {p x : Policy} {base : Path} {path rest : List String} {leaf text : String} {o : Opened}
      (hx : p.subAt? path = some x) (hv : x.last? leaf = some (.file text))
      (ho : r.Opens base text o) (h : Cites r o.policy o.base rest) :
      Cites r p base (path ++ leaf :: rest)

theorem Cites.exists_last? (h : r.Cites p base path) (hw : p.WellFormed)
    {chain : List Place}
    (hnone : (p.resolve (r.loadNested chain base) above).2.failures = []) :
    ∃ y sub, (p.resolve (r.loadNested chain base) above).1.subAt? path = some y ∧
      y.last? dictionaryFileKey = some (.policy sub) := by
  induction h generalizing chain above with
  | @here p x base path text hx hv =>
    obtain ⟨name, hy, hynone⟩ := hw.subAt?_resolve hnone hx
    have hlast := (hw.subAt? hx).rel_last?_resolve hynone dictionaryFileKey
    rw [hv] at hlast
    generalize hu : (x.resolve (r.loadNested chain base) name).1.last? dictionaryFileKey = u
      at hlast
    cases hlast with
    | some hresolves =>
      cases hresolves with
      | file => exact ⟨_, _, hy, hu⟩
      | other hfile => exact absurd rfl hfile
  | @inside p x base path rest leaf text o hx hv ho h ih =>
    obtain ⟨name, hy, hynone⟩ := hw.subAt?_resolve hnone hx
    have hlast := (hw.subAt? hx).rel_last?_resolve hynone leaf
    rw [hv] at hlast
    generalize hu : (x.resolve (r.loadNested chain base) name).1.last? leaf = u at hlast
    cases hlast with
    | some hresolves =>
      cases hresolves with
      | file hl hlnone =>
        obtain ⟨o', ho', rfl⟩ := loadNested_eq_ok_iff.1 hl
        obtain rfl := ho.unique ho'.opens
        obtain ⟨z, sub, hz, hsub⟩ := ih ho.wellFormed hlnone
        refine ⟨z, sub, ?_, hsub⟩
        rw [Policy.subAt?_append, hy, Option.bind_some, Policy.subAt?_cons_eq_some_iff]
        exact ⟨_, Policy.child?_eq_some_iff.2 hu, hz⟩
      | other hfile => exact absurd rfl hfile

theorem Cites.lt_maxDepth (h : r.Cites p base path) (hw : p.WellFormed) {place : Place}
    (hnone : (p.resolve (r.loadNested [place] base) above).2.failures = []) :
    1 < r.limits.maxDepth := by
  have hload : ∀ {x : Policy} {leaf text : String} {front : List String},
      p.subAt? front = some x → x.last? leaf = some (.file text) → 1 < r.limits.maxDepth := by
    intro x leaf text front hx hv
    have hrefers := Policy.refersAt_of_last? hx hv
    obtain ⟨l, hl, -⟩ := hw.failures_resolve_eq_nil_iff.1 hnone _ _ hrefers
    obtain ⟨o, ho, -⟩ := loadNested_eq_ok_iff.1 hl
    exact ho.shallow
  cases h with
  | here hx hv => exact hload hx hv
  | inside hx hv => exact hload hx hv

theorem plain_of_loadDictionary (h : r.loadDictionary reference base = .ok d)
    (ho : r.Opens base reference o) (hrounds : r.Rounds o k p report) (hk : k < r.limits.maxDepth)
    (hne : path ≠ []) (hx : p.subAt? path = some x) (hv : x.last? dictionaryFileKey = some v) :
    ∃ text, v = .string text := by
  obtain ⟨o', n, final, ho', hfinal, hn, hend, hnone, -⟩ := loadDictionary_eq_ok_iff.1 h
  obtain rfl := ho.unique ho'
  have hw := hrounds.wellFormed ho.wellFormed
  have hmem := hw.mem_holderPaths_iff.2 ⟨hne, x, hx, by rw [hv]; rfl⟩
  have hlt : k < n := by
    rcases hend with rfl | hdone
    · exact hk
    · apply Nat.lt_of_le_of_ne (hfinal.le_of_done hdone hrounds)
      rintro rfl
      obtain ⟨rfl, -⟩ := hrounds.unique hfinal
      rw [hw.dictionaryFileHolders_eq, List.map_eq_nil_iff] at hdone
      rw [hdone] at hmem
      cases hmem
  obtain ⟨q, _, hpromote, hbefore, -⟩ := hfinal.promoted_of_lt hnone hlt hrounds
  obtain ⟨hpromotes, -⟩ := hw.promoteDictionaryFiles_eq_ok_iff.1 hpromote
  obtain ⟨x', v', text, hx', hv', htext⟩ := hpromotes.exists_fileText? hw hmem
  obtain rfl := Option.some.inj (hx.symm.trans hx')
  obtain rfl := Option.some.inj (hv.symm.trans hv')
  cases v with
  | string text => exact ⟨text, rfl⟩
  | file reference =>
    exact absurd (Policy.refersAt_of_last? hx hv) (hrounds.not_refersAt ho.wellFormed hbefore _ _)
  | undefined | bool | int | double | policy => cases htext

/-- Of the two ways to name a dictionary file only the plain text is ever promoted in a dictionary
that is loaded. Where a reference names one, in the first file or in one that references lead
into, no dictionary is loaded, so that this comes to the same as any other spelling exactly if the
other one fails, too. -/
theorem loadDictionary_spelling (r : Resolver) (reference : String) (base : Path) (o : Opened)
    (ho : r.Opens base reference o) :
    (∀ d k p report path x v, r.loadDictionary reference base = .ok d → r.Rounds o k p report →
      k < r.limits.maxDepth → path ≠ [] → p.subAt? path = some x →
        x.last? dictionaryFileKey = some v → ∃ text, v = .string text) ∧
      ∀ path, path ≠ [] → r.Cites o.policy o.base path →
        (∀ d, r.loadDictionary reference base ≠ .ok d) ∧
          ∀ (other : Resolver) (reference' : String) (base' : Path),
            Agree (fun d d' => d.policy.Alike d'.policy) (r.loadDictionary reference base)
                (other.loadDictionary reference' base') ↔
              ∀ d, other.loadDictionary reference' base' ≠ .ok d := by
  have hplain : ∀ d k p report path x v, r.loadDictionary reference base = .ok d →
      r.Rounds o k p report → k < r.limits.maxDepth → path ≠ [] → p.subAt? path = some x →
        x.last? dictionaryFileKey = some v → ∃ text, v = .string text :=
    fun d k p report path x v hd hrounds hk hne hx hv =>
      plain_of_loadDictionary hd ho hrounds hk hne hx hv
  refine ⟨hplain, fun path hne hcites => ?_⟩
  have hfails : ∀ d, r.loadDictionary reference base ≠ .ok d := by
    intro d hd
    obtain ⟨o', k, report, ho', hrounds, -, -, hnone, -⟩ := loadDictionary_eq_ok_iff.1 hd
    obtain rfl := ho.unique ho'
    have hfirst := hrounds.failures_start hnone
    obtain ⟨y, sub, hy, hsub⟩ := hcites.exists_last? ho.wellFormed hfirst
    have hdepth := hcites.lt_maxDepth ho.wellFormed hfirst
    obtain ⟨text, htext⟩ := hplain d 0 _ _ path y _ hd .start (by omega) hne hy hsub
    cases htext
  refine ⟨hfails, fun other reference' base' => ?_⟩
  cases hr : r.loadDictionary reference base with
  | ok d => exact absurd hr (hfails d)
  | error e =>
    cases hother : other.loadDictionary reference' base' with
    | ok d =>
      refine iff_of_false (fun h => ?_) (fun h => h d rfl)
      cases h
    | error e' => exact iff_of_true .error fun d h => by cases h

def referredZoneFiles : Resolver :=
  zonesWith "\"dictionaryFile\":\x7b\"$ref\":\"zone\"\x7d"

theorem loadDictionary_spelling_zones :
    (∃ o, referredZoneFiles.Opens ⟨""⟩ "map" o ∧
      referredZoneFiles.Cites o.policy o.base [definitionsKey, "zone"]) ∧
    ∀ d, referredZoneFiles.loadDictionary "map" ⟨""⟩ ≠ .ok d := by
  have hsome : ((referredZoneFiles.locate "map" ⟨""⟩).toOption.bind fun located =>
      (referredZoneFiles.readPolicy located.file).toOption.bind fun file =>
      (file.2.subAt? [definitionsKey, "zone"]).bind fun zone =>
      (zone.last? dictionaryFileKey).bind Value.file?).isSome = true := by decide +kernel
  obtain ⟨text, h⟩ := Option.isSome_iff_exists.1 hsome
  obtain ⟨located, hlocated, h⟩ := Option.bind_eq_some_iff.1 h
  obtain ⟨⟨place, p⟩, hfile, h⟩ := Option.bind_eq_some_iff.1 h
  obtain ⟨zone, hzone, h⟩ := Option.bind_eq_some_iff.1 h
  obtain ⟨v, hv, htext⟩ := Option.bind_eq_some_iff.1 h
  have ho := opens_of_readPolicy (toOption_eq_some_iff.1 hlocated) (toOption_eq_some_iff.1 hfile)
  have hcites : referredZoneFiles.Cites p located.base [definitionsKey, "zone"] :=
    .here hzone (Value.file?_eq_some_iff.1 htext ▸ hv)
  obtain ⟨-, hcited⟩ := loadDictionary_spelling referredZoneFiles "map" ⟨""⟩ _ ho
  exact ⟨⟨_, ho, hcites⟩, (hcited _ (List.cons_ne_nil _ _) hcites).1⟩

/-- The two spellings do not come to the same: the plain text is followed, the reference is
refused. -/
theorem not_agree_referred_zones :
    ¬Agree (fun d d' => d.policy.Alike d'.policy) (referredZoneFiles.loadDictionary "map" ⟨""⟩)
      (zoneFiles.loadDictionary "map" ⟨""⟩) := by
  intro h
  obtain ⟨d, hd⟩ := exists_loadDictionary_zones
  have hfails : (referredZoneFiles.loadDictionary "map" ⟨""⟩).toOption.isNone = true := by
    decide +kernel
  rw [hd] at h
  generalize referredZoneFiles.loadDictionary "map" ⟨""⟩ = x at h hfails
  cases h with
  | ok => cases hfails

end Resolver

end PolicyTree
