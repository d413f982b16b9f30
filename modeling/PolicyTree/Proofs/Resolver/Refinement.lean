import Mathlib.Data.List.Forall2
import PolicyTree.Proofs.Document.WellFormed
import PolicyTree.Proofs.Reference.Following
import PolicyTree.Proofs.Resolver.Pass

namespace PolicyTree

/-- A policy file: its place, the base of the references in it, and the policy that it holds. -/
structure Opened where
  place : Place
  base : Path
  policy : Policy

namespace Resolver

/-- A text, seen from a base, designates a file that can be read and holds a policy. -/
def Opens (r : Resolver) (base : Path) (text : String) (o : Opened) : Prop :=
  ∃ file content, r.Designates text base ⟨file, o.base⟩ ∧
    r.files.read file = .ok (o.place, content) ∧ Policy.parse content = .ok o.policy

/-- A text opens a file that can be loaded from within a chain of files: there are not too many of
them yet, and the file is none of them. -/
structure Loads (r : Resolver) (chain : List Place) (base : Path) (text : String)
    (o : Opened) : Prop where
  shallow : chain.length < r.limits.maxDepth
  opens : r.Opens base text o
  fresh : o.place ∉ chain

variable {r : Resolver} {base : Path} {chain : List Place} {name text : String}
  {l : Policy × LoadReport} {o : Opened}

theorem Opens.wellFormed (h : r.Opens base text o) : o.policy.WellFormed := by
  obtain ⟨file, content, -, -, hp⟩ := h
  exact Policy.wellFormed_of_parse hp

theorem Opens.mem_places (h : r.Opens base text o) : o.place ∈ r.files.places := by
  obtain ⟨file, content, -, hread, -⟩ := h
  exact FileSystem.mem_places_of_read hread

/-- The file that a reference opens from within a chain of files, or what stands in the way. The
name of the reference plays no part in it. -/
def openNested (r : Resolver) (chain : List Place) (base : Path) (text : String) :
    Except Error Opened :=
  if r.limits.maxDepth ≤ chain.length then
    .error (.indirectionLoop text r.limits.maxDepth)
  else do
    let located ← r.locate text base
    match r.files.read located.file with
    | .error fault => .error (.unreadable located.file fault)
    | .ok (place, content) =>
      if chain.contains place then .error (.referenceCycle located.file)
      else match Policy.parse content with
        | .error e => .error (.malformedFile located.file e.message)
        | .ok p => .ok ⟨place, located.base, p⟩

/-- The policy file that was located, unless it is on the chain. -/
def openLocated (r : Resolver) (chain : List Place) (located : Located) :
    Except Error Opened :=
  match r.files.read located.file with
  | .error fault => .error (.unreadable located.file fault)
  | .ok (place, content) =>
    if chain.contains place then .error (.referenceCycle located.file)
    else match Policy.parse content with
      | .error e => .error (.malformedFile located.file e.message)
      | .ok p => .ok ⟨place, located.base, p⟩

theorem openNested_eq (r : Resolver) (chain : List Place) (base : Path) (text : String) :
    r.openNested chain base text =
      if r.limits.maxDepth ≤ chain.length then .error (.indirectionLoop text r.limits.maxDepth)
      else r.locate text base >>= r.openLocated chain :=
  rfl

theorem openNested_eq_ok_iff : r.openNested chain base text = .ok o ↔ r.Loads chain base text o := by
  rw [openNested]
  constructor
  · intro h
    split at h
    · cases h
    · rename_i hdepth
      obtain ⟨located, hlocate, h⟩ := bind_eq_ok_iff.1 h
      split at h
      · cases h
      · rename_i place content hread
        split at h
        · cases h
        · rename_i hc
          split at h
          · cases h
          · rename_i p hparse
            cases h
            rw [List.contains_iff_mem] at hc
            exact ⟨Nat.lt_of_not_le hdepth,
              ⟨located.file, content, locate_eq_ok_iff.1 hlocate, hread, hparse⟩, hc⟩
  · rintro ⟨hdepth, ⟨file, content, hd, hread, hparse⟩, hc⟩
    rw [← List.contains_iff_mem] at hc
    rw [if_neg (Nat.not_le_of_lt hdepth)]
    refine bind_eq_ok_iff.2 ⟨_, locate_eq_ok_iff.2 hd, ?_⟩
    rw [hread]
    simp only [if_neg hc, hparse]

theorem loadNested_eq (r : Resolver) (chain : List Place) (base : Path)
    (name text : String) :
    r.loadNested chain base name text =
      (fun o => o.policy.resolve (r.loadNested (o.place :: chain) o.base) name) <$>
        r.openNested chain base text := by
  rw [loadNested, openNested]
  split
  · rfl
  · cases r.locate text base with
    | error e => rfl
    | ok located =>
      simp only [ok_bind]
      split
      · rename_i fault hread
        rw [hread]
        rfl
      · rename_i place content hread
        rw [hread]
        by_cases hc : place ∈ chain
        · simp only [List.contains_iff_mem, dif_pos hc, if_pos hc]
          rfl
        · simp only [List.contains_iff_mem, dif_neg hc, if_neg hc]
          cases Policy.parse content <;> rfl

/-- Loading a file that is located first, the references in it followed from within the chain that
the file prolongs. -/
def loadLocated (r : Resolver) (chain : List Place) (base : Path) (full text : String) :
    Except Error (Policy × LoadReport) :=
  (fun o => o.policy.resolve (r.loadNested (o.place :: chain) o.base) full) <$>
    (r.locate text base >>= r.openLocated chain)

theorem loadNested_eq_loadLocated :
    r.loadNested chain base name text =
      if r.limits.maxDepth ≤ chain.length then .error (.indirectionLoop text r.limits.maxDepth)
      else r.loadLocated chain base name text := by
  rw [loadNested_eq, openNested_eq, loadLocated]
  split <;> rfl

theorem loadWithReport_eq_loadLocated :
    r.loadWithReport text base = r.loadLocated [] base "" text := by
  rw [loadWithReport, loadLocated]
  cases r.locate text base with
  | error e => rfl
  | ok located =>
    simp only [ok_bind, readPolicy, openLocated]
    cases r.files.read located.file with
    | error fault => rfl
    | ok x =>
      obtain ⟨place, content⟩ := x
      simp only [List.contains_nil, Bool.false_eq_true, if_false]
      cases Policy.parse content <;> rfl

theorem loadNested_eq_ok_iff :
    r.loadNested chain base name text = .ok l ↔
      ∃ o, r.Loads chain base text o ∧
        l = o.policy.resolve (r.loadNested (o.place :: chain) o.base) name := by
  rw [loadNested_eq, map_eq_ok_iff]
  apply exists_congr
  intro o
  rw [openNested_eq_ok_iff, eq_comm (a := l)]

theorem not_loads_of_error {e : Error} (h : r.loadNested chain base name text = .error e) :
    ¬r.Loads chain base text o := by
  intro hl
  rw [loadNested_eq_ok_iff.2 ⟨o, hl, rfl⟩] at h
  cases h

/-- Chains of files being loaded end, since no file is on a chain twice. -/
theorem chain_induction {motive : List Place → Prop}
    (h : ∀ chain, (∀ place ∈ r.files.places, place ∉ chain → motive (place :: chain)) →
      motive chain) (chain : List Place) : motive chain := by
  apply h
  intro place hp hc
  exact chain_induction h (place :: chain)
termination_by r.files.unseen chain
decreasing_by exact FileSystem.unseen_cons_lt hp hc

end Resolver

mutual

/-- How a policy within a chain of files, whose references are seen from a base, and what loading
leaves of it relate: the names are the same in the same order, and array for array the values
relate. -/
inductive Policy.Refines (r : Resolver) : List Place → Path → Policy → Policy → Prop
  | intro {chain : List Place} {base : Path} {es es' : List Entry}
      (names : es'.map Entry.name = es.map Entry.name)
      (arrays : ∀ (i : Nat) (e e' : Entry), es[i]? = some e → es'[i]? = some e' →
        Value.ArrayRefines r chain base e.values e'.values) :
      Policy.Refines r chain base ⟨es⟩ ⟨es'⟩

inductive Value.ArrayRefines (r : Resolver) :
    List Place → Path → List Value → List Value → Prop
  | others {chain : List Place} {base : Path} {values : List Value}
      (h : ∀ v ∈ values, v.kind ≠ .file ∧ v.kind ≠ .policy) :
      Value.ArrayRefines r chain base values values
  | policies {chain : List Place} {base : Path} {subs subs' : List Policy}
      (length_eq : subs'.length = subs.length)
      (each : ∀ (k : Nat) (sub sub' : Policy), subs[k]? = some sub → subs'[k]? = some sub' →
        Policy.Refines r chain base sub sub') :
      Value.ArrayRefines r chain base (subs.map .policy) (subs'.map .policy)
  /-- A reference that cannot be loaded keeps all references of its array. -/
  | kept {chain : List Place} {base : Path} {references : List String} {text : String}
      (ht : text ∈ references) (h : ∀ o, ¬r.Loads chain base text o) :
      Value.ArrayRefines r chain base (references.map .file) (references.map .file)
  /-- All references are replaced by what became of the policies in their files, each with the
  base of its file. -/
  | loaded {chain : List Place} {base : Path} {references : List String}
      {opened : List Opened} {subs' : List Policy}
      (loads : List.Forall₂ (r.Loads chain base) references opened)
      (length_eq : subs'.length = references.length)
      (each : ∀ (k : Nat) (o : Opened) (sub' : Policy), opened[k]? = some o →
        subs'[k]? = some sub' → Policy.Refines r (o.place :: chain) o.base o.policy sub') :
      Value.ArrayRefines r chain base (references.map .file) (subs'.map .policy)

end

variable {r : Resolver} {chain : List Place} {base : Path} {load : Loader}
  {above : String} {p p' : Policy}

/-- What a loader loads refines the policies in the files that texts open, and it loads all that
can be loaded. -/
structure Loader.Refining (load : Loader) (r : Resolver) (chain : List Place)
    (base : Path) : Prop where
  refines : ∀ {name text l}, load name text = .ok l →
    ∃ o, r.Loads chain base text o ∧ o.policy.Refines r (o.place :: chain) o.base l.1
  complete : ∀ {name text e o}, load name text = .error e → ¬r.Loads chain base text o

theorem forall₂_getElem? {α β : Type} {R : α → β → Prop} {as : List α} {bs : List β}
    (h : List.Forall₂ R as bs) {k : Nat} {a : α} {b : β} (ha : as[k]? = some a)
    (hb : bs[k]? = some b) : R a b := by
  induction h generalizing k with
  | nil => cases ha
  | cons hab _ ih =>
    cases k with
    | zero =>
      cases ha
      cases hb
      exact hab
    | succ k => exact ih ha hb

theorem Loader.Refining.exists_opened (h : load.Refining r chain base) {name : String}
    {references : List String} {loaded : List (Policy × LoadReport)}
    (hall : references.map (load name) = loaded.map .ok) :
    ∃ opened, List.Forall₂ (r.Loads chain base) references opened ∧
      List.Forall₂ (fun o l => o.policy.Refines r (o.place :: chain) o.base l.1) opened loaded := by
  induction references generalizing loaded with
  | nil =>
    obtain rfl : loaded = [] := by simpa using hall
    exact ⟨[], .nil, .nil⟩
  | cons text references ih =>
    cases loaded with
    | nil => cases hall
    | cons l loaded =>
      rw [List.map_cons, List.map_cons, List.cons.injEq] at hall
      obtain ⟨o, ho, href⟩ := h.refines hall.1
      obtain ⟨opened, hloads, hrefs⟩ := ih hall.2
      exact ⟨o :: opened, .cons ho hloads, .cons href hrefs⟩

theorem Loader.Refining.arrayRefines_replace (h : load.Refining r chain base) (full : String)
    (references : List String) :
    Value.ArrayRefines r chain base (references.map .file)
      (load.replace full (references.map .file)).1 := by
  rcases load.replace_cases full references with
    ⟨loaded, hall, hr⟩ | ⟨before, failing, after, e, loaded, hsplit, -, hfail, hr⟩
  · obtain ⟨opened, hloads, hrefs⟩ := h.exists_opened hall
    rw [hr, Value.map_policy loaded Prod.fst]
    refine .loaded hloads ?_ ?_
    · rw [List.length_map, hloads.length_eq, hrefs.length_eq]
    · intro k o sub' ho hs
      rw [List.getElem?_map] at hs
      obtain ⟨l, hl, rfl⟩ := Option.map_eq_some_iff.1 hs
      exact forall₂_getElem? hrefs ho hl
  · rw [hr]
    have hmem : failing ∈ references := by simp [hsplit]
    exact .kept hmem fun o => h.complete hfail

/-- A pass refines the array of an entry, if it does so with the sub-policies in it. -/
theorem Loader.Refining.arrayRefines_resolve (h : load.Refining r chain base) {name : String}
    {values : List Value} (harr : Value.IsArray values)
    (hnested : ∀ sub, Value.policy sub ∈ values →
      sub.Refines r chain base (sub.resolve load (Name.join above name)).1) :
    Value.ArrayRefines r chain base values
      ((Entry.mk name values).resolve load above).1.values := by
  cases harr.passShape with
  | @files references hne =>
    rw [Entry.resolve_files hne]
    exact h.arrayRefines_replace (Name.join above name) references
  | @policies subs hne =>
    rw [Entry.resolve_policies, Value.map_policy subs fun sub =>
      (sub.resolve load (Name.join above name)).1]
    refine .policies (List.length_map ..) ?_
    intro k sub sub' hs hs'
    rw [List.getElem?_map, hs] at hs'
    obtain rfl := Option.some.inj hs'
    exact hnested sub (List.mem_map_of_mem (List.mem_of_getElem? hs))
  | others hv =>
    rw [Entry.resolve_others hv]
    exact .others hv

theorem Policy.WellFormed.refines_resolve (h : p.WellFormed) (hload : load.Refining r chain base) :
    p.Refines r chain base (p.resolve load above).1 := by
  induction h generalizing above with
  | @intro es unique leaf array nested ih =>
    rw [Policy.resolve_eq]
    refine .intro ?_ ?_
    · rw [List.map_map]
      apply List.map_congr_left
      intro e _
      exact Entry.name_resolve load above e
    · intro i e e' he he'
      rw [List.getElem?_map, he] at he'
      obtain rfl := Option.some.inj he'
      have hmem := List.mem_of_getElem? he
      obtain ⟨name, values⟩ := e
      have harr := array _ hmem
      exact hload.arrayRefines_resolve harr fun sub hs => ih _ hmem sub hs

theorem Resolver.refining_loadNested (r : Resolver) (chain : List Place) :
    ∀ base : Path, Loader.Refining (r.loadNested chain base) r chain base := by
  apply Resolver.chain_induction (r := r) ?_ chain
  intro chain ih base
  refine ⟨?_, Resolver.not_loads_of_error⟩
  intro name text l hl
  obtain ⟨o, ho, rfl⟩ := Resolver.loadNested_eq_ok_iff.1 hl
  have hnested := ih o.place ho.opens.mem_places ho.fresh o.base
  exact ⟨o, ho, ho.opens.wellFormed.refines_resolve hnested⟩

/-- Loading the files of a tree refines it. -/
theorem refines_loadPolicyFiles (r : Resolver) (base : Path) (p : Policy) (h : p.WellFormed) :
    p.Refines r [] base (r.loadPolicyFiles p base).1 :=
  h.refines_resolve (r.refining_loadNested [] base)

def sharingFiles : Resolver where
  files :=
    { files :=
        [(["left.json"], "\x7b\"size\": \x7b\"$ref\": \"size.json\"\x7d\x7d".toUTF8),
          (["right.json"], "\x7b\"size\": \x7b\"$ref\": \"size.json\"\x7d\x7d".toUTF8),
          (["size.json"], "\x7b\"width\": \"4\"\x7d".toUTF8)]
      directories := [] }
  locator := .table []
  limits := .standard

def sharingTree : Policy :=
  ⟨[⟨"sides", [.file "left.json", .file "right.json"]⟩, ⟨"title", [.string "plain"]⟩]⟩

theorem refines_loadPolicyFiles_sharing :
    sharingTree.WellFormed ∧ ∃ p, sharingTree.Refines sharingFiles [] ⟨""⟩ p ∧
      (p == ⟨[⟨"sides", [.policy ⟨[⟨"size", [.policy ⟨[⟨"width", [.string "4"]⟩]⟩]⟩]⟩,
        .policy ⟨[⟨"size", [.policy ⟨[⟨"width", [.string "4"]⟩]⟩]⟩]⟩]⟩,
        ⟨"title", [.string "plain"]⟩]⟩) = true :=
  ⟨by decide, _, refines_loadPolicyFiles sharingFiles ⟨""⟩ sharingTree (by decide),
    by decide +kernel⟩

end PolicyTree
