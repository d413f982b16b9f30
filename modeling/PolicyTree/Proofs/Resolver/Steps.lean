import Mathlib.Logic.Relation
import PolicyTree.Proofs.Resolver.Refinement

namespace PolicyTree

/-- What is to be done next, or the answer to what was done last. -/
inductive Task where
  /-- Resolves the entries `todo` of a policy that `above` leads to, after those in `done`. -/
  | entries (base : Path) (above : String) (done todo : List Entry)
  /-- Resolves the policies among the values `todo` of an array, after those in `done`. -/
  | elements (base : Path) (full : String) (done todo : List Value)
  /-- Loads the references `todo` of the array `values`, of which `loaded` were loaded before. -/
  | references (base : Path) (full : String) (values loaded : List Value) (todo : List String)
  /-- Loads a reference, unless there are too many files on the chain. -/
  | nested (base : Path) (full text : String)
  | locate (base : Path) (full text : String)
  /-- Follows the indirections of a reference; `visited` are those followed so far. -/
  | seek (full whole : String) (visited : List Place) (reference : Reference) (base : Path)
  | read (full : String) (located : Located)
  | policy (p : Policy)
  | array (values : List Value)
  | loaded (result : Except Error Policy)

/-- A call that waits for an answer, with what is left to do after it. -/
inductive Frame where
  | entry (base : Path) (above : String) (done : List Entry) (name : String) (todo : List Entry)
  | element (base : Path) (full : String) (done todo : List Value)
  | reference (base : Path) (full : String) (values loaded : List Value) (text : String)
      (todo : List String)
  /-- The innermost file of the chain, whose references are being followed. -/
  | file

/-- How far loading has come: the calls that wait, innermost first, and what all of them share. -/
structure Progress where
  task : Task
  frames : List Frame
  chain : List Place
  report : LoadReport

def Task.isAnswer : Task → Bool
  | policy _ | array _ | loaded _ => true
  | _ => false

def Entry.task (base : Path) (above : String) (e : Entry) : Task :=
  if e.kind = .file then
    match e.values.mapM Value.file? with
    | none => .array e.values
    | some references => .references base (Name.join above e.name) e.values [] references
  else .elements base (Name.join above e.name) [] e.values

namespace Resolver

/-- One step from a reference towards its file: the file itself, or else the reference in a file
that was not visited before, with its base. -/
def hop (r : Resolver) (whole : String) (visited : List Place) (reference : Reference)
    (base : Path) : Except Error (Located ⊕ (List Place × Reference × Path)) := do
  let located ← r.locateTarget base reference.target
  if !reference.isIndirect then return .inl located
  if r.limits.maxIndirections ≤ visited.length then
    .error (.indirectionLoop whole r.limits.maxIndirections)
  else match r.files.read located.file with
    | .error fault => .error (.unreadable located.file fault)
    | .ok (place, text) =>
      if visited.contains place then .error (.indirectionLoop whole r.limits.maxIndirections)
      else return .inr (place :: visited, ← Reference.parse (Text.trim text), located.file.parent)

/-- One step; none if the call at the outset is answered. -/
def step (r : Resolver) : Progress → Option Progress
  | ⟨.entries _ _ done [], frames, chain, report⟩ =>
    some ⟨.policy ⟨done⟩, frames, chain, report⟩
  | ⟨.entries base above done (e :: todo), frames, chain, report⟩ =>
    some ⟨e.task base above, .entry base above done e.name todo :: frames, chain, report⟩
  | ⟨.elements _ _ done [], frames, chain, report⟩ =>
    some ⟨.array done, frames, chain, report⟩
  | ⟨.elements base full done (.policy sub :: todo), frames, chain, report⟩ =>
    some ⟨.entries base full [] sub.entries, .element base full done todo :: frames, chain, report⟩
  | ⟨.elements base full done (v :: todo), frames, chain, report⟩ =>
    some ⟨.elements base full (done ++ [v]) todo, frames, chain, report⟩
  | ⟨.references _ _ _ loaded [], frames, chain, report⟩ =>
    some ⟨.array loaded, frames, chain, report ++ ⟨loaded.length, []⟩⟩
  | ⟨.references base full values loaded (text :: todo), frames, chain, report⟩ =>
    some ⟨.nested base full text, .reference base full values loaded text todo :: frames, chain,
      report⟩
  | ⟨.nested base full text, frames, chain, report⟩ =>
    if r.limits.maxDepth ≤ chain.length then
      some ⟨.loaded (.error (.indirectionLoop text r.limits.maxDepth)), frames, chain, report⟩
    else some ⟨.locate base full text, frames, chain, report⟩
  | ⟨.locate base full text, frames, chain, report⟩ =>
    match Reference.parse text with
    | .error e => some ⟨.loaded (.error e), frames, chain, report⟩
    | .ok reference => some ⟨.seek full text [] reference base, frames, chain, report⟩
  | ⟨.seek full whole visited reference base, frames, chain, report⟩ =>
    match r.hop whole visited reference base with
    | .error e => some ⟨.loaded (.error e), frames, chain, report⟩
    | .ok (.inl located) => some ⟨.read full located, frames, chain, report⟩
    | .ok (.inr (visited, next, base)) =>
      some ⟨.seek full whole visited next base, frames, chain, report⟩
  | ⟨.read full located, frames, chain, report⟩ =>
    match r.openLocated chain located with
    | .error e => some ⟨.loaded (.error e), frames, chain, report⟩
    | .ok o =>
      some ⟨.entries o.base full [] o.policy.entries, .file :: frames, o.place :: chain, report⟩
  | ⟨.policy p, .file :: frames, chain, report⟩ =>
    some ⟨.loaded (.ok p), frames, chain.tail, report⟩
  | ⟨.policy p, .element base full done todo :: frames, chain, report⟩ =>
    some ⟨.elements base full (done ++ [.policy p]) todo, frames, chain, report⟩
  | ⟨.array values, .entry base above done name todo :: frames, chain, report⟩ =>
    some ⟨.entries base above (done ++ [⟨name, values⟩]) todo, frames, chain, report⟩
  | ⟨.loaded (.ok p), .reference base full values loaded _ todo :: frames, chain, report⟩ =>
    some ⟨.references base full values (loaded ++ [.policy p]) todo, frames, chain, report⟩
  | ⟨.loaded (.error e), .reference _ full values _ text _ :: frames, chain, report⟩ =>
    some ⟨.array values, frames, chain, report ++ ⟨0, [⟨full, text, e⟩]⟩⟩
  | _ => none

end Resolver

namespace Progress

/-- A call that was made below some frames is going on: these frames still wait, and it has no
answer yet. -/
def Within (frames : List Frame) (s : Progress) : Prop :=
  frames <:+ s.frames ∧ (s.frames = frames → s.task.isAnswer = false)

variable {task : Task} {frames : List Frame} {chain : List Place} {report : LoadReport}

theorem within_self (h : task.isAnswer = false) :
    Within frames ⟨task, frames, chain, report⟩ :=
  ⟨List.suffix_refl frames, fun _ => h⟩

theorem within_cons {f : Frame} : Within frames ⟨task, f :: frames, chain, report⟩ :=
  ⟨List.suffix_cons f frames, fun h => absurd h (List.cons_ne_self f frames)⟩

theorem Within.outer {f : Frame} {s : Progress} (h : s.Within (f :: frames)) :
    s.Within frames := by
  obtain ⟨hsuffix, -⟩ := h
  refine ⟨(List.suffix_cons f frames).trans hsuffix, ?_⟩
  intro heq
  have hlength := hsuffix.length_le
  rw [heq, List.length_cons] at hlength
  omega

end Progress

namespace Loader

variable {load : Loader} {full text : String} {values loaded : List Value} {todo : List String}

/-- What comes of an array of which some references were loaded before: the others are loaded, too,
or a failure keeps the array as it was. -/
def replaceRest (load : Loader) (full : String) (values loaded : List Value) (todo : List String) :
    List Value × LoadReport :=
  match load.loadAll full todo with
  | (.ok more, report) => (loaded ++ more, report ++ ⟨(loaded ++ more).length, []⟩)
  | (.error failure, report) => (values, report ++ ⟨0, [failure]⟩)

theorem replaceRest_nil :
    load.replaceRest full values loaded [] = (loaded, ⟨loaded.length, []⟩) := by
  rw [replaceRest, loadAll]
  simp only [List.append_nil, LoadReport.empty_append]

theorem replaceRest_of_error {e : Error} (h : load full text = .error e) :
    load.replaceRest full values loaded (text :: todo) =
      (values, ⟨0, [⟨full, text, e⟩]⟩) := by
  rw [replaceRest, loadAll, h]
  simp only [LoadReport.empty_append]

theorem replaceRest_of_ok {p : Policy} {report : LoadReport}
    (h : load full text = .ok (p, report)) :
    load.replaceRest full values loaded (text :: todo) =
      ((load.replaceRest full values (loaded ++ [.policy p]) todo).1,
        report ++ (load.replaceRest full values (loaded ++ [.policy p]) todo).2) := by
  rw [replaceRest, replaceRest, loadAll, h]
  obtain ⟨result, more⟩ := load.loadAll full todo
  cases result with
  | error failure => simp [Except.map, LoadReport.append_assoc]
  | ok rest => simp [Except.map, LoadReport.append_assoc]

theorem length_of_loadAll {more : List Value} {report : LoadReport}
    (h : load.loadAll full todo = (.ok more, report)) : more.length = todo.length := by
  rcases load.loadAll_cases full todo with ⟨ls, hall, he⟩ | ⟨_, _, _, _, _, -, -, -, he⟩
  · rw [h] at he
    obtain ⟨hmore, -⟩ := Prod.mk.inj he
    rw [Except.ok.inj hmore, List.length_map, length_loaded hall]
  · rw [h] at he
    cases he

theorem replaceRest_self (h : values.mapM Value.file? = some todo) :
    load.replaceRest full values [] todo = load.replace full values := by
  simp only [replaceRest, replace, h]
  cases hl : load.loadAll full todo with
  | mk result report =>
    cases result with
    | error failure => rfl
    | ok more => simp only [List.nil_append, length_of_loadAll hl]

end Loader

namespace Resolver

variable {r : Resolver} {s t u : Progress} {frames : List Frame} {chain : List Place}
  {visited : List Place} {report : LoadReport} {base : Path} {full whole text : String}
  {reference : Reference}

/-- The steps of a call that was made below some frames, up to its answer at most. -/
def Runs (r : Resolver) (frames : List Frame) : Progress → Progress → Prop :=
  Relation.ReflTransGen fun s t => s.Within frames ∧ r.step s = some t

theorem Runs.outer {f : Frame} (h : r.Runs (f :: frames) s t) : r.Runs frames s t :=
  Relation.ReflTransGen.mono (fun _ _ hst => ⟨hst.1.outer, hst.2⟩) _ _ h

theorem Runs.trans (h : r.Runs frames s t) (h' : r.Runs frames t u) : r.Runs frames s u :=
  Relation.ReflTransGen.trans h h'

theorem Runs.head (hs : s.Within frames) (hst : r.step s = some t) (h : r.Runs frames t u) :
    r.Runs frames s u :=
  Relation.ReflTransGen.head ⟨hs, hst⟩ h

theorem Runs.single (hs : s.Within frames) (hst : r.step s = some t) : r.Runs frames s t :=
  Relation.ReflTransGen.single ⟨hs, hst⟩

def reported : Except Error (Policy × LoadReport) → LoadReport
  | .ok l => l.2
  | .error _ => .empty

/-- A call is answered: below whatever frames and after whatever report, it comes to its answer with
the chain as it was, and adds what it has to report. -/
def Returns (r : Resolver) (chain : List Place) (call answer : Task) (added : LoadReport) :
    Prop :=
  ∀ frames report,
    r.Runs frames ⟨call, frames, chain, report⟩ ⟨answer, frames, chain, report ++ added⟩

/-- Each load from within a chain is answered by what the function gives for it. -/
def Answers (r : Resolver) (chain : List Place) (base : Path) : Prop :=
  ∀ full text, r.Returns chain (.nested base full text)
    (.loaded (Prod.fst <$> r.loadNested chain base full text))
    (reported (r.loadNested chain base full text))

theorem Answers.references (h : r.Answers chain base) (values : List Value) (todo : List String) :
    ∀ (loaded : List Value) (report : LoadReport),
      r.Runs frames ⟨.references base full values loaded todo, frames, chain, report⟩
        ⟨.array (Loader.replaceRest (r.loadNested chain base) full values loaded todo).1, frames,
          chain,
          report ++ (Loader.replaceRest (r.loadNested chain base) full values loaded todo).2⟩ := by
  induction todo with
  | nil =>
    intro loaded report
    rw [Loader.replaceRest_nil]
    exact .single (Progress.within_self rfl) rfl
  | cons text todo ih =>
    intro loaded report
    refine .head (Progress.within_self rfl) rfl ?_
    have hcall := h full text (.reference base full values loaded text todo :: frames) report
    refine hcall.outer.trans ?_
    cases hl : r.loadNested chain base full text with
    | error e =>
      rw [Loader.replaceRest_of_error hl, reported, LoadReport.append_empty]
      exact .single Progress.within_cons rfl
    | ok l =>
      rw [Loader.replaceRest_of_ok hl, ← LoadReport.append_assoc]
      exact .head Progress.within_cons rfl (ih _ _)

mutual

theorem Answers.policy (h : r.Answers chain base) (above : String) : ∀ (p : Policy)
    (frames : List Frame) (report : LoadReport),
      r.Runs frames ⟨.entries base above [] p.entries, frames, chain, report⟩
        ⟨.policy (p.resolve (r.loadNested chain base) above).1, frames, chain,
          report ++ (p.resolve (r.loadNested chain base) above).2⟩
  | ⟨es⟩, frames, report => by
    have hall := h.entries above es [] [] frames report
    rw [List.append_nil] at hall
    exact hall.trans (.single (Progress.within_self rfl) rfl)

theorem Answers.entries (h : r.Answers chain base) (above : String) :
    ∀ (es rest done : List Entry) (frames : List Frame) (report : LoadReport),
      r.Runs frames ⟨.entries base above done (es ++ rest), frames, chain, report⟩
        ⟨.entries base above (done ++ (Entry.resolveAll (r.loadNested chain base) above es).1) rest,
          frames, chain, report ++ (Entry.resolveAll (r.loadNested chain base) above es).2⟩
  | [], rest, done, frames, report => by
    rw [Entry.resolveAll, List.append_nil, LoadReport.append_empty]
    exact .refl
  | e :: es, rest, done, frames, report => by
    have hcall := (h.entry above e (.entry base above done e.name (es ++ rest) :: frames)
      report).outer
    have hrest := h.entries above es rest
      (done ++ [(e.resolve (r.loadNested chain base) above).1]) frames
      (report ++ (e.resolve (r.loadNested chain base) above).2)
    rw [List.append_assoc, LoadReport.append_assoc] at hrest
    refine .head (Progress.within_self rfl) rfl (hcall.trans (.head Progress.within_cons ?_ hrest))
    have hname := Entry.name_resolve (r.loadNested chain base) above e
    rw [step, Entry.eq_of_parts (e := ⟨e.name, _⟩) hname.symm rfl]

theorem Answers.entry (h : r.Answers chain base) (above : String) : ∀ (e : Entry)
    (frames : List Frame) (report : LoadReport),
      r.Runs frames ⟨e.task base above, frames, chain, report⟩
        ⟨.array (e.resolve (r.loadNested chain base) above).1.values, frames, chain,
          report ++ (e.resolve (r.loadNested chain base) above).2⟩
  | ⟨name, values⟩, frames, report => by
    rw [Entry.task, Entry.resolve]
    split
    · cases hv : values.mapM Value.file? with
      | none =>
        simp only [Loader.replace, hv, LoadReport.append_empty]
        exact .refl
      | some references =>
        rw [← Loader.replaceRest_self hv]
        exact h.references values references [] report
    · exact h.elements (Name.join above name) values [] frames report

theorem Answers.elements (h : r.Answers chain base) (full : String) : ∀ (values done : List Value)
    (frames : List Frame) (report : LoadReport),
      r.Runs frames ⟨.elements base full done values, frames, chain, report⟩
        ⟨.array (done ++ (Value.resolveAll (r.loadNested chain base) full values).1), frames, chain,
          report ++ (Value.resolveAll (r.loadNested chain base) full values).2⟩
  | [], done, frames, report => by
    rw [Value.resolveAll, List.append_nil, LoadReport.append_empty]
    exact .single (Progress.within_self rfl) rfl
  | v :: values, done, frames, report => by
    have hrest := h.elements full values
      (done ++ [(v.resolve (r.loadNested chain base) full).1]) frames
      (report ++ (v.resolve (r.loadNested chain base) full).2)
    rw [List.append_assoc, LoadReport.append_assoc] at hrest
    cases v with
    | policy sub =>
      have hcall := (h.policy full sub (.element base full done values :: frames) report).outer
      exact .head (Progress.within_self rfl) rfl
        (hcall.trans (.head Progress.within_cons rfl hrest))
    | undefined | bool | int | double | string | file =>
      simp only [Value.resolve, LoadReport.append_empty] at hrest
      exact .head (Progress.within_self rfl) rfl hrest

end

theorem follow_eq (whole : String) (visited : List Place) (reference : Reference)
    (base : Path) :
    r.follow whole visited reference base =
      r.hop whole visited reference base >>= fun
        | .inl located => .ok located
        | .inr (visited, next, base) => r.follow whole visited next base := by
  rw [follow, hop]
  cases r.locateTarget base reference.target with
  | error e => rfl
  | ok located =>
    simp only [ok_bind]
    split
    · rfl
    · split
      · rfl
      · split
        · rename_i hread
          rw [hread]
          rfl
        · rename_i place content hread
          rw [hread]
          by_cases hv : place ∈ visited
          · simp only [List.contains_iff_mem, dif_pos hv, if_pos hv]
            rfl
          · simp only [List.contains_iff_mem, dif_neg hv, if_neg hv]
            cases Reference.parse (Text.trim content) <;> rfl

theorem unseen_lt_of_hop {seen : List Place} {next : Reference} {b : Path}
    (h : r.hop whole visited reference base = .ok (.inr (seen, next, b))) :
    r.files.unseen seen < r.files.unseen visited := by
  rw [hop] at h
  obtain ⟨located, -, h⟩ := bind_eq_ok_iff.1 h
  split at h
  · cases h
  · split at h
    · cases h
    · split at h
      · cases h
      · rename_i place content hread
        split at h
        · cases h
        · rename_i hv
          obtain ⟨found, -, h⟩ := bind_eq_ok_iff.1 h
          cases h
          rw [List.contains_iff_mem] at hv
          exact FileSystem.unseen_cons_lt (FileSystem.mem_places_of_read hread) hv

def found (full : String) : Except Error Located → Task
  | .ok located => .read full located
  | .error e => .loaded (.error e)

theorem runs_seek (frames : List Frame) (chain : List Place) (report : LoadReport)
    (full whole : String) (visited : List Place) (reference : Reference) (base : Path) :
    r.Runs frames ⟨.seek full whole visited reference base, frames, chain, report⟩
      ⟨found full (r.follow whole visited reference base), frames, chain, report⟩ := by
  rw [follow_eq]
  cases hh : r.hop whole visited reference base with
  | error e => exact .single (Progress.within_self rfl) (by rw [step, hh]; rfl)
  | ok x =>
    cases x with
    | inl located => exact .single (Progress.within_self rfl) (by rw [step, hh]; rfl)
    | inr x =>
      obtain ⟨seen, next, b⟩ := x
      have hrest := runs_seek frames chain report full whole seen next b
      exact .head (Progress.within_self rfl) (by rw [step, hh]) hrest
termination_by r.files.unseen visited
decreasing_by exact unseen_lt_of_hop hh

theorem runs_locate (frames : List Frame) (chain : List Place) (report : LoadReport)
    (base : Path) (full text : String) :
    r.Runs frames ⟨.locate base full text, frames, chain, report⟩
      ⟨found full (r.locate text base), frames, chain, report⟩ := by
  rw [locate]
  cases hp : Reference.parse text with
  | error e => exact .single (Progress.within_self rfl) (by rw [step, hp]; rfl)
  | ok reference =>
    have hseek := r.runs_seek frames chain report full text [] reference base
    exact .head (Progress.within_self rfl) (by rw [step, hp]) hseek

theorem openLocated_eq_ok {located : Located} {o : Opened}
    (h : r.openLocated chain located = .ok o) : o.place ∈ r.files.places ∧ o.place ∉ chain := by
  rw [openLocated] at h
  split at h
  · cases h
  · rename_i place content hread
    split at h
    · cases h
    · rename_i hc
      split at h
      · cases h
      · cases h
        rw [List.contains_iff_mem] at hc
        exact ⟨FileSystem.mem_places_of_read hread, hc⟩

theorem runs_loadLocated (hload : ∀ place ∈ r.files.places, place ∉ chain → ∀ base,
      r.Answers (place :: chain) base) (frames : List Frame) (report : LoadReport) (base : Path)
    (full text : String) :
    r.Runs frames ⟨.locate base full text, frames, chain, report⟩
      ⟨.loaded (Prod.fst <$> r.loadLocated chain base full text), frames, chain,
        report ++ reported (r.loadLocated chain base full text)⟩ := by
  refine (r.runs_locate frames chain report base full text).trans ?_
  rw [loadLocated]
  cases r.locate text base with
  | error e =>
    rw [error_bind]
    show r.Runs _ _ ⟨_, _, _, report ++ .empty⟩
    rw [LoadReport.append_empty]
    exact .refl
  | ok located =>
    rw [ok_bind]
    cases ho : r.openLocated chain located with
    | error e =>
      show r.Runs _ _ ⟨_, _, _, report ++ .empty⟩
      rw [LoadReport.append_empty]
      exact .single (Progress.within_self rfl) (by rw [found, step, ho]; rfl)
    | ok o =>
      obtain ⟨hplace, hfresh⟩ := openLocated_eq_ok ho
      have hpass := ((hload o.place hplace hfresh o.base).policy full o.policy
        (.file :: frames) report).outer
      refine .head (Progress.within_self rfl) (by rw [found, step, ho]) (hpass.trans ?_)
      exact .single Progress.within_cons rfl

theorem answers (r : Resolver) (chain : List Place) : ∀ base, r.Answers chain base := by
  apply chain_induction (r := r) ?_ chain
  intro chain ih base full text frames report
  rw [loadNested_eq_loadLocated]
  by_cases hdepth : r.limits.maxDepth ≤ chain.length
  · rw [if_pos hdepth]
    show r.Runs _ _ ⟨_, _, _, report ++ .empty⟩
    rw [LoadReport.append_empty]
    exact .single (Progress.within_self rfl) (by rw [step, if_pos hdepth]; rfl)
  · rw [if_neg hdepth]
    have hrest := runs_loadLocated ih frames report base full text
    exact .head (Progress.within_self rfl) (by rw [step, if_neg hdepth]) hrest

def after (r : Resolver) : Nat → Progress → Option Progress
  | 0, s => some s
  | n + 1, s => (r.step s).bind (r.after n)

theorem after_add (m n : Nat) : r.after (m + n) s = (r.after m s).bind (r.after n) := by
  induction m generalizing s with
  | zero => rw [Nat.zero_add, after, Option.bind_some]
  | succ m ih =>
    rw [Nat.succ_add, after, after, Option.bind_assoc]
    congr 1
    funext next
    exact ih

theorem Runs.exists_after (h : r.Runs frames s t) : ∃ n, r.after n s = some t := by
  induction h using Relation.ReflTransGen.head_induction_on with
  | refl => exact ⟨0, rfl⟩
  | head hst _ ih =>
    obtain ⟨n, hn⟩ := ih
    exact ⟨n + 1, by rw [after, hst.2, Option.bind_some, hn]⟩

def EndsAt (r : Resolver) (s e : Progress) : Prop :=
  ∃ n, r.after n s = some e ∧ ∀ m, n < m → r.after m s = none

theorem step_answer {answer : Task} (h : answer.isAnswer = true) :
    r.step ⟨answer, [], chain, report⟩ = none := by
  cases answer with
  | policy | array => rfl
  | loaded result => cases result <;> rfl
  | entries | elements | references | nested | locate | seek | read => cases h

theorem Runs.endsAt {e : Progress} (h : r.Runs frames s e) (he : r.step e = none) :
    r.EndsAt s e := by
  obtain ⟨n, hn⟩ := h.exists_after
  refine ⟨n, hn, ?_⟩
  intro m hm
  obtain ⟨k, rfl⟩ := Nat.exists_eq_add_of_lt hm
  rw [Nat.add_assoc, after_add, hn, Option.bind_some, after, he, Option.bind_none]

end Resolver

end PolicyTree
