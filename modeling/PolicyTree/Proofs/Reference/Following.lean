import PolicyTree.Proofs.Reference.Designation
import PolicyTree.Proofs.Reference.Grammar

namespace PolicyTree

namespace Resolver

/-- A reference, and the base that it is seen from. -/
structure Sight where
  reference : Reference
  base : Path

/-- A reference points to a file at some place, which holds the next reference. -/
inductive Leads (r : Resolver) : Sight → List String → Sight → Prop
  | intro {reference next : Reference} {base : Path} {pointer : Located} {place : Place}
      {text : String} (hi : reference.indirection = .single)
      (ht : r.PointsTo base reference.target pointer)
      (hread : r.files.read pointer.file = .ok (place, text))
      (hparse : Reference.parse (Text.trim text) = .ok next) :
      Leads r ⟨reference, base⟩ place ⟨next, pointer.file.parent⟩

inductive Hops (r : Resolver) : Sight → List Place → Sight → Prop
  | nil {s : Sight} : Hops r s [] s
  | cons {s t u : Sight} {place : Place} {places : List Place}
      (h : r.Leads s place t) (hs : Hops r t places u) : Hops r s (place :: places) u

/-- Pointers are followed as far as there may be more of them, each to a file that was not visited
before. -/
inductive Visits (r : Resolver) :
    List Place → Sight → List Place → Sight → Prop
  | here {s : Sight} {visited : List Place} : Visits r visited s visited s
  | next {s t u : Sight} {place : Place} {visited seen : List Place}
      (h : r.Leads s place t) (hlimit : visited.length < r.limits.maxIndirections)
      (hv : place ∉ visited) (hs : Visits r (place :: visited) t seen u) : Visits r visited s seen u

/-- What it comes to if no other pointer is followed after those to the files in `visited`. -/
inductive Ends (r : Resolver) (whole : String) (visited : List Place) :
    Sight → Except Error Located → Prop
  | found {s : Sight} {located : Located} (hi : s.reference.indirection ≠ .single)
      (ht : r.PointsTo s.base s.reference.target located) : Ends r whole visited s (.ok located)
  | lost {s : Sight} {e : Error} (ht : r.locateTarget s.base s.reference.target = .error e) :
      Ends r whole visited s (.error e)
  | limit {s : Sight} {pointer : Located} (hi : s.reference.indirection = .single)
      (ht : r.PointsTo s.base s.reference.target pointer)
      (hlimit : r.limits.maxIndirections ≤ visited.length) :
      Ends r whole visited s (.error (.indirectionLoop whole r.limits.maxIndirections))
  | unreadable {s : Sight} {pointer : Located} {fault : FileFault}
      (hi : s.reference.indirection = .single)
      (ht : r.PointsTo s.base s.reference.target pointer)
      (hlimit : visited.length < r.limits.maxIndirections)
      (hread : r.files.read pointer.file = .error fault) :
      Ends r whole visited s (.error (.unreadable pointer.file fault))
  | again {s : Sight} {pointer : Located} {place : Place} {text : String}
      (hi : s.reference.indirection = .single)
      (ht : r.PointsTo s.base s.reference.target pointer)
      (hlimit : visited.length < r.limits.maxIndirections)
      (hread : r.files.read pointer.file = .ok (place, text)) (hv : place ∈ visited) :
      Ends r whole visited s (.error (.indirectionLoop whole r.limits.maxIndirections))
  | unparsed {s : Sight} {pointer : Located} {place : Place} {text : String} {e : Error}
      (hi : s.reference.indirection = .single)
      (ht : r.PointsTo s.base s.reference.target pointer)
      (hlimit : visited.length < r.limits.maxIndirections)
      (hread : r.files.read pointer.file = .ok (place, text)) (hv : place ∉ visited)
      (hparse : Reference.parse (Text.trim text) = .error e) : Ends r whole visited s (.error e)

variable {r : Resolver} {reference : Reference} {base : Path} {s t : Sight} {located : Located}
  {place : Place} {visited seen places : List Place} {whole text : String} {e : Error}
  {o : Except Error Located} {limit : Nat}

theorem follow_of_pointsTo {pointer : Located} (hi : s.reference.indirection = .single)
    (ht : r.PointsTo s.base s.reference.target pointer)
    (hlimit : visited.length < r.limits.maxIndirections) :
    r.follow whole visited s.reference s.base =
      match r.files.read pointer.file with
      | .error fault => .error (.unreadable pointer.file fault)
      | .ok (place, text) =>
        if place ∈ visited then .error (.indirectionLoop whole r.limits.maxIndirections)
        else Reference.parse (Text.trim text) >>= fun next =>
          r.follow whole (place :: visited) next pointer.file.parent := by
  rw [follow, locateTarget_eq_ok_iff.2 ht, ok_bind, if_neg (by simpa using isIndirect_iff.2 hi),
    if_neg (Nat.not_le.2 hlimit)]
  -- what is read is also in the proof that this ends, so that it cannot be rewritten there
  split
  · rename_i hread
    rw [hread]
  · rename_i hread
    conv_rhs => rw [hread]
    rfl

theorem follow_of_read {pointer : Located} (hi : s.reference.indirection = .single)
    (ht : r.PointsTo s.base s.reference.target pointer)
    (hlimit : visited.length < r.limits.maxIndirections)
    (hread : r.files.read pointer.file = .ok (place, text)) :
    r.follow whole visited s.reference s.base =
      if place ∈ visited then .error (.indirectionLoop whole r.limits.maxIndirections)
      else Reference.parse (Text.trim text) >>= fun next =>
        r.follow whole (place :: visited) next pointer.file.parent := by
  rw [follow_of_pointsTo hi ht hlimit, hread]

theorem follow_of_ends (h : r.Ends whole visited s o) :
    r.follow whole visited s.reference s.base = o := by
  cases h with
  | found hi ht =>
    rw [follow, locateTarget_eq_ok_iff.2 ht, ok_bind,
      if_pos (by simpa using mt isIndirect_iff.1 hi)]
    rfl
  | lost ht => rw [follow, ht, error_bind]
  | limit hi ht hlimit =>
    rw [follow, locateTarget_eq_ok_iff.2 ht, ok_bind, if_neg (by simpa using isIndirect_iff.2 hi),
      if_pos hlimit]
  | unreadable hi ht hlimit hread => rw [follow_of_pointsTo hi ht hlimit, hread]
  | again hi ht hlimit hread hv => rw [follow_of_read hi ht hlimit hread, if_pos hv]
  | unparsed hi ht hlimit hread hv hparse =>
    rw [follow_of_read hi ht hlimit hread, if_neg hv, hparse, error_bind]

theorem follow_of_leads (h : r.Leads s place t) (hlimit : visited.length < r.limits.maxIndirections)
    (hv : place ∉ visited) : r.follow whole visited s.reference s.base =
      r.follow whole (place :: visited) t.reference t.base := by
  cases h with
  | intro hi ht hread hparse =>
    rw [follow_of_read hi ht hlimit hread, if_neg hv, hparse, ok_bind]

theorem ends_or_leads (r : Resolver) (whole : String) (visited : List Place) (s : Sight) :
    (∃ o, r.Ends whole visited s o) ∨ ∃ place t, r.Leads s place t ∧
      visited.length < r.limits.maxIndirections ∧ place ∉ visited := by
  cases ht : r.locateTarget s.base s.reference.target with
  | error e => exact .inl ⟨_, .lost ht⟩
  | ok pointer =>
    have ht := locateTarget_eq_ok_iff.1 ht
    by_cases hi : s.reference.indirection = .single
    · by_cases hlimit : visited.length < r.limits.maxIndirections
      · cases hread : r.files.read pointer.file with
        | error fault => exact .inl ⟨_, .unreadable hi ht hlimit hread⟩
        | ok file =>
          by_cases hv : file.1 ∈ visited
          · exact .inl ⟨_, .again hi ht hlimit hread hv⟩
          · cases hparse : Reference.parse (Text.trim file.2) with
            | error e => exact .inl ⟨_, .unparsed hi ht hlimit hread hv hparse⟩
            | ok next => exact .inr ⟨_, _, .intro hi ht hread hparse, hlimit, hv⟩
      · exact .inl ⟨_, .limit hi ht (Nat.not_lt.1 hlimit)⟩
    · exact .inl ⟨_, .found hi ht⟩

theorem exists_visits (r : Resolver) (whole : String) (visited : List Place) (s : Sight) :
    ∃ seen t o, r.Visits visited s seen t ∧ r.Ends whole seen t o := by
  rcases r.ends_or_leads whole visited s with ⟨o, hends⟩ | ⟨place, t, h, hlimit, hv⟩
  · exact ⟨visited, s, o, .here, hends⟩
  · -- a file that was not visited leaves fewer of them to visit
    have hunseen : r.files.unseen (place :: visited) < r.files.unseen visited := by
      cases h with
      | intro _ _ hread =>
        exact FileSystem.unseen_cons_lt (FileSystem.mem_places_of_read hread) hv
    obtain ⟨seen, u, o, hs, hends⟩ := exists_visits r whole (place :: visited) t
    exact ⟨seen, u, o, .next h hlimit hv hs, hends⟩
termination_by r.files.unseen visited

theorem follow_of_visits (h : r.Visits visited s seen t) :
    r.follow whole visited s.reference s.base = r.follow whole seen t.reference t.base := by
  induction h with
  | here => rfl
  | next h hlimit hv _ ih => rw [follow_of_leads h hlimit hv, ih]

theorem follow_eq_iff :
    r.follow whole visited s.reference s.base = o ↔
      ∃ seen t, r.Visits visited s seen t ∧ r.Ends whole seen t o := by
  constructor
  · intro h
    obtain ⟨seen, t, o', hs, hends⟩ := exists_visits r whole visited s
    rw [follow_of_visits hs, follow_of_ends hends] at h
    exact ⟨seen, t, hs, h ▸ hends⟩
  · rintro ⟨seen, t, hs, hends⟩
    rw [follow_of_visits hs, follow_of_ends hends]

theorem Visits.exists_hops (h : r.Visits visited s seen t) :
    ∃ places, seen = places.reverse ++ visited ∧ r.Hops s places t ∧ places.Nodup ∧
      (∀ p ∈ places, p ∉ visited) ∧
      (places = [] ∨ places.length + visited.length ≤ r.limits.maxIndirections) := by
  induction h with
  | here => exact ⟨[], rfl, .nil, List.nodup_nil, by simp, .inl rfl⟩
  | @next s t u place visited seen h hlimit hv _ ih =>
    obtain ⟨places, rfl, hs, hnodup, hnew, hlen⟩ := ih
    simp only [List.mem_cons, not_or] at hnew
    refine ⟨place :: places, by simp, .cons h hs, ?_, ?_, .inr ?_⟩
    · exact List.nodup_cons.2 ⟨fun hp => (hnew place hp).1 rfl, hnodup⟩
    · exact List.forall_mem_cons.2 ⟨hv, fun p hp => (hnew p hp).2⟩
    · rcases hlen with rfl | hlen
      · rw [List.length_singleton]
        omega
      · rw [List.length_cons] at hlen ⊢
        omega

theorem visits_of_hops (h : r.Hops s places t) (hnodup : places.Nodup)
    (hnew : ∀ p ∈ places, p ∉ visited)
    (hlen : places = [] ∨ places.length + visited.length ≤ r.limits.maxIndirections) :
    r.Visits visited s (places.reverse ++ visited) t := by
  induction h generalizing visited with
  | nil => exact .here
  | @cons s t u place places h hs ih =>
    rw [List.nodup_cons] at hnodup
    rw [List.forall_mem_cons] at hnew
    have hlen := hlen.resolve_left (List.cons_ne_nil _ _)
    rw [List.length_cons] at hlen
    have hlater : ∀ p ∈ places, p ∉ place :: visited := by
      intro p hp hmem
      rcases List.mem_cons.1 hmem with rfl | hmem
      · exact hnodup.1 hp
      · exact hnew.2 p hp hmem
    have hroom : places.length + (place :: visited).length ≤ r.limits.maxIndirections := by
      rw [List.length_cons]
      omega
    rw [List.reverse_cons, List.append_assoc]
    exact .next h (by omega) hnew.1 (ih hnodup.2 hlater (.inr hroom))

/-- Following, with the pointer files that are opened on the way, the latest first. One that was
visited is known before it is opened. -/
def followOpening (r : Resolver) (whole : String) (visited : List Place)
    (reference : Reference) (base : Path) : ExceptT Error (StateM (List Path)) Located := do
  let located ← r.locateTarget base reference.target
  if !reference.isIndirect then return located
  if r.limits.maxIndirections ≤ visited.length then
    throw (.indirectionLoop whole r.limits.maxIndirections)
  else match h : r.files.read located.file with
    | .error fault =>
      modify (located.file :: ·)
      throw (.unreadable located.file fault)
    | .ok (place, text) =>
      if hv : place ∈ visited then throw (.indirectionLoop whole r.limits.maxIndirections)
      else do
        have := FileSystem.unseen_cons_lt (FileSystem.mem_places_of_read h) hv
        modify (located.file :: ·)
        r.followOpening whole (place :: visited) (← Reference.parse (Text.trim text))
          located.file.parent
termination_by r.files.unseen visited

def locateOpening (r : Resolver) (reference : String) (base : Path) :
    ExceptT Error (StateM (List Path)) Located := do
  r.followOpening reference [] (← Reference.parse reference) base

variable {opened : List Path}

theorem run_ok_bind {α β : Type} {a : α} {f : α → ExceptT Error (StateM (List Path)) β} :
    (liftM (.ok a : Except Error α) >>= f).run.run opened = (f a).run.run opened := rfl

theorem run_followOpening_of_pointsTo {pointer : Located}
    (hi : s.reference.indirection = .single)
    (ht : r.PointsTo s.base s.reference.target pointer)
    (hlimit : visited.length < r.limits.maxIndirections) :
    (r.followOpening whole visited s.reference s.base).run.run opened =
      match r.files.read pointer.file with
      | .error fault => (.error (.unreadable pointer.file fault), pointer.file :: opened)
      | .ok (place, text) =>
        if place ∈ visited then
          (.error (.indirectionLoop whole r.limits.maxIndirections), opened)
        else match Reference.parse (Text.trim text) with
          | .ok next => (r.followOpening whole (place :: visited) next pointer.file.parent).run.run
              (pointer.file :: opened)
          | .error e => (.error e, pointer.file :: opened) := by
  rw [followOpening, locateTarget_eq_ok_iff.2 ht, run_ok_bind,
    if_neg (by simpa using isIndirect_iff.2 hi), if_neg (Nat.not_le.2 hlimit)]
  split
  · rename_i hread
    rw [hread]
    rfl
  · rename_i place text hread
    conv_rhs => rw [hread]
    dsimp only
    split
    · rfl
    · generalize Reference.parse (Text.trim text) = next
      cases next <;> rfl

theorem run_followOpening_of_ends (h : r.Ends whole visited s o) (opened : List Path) :
    ∃ latest, (r.followOpening whole visited s.reference s.base).run.run opened =
      (o, latest ++ opened) ∧ latest.length ≤ r.limits.maxIndirections - visited.length := by
  cases h with
  | found hi ht =>
    refine ⟨[], ?_, Nat.zero_le _⟩
    rw [followOpening, locateTarget_eq_ok_iff.2 ht, run_ok_bind,
      if_pos (by simpa using mt isIndirect_iff.1 hi)]
    rfl
  | lost ht =>
    refine ⟨[], ?_, Nat.zero_le _⟩
    rw [followOpening, ht]
    rfl
  | limit hi ht hlimit =>
    refine ⟨[], ?_, Nat.zero_le _⟩
    rw [followOpening, locateTarget_eq_ok_iff.2 ht, run_ok_bind,
      if_neg (by simpa using isIndirect_iff.2 hi), if_pos hlimit]
    rfl
  | @unreadable pointer fault hi ht hlimit hread =>
    refine ⟨[pointer.file], ?_, ?_⟩
    · rw [run_followOpening_of_pointsTo hi ht hlimit, hread]
      rfl
    · rw [List.length_singleton]
      omega
  | again hi ht hlimit hread hv =>
    refine ⟨[], ?_, Nat.zero_le _⟩
    rw [run_followOpening_of_pointsTo hi ht hlimit, hread, List.nil_append]
    exact if_pos hv
  | @unparsed pointer _ _ _ hi ht hlimit hread hv hparse =>
    refine ⟨[pointer.file], ?_, ?_⟩
    · rw [run_followOpening_of_pointsTo hi ht hlimit, hread]
      dsimp only
      rw [if_neg hv, hparse]
      rfl
    · rw [List.length_singleton]
      omega

theorem run_followOpening_of_leads (h : r.Leads s place t)
    (hlimit : visited.length < r.limits.maxIndirections) (hv : place ∉ visited)
    (opened : List Path) :
    ∃ file, (r.followOpening whole visited s.reference s.base).run.run opened =
      (r.followOpening whole (place :: visited) t.reference t.base).run.run (file :: opened) := by
  cases h with
  | @intro _ _ _ pointer _ _ hi ht hread hparse =>
    refine ⟨pointer.file, ?_⟩
    rw [run_followOpening_of_pointsTo hi ht hlimit, hread]
    dsimp only
    rw [if_neg hv, hparse]

/-- To note the files that are opened changes nothing, and no more of them are opened than there
may be indirections. -/
theorem run_followOpening_of_visits (h : r.Visits visited s seen t) (hends : r.Ends whole seen t o)
    (opened : List Path) :
    ∃ latest, (r.followOpening whole visited s.reference s.base).run.run opened =
      (o, latest ++ opened) ∧ latest.length ≤ r.limits.maxIndirections - visited.length := by
  induction h generalizing opened with
  | here => exact run_followOpening_of_ends hends opened
  | next h hlimit hv _ ih =>
    obtain ⟨file, hrun⟩ := run_followOpening_of_leads h hlimit hv opened
    obtain ⟨latest, hlatest, hlen⟩ := ih hends (file :: opened)
    refine ⟨latest ++ [file], ?_, ?_⟩
    · rw [hrun, hlatest, List.append_assoc, List.singleton_append]
    · rw [List.length_append, List.length_singleton]
      rw [List.length_cons] at hlen
      omega

theorem run_locateOpening (r : Resolver) (text : String) (base : Path) :
    ∃ opened, (r.locateOpening text base).run.run [] = (r.locate text base, opened) ∧
      opened.length ≤ r.limits.maxIndirections := by
  unfold locateOpening locate
  generalize Reference.parse text = start
  cases start with
  | error e => exact ⟨[], rfl, Nat.zero_le _⟩
  | ok start =>
    obtain ⟨seen, t, o, hs, hends⟩ := exists_visits r text [] ⟨start, base⟩
    obtain ⟨opened, hrun, hlen⟩ := run_followOpening_of_visits hs hends []
    refine ⟨opened, ?_, by simpa using hlen⟩
    rw [run_ok_bind, hrun, List.append_nil, ok_bind,
      follow_eq_iff (s := ⟨start, base⟩).2 ⟨seen, t, hs, hends⟩]

theorem ends_ok_iff : r.Ends whole visited s (.ok located) ↔
    s.reference.indirection ≠ .single ∧ r.PointsTo s.base s.reference.target located := by
  constructor
  · intro h
    cases h with
    | found hi ht => exact ⟨hi, ht⟩
  · rintro ⟨hi, ht⟩
    exact .found hi ht

theorem not_locateTarget_loop {t : Target} {name : String} :
    r.locateTarget base t ≠ .error (.indirectionLoop name limit) := by
  intro h
  cases t with
  | path => cases h
  | package name repository p =>
    rw [locateTarget] at h
    split at h <;> cases h

theorem ends_loop_iff {name : String} :
    r.Ends whole visited s (.error (.indirectionLoop name limit)) ↔
      name = whole ∧ limit = r.limits.maxIndirections ∧ s.reference.indirection = .single ∧
        ∃ pointer, r.PointsTo s.base s.reference.target pointer ∧
          (r.limits.maxIndirections ≤ visited.length ∨
            ∃ place text, r.files.read pointer.file = .ok (place, text) ∧ place ∈ visited) := by
  constructor
  · intro h
    cases h with
    | lost ht => exact absurd ht not_locateTarget_loop
    | limit hi ht hlimit => exact ⟨rfl, rfl, hi, _, ht, .inl hlimit⟩
    | again hi ht hlimit hread hv => exact ⟨rfl, rfl, hi, _, ht, .inr ⟨_, _, hread, hv⟩⟩
    | unparsed hi ht hlimit hread hv hparse =>
      obtain ⟨_, he⟩ := Reference.exists_badName hparse
      cases he
  · rintro ⟨rfl, rfl, hi, pointer, ht, hend⟩
    rcases Nat.lt_or_ge visited.length r.limits.maxIndirections with hlimit | hlimit
    · obtain ⟨place, text, hread, hv⟩ := hend.resolve_left (Nat.not_le.2 hlimit)
      exact .again hi ht hlimit hread hv
    · exact .limit hi ht hlimit

/-- Where locating ends is where the pointers from a reference end. -/
theorem locate_eq_iff {start : Reference} (hstart : Reference.parse text = .ok start) :
    r.locate text base = o ↔ ∃ places s, r.Hops ⟨start, base⟩ places s ∧ places.Nodup ∧
      places.length ≤ r.limits.maxIndirections ∧ r.Ends text places.reverse s o := by
  have hlocate : r.locate text base = r.follow text [] start base := by
    rw [locate, hstart, ok_bind]
  rw [hlocate, follow_eq_iff (s := ⟨start, base⟩)]
  constructor
  · rintro ⟨seen, t, hs, hends⟩
    obtain ⟨places, rfl, hs, hnodup, -, hlen⟩ := hs.exists_hops
    rw [List.append_nil] at hends
    refine ⟨places, t, hs, hnodup, ?_, hends⟩
    rcases hlen with rfl | hlen
    · exact Nat.zero_le _
    · exact hlen
  · rintro ⟨places, t, hs, hnodup, hlen, hends⟩
    have hvisits : r.Visits [] ⟨start, base⟩ (places.reverse ++ []) t :=
      visits_of_hops hs hnodup (by simp) (.inr hlen)
    rw [List.append_nil] at hvisits
    exact ⟨_, t, hvisits, hends⟩

theorem follows_iff : r.Follows places reference base located ↔
    ∃ s, r.Hops ⟨reference, base⟩ places s ∧ s.reference.indirection ≠ .single ∧
      r.PointsTo s.base s.reference.target located := by
  constructor
  · intro h
    induction h with
    | here hi ht => exact ⟨_, .nil, hi, ht⟩
    | hop hi ht hread hparse _ ih =>
      obtain ⟨s, hs, hend⟩ := ih
      exact ⟨s, .cons (.intro hi ht hread hparse) hs, hend⟩
  · rintro ⟨s, hs, hi, ht⟩
    generalize hstart : Sight.mk reference base = start at hs
    induction hs generalizing reference base with
    | nil =>
      subst hstart
      exact .here hi ht
    | cons h _ ih =>
      cases h with
      | intro hsingle hpointer hread hparse =>
        cases hstart
        exact .hop hsingle hpointer hread hparse (ih hi ht rfl)

theorem locate_eq_ok_iff : r.locate text base = .ok located ↔ r.Designates text base located := by
  constructor
  · intro h
    obtain ⟨start, hstart, -⟩ := bind_eq_ok_iff.1 h
    obtain ⟨places, s, hs, hnodup, hlen, hends⟩ := (locate_eq_iff hstart).1 h
    exact ⟨start, places, hstart, follows_iff.2 ⟨s, hs, ends_ok_iff.1 hends⟩, hnodup, hlen⟩
  · rintro ⟨start, places, hstart, h, hnodup, hlen⟩
    obtain ⟨s, hs, hend⟩ := follows_iff.1 h
    exact (locate_eq_iff hstart).2 ⟨places, s, hs, hnodup, hlen, ends_ok_iff.2 hend⟩

/-- A reference is resolved to a file exactly if that is where it leads, after pointers to files
that are all different and not too many. It is given up as a loop exactly if the next pointer would
be one too many, or is to a file that was read before. No more pointer files are opened than there
may be indirections. -/
theorem resolvePath_follows (r : Resolver) (text : String) (base : Path) :
    (∀ file, r.resolvePath text base = .ok file ↔
      ∃ start places s located, Reference.parse text = .ok start ∧
        r.Hops ⟨start, base⟩ places s ∧ places.Nodup ∧
        places.length ≤ r.limits.maxIndirections ∧ s.reference.indirection ≠ .single ∧
        r.PointsTo s.base s.reference.target located ∧ located.file = file) ∧
      (∃ opened, (r.locateOpening text base).run.run [] = (r.locate text base, opened) ∧
        opened.length ≤ r.limits.maxIndirections) ∧
      ∀ whole limit, r.resolvePath text base = .error (.indirectionLoop whole limit) ↔
        whole = text ∧ limit = r.limits.maxIndirections ∧
        ∃ start places s pointer, Reference.parse text = .ok start ∧
          r.Hops ⟨start, base⟩ places s ∧ places.Nodup ∧
          places.length ≤ r.limits.maxIndirections ∧ s.reference.indirection = .single ∧
          r.PointsTo s.base s.reference.target pointer ∧
          (places.length = r.limits.maxIndirections ∨
            ∃ place held, r.files.read pointer.file = .ok (place, held) ∧ place ∈ places) := by
  refine ⟨fun file => ?_, run_locateOpening r text base, fun whole limit => ?_⟩
  · rw [resolvePath, map_eq_ok_iff]
    constructor
    · rintro ⟨located, h, hfile⟩
      obtain ⟨start, hstart, -⟩ := bind_eq_ok_iff.1 h
      obtain ⟨places, s, hs, hnodup, hlen, hends⟩ := (locate_eq_iff hstart).1 h
      obtain ⟨hi, ht⟩ := ends_ok_iff.1 hends
      exact ⟨start, places, s, located, hstart, hs, hnodup, hlen, hi, ht, hfile⟩
    · rintro ⟨start, places, s, located, hstart, hs, hnodup, hlen, hi, ht, hfile⟩
      exact ⟨located, (locate_eq_iff hstart).2
        ⟨places, s, hs, hnodup, hlen, ends_ok_iff.2 ⟨hi, ht⟩⟩, hfile⟩
  · rw [resolvePath, map_eq_error_iff]
    constructor
    · intro h
      cases hstart : Reference.parse text with
      | error e =>
        rw [locate, hstart, error_bind] at h
        obtain ⟨_, rfl⟩ := Reference.exists_badName hstart
        cases h
      | ok start =>
        obtain ⟨places, s, hs, hnodup, hlen, hends⟩ := (locate_eq_iff hstart).1 h
        obtain ⟨rfl, rfl, hi, pointer, ht, hend⟩ := ends_loop_iff.1 hends
        simp only [List.length_reverse, List.mem_reverse] at hend
        exact ⟨rfl, rfl, start, places, s, pointer, rfl, hs, hnodup, hlen, hi, ht,
          hend.imp_left (Nat.le_antisymm hlen)⟩
    · rintro ⟨rfl, rfl, start, places, s, pointer, hstart, hs, hnodup, hlen, hi, ht, hend⟩
      have hends : r.Ends whole places.reverse s
          (.error (.indirectionLoop whole r.limits.maxIndirections)) := by
        refine ends_loop_iff.2 ⟨rfl, rfl, hi, pointer, ht, ?_⟩
        simp only [List.length_reverse, List.mem_reverse]
        exact hend.imp_left fun h => Nat.le_of_eq h.symm
      exact (locate_eq_iff hstart).2 ⟨places, s, hs, hnodup, hlen, hends⟩

end Resolver

end PolicyTree
