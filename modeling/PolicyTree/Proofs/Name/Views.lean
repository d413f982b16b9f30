import PolicyTree.Proofs.Policy.Mutation

namespace PolicyTree

namespace Text

variable {sep : Char}

def after (text : String) (n : Nat) : String :=
  String.Pos.Raw.extract text ⟨n⟩ text.rawEndPos

theorem after_append (s t : String) : after (s ++ t) s.utf8ByteSize = t := by
  have hcut := String.extract_of_valid s.toList t.toList []
  have hsize : ∀ u : String, String.utf8Len u.toList = u.utf8ByteSize := String.utf8Len_toList
  rw [List.append_nil, String.ofList_append, String.ofList_toList, String.ofList_toList, hsize,
    hsize, ← String.utf8ByteSize_append] at hcut
  exact hcut

theorem exists_last_separator {text : String} (h : sep ∈ text.toList) :
    ∃ above leaf, sep ∉ leaf.toList ∧ text = above ++ String.singleton sep ++ leaf := by
  obtain ⟨back, front, heq, hback⟩ := List.eq_append_cons_of_mem (List.mem_reverse.2 h)
  refine ⟨String.ofList front.reverse, String.ofList back.reverse, ?_, ?_⟩
  · rwa [String.toList_ofList, List.mem_reverse]
  · rw [← String.toList_inj, ← List.reverse_inj, heq]
    simp

/-- The byte at which the last `sep` among some characters begins. They begin at byte `start`. -/
def lastByte? (sep : Char) (start : Nat) : List Char → Option Nat
  | [] => none
  | c :: cs =>
    (lastByte? sep (start + c.utf8Size) cs).or (if c = sep then some start else none)

theorem lastByte?_of_not_mem {cs : List Char} (h : sep ∉ cs) (start : Nat) :
    lastByte? sep start cs = none := by
  induction cs generalizing start with
  | nil => rfl
  | cons c cs ih =>
    rw [List.mem_cons, not_or] at h
    rw [lastByte?, ih h.2, if_neg (Ne.symm h.1), Option.or_none]

theorem lastByte?_append {bs : List Char} (h : sep ∉ bs) (as : List Char) (start : Nat) :
    lastByte? sep start (as ++ sep :: bs) = some (start + String.utf8Len as) := by
  induction as generalizing start with
  | nil => rw [List.nil_append, lastByte?, lastByte?_of_not_mem h, if_pos rfl]; rfl
  | cons c as ih =>
    rw [List.cons_append, lastByte?, ih, Option.some_or, String.utf8Len_cons, Nat.add_assoc,
      Nat.add_comm c.utf8Size]

end Text

namespace Name

variable {above name leaf s : String} {segs front : List String}

/-- `name` is made of `segs`: of at least one segment, none of them empty or with a separator, and
of the separators between them. -/
structure MadeOf (name : String) (segs : List String) : Prop where
  ne_nil : segs ≠ []
  leaf : ∀ s ∈ segs, s ≠ "" ∧ '.' ∉ s.toList
  eq_intercalate : name = ".".intercalate segs

theorem segments_eq_ok_iff_madeOf : segments name = .ok segs ↔ MadeOf name segs := by
  rw [segments_eq_ok_iff]
  constructor
  · rintro ⟨hne, hleaf, hname⟩
    exact ⟨hne, fun s hs => isLeaf_iff.1 (hleaf s hs), hname⟩
  · intro h
    exact ⟨h.ne_nil, fun s hs => isLeaf_iff.2 (h.leaf s hs), h.eq_intercalate⟩

/-- A name before and after its last separator, by the byte where that begins. A name without one
is all leaf. -/
def cutLast (name : String) : Option String × String :=
  match Text.lastByte? separator 0 name.toList with
  | some i => (some (Text.upTo name i), Text.after name (i + 1))
  | none => (none, name)

theorem splitLeaf_of_not_mem (h : separator ∉ name.toList) : splitLeaf name = (none, name) := by
  rw [splitLeaf, Text.fields_of_not_mem h]
  rfl

theorem splitLeaf_append (above : String) (h : separator ∉ leaf.toList) :
    splitLeaf (above ++ String.singleton separator ++ leaf) = (some above, leaf) := by
  have hne := Text.fields_ne_nil separator above
  rw [splitLeaf, Text.fields_append_separator, Text.fields_of_not_mem h]
  simp [hne, ofSegments_fields]

theorem cutLast_of_not_mem (h : separator ∉ name.toList) : cutLast name = (none, name) := by
  rw [cutLast, Text.lastByte?_of_not_mem h]

theorem cutLast_append (above : String) (h : separator ∉ leaf.toList) :
    cutLast (above ++ String.singleton separator ++ leaf) = (some above, leaf) := by
  have hbyte : Text.lastByte? separator 0
      (above ++ String.singleton separator ++ leaf).toList = some above.utf8ByteSize := by
    rw [String.toList_append, String.toList_append, String.toList_singleton, List.append_assoc,
      List.singleton_append, Text.lastByte?_append h, Nat.zero_add, String.utf8Len_toList]
  have hsize : above.utf8ByteSize + 1 = (above ++ String.singleton separator).utf8ByteSize := by
    rw [String.utf8ByteSize_append]
    rfl
  have hupTo : Text.upTo (above ++ String.singleton separator ++ leaf) above.utf8ByteSize =
      above := by
    rw [String.append_assoc, Text.upTo_append]
  have hafter : Text.after (above ++ String.singleton separator ++ leaf)
      (above.utf8ByteSize + 1) = leaf := by
    rw [hsize, Text.after_append]
  simp only [cutLast, hbyte, hupTo, hafter]

theorem splitLeaf_eq_cutLast (name : String) : splitLeaf name = cutLast name := by
  by_cases h : separator ∈ name.toList
  · obtain ⟨above, leaf, hleaf, rfl⟩ := Text.exists_last_separator h
    rw [splitLeaf_append above hleaf, cutLast_append above hleaf]
  · rw [splitLeaf_of_not_mem h, cutLast_of_not_mem h]

/-- A name that is cut in two before the last of its segments. -/
structure LeafCut (name : String) (segs : List String) (cut : Option String × String) : Prop where
  join_eq : join (cut.1.getD "") cut.2 = name
  getLast? : segs.getLast? = some cut.2
  eq_none_iff : cut.1 = none ↔ segs.length = 1
  segments_eq : ∀ above, cut.1 = some above → segments above = .ok segs.dropLast

theorem leafCut_splitLeaf (h : segments name = .ok segs) : LeafCut name segs (splitLeaf name) := by
  obtain ⟨front, leaf, rfl, hfront, hleaf, rfl⟩ := exists_concat_of_segments h
  rw [splitLeaf_ofSegments hfront hleaf]
  by_cases hne : front = []
  · subst hne
    exact ⟨rfl, rfl, iff_of_true rfl rfl, nofun⟩
  · rw [if_neg hne]
    refine ⟨join_ofSegments hfront leaf, List.getLast?_concat, ?_, ?_⟩
    · exact iff_of_false nofun (by simpa using hne)
    · rintro _ ⟨⟩
      rw [List.dropLast_concat]
      exact segments_ofSegments hne hfront

/-- The bytes where a walk over some segments cuts its path: the ends of the segments, the first of
which begins at byte `start`. -/
def stops (start : Nat) : List String → List Nat
  | [] => []
  | seg :: rest => (start + seg.utf8ByteSize) :: stops (start + seg.utf8ByteSize + 1) rest

def joins (walked : String) : List String → List String
  | [] => []
  | seg :: rest => join walked seg :: joins (join walked seg) rest

/-- Some bytes of a name are boundaries between characters, and up to them it is `fronts`. -/
structure CutsInto (name : String) (bytes : List Nat) (fronts : List String) : Prop where
  boundary : ∀ byte ∈ bytes, String.Pos.Raw.IsValid name ⟨byte⟩
  upTo : bytes.map (Text.upTo name) = fronts

/-- By induction on the segments that are left to walk over. -/
theorem stops_eq (hfront : ∀ s ∈ front, isLeaf s = true) (hsegs : ∀ s ∈ segs, isLeaf s = true) :
    stops (width front) segs = (joins (ofSegments front) segs).map String.utf8ByteSize := by
  induction segs generalizing front with
  | nil => rfl
  | cons seg rest ih =>
    rw [List.forall_mem_cons] at hsegs
    have hfront' := isLeaf_concat hfront hsegs.1
    rw [stops, joins, join_ofSegments hfront, List.map_cons, utf8ByteSize_ofSegments,
      ← ih hfront' hsegs.2, width_concat]

theorem exists_append_of_mem_joins (hfront : ∀ s ∈ front, isLeaf s = true)
    (hsegs : ∀ s ∈ segs, isLeaf s = true) (back : List String)
    (hs : s ∈ joins (ofSegments front) segs) :
    ∃ rest, ofSegments (front ++ segs ++ back) = s ++ rest := by
  induction segs generalizing front with
  | nil => cases hs
  | cons seg segs ih =>
    rw [List.forall_mem_cons] at hsegs
    have hfront' := isLeaf_concat hfront hsegs.1
    rw [joins, join_ofSegments hfront] at hs
    rw [List.append_cons, List.append_assoc]
    cases hs with
    | head => exact exists_ofSegments_append (List.concat_ne_nil seg front) (segs ++ back)
    | tail _ hs =>
      rw [← List.append_assoc]
      exact ih hfront' hsegs.2 hs

theorem cutsInto_joins (h : segments name = .ok (segs ++ [leaf])) :
    CutsInto name (stops 0 segs) (joins "" segs) := by
  obtain ⟨-, hall, rfl⟩ := segments_eq_ok_iff.1 h
  have hsegs : ∀ s ∈ segs, isLeaf s = true := (List.forall_mem_append.1 hall).1
  have hstops : stops 0 segs = (joins "" segs).map String.utf8ByteSize :=
    stops_eq (List.forall_mem_nil _) hsegs
  have hbegin : ∀ full ∈ joins "" segs, ∃ rest, ofSegments (segs ++ [leaf]) = full ++ rest :=
    fun _ hfull => exists_append_of_mem_joins (List.forall_mem_nil _) hsegs [leaf] hfull
  rw [hstops]
  constructor
  · intro stop hstop
    obtain ⟨full, hfull, rfl⟩ := List.mem_map.1 hstop
    obtain ⟨rest, hrest⟩ := hbegin full hfull
    exact String.Pos.Raw.isValid_iff_exists_append.2 ⟨full, rest, hrest, rfl⟩
  · rw [List.map_map]
    have hself : ∀ full ∈ joins "" segs,
        Text.upTo (ofSegments (segs ++ [leaf])) full.utf8ByteSize = id full := by
      intro full hfull
      obtain ⟨rest, hrest⟩ := hbegin full hfull
      rw [hrest, Text.upTo_append, id_eq]
    exact (List.map_congr_left hself).trans (List.map_id _)

end Name

namespace Mutation

variable {α : Type} {create : Bool} {p : Policy} {leaf full walked : String} {segs : List String}
  {e : Error}

/-- A walk stopped at the name `full`: nothing is there, or something other than a policy. -/
def Stopped (full : String) (e : Error) : Prop :=
  e = .nameNotFound full ∨ ∃ k, e = .wrongType full .policy k

theorem stopped_of_child {change : Mutation α}
    (h : (child create leaf full change p).1 = .error e) :
    Stopped full e ∨ ∃ sub, (change sub).1 = .error e := by
  rw [child] at h
  generalize
    (if (create && (p.entry? leaf).isNone) = true then p.put leaf [.policy .empty] else p) = q at h
  cases hsub : q.child leaf full with
  | ok sub =>
    simp only [hsub] at h
    exact .inr ⟨sub, h⟩
  | error e' =>
    simp only [hsub] at h
    obtain rfl := Except.error.inj h
    rw [Policy.child] at hsub
    split at hsub
    · exact .inl (.inl (Except.error.inj hsub).symm)
    · cases hsub
    · exact .inl (.inr ⟨_, (Except.error.inj hsub).symm⟩)

/-- By induction on the segments that are left. A walk that does not get there stops at a join of
the segments so far. -/
theorem stopped_of_descend {change : String → Mutation α}
    (h : (descend create change walked (segs ++ [leaf]) p).1 = .error e) :
    (∃ full ∈ Name.joins walked segs, Stopped full e) ∨ ∃ q, (change leaf q).1 = .error e := by
  induction segs generalizing p walked with
  | nil => exact .inr ⟨p, h⟩
  | cons seg rest ih =>
    rw [List.cons_append, descend_cons create change walked seg (List.concat_ne_nil leaf rest)] at h
    rcases stopped_of_child h with hstop | ⟨sub, hsub⟩
    · exact .inl ⟨Name.join walked seg, List.mem_cons_self .., hstop⟩
    · obtain ⟨full, hfull, hstop⟩ | hleaf := ih hsub
      · exact .inl ⟨full, List.mem_cons_of_mem _ hfull, hstop⟩
      · exact .inr hleaf

end Mutation

namespace Name

variable {α : Type}

/-- All the ways to take a name apart agree. It is well-formed if it is made of segments, and these
are its fields; a name below another one has the segments of both. Cut in two at its last separator,
it is cut before its last segment. Where a change walks along it and counts bytes, these end at
characters, and up to each of them the name is the join of the segments so far: so are the names in
the errors of the walk. -/
theorem views_agree (above name : String) (create : Bool) (change : String → Mutation α) :
    (validate name = .ok () ↔ ∃ segs, MadeOf name segs) ∧
      (∀ segs, segments name = .ok segs ↔ MadeOf name segs) ∧
      (∀ as bs, MadeOf above as → MadeOf name bs →
        validate (join above name) = .ok () ∧ segments (join above name) = .ok (as ++ bs)) ∧
      splitLeaf name = cutLast name ∧
      (∀ segs, MadeOf name segs → LeafCut name segs (splitLeaf name)) ∧
      (∀ segs parent, MadeOf name segs → (splitLeaf name).1 = some parent →
        CutsInto name (stops 0 (Text.fields separator parent)) (joins "" segs.dropLast)) ∧
      Mutation.holder create name change = Mutation.holderByName create name change ∧
      ∀ segs p e, MadeOf name segs → (Mutation.holder create name change p).1 = .error e →
        (∃ full ∈ joins "" segs.dropLast, Mutation.Stopped full e) ∨
          ∃ leaf q, (change leaf q).1 = .error e := by
  refine ⟨?_, fun segs => segments_eq_ok_iff_madeOf, ?_, splitLeaf_eq_cutLast name, ?_, ?_,
    Mutation.holder_eq_holderByName create name change, ?_⟩
  · rw [validate_eq_ok_iff, wellFormed_iff]
    exact exists_congr fun segs => segments_eq_ok_iff_madeOf
  · intro as bs has hbs
    have hjoin := segments_join (segments_eq_ok_iff_madeOf.2 has) (segments_eq_ok_iff_madeOf.2 hbs)
    exact ⟨validate_eq_ok_iff.2 (wellFormed_iff.2 ⟨_, hjoin⟩), hjoin⟩
  · intro segs h
    exact leafCut_splitLeaf (segments_eq_ok_iff_madeOf.2 h)
  · intro segs parent h hparent
    have hsegs := segments_eq_ok_iff_madeOf.2 h
    rw [fields_of_segments ((leafCut_splitLeaf hsegs).segments_eq parent hparent)]
    obtain ⟨front, leaf, rfl⟩ := exists_leaf_of_segments hsegs
    rw [List.dropLast_concat]
    exact cutsInto_joins hsegs
  · intro segs p e h herror
    have hsegs := segments_eq_ok_iff_madeOf.2 h
    rw [Mutation.holder_eq_holderByName, Mutation.holderByName, hsegs] at herror
    obtain ⟨front, leaf, rfl⟩ := exists_leaf_of_segments hsegs
    rw [List.dropLast_concat]
    rcases Mutation.stopped_of_descend herror with hstop | ⟨q, hq⟩
    · exact .inl hstop
    · exact .inr ⟨leaf, q, hq⟩

/-- A name of two- and three-byte characters. Its first segment is a number, where a walk along it
stops. -/
theorem views_agree_manyBytes :
    MadeOf "größe.名前.ß" ["größe", "名前", "ß"] ∧
      segments (join "a.b" "größe.名前.ß") = .ok ["a", "b", "größe", "名前", "ß"] ∧
      LeafCut "größe.名前.ß" ["größe", "名前", "ß"] (some "größe.名前", "ß") ∧
      CutsInto "größe.名前.ß" [7, 14] ["größe", "größe.名前"] ∧
      ∃ e, (Mutation.holder false "größe.名前.ß" (fun _ q => (.ok (), q))
          ⟨[⟨"größe", [.int 1]⟩]⟩).1 = .error e ∧
        ∃ full ∈ ["größe", "größe.名前"], Mutation.Stopped full e := by
  obtain ⟨-, hmade, hjoin, -, hleaf, hbytes, hholder, herror⟩ :=
    views_agree "a.b" "größe.名前.ß" false fun _ q => (.ok (), q)
  have habove : MadeOf "a.b" ["a", "b"] := segments_eq_ok_iff_madeOf.1 rfl
  have hname : MadeOf "größe.名前.ß" ["größe", "名前", "ß"] := (hmade _).1 rfl
  have hstop : (Mutation.holder false "größe.名前.ß" (fun _ q => (.ok (), q))
      ⟨[⟨"größe", [.int 1]⟩]⟩).1 = .error (.wrongType "größe" .policy .int) := by
    rw [hholder]
    rfl
  have hstopped := (herror _ _ _ hname hstop).resolve_right fun ⟨_, _, hok⟩ => nomatch hok
  exact ⟨hname, (hjoin _ _ habove hname).2, hleaf _ hname, hbytes _ _ hname rfl, _, hstop, hstopped⟩

end Name

end PolicyTree
