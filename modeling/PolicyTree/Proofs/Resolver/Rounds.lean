import PolicyTree.Proofs.Resolver.Promotion
import PolicyTree.Proofs.Resolver.Success

namespace PolicyTree

variable {p q x y : Policy} {load : Loader} {above leaf text : String} {v : Value}
  {path : List String} {o : Opened} {base : Path} {reference : String} {r : Resolver}
  {report : LoadReport} {k n : Nat} {d : Dictionary}

namespace Policy

theorem refersAt_putAt (hp : p.WellFormed) (hx : p.subAt? path = some x) (hy : y.WellFormed)
    {w : List String} (h : (p.putAt path y).RefersAt w text) :
    (∃ w', p.RefersAt w' text) ∨ ∃ w', y.RefersAt w' text := by
  induction path generalizing p w with
  | nil => exact .inr ⟨w, h⟩
  | cons seg path ih =>
    obtain ⟨sub, hsub, hrest⟩ := subAt?_cons_eq_some_iff.1 hx
    have hwp := hp.putAt hx hy
    rw [putAt_cons hsub] at h hwp
    obtain ⟨front, hfront, hput⟩ := exists_valuesAt?_putChild hsub
    obtain ⟨name, values, hvalues, hcase⟩ := hwp.refersAt_iff_valuesAt?.1 h
    rw [hput] at hvalues
    split at hvalues
    · obtain rfl := Option.some.inj hvalues
      rcases hcase with ⟨-, ht⟩ | ⟨sub', rest, hs, -, href⟩
      · exact .inl ⟨_, refersAt_file hfront (by simpa using ht)⟩
      · rw [List.mem_append, List.mem_singleton] at hs
        rcases hs with hs | hs
        · exact .inl ⟨_, refersAt_policy hfront (List.mem_append_left _ hs) href⟩
        · obtain rfl := Value.policy.inj hs
          rcases ih (hp.child? hsub) hrest href with ⟨w', hw'⟩ | hw'
          · exact .inl ⟨_, refersAt_policy hfront (by simp) hw'⟩
          · exact .inr hw'
    · exact .inl ⟨w, hp.refersAt_iff_valuesAt?.2 ⟨name, values, hvalues, hcase⟩⟩

theorem refersAt_promoted (hx : x.WellFormed) {reference : String} {w : List String}
    (h : (x.promoted text).RefersAt w reference) : x.RefersAt w reference ∨ reference = text := by
  obtain ⟨name, values, hvalues, hcase⟩ := (hx.promoted text).refersAt_iff_valuesAt?.1 h
  rw [Policy.valuesAt?, hx.entry?_promoted] at hvalues
  split at hvalues
  · obtain rfl := Option.some.inj hvalues
    rcases hcase with ⟨-, ht⟩ | ⟨sub, rest, hs, -⟩
    · exact .inr (by simpa using ht)
    · simp at hs
  · split at hvalues
    · cases hvalues
    · exact .inl (hx.refersAt_iff_valuesAt?.2 ⟨name, values, hvalues, hcase⟩)

theorem Promotes.refersAt {holders : List (List String)} (hq : Promotes holders p q)
    (hp : p.WellFormed) (h : q.RefersAt path text) :
    (∃ path, p.RefersAt path text) ∨ ∃ front ∈ holders, ∃ x v, p.subAt? front = some x ∧
      x.last? dictionaryFileKey = some v ∧ v.fileText? = some text := by
  induction hq with
  | done => exact .inl ⟨path, h⟩
  | @next holder later p q x v reference hx hv ht _ ih =>
    have hwx := hp.subAt? hx
    rcases ih (hp.putAt hx (hwx.promoted reference)) h with
      ⟨w, href⟩ | ⟨front, hfront, z, u, hz, hu, htext⟩
    · rcases refersAt_putAt hp hx (hwx.promoted reference) href with href | ⟨w', href⟩
      · exact .inl href
      · rcases refersAt_promoted hwx href with href | rfl
        · exact .inl ⟨_, refersAt_of_subAt? hx href⟩
        · exact .inr ⟨holder, List.mem_cons_self .., x, v, hx, hv, ht⟩
    · obtain ⟨z', u', hz', hu', heq⟩ := hp.exists_fileText?_of_putAt hx hz hu
      exact .inr ⟨front, List.mem_cons_of_mem _ hfront, z', u', hz', hu', heq.trans htext⟩

end Policy

theorem LoadReport.toResult_eq_ok_iff :
    report.toResult = .ok n ↔ report.failures = [] ∧ n = report.loaded := by
  unfold toResult
  cases report.failures with
  | nil =>
    constructor
    · intro h
      exact ⟨rfl, (Except.ok.inj h).symm⟩
    · rintro ⟨-, rfl⟩
      rfl
  | cons f failures =>
    constructor
    · intro h
      cases h
    · rintro ⟨h, -⟩
      cases h

namespace Resolver

/-- The tree and the report after a number of rounds. Before the first one the file of the
dictionary has been opened and its references have been followed; each round finds something to
promote. -/
inductive Rounds (r : Resolver) (o : Opened) : Nat → Policy → LoadReport → Prop
  | start : Rounds r o 0 (o.policy.resolve (r.loadNested [o.place] o.base) "").1
      (o.policy.resolve (r.loadNested [o.place] o.base) "").2
  | next {k n : Nat} {p q : Policy} {report : LoadReport} (h : Rounds r o k p report)
      (hp : p.promoteDictionaryFiles = .ok (q, n)) (hn : n ≠ 0) :
      Rounds r o (k + 1) (q.resolve (r.loadNested [o.place] o.base) "").1
        (report ++ (q.resolve (r.loadNested [o.place] o.base) "").2)

def runRounds (r : Resolver) (o : Opened) (limit : Nat) : Except Error (Policy × LoadReport) :=
  promoteRounds (r.loadNested [o.place] o.base) limit
    (o.policy.resolve (r.loadNested [o.place] o.base) "").1
    (o.policy.resolve (r.loadNested [o.place] o.base) "").2

def accept (p : Policy) (report : LoadReport) : Except Error Dictionary := do
  let _ ← report.toResult
  let d ← Dictionary.ofPolicy p
  d.check
  return d

theorem promoteRounds_succ_of_ok (hp : p.promoteDictionaryFiles = .ok (q, n)) (hn : n ≠ 0)
    (limit : Nat) (report : LoadReport) :
    promoteRounds load (limit + 1) p report =
      promoteRounds load limit (q.resolve load "").1 (report ++ (q.resolve load "").2) := by
  rw [promoteRounds, hp, ok_bind]
  simp only [if_neg hn]

theorem Rounds.runRounds_eq (h : r.Rounds o k p report) (limit : Nat) :
    r.runRounds o (k + limit) =
      promoteRounds (r.loadNested [o.place] o.base) limit p report := by
  induction h generalizing limit with
  | start => rw [Nat.zero_add, runRounds]
  | next h hp hn ih =>
    rw [Nat.add_right_comm, Nat.add_assoc, ih, promoteRounds_succ_of_ok hp hn]

theorem length_dictionaryFileHolders (hp : p.promoteDictionaryFiles = .ok (q, n)) :
    p.dictionaryFileHolders.length = n ∧ (p.dictionaryFileHolders = [] → q = p) := by
  obtain ⟨q', hq', heq⟩ := bind_eq_ok_iff.1 hp
  obtain ⟨rfl, rfl⟩ := Prod.mk.inj (Except.ok.inj heq)
  refine ⟨rfl, fun hnil => ?_⟩
  rw [hnil] at hq'
  exact (Except.ok.inj hq').symm

/-- A run of rounds stops at the limit, where nothing is left to promote, or where a promotion
fails. -/
theorem exists_rounds (r : Resolver) (o : Opened) (limit : Nat) :
    ∃ k ≤ limit, ∃ p report, r.Rounds o k p report ∧
      (((k = limit ∨ p.dictionaryFileHolders = []) ∧ r.runRounds o limit = .ok (p, report)) ∨
        ∃ e, p.promoteDictionaryFiles = .error e ∧ r.runRounds o limit = .error e) := by
  have hfrom : ∀ m k p report, r.Rounds o k p report → ∃ j ≤ m, ∃ p' report',
      r.Rounds o (k + j) p' report' ∧
        (((j = m ∨ p'.dictionaryFileHolders = []) ∧
            promoteRounds (r.loadNested [o.place] o.base) m p report = .ok (p', report')) ∨
          ∃ e, p'.promoteDictionaryFiles = .error e ∧
            promoteRounds (r.loadNested [o.place] o.base) m p report = .error e) := by
    intro m
    induction m with
    | zero =>
      intro k p report h
      exact ⟨0, Nat.le_refl _, p, report, h, .inl ⟨.inl rfl, rfl⟩⟩
    | succ m ih =>
      intro k p report h
      cases hp : p.promoteDictionaryFiles with
      | error e =>
        refine ⟨0, Nat.zero_le _, p, report, h, .inr ⟨e, hp, ?_⟩⟩
        rw [promoteRounds, hp, error_bind]
      | ok promoted =>
        obtain ⟨q, n⟩ := promoted
        by_cases hn : n = 0
        · obtain ⟨hlen, hsame⟩ := length_dictionaryFileHolders hp
          have hnil : p.dictionaryFileHolders = [] := List.length_eq_zero_iff.1 (hlen.trans hn)
          refine ⟨0, Nat.zero_le _, p, report, h, .inl ⟨.inr hnil, ?_⟩⟩
          rw [promoteRounds, hp, ok_bind]
          simp only [if_pos hn, hsame hnil]
          rfl
        · obtain ⟨j, hj, p', report', hrounds, hcase⟩ := ih (k + 1) _ _ (h.next hp hn)
          rw [← promoteRounds_succ_of_ok hp hn] at hcase
          rw [Nat.add_right_comm, Nat.add_assoc] at hrounds
          refine ⟨j + 1, Nat.succ_le_succ hj, p', report', hrounds, ?_⟩
          rwa [Nat.add_right_cancel_iff]
  obtain ⟨k, hk, p, report, h, hcase⟩ := hfrom limit 0 _ _ .start
  rw [Nat.zero_add] at h
  exact ⟨k, hk, p, report, h, hcase⟩

theorem loadDictionary_of_opens (ho : r.Opens base reference o) :
    r.loadDictionary reference base =
      (r.runRounds o r.limits.maxDepth >>= fun result => accept result.1 result.2) := by
  obtain ⟨file, content, hd, hread, hparse⟩ := ho
  have hpolicy : r.readPolicy file = .ok (o.place, o.policy) := by
    rw [readPolicy, hread]
    simp only [hparse]
  rw [loadDictionary, locate_eq_ok_iff.2 hd, ok_bind]
  simp only [hpolicy, ok_bind]
  rfl

theorem opens_of_readPolicy {located : Located} {place : Place}
    (hlocate : r.locate reference base = .ok located)
    (hpolicy : r.readPolicy located.file = .ok (place, p)) :
    r.Opens base reference ⟨place, located.base, p⟩ := by
  unfold readPolicy at hpolicy
  split at hpolicy
  · cases hpolicy
  · rename_i place' content hread
    split at hpolicy
    · cases hpolicy
    · rename_i p' hparse
      obtain ⟨rfl, rfl⟩ := Prod.mk.inj (Except.ok.inj hpolicy)
      exact ⟨located.file, content, locate_eq_ok_iff.1 hlocate, hread, hparse⟩

theorem opens_of_loadDictionary (h : r.loadDictionary reference base = .ok d) :
    ∃ o, r.Opens base reference o := by
  obtain ⟨located, hlocate, h⟩ := bind_eq_ok_iff.1 h
  obtain ⟨⟨place, p⟩, hpolicy, -⟩ := bind_eq_ok_iff.1 h
  exact ⟨_, opens_of_readPolicy hlocate hpolicy⟩

theorem accept_eq_ok_iff :
    accept p report = .ok d ↔
      d.policy = p ∧ report.failures = [] ∧ d.check = .ok ⟨⟩ := by
  unfold accept
  rw [bind_eq_ok_iff]
  constructor
  · rintro ⟨n, hn, h⟩
    obtain ⟨d', hd', h⟩ := bind_eq_ok_iff.1 h
    obtain ⟨⟨⟩, hcheck, h⟩ := bind_eq_ok_iff.1 h
    obtain rfl := Except.ok.inj h
    exact ⟨Dictionary.policy_of_ofPolicy hd', (LoadReport.toResult_eq_ok_iff.1 hn).1, hcheck⟩
  · rintro ⟨rfl, hnone, hcheck⟩
    refine ⟨_, LoadReport.toResult_eq_ok_iff.2 ⟨hnone, rfl⟩, ?_⟩
    rw [Dictionary.ofPolicy, dif_pos d.hasDefinitions, ok_bind, hcheck]
    rfl

/-- A dictionary is loaded if the file opens, the rounds come to their end with nothing left or at
the limit, none of the references fails, and the tree passes the check. -/
theorem loadDictionary_eq_ok_iff :
    r.loadDictionary reference base = .ok d ↔
      ∃ o k report, r.Opens base reference o ∧ r.Rounds o k d.policy report ∧
        k ≤ r.limits.maxDepth ∧
        (k = r.limits.maxDepth ∨ d.policy.dictionaryFileHolders = []) ∧
        report.failures = [] ∧ d.check = .ok ⟨⟩ := by
  constructor
  · intro h
    obtain ⟨o, ho⟩ := opens_of_loadDictionary h
    rw [loadDictionary_of_opens ho] at h
    obtain ⟨⟨p, report⟩, hrun, h⟩ := bind_eq_ok_iff.1 h
    obtain ⟨hd, hnone, hcheck⟩ := accept_eq_ok_iff.1 h
    obtain ⟨k, hk, p', report', hrounds, ⟨hend, heq⟩ | ⟨e, -, heq⟩⟩ :=
      r.exists_rounds o r.limits.maxDepth
    · rw [hrun] at heq
      obtain ⟨rfl, rfl⟩ := Prod.mk.inj (Except.ok.inj heq)
      subst hd
      exact ⟨o, k, report, ho, hrounds, hk, hend, hnone, hcheck⟩
    · rw [hrun] at heq
      cases heq
  · rintro ⟨o, k, report, ho, hrounds, hk, hend, hnone, hcheck⟩
    rw [loadDictionary_of_opens ho]
    refine bind_eq_ok_iff.2 ⟨(d.policy, report), ?_, accept_eq_ok_iff.2 ⟨rfl, hnone, hcheck⟩⟩
    obtain ⟨m, hm⟩ := Nat.exists_eq_add_of_le hk
    rw [hm, hrounds.runRounds_eq]
    cases m with
    | zero => rfl
    | succ m =>
      have hnil : d.policy.dictionaryFileHolders = [] := hend.resolve_left (by omega)
      have hpromote : d.policy.promoteDictionaryFiles = .ok (d.policy, 0) := by
        rw [Policy.promoteDictionaryFiles, hnil]
        rfl
      rw [promoteRounds, hpromote, ok_bind]
      rfl

theorem Rounds.wellFormed (h : r.Rounds o k p report) (ho : o.policy.WellFormed) :
    p.WellFormed := by
  have hpass : ∀ {q : Policy}, q.WellFormed →
      (q.resolve (r.loadNested [o.place] o.base) "").1.WellFormed := fun hq =>
    (hq.refines_resolve (r.refining_loadNested [o.place] o.base)).wellFormed hq
  induction h with
  | start => exact hpass ho
  | next h hp hn ih => exact hpass (ih.promotes (ih.promoteDictionaryFiles_eq_ok_iff.1 hp).1)

theorem Rounds.not_refersAt (h : r.Rounds o k p report) (ho : o.policy.WellFormed)
    (hnone : report.failures = []) (path : List String) (text : String) :
    ¬p.RefersAt path text := by
  cases h with
  | start => exact ho.not_refersAt_resolve hnone path text
  | next h hp hn =>
    rw [LoadReport.failures_append, List.append_eq_nil_iff] at hnone
    have hw := h.wellFormed ho
    have hq := hw.promotes (hw.promoteDictionaryFiles_eq_ok_iff.1 hp).1
    exact hq.not_refersAt_resolve hnone.2 path text

theorem Rounds.unique {p' : Policy} {report' : LoadReport} (h : r.Rounds o k p report)
    (h' : r.Rounds o k p' report') : p = p' ∧ report = report' := by
  induction h generalizing p' report' with
  | start =>
    cases h'
    exact ⟨rfl, rfl⟩
  | next _ hp _ ih =>
    cases h' with
    | next h' hp' _ =>
      obtain ⟨rfl, rfl⟩ := ih h'
      obtain ⟨rfl, -⟩ := Prod.mk.inj (Except.ok.inj (hp.symm.trans hp'))
      exact ⟨rfl, rfl⟩

theorem Rounds.failures_start (h : r.Rounds o k p report) (hnone : report.failures = []) :
    (o.policy.resolve (r.loadNested [o.place] o.base) "").2.failures = [] := by
  induction h with
  | start => exact hnone
  | next _ _ _ ih =>
    rw [LoadReport.failures_append, List.append_eq_nil_iff] at hnone
    exact ih hnone.1

theorem Rounds.promoted_of_lt {j : Nat} {p' : Policy} {report' : LoadReport}
    (h : r.Rounds o k p report) (hnone : report.failures = []) (hj : j < k)
    (h' : r.Rounds o j p' report') :
    ∃ q n, p'.promoteDictionaryFiles = .ok (q, n) ∧ report'.failures = [] ∧
      (q.resolve (r.loadNested [o.place] o.base) "").2.failures = [] := by
  induction h with
  | start => exact absurd hj (Nat.not_lt_zero j)
  | @next k n p q report h hp _ ih =>
    rw [LoadReport.failures_append, List.append_eq_nil_iff] at hnone
    rcases Nat.lt_succ_iff_lt_or_eq.1 hj with hj | rfl
    · exact ih hnone.1 hj
    · obtain ⟨rfl, rfl⟩ := h'.unique h
      exact ⟨q, n, hp, hnone⟩

/-- As long as nothing fails, each reference that a round has promoted is loaded, from the base of
the first file and with no other file around it. -/
theorem Rounds.loads {j : Nat} {p' : Policy} {report' : LoadReport} (h : r.Rounds o k p report)
    (ho : o.policy.WellFormed) (hnone : report.failures = []) (hj : j < k)
    (h' : r.Rounds o j p' report') (hq : p'.promoteDictionaryFiles = .ok (q, n))
    (href : q.RefersAt path text) : ∃ o', r.Loads [o.place] o.base text o' := by
  obtain ⟨q', n', hq', -, hqnone⟩ := h.promoted_of_lt hnone hj h'
  obtain ⟨rfl, -⟩ := Prod.mk.inj (Except.ok.inj (hq.symm.trans hq'))
  have hw := h'.wellFormed ho
  have hwq := hw.promotes (hw.promoteDictionaryFiles_eq_ok_iff.1 hq).1
  obtain ⟨l, hl, -⟩ := hwq.failures_resolve_eq_nil_iff.1 hqnone path text href
  obtain ⟨o', ho', -⟩ := loadNested_eq_ok_iff.1 hl
  exact ⟨o', ho'⟩

theorem Rounds.le_of_done {j : Nat} {p' : Policy} {report' : LoadReport} (h : r.Rounds o k p report)
    (hdone : p.dictionaryFileHolders = []) (h' : r.Rounds o j p' report') : j ≤ k := by
  induction h' with
  | start => exact Nat.zero_le k
  | next h' hp hn ih =>
    apply Nat.lt_of_le_of_ne ih
    rintro rfl
    obtain ⟨rfl, -⟩ := h.unique h'
    obtain ⟨hlen, -⟩ := length_dictionaryFileHolders hp
    rw [hdone] at hlen
    exact hn hlen.symm

/-- As long as nothing fails, what is still to be promoted lies within as many nested dictionaries
as there were rounds. -/
theorem Rounds.le_count (h : r.Rounds o k p report) (ho : o.policy.WellFormed)
    (hnone : report.failures = []) (hpath : path ∈ p.holderPaths) :
    k ≤ path.count dictionaryKey := by
  induction h generalizing path with
  | start => exact Nat.zero_le _
  | @next k _ p q report h hp _ ih =>
    rw [LoadReport.failures_append, List.append_eq_nil_iff] at hnone
    have hw := h.wellFormed ho
    obtain ⟨hpromotes, -⟩ := hw.promoteDictionaryFiles_eq_ok_iff.1 hp
    have hwq := hw.promotes hpromotes
    have hwl := (h.next hp ‹_›).wellFormed ho
    obtain ⟨hne, y, hy, hfile⟩ := hwl.mem_holderPaths_iff.1 hpath
    rcases hwq.subAt?_resolve_cases hnone.2 hy with
      ⟨x, name, hx, hxnone, rfl⟩ | ⟨front, leaf, rest, x, text, name, l, rfl, hx, hlast, -⟩
    · -- What was there before the pass has been promoted.
      have hsame := isSome_eq_of_rel ((hwq.subAt? hx).rel_last?_resolve hxnone dictionaryFileKey)
      have hmem := hwq.mem_holderPaths_iff.2 ⟨hne, x, hx, hsame.trans hfile⟩
      rw [hpromotes.holderPaths_eq_nil hw] at hmem
      cases hmem
    · -- What the pass has loaded lies below a reference that was promoted.
      rcases hpromotes.last? hw hx hlast with ⟨z, v, hz, hv, hshape, -⟩ | ⟨hfront, rfl, -⟩
      · obtain rfl := Value.shape_eq_file_iff.1 hshape
        exact absurd (Policy.refersAt_of_last? hz hv) (h.not_refersAt ho hnone.1 _ _)
      · rw [List.count_append, List.count_cons_self]
        have hcount := ih hnone.1 hfront
        omega

end Resolver

end PolicyTree
