import Mathlib.Data.String.Basic
import PolicyTree.Proofs.Name.Segments

namespace PolicyTree

namespace Text

def upTo (text : String) (n : Nat) : String :=
  String.Pos.Raw.extract text 0 ⟨n⟩

theorem upTo_append (s t : String) : upTo (s ++ t) s.utf8ByteSize = s := by
  have hcut := String.extract_of_valid [] s.toList t.toList
  rw [List.nil_append, String.ofList_append, String.ofList_toList, String.ofList_toList] at hcut
  have hsize := String.utf8ByteSize_ofList s.toList
  rw [String.ofList_toList] at hsize
  rw [upTo, hsize]
  simpa using hcut

end Text

namespace Name

variable {m n name above leaf : String} {segs front as bs : List String}

/-- `above` is a proper prefix of `name`. -/
def Above (above name : String) : Prop :=
  ∃ front back, segments above = .ok front ∧ segments name = .ok (front ++ back) ∧ back ≠ []

/-- Neither of two names is a prefix of the other. -/
def Apart (m n : String) : Prop :=
  ∀ as bs, segments m = .ok as → segments n = .ok bs → ¬as <+: bs ∧ ¬bs <+: as

theorem segments_join (hm : segments m = .ok as) (hn : segments n = .ok bs) :
    segments (join m n) = .ok (as ++ bs) := by
  obtain ⟨hne, has, rfl⟩ := segments_eq_ok_iff.1 hm
  obtain ⟨hbs, hbs', rfl⟩ := segments_eq_ok_iff.1 hn
  rw [join_ofSegments_append has hbs]
  exact segments_ofSegments (List.append_ne_nil_of_left_ne_nil hne bs)
    (List.forall_mem_append.2 ⟨has, hbs'⟩)

theorem segments_of_prefix (h : segments name = .ok segs) (hne : front ≠ [])
    (hfront : front <+: segs) : segments (ofSegments front) = .ok front :=
  segments_ofSegments hne fun _ hs => isLeaf_of_mem_segments h (hfront.subset hs)

theorem above_iff (h : segments name = .ok (segs ++ [leaf])) :
    Above above name ↔ ∃ front, front ≠ [] ∧ front <+: segs ∧ above = ofSegments front := by
  constructor
  · rintro ⟨front, back, ha, hn, hback⟩
    obtain ⟨hne, -, rfl⟩ := segments_eq_ok_iff.1 ha
    have heq := Except.ok.inj (h.symm.trans hn)
    obtain ⟨inner, last, rfl⟩ := (List.eq_nil_or_concat' back).resolve_left hback
    rw [← List.append_assoc] at heq
    exact ⟨front, hne, ⟨inner, (List.append_inj' heq rfl).1.symm⟩, rfl⟩
  · rintro ⟨front, hne, ⟨back, rfl⟩, rfl⟩
    rw [List.append_assoc] at h
    exact ⟨front, back ++ [leaf], segments_of_prefix h hne (List.prefix_append _ _), h,
      List.concat_ne_nil leaf back⟩

theorem splitLeaf_ofSegments (hfront : ∀ s ∈ front, isLeaf s = true) (hleaf : isLeaf leaf = true) :
    splitLeaf (ofSegments (front ++ [leaf])) =
      (if front = [] then none else some (ofSegments front), leaf) := by
  rw [splitLeaf, fields_ofSegments (List.concat_ne_nil leaf front) (isLeaf_concat hfront hleaf)]
  simp

theorem ofSegments_cons (s : String) (hne : segs ≠ []) :
    ofSegments (s :: segs) = s ++ String.singleton separator ++ ofSegments segs :=
  String.intercalate_cons_of_ne_nil hne

/-- The bytes of some segments, each with the separator after it. -/
def width : List String → Nat
  | [] => 0
  | s :: segs => s.utf8ByteSize + 1 + width segs

theorem width_concat (segs : List String) (s : String) :
    width (segs ++ [s]) = width segs + s.utf8ByteSize + 1 := by
  induction segs with
  | nil => simp [width]
  | cons t segs ih =>
    rw [List.cons_append, width, width, ih]
    omega

theorem utf8ByteSize_ofSegments (front : List String) (seg : String) :
    (ofSegments (front ++ [seg])).utf8ByteSize = width front + seg.utf8ByteSize := by
  induction front with
  | nil => simp [width]
  | cons s front ih =>
    have hsep : (String.singleton separator).utf8ByteSize = 1 := by decide
    rw [List.cons_append, ofSegments_cons s (List.concat_ne_nil seg front),
      String.utf8ByteSize_append, String.utf8ByteSize_append, ih, hsep, width]
    omega

theorem exists_ofSegments_append (hne : front ≠ []) (back : List String) :
    ∃ rest, ofSegments (front ++ back) = ofSegments front ++ rest := by
  by_cases hback : back = []
  · subst hback
    exact ⟨"", by simp⟩
  · refine ⟨String.singleton separator ++ ofSegments back, ?_⟩
    rw [ofSegments, String.intercalate_append_of_ne_nil hne hback, String.append_assoc]
    rfl

/-- A name cut after the bytes of a segment is the name of the segments up to that one. -/
theorem upTo_ofSegments (front : List String) (seg : String) (back : List String) :
    Text.upTo (ofSegments (front ++ seg :: back)) (width front + seg.utf8ByteSize) =
      ofSegments (front ++ [seg]) := by
  obtain ⟨rest, hrest⟩ := exists_ofSegments_append (List.concat_ne_nil seg front) back
  rw [← utf8ByteSize_ofSegments, List.append_cons, hrest, Text.upTo_append]

end Name

end PolicyTree
