import Mathlib.Data.List.Infix
import TypeLeak.Text.OsText

/-!
# Texts cut at separators

Cutting a list at the occurrences of one item and joining the pieces with that item undo each other.
A text of characters falls into pieces in this way at any one of its characters, and a text of the
operating system into segments at its slashes.

## Key results

- `cut_intercalate` / `intercalate_cut`: cutting and joining undo each other
- `splitAt_join` / `intercalate_splitAt`: the same of characters
- `segments_ofSegments` / `ofSegments_segments`: and of bytes at their slashes
- `eq_of_ofSegments_eq`: segments that are not empty are determined by the text they make up
-/

namespace TypeLeak

namespace Text

section Cut

variable {α : Type} {sep : α → Bool}

/-- A list without separators is one piece. -/
theorem cut_of_none {cs : List α} (h : ∀ c ∈ cs, sep c = false) : cut sep cs = [cs] := by
  induction cs with
  | nil => rfl
  | cons c cs ih =>
    have hc := h c (by simp)
    -- the first item goes to the one piece that the others make
    rw [cut, ih fun x hx => h x (by simp [hx])]
    simp [hc]

/-- Cutting loses nothing but separators. -/
theorem exists_mem_cut_iff (sep : α → Bool) {c : α} (hc : sep c = false) (cs : List α) :
    (∃ piece ∈ cut sep cs, c ∈ piece) ↔ c ∈ cs := by
  induction cs with
  | nil => simp [cut]
  | cons x xs ih =>
    rw [cut]
    -- a separator is in no piece; any other item is in the first one
    split
    · rename_i hx
      have hne : c ≠ x := by
        rintro rfl
        rw [hc] at hx
        exact Bool.false_ne_true hx
      simp [ih, hne]
    · cases hcut : cut sep xs with
      | nil => exact absurd hcut (cut_ne_nil sep xs)
      | cons piece pieces =>
        rw [hcut] at ih
        simp [← ih, or_assoc]

/-- The pieces of a list have items of the list. -/
theorem subset_of_mem_cut {cs piece : List α} (h : piece ∈ cut sep cs) : piece ⊆ cs :=
  fun c hc => (exists_mem_cut_iff sep (not_sep_of_mem_cut h c hc) cs).1 ⟨piece, h, hc⟩

/-- A list is cut where it is split. -/
theorem cut_eq_splitOnP (sep : α → Bool) (cs : List α) : cut sep cs = cs.splitOnP sep := by
  induction cs with
  | nil => rfl
  | cons c cs ih =>
    rw [List.splitOnP_cons_eq_if_modifyHead, cut, ih]
    -- the library puts an item to the first piece in its own way
    cases h : cs.splitOnP sep with
    | nil => exact absurd h (List.splitOnP_ne_nil sep cs)
    | cons piece pieces => rfl

/-- Pieces that are joined by a separator are found again. -/
theorem cut_intercalate {s : α} (hs : sep s = true) {pieces : List (List α)} (hne : pieces ≠ [])
    (h : ∀ piece ∈ pieces, ∀ c ∈ piece, sep c = false) :
    cut sep ([s].intercalate pieces) = pieces := by
  induction pieces with
  | nil => exact absurd rfl hne
  | cons piece rest ih =>
    have hpiece := cut_of_none (h piece (by simp))
    -- the last piece has no separator behind it
    cases rest with
    | nil => rw [List.intercalate_singleton, hpiece]
    | cons piece' rest =>
      rw [List.intercalate_cons_cons, List.append_assoc, List.singleton_append, cut_append _ _ hs,
        hpiece, ih (by simp) fun x hx => h x (by simp [hx])]
      rfl

/-- The pieces between the occurrences of an item, joined by it, make up the list. -/
theorem intercalate_cut [BEq α] [LawfulBEq α] (s : α) (cs : List α) :
    [s].intercalate (cut (· == s) cs) = cs := by
  rw [cut_eq_splitOnP]
  exact List.intercalate_splitOn s

/-- Only the empty list is one empty piece. -/
theorem eq_nil_of_cut {cs : List α} (h : cut sep cs = [[]]) : cs = [] := by
  cases cs with
  | nil => rfl
  | cons c cs =>
    rw [cut] at h
    split at h
    · exact absurd (List.cons.inj h).2 (cut_ne_nil _ _)
    · split at h <;> simp at h

end Cut

/-! ## Characters -/

/-- A text without the separator is one piece. -/
theorem splitAt_of_not_mem {sep : Char} {s : String} (h : sep ∉ s.toList) :
    splitAt sep s = [s] := by
  have hcut : cut (· == sep) s.toList = [s.toList] :=
    cut_of_none fun c hc => by
      simp only [beq_eq_false_iff_ne]
      rintro rfl
      exact h hc
  simp [splitAt, hcut]

/-- Pieces that are joined by a separator are found again. -/
theorem splitAt_join {sep : Char} {join : String} (hjoin : join.toList = [sep])
    {pieces : List String} (hne : pieces ≠ []) (h : ∀ s ∈ pieces, sep ∉ s.toList) :
    splitAt sep (join.intercalate pieces) = pieces := by
  have hpieces : ∀ cs ∈ pieces.map String.toList, ∀ c ∈ cs, (c == sep) = false := by
    intro cs hcs c hc
    obtain ⟨s, hs, rfl⟩ := List.mem_map.1 hcs
    simp only [beq_eq_false_iff_ne]
    rintro rfl
    exact h s hs hc
  unfold splitAt
  rw [String.toList_intercalate, hjoin, cut_intercalate (by simp) (by simpa using hne) hpieces]
  simp [Function.comp_def]

/-- The pieces of a text, with what they were separated by, make up the text. -/
theorem intercalate_splitAt {sep : Char} {join : String} (hjoin : join.toList = [sep])
    (s : String) : join.intercalate (splitAt sep s) = s := by
  apply String.toList_inj.1
  rw [String.toList_intercalate, hjoin]
  simp [splitAt, Function.comp_def, intercalate_cut]

/-- No piece holds the separator. -/
theorem not_mem_of_mem_splitAt {sep : Char} {s piece : String} (h : piece ∈ splitAt sep s) :
    sep ∉ piece.toList := by
  obtain ⟨cs, hcs, rfl⟩ := List.mem_map.1 h
  rw [String.toList_ofList]
  intro hmem
  simpa using not_sep_of_mem_cut hcs sep hmem

end Text

/-! ## Bytes -/

namespace OsText

open Text (cut)

/-- Every text has a segment, which may be empty. -/
theorem segments_ne_nil (t : OsText) : t.segments ≠ [] := by
  simp [segments, Text.cut_ne_nil]

/-- A text without a slash is one segment. -/
theorem segments_of_not_mem {t : OsText} (h : slashByte ∉ t.bytes) : t.segments = [t] := by
  have hcut : cut (· == slashByte) t.bytes = [t.bytes] :=
    Text.cut_of_none fun c hc => by
      simp only [beq_eq_false_iff_ne]
      rintro rfl
      exact h hc
  simp [segments, hcut]

/-- A text falls into the segments of its two parts where a slash stands between them. -/
theorem segments_append_slash (a b : OsText) :
    (a ++ slash ++ b).segments = a.segments ++ b.segments := by
  simp [segments, Text.cut_append]

/-- Segments joined by slashes are found again. -/
theorem segments_ofSegments {pieces : List OsText} (hne : pieces ≠ [])
    (h : ∀ piece ∈ pieces, slashByte ∉ piece.bytes) : (ofSegments pieces).segments = pieces := by
  -- none of the bytes of a piece is the slash
  have hpieces : ∀ bytes ∈ pieces.map OsText.bytes, ∀ b ∈ bytes, (b == slashByte) = false := by
    intro bytes hbytes b hb
    obtain ⟨piece, hpiece, rfl⟩ := List.mem_map.1 hbytes
    simp only [beq_eq_false_iff_ne]
    rintro rfl
    exact h piece hpiece hb
  unfold segments
  rw [bytes_ofSegments, Text.cut_intercalate (by simp) (by simpa using hne) hpieces]
  simp [Function.comp_def]

/-- The segments of a text, with slashes between them, make up the text. -/
theorem ofSegments_segments (t : OsText) : ofSegments t.segments = t :=
  ext (by simp [segments, Function.comp_def, Text.intercalate_cut])

/-- No segment holds a slash. -/
theorem not_mem_of_mem_segments {t piece : OsText} (h : piece ∈ t.segments) :
    slashByte ∉ piece.bytes := by
  obtain ⟨bytes, hbytes, rfl⟩ := List.mem_map.1 h
  intro hmem
  simpa using Text.not_sep_of_mem_cut hbytes slashByte hmem

/-- Only the empty text is one empty segment. -/
theorem eq_empty_of_segments {t : OsText} (h : t.segments = [empty]) : t = empty := by
  rw [← ofSegments_segments t, h]
  rfl

/-- No segments make the empty text. -/
@[simp] theorem ofSegments_nil : ofSegments [] = empty := rfl

/-- One segment makes itself. -/
@[simp] theorem ofSegments_singleton (piece : OsText) : ofSegments [piece] = piece :=
  ext (by simp)

/-- A slash stands between the first segment and the second. -/
theorem ofSegments_cons_cons (first second : OsText) (rest : List OsText) :
    ofSegments (first :: second :: rest) = first ++ slash ++ ofSegments (second :: rest) :=
  ext (by simp [List.intercalate_cons_cons])

/-- The segments of two parts have a slash between them. -/
theorem ofSegments_append {front back : List OsText} (hfront : front ≠ []) (hback : back ≠ []) :
    ofSegments (front ++ back) = ofSegments front ++ slash ++ ofSegments back := by
  induction front with
  | nil => exact absurd rfl hfront
  | cons first rest ih =>
    -- the slash comes behind the last segment of the front
    cases rest with
    | nil =>
      obtain ⟨second, rest, rfl⟩ := List.exists_cons_of_ne_nil hback
      rw [ofSegments_singleton, List.singleton_append, ofSegments_cons_cons]
    | cons second rest =>
      rw [List.cons_append, List.cons_append, ofSegments_cons_cons, ofSegments_cons_cons,
        ← List.cons_append, ih (by simp)]
      simp only [append_assoc]

/-- Segments that are not empty are determined by the text they make up. -/
theorem eq_of_ofSegments_eq {pieces pieces' : List OsText}
    (h : ∀ piece ∈ pieces, piece ≠ empty ∧ slashByte ∉ piece.bytes)
    (h' : ∀ piece ∈ pieces', piece ≠ empty ∧ slashByte ∉ piece.bytes)
    (heq : ofSegments pieces = ofSegments pieces') : pieces = pieces' := by
  have hsegments : ∀ {pieces : List OsText},
      (∀ piece ∈ pieces, piece ≠ empty ∧ slashByte ∉ piece.bytes) →
      (ofSegments pieces).segments.filter (· ≠ empty) = pieces := by
    intro pieces h
    by_cases hne : pieces = []
    · -- no segments make an empty text, which is one empty segment
      subst hne
      decide
    · rw [segments_ofSegments hne fun piece hpiece => (h piece hpiece).2]
      exact List.filter_eq_self.2 fun piece hpiece => by simpa using (h piece hpiece).1
  calc pieces = (ofSegments pieces).segments.filter (· ≠ empty) := (hsegments h).symm
    _ = (ofSegments pieces').segments.filter (· ≠ empty) := by rw [heq]
    _ = pieces' := hsegments h'

/-- What comes before the slash that a text ends with. -/
theorem eq_append_slash {t : OsText} (h : t.bytes.getLast? = some slashByte) :
    ∃ front : OsText, t = front ++ slash := by
  obtain ⟨bytes, hbytes⟩ := List.getLast?_eq_some_iff.1 h
  exact ⟨⟨bytes⟩, ext hbytes⟩

end OsText

end TypeLeak
