import Mathlib.Data.List.DropRight
import TypeLeak.Prompt
import TypeLeak.Proofs.PathNames

/-!
# The names in a typed line

Where there are no candidates the operator types a line of names.  Commas stand between the pieces
of the line; each piece holds one name with blanks around it, or is blank and holds none.  So what
can be named this way is what is not empty, holds no comma and has no blank at either end.

## Key results

- `trimChars_eq_iff`, `trim_eq_iff`: what is left of a text without the blanks at its ends
- `names_eq_iff`: the names in a line are those that it is typed for
- `names_typed`: and they can be typed again with commas alone
-/

namespace TypeLeak

namespace Text

/-! ## Trimming -/

/-- What is left of a text after the blanks at its beginning begins with no blank. -/
private theorem not_blank_of_head?_dropWhile {cs : List Char} {c : Char}
    (h : (cs.dropWhile isBlank).head? = some c) : isBlank c = false := by
  have hnot := List.head?_dropWhile_not isBlank cs
  rwa [h] at hnot

/-- What is taken away at the end comes behind what is left. -/
private theorem trimChars_append (cs : List Char) :
    trimChars cs ++ (cs.dropWhile isBlank).rtakeWhile isBlank = cs.dropWhile isBlank :=
  List.rdropWhile_append_rtakeWhile

/-- No blank is left at the beginning of a text. -/
theorem not_blank_of_head?_trimChars {cs : List Char} {c : Char}
    (h : (trimChars cs).head? = some c) : isBlank c = false := by
  apply not_blank_of_head?_dropWhile
  rw [← trimChars_append, List.head?_append, h]
  rfl

/-- No blank is left at the end of a text. -/
theorem not_blank_of_getLast?_trimChars {cs : List Char} {c : Char}
    (h : (trimChars cs).getLast? = some c) : isBlank c = false := by
  apply not_blank_of_head?_dropWhile
  rwa [trimChars, List.getLast?_reverse] at h

/-- Nothing but blanks is taken away at the two ends. -/
theorem exists_blanks_around (cs : List Char) :
    ∃ before after, (∀ c ∈ before, isBlank c = true) ∧ (∀ c ∈ after, isBlank c = true) ∧
      cs = before ++ (trimChars cs ++ after) := by
  refine ⟨cs.takeWhile isBlank, (cs.dropWhile isBlank).rtakeWhile isBlank,
    fun c hc => List.mem_takeWhile_imp hc, fun c hc => List.mem_rtakeWhile_imp hc, ?_⟩
  rw [trimChars_append, List.takeWhile_append_dropWhile]

/-- What neither begins nor ends with a blank is left when blanks stand around it. -/
theorem trimChars_blanks_around {before mid after : List Char}
    (hbefore : ∀ c ∈ before, isBlank c = true) (hafter : ∀ c ∈ after, isBlank c = true)
    (hhead : ∀ c ∈ mid.head?, isBlank c = false) (hlast : ∀ c ∈ mid.getLast?, isBlank c = false) :
    trimChars (before ++ (mid ++ after)) = mid := by
  unfold trimChars
  rw [List.dropWhile_append_of_pos hbefore]
  cases mid with
  | nil =>
    -- with nothing in between, the blanks behind go with those before
    rw [List.nil_append, List.dropWhile_eq_nil_iff.2 hafter]
    rfl
  | cons c mid =>
    have hc : ¬ isBlank c = true := Bool.eq_false_iff.1 (hhead c rfl)
    have hafter : ∀ x ∈ after.reverse, isBlank x = true := fun x hx =>
      hafter x (List.mem_reverse.1 hx)
    -- the last character stops what is taken away at the end
    have hself : (c :: mid).rdropWhile isBlank = c :: mid :=
      List.rdropWhile_eq_self_iff.2 fun hne =>
        Bool.eq_false_iff.1 (hlast _ (List.getLast?_eq_some_getLast hne))
    rw [List.cons_append, List.dropWhile_cons_of_neg hc, ← List.cons_append, List.reverse_append,
      List.dropWhile_append_of_pos hafter]
    exact hself

/-- Trimming takes away the blanks at both ends and nothing else. -/
theorem trimChars_eq_iff {cs mid : List Char} :
    trimChars cs = mid ↔
      (∃ before after, (∀ c ∈ before, isBlank c = true) ∧ (∀ c ∈ after, isBlank c = true) ∧
        cs = before ++ (mid ++ after)) ∧
      (∀ c ∈ mid.head?, isBlank c = false) ∧ ∀ c ∈ mid.getLast?, isBlank c = false := by
  constructor
  · rintro rfl
    exact ⟨exists_blanks_around cs, fun c => not_blank_of_head?_trimChars,
      fun c => not_blank_of_getLast?_trimChars⟩
  · rintro ⟨⟨before, after, hbefore, hafter, rfl⟩, hhead, hlast⟩
    exact trimChars_blanks_around hbefore hafter hhead hlast

/-- Nothing is left of a text that has only blanks. -/
theorem trimChars_eq_nil_iff {cs : List Char} : trimChars cs = [] ↔ ∀ c ∈ cs, isBlank c = true := by
  rw [trimChars_eq_iff]
  constructor
  · rintro ⟨⟨before, after, hbefore, hafter, rfl⟩, -⟩
    exact List.forall_mem_append.2 ⟨hbefore, hafter⟩
  · intro hblank
    exact ⟨⟨cs, [], hblank, nofun, by simp⟩, nofun, nofun⟩

/-- A text of blanks alone. -/
def IsBlankText (s : String) : Prop := ∀ c ∈ s.toList, isBlank c = true

instance (s : String) : Decidable (IsBlankText s) :=
  decidable_of_iff (s.toList.all isBlank = true) List.all_eq_true

/-- A text without a blank at either end. -/
def IsTrimmed (s : String) : Prop :=
  (∀ c ∈ s.toList.head?, isBlank c = false) ∧ ∀ c ∈ s.toList.getLast?, isBlank c = false

/-- Trimming a text takes away the blanks at both ends and nothing else. -/
theorem trim_eq_iff {s t : String} :
    trim s = t ↔
      (∃ before after, IsBlankText before ∧ IsBlankText after ∧ s = before ++ t ++ after) ∧
        IsTrimmed t := by
  -- texts are equal if their characters are
  have htext : trim s = t ↔ trimChars s.toList = t.toList := by
    rw [← String.toList_inj, trim, String.toList_ofList]
  rw [htext, trimChars_eq_iff]
  constructor
  · rintro ⟨⟨before, after, hbefore, hafter, hs⟩, htrimmed⟩
    refine ⟨⟨String.ofList before, String.ofList after, ?_, ?_, ?_⟩, htrimmed⟩
    · simpa [IsBlankText] using hbefore
    · simpa [IsBlankText] using hafter
    · apply String.toList_inj.1
      simpa using hs
  · rintro ⟨⟨before, after, hbefore, hafter, rfl⟩, htrimmed⟩
    exact ⟨⟨before.toList, after.toList, hbefore, hafter, by simp⟩, htrimmed⟩

/-- A text is left as it is exactly if it has no blank at either end. -/
theorem trim_eq_self_iff {s : String} : trim s = s ↔ IsTrimmed s := by
  rw [trim_eq_iff]
  -- there are blanks around it in any case, if only none
  exact and_iff_right ⟨"", "", nofun, nofun, by simp⟩

instance (s : String) : Decidable (IsTrimmed s) := decidable_of_iff (trim s = s) trim_eq_self_iff

/-- Nothing is left exactly of a text of blanks. -/
theorem trim_eq_empty_iff {s : String} : trim s = "" ↔ IsBlankText s := by
  unfold IsBlankText
  rw [← trimChars_eq_nil_iff, trim, ← String.toList_inj, String.toList_ofList]
  rfl

end Text

namespace Prompt

open Text

/-! ## Typed lines -/

/-- What can be named in a typed line. -/
structure IsTypable (name : String) : Prop where
  ne_empty : name ≠ ""
  comma_not_mem : ',' ∉ name.toList
  trimmed : IsTrimmed name

instance (name : String) : Decidable (IsTypable name) :=
  decidable_of_iff (name ≠ "" ∧ ',' ∉ name.toList ∧ IsTrimmed name)
    ⟨fun ⟨hne, hcomma, htrimmed⟩ => ⟨hne, hcomma, htrimmed⟩,
      fun ⟨hne, hcomma, htrimmed⟩ => ⟨hne, hcomma, htrimmed⟩⟩

/-- The names that the pieces of a line hold: a name has a piece for itself, with blanks around it,
    and any other piece is blank. -/
inductive Hold : List String → List String → Prop where
  | nil : Hold [] []
  | blank {piece : String} {pieces names : List String} :
      IsBlankText piece → Hold pieces names → Hold (piece :: pieces) names
  | name {before name after : String} {pieces names : List String} :
      IsBlankText before → IsBlankText after → IsTypable name → Hold pieces names →
      Hold ((before ++ name ++ after) :: pieces) (name :: names)

/-- A line is typed for these names: it has pieces that hold them, with commas in between. -/
def TypedFor (line : String) (names : List String) : Prop :=
  ∃ pieces, Hold pieces names ∧ line = ",".intercalate pieces

variable {piece line : String} {pieces found : List String}

/-- A comma is no blank. -/
theorem comma_not_mem_of_isBlankText (h : IsBlankText piece) : ',' ∉ piece.toList := by
  intro hmem
  exact absurd (h ',' hmem) (by decide)

/-- A piece without a comma holds at most one name. -/
theorem names_of_comma_not_mem (h : ',' ∉ piece.toList) :
    names piece = [trim piece].filter (· ≠ "") := by
  unfold names
  rw [splitAt_of_not_mem h]
  rfl

/-- A blank piece holds no name. -/
theorem names_of_isBlankText (h : IsBlankText piece) : names piece = [] := by
  rw [names_of_comma_not_mem (comma_not_mem_of_isBlankText h), trim_eq_empty_iff.2 h]
  rfl

/-- A name with blanks around it is read as that name. -/
theorem names_of_isTypable {before name after : String} (hbefore : IsBlankText before)
    (hafter : IsBlankText after) (h : IsTypable name) : names (before ++ name ++ after) = [name] := by
  -- the piece has no comma, so it is the only one
  have hcomma : ',' ∉ (before ++ name ++ after).toList := by
    simp [comma_not_mem_of_isBlankText hbefore, comma_not_mem_of_isBlankText hafter,
      h.comma_not_mem]
  have htrim : trim (before ++ name ++ after) = name :=
    trim_eq_iff.2 ⟨⟨before, after, hbefore, hafter, rfl⟩, h.trimmed⟩
  rw [names_of_comma_not_mem hcomma, htrim]
  simp [h.ne_empty]

/-- The first piece of a line holds the first names. -/
theorem names_intercalate_cons (piece : String) (pieces : List String) :
    names (",".intercalate (piece :: pieces)) = names piece ++ names (",".intercalate pieces) := by
  cases pieces with
  | nil =>
    -- no piece behind it makes an empty text, which holds no name
    have hnone : names "" = [] := rfl
    rw [String.intercalate_singleton, String.intercalate_nil, hnone, List.append_nil]
  | cons next pieces => rw [String.intercalate_cons_cons, names_append]

/-- The names that pieces hold are read from the line that they make. -/
theorem Hold.names_eq (h : Hold pieces found) : names (",".intercalate pieces) = found := by
  -- piece by piece, each in front of a line with the others
  induction h with
  | nil => rfl
  | blank hblank _ ih => rw [names_intercalate_cons, names_of_isBlankText hblank, ih, List.nil_append]
  | name hbefore hafter hname _ ih =>
    rw [names_intercalate_cons, names_of_isTypable hbefore hafter hname, ih, List.singleton_append]

/-- What pieces hold can be typed. -/
theorem Hold.isTypable (h : Hold pieces found) : ∀ name ∈ found, IsTypable name := by
  induction h with
  | nil => nofun
  | blank _ _ ih => exact ih
  | name _ _ hname _ ih => exact List.forall_mem_cons.2 ⟨hname, ih⟩

/-- Names hold themselves. -/
theorem hold_self (h : ∀ name ∈ found, IsTypable name) : Hold found found := by
  induction found with
  | nil => exact .nil
  | cons name found ih =>
    obtain ⟨hname, hfound⟩ := List.forall_mem_cons.1 h
    -- a name alone is a name with no blanks around it
    have hbare : Hold (("" ++ name ++ "") :: found) (name :: found) :=
      .name nofun nofun hname (ih hfound)
    simpa using hbare

/-- Pieces without commas hold what is left of them, as far as that is not empty. -/
theorem hold_trim (h : ∀ piece ∈ pieces, ',' ∉ piece.toList) :
    Hold pieces ((pieces.map trim).filter (· ≠ "")) := by
  induction pieces with
  | nil => exact .nil
  | cons piece pieces ih =>
    obtain ⟨hpiece, hpieces⟩ := List.forall_mem_cons.1 h
    rw [List.map_cons]
    by_cases hempty : trim piece = ""
    · rw [List.filter_cons_of_neg (by simpa using hempty)]
      exact .blank (trim_eq_empty_iff.1 hempty) (ih hpieces)
    · -- what is left of the piece can be typed: its commas would be commas of the piece
      rw [List.filter_cons_of_pos (by simpa using hempty)]
      obtain ⟨⟨before, after, hbefore, hafter, heq⟩, htrimmed⟩ :=
        trim_eq_iff.1 (Eq.refl (trim piece))
      have hcomma : ',' ∉ (trim piece).toList := by
        rw [heq] at hpiece
        simp only [String.toList_append, List.mem_append, not_or] at hpiece
        exact hpiece.1.2
      have hfirst := Hold.name hbefore hafter ⟨hempty, hcomma, htrimmed⟩ (ih hpieces)
      rwa [← heq] at hfirst

/-- Every line is typed for the names in it. -/
theorem typedFor_names (line : String) : TypedFor line (names line) :=
  ⟨splitAt ',' line, hold_trim fun _ => not_mem_of_mem_splitAt, (intercalate_splitAt rfl line).symm⟩

/-- The names in a line are those that it is typed for. -/
theorem names_eq_iff : names line = found ↔ TypedFor line found := by
  constructor
  · rintro rfl
    exact typedFor_names line
  · rintro ⟨pieces, hpieces, rfl⟩
    exact hpieces.names_eq

/-- A line has the names that it is typed for, wherever blanks and blank pieces stand in it, and
    each line is typed for some.  They are texts that can be typed, and typing them with commas
    alone gives the same names. -/
theorem names_typed (line : String) :
    (∀ found, names line = found ↔ TypedFor line found) ∧
      (∀ name ∈ names line, IsTypable name) ∧
      names (",".intercalate (names line)) = names line := by
  obtain ⟨pieces, hpieces, -⟩ := typedFor_names line
  refine ⟨fun found => names_eq_iff, hpieces.isTypable, ?_⟩
  exact (hold_self hpieces.isTypable).names_eq

/-- A line with an ideographic space and a no-break space around one name, a blank piece before it
    and an empty one at the end. -/
theorem names_typed_padded :
    let line := "src/a b.ts\t, ,\u3000lib/c.ts\u00a0,"
    TypedFor line ["src/a b.ts", "lib/c.ts"] ∧ "lib/c.ts" ∈ names line ∧
      names line = ["src/a b.ts", "lib/c.ts"] ∧ IsTypable "lib/c.ts" ∧
      names "src/a b.ts,lib/c.ts" = names line := by
  intro line
  -- piece by piece, with the blanks around each name
  have hpieces : Hold ["" ++ "src/a b.ts" ++ "\t", " ", "\u3000" ++ "lib/c.ts" ++ "\u00a0", ""]
      ["src/a b.ts", "lib/c.ts"] :=
    .name (by decide) (by decide) (by decide) <| .blank (by decide) <|
      .name (by decide) (by decide) (by decide) <| .blank (by decide) .nil
  have hline : TypedFor line ["src/a b.ts", "lib/c.ts"] := ⟨_, hpieces, by decide⟩
  obtain ⟨hread, htypable, hagain⟩ := names_typed line
  have hnames := (hread _).2 hline
  have hmem : "lib/c.ts" ∈ names line := by
    rw [hnames]
    simp
  refine ⟨hline, hmem, hnames, htypable _ hmem, ?_⟩
  rwa [hnames] at hagain ⊢

end Prompt

end TypeLeak
