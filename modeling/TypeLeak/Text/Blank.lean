/-! # Blank characters, trimming and splitting

A character is *blank* when Unicode gives it the property White_Space: the ASCII blanks, U+0085,
U+00A0, U+1680, U+2000 to U+200A, U+2028, U+2029, U+202F, U+205F and U+3000.  The zero-width
characters U+200B and U+FEFF and the separators U+001C to U+001F are not blank.

Everything is defined on lists of characters; the versions on `String` only wrap them.  A list of
anything else can be cut at separators as well.

* `cut_ne_nil`     a cut has at least one piece
* `cut_append`     a separator between two texts separates their pieces
* `trimChars_concat`  a blank at the end of a text is trimmed away
* `mem_words`      a word is not empty and holds no blank
-/

namespace TypeLeak.Text

/-- Unicode's White_Space property. -/
def isBlank (c : Char) : Bool :=
  ('\t' ≤ c && c ≤ '\r') || c == ' ' || c == '\u0085' || c == '\u00a0' || c == '\u1680' ||
    ('\u2000' ≤ c && c ≤ '\u200a') || c == '\u2028' || c == '\u2029' || c == '\u202f' ||
    c == '\u205f' || c == '\u3000'

/-- The characters between the first and the last one that is not blank. -/
def trimChars (cs : List Char) : List Char :=
  ((cs.dropWhile isBlank).reverse.dropWhile isBlank).reverse

section Cut

variable {α : Type}

/-- The pieces between the items that satisfy `sep`, empty ones included. -/
def cut (sep : α → Bool) : List α → List (List α)
  | [] => [[]]
  | c :: cs =>
    if sep c then [] :: cut sep cs
    else match cut sep cs with
      | [] => [[c]]
      | piece :: pieces => (c :: piece) :: pieces

/-- There is always a piece. -/
theorem cut_ne_nil (sep : α → Bool) (cs : List α) : cut sep cs ≠ [] := by
  cases cs with
  | nil => simp [cut]
  | cons c cs =>
    simp only [cut]
    split
    · simp
    · split <;> simp

/-- A separator between two texts separates their pieces. -/
theorem cut_append (sep : α → Bool) (xs : List α) {s : α} (hs : sep s = true)
    (ys : List α) : cut sep (xs ++ s :: ys) = cut sep xs ++ cut sep ys := by
  induction xs with
  | nil => simp [cut, hs]
  | cons x xs ih =>
    simp only [List.cons_append, cut]
    split
    · rw [ih, List.cons_append]
    · rw [ih]
      -- the first character goes to the first piece, and there is one
      cases h : cut sep xs with
      | nil => exact absurd h (cut_ne_nil sep xs)
      | cons piece pieces => rfl

/-- No piece holds a separator. -/
theorem not_sep_of_mem_cut {sep : α → Bool} {cs piece : List α} (h : piece ∈ cut sep cs) :
    ∀ c ∈ piece, sep c = false := by
  induction cs generalizing piece with
  | nil => simp [cut] at h; simp [h]
  | cons x xs ih =>
    simp only [cut] at h
    split at h
    · -- a separator begins a piece of its own, which is empty so far
      rcases List.mem_cons.1 h with rfl | h
      · simp
      · exact ih h
    · rename_i hx
      split at h
      · simp at h
        simp [h, hx]
      · -- any other character goes to the first piece
        rename_i first pieces heq
        rcases List.mem_cons.1 h with rfl | h
        · intro c hc
          rcases List.mem_cons.1 hc with rfl | hc
          · simpa using hx
          · exact ih (heq ▸ List.mem_cons_self ..) c hc
        · exact ih (heq ▸ List.mem_cons_of_mem _ h)

end Cut

/-- A blank at the end of a text is trimmed away. -/
theorem trimChars_concat (cs : List Char) {c : Char} (hc : isBlank c = true) :
    trimChars (cs ++ [c]) = trimChars cs := by
  unfold trimChars
  rw [List.dropWhile_append]
  by_cases hcs : cs.dropWhile isBlank = []
  · simp [hcs, hc]
  · simp [hcs, hc]

/-- What stands on a line before the line feed that ends it.  A carriage return there belongs to the
    end of the line. -/
def withoutReturn (line : List Char) : List Char :=
  if line.getLast? = some '\r' then line.dropLast else line

/-- What stands before each line feed and, unless that is nothing, after the last one. -/
def lineChars (cs : List Char) : List (List Char) :=
  let pieces := cut (· == '\n') cs
  pieces.dropLast.map withoutReturn ++ pieces.getLast?.toList.filter (· ≠ [])

/-- Trimming takes the carriage return away as well. -/
theorem trimChars_withoutReturn (line : List Char) :
    trimChars (withoutReturn line) = trimChars line := by
  unfold withoutReturn
  split
  · rename_i h
    obtain ⟨front, rfl⟩ := List.getLast?_eq_some_iff.1 h
    rw [List.dropLast_concat, trimChars_concat front (by decide)]
  · rfl

/-- The maximal runs of characters that are not blank. -/
def wordChars (cs : List Char) : List (List Char) :=
  (cut isBlank cs).filter (· ≠ [])

/-- A word is not empty and holds no blank. -/
theorem mem_words {cs w : List Char} (h : w ∈ wordChars cs) :
    w ≠ [] ∧ ∀ c ∈ w, isBlank c = false := by
  simp only [wordChars, List.mem_filter, decide_eq_true_eq] at h
  exact ⟨h.2, not_sep_of_mem_cut h.1⟩

/-- A text without the blanks at its two ends. -/
def trim (s : String) : String := String.ofList (trimChars s.toList)

/-- The pieces of a text between the occurrences of one character, empty ones included. -/
def splitAt (sep : Char) (s : String) : List String := (cut (· == sep) s.toList).map String.ofList

/-- The lines of a text. -/
def lines (s : String) : List String := (lineChars s.toList).map String.ofList

/-- The words of a text: what stands between runs of blanks. -/
def words (s : String) : List String := (wordChars s.toList).map String.ofList

end TypeLeak.Text
