import TypeLeak.Failure
import TypeLeak.Proofs.PathNames

/-!
# Command lines and the commands they write

A line consists of blanks and of words between them.  It writes the command of these words, unless
there are none, and is shown again with one space between two words.  So what is shown of a command
writes it, as long as none of its parts is empty or holds a blank.

## Key results

- `wordChars_eq_iff`: the words of a text are those that it consists of
- `hasWords_intercalate`: words joined by spaces are the words of the joined text
- `ofLine_eq_ok_iff`: which command a line writes
- `ofLine_display`: which lines write none, and reading what is shown gives the command back
-/

namespace TypeLeak

namespace Text

/-- A text consists of blanks and, between them, of words in their order.  Blanks stand between any
    two words. -/
inductive Consists : List Char → List (List Char) → Prop where
  | blank {gap : List Char} : (∀ c ∈ gap, isBlank c = true) → Consists gap []
  | word {gap word rest : List Char} {words : List (List Char)} :
      (∀ c ∈ gap, isBlank c = true) → word ≠ [] → (∀ c ∈ word, isBlank c = false) →
      (∀ c ∈ rest.head?, isBlank c = true) → Consists rest words →
      Consists (gap ++ (word ++ rest)) (word :: words)

variable {cs rest : List Char} {words : List (List Char)}

/-- Blanks can be put before a text. -/
theorem Consists.cons_blank {c : Char} (hc : isBlank c = true) (h : Consists cs words) :
    Consists (c :: cs) words := by
  have hgap : ∀ {gap : List Char}, (∀ x ∈ gap, isBlank x = true) →
      ∀ x ∈ c :: gap, isBlank x = true := by
    intro gap hgap x hx
    rcases List.mem_cons.1 hx with rfl | hx
    · exact hc
    · exact hgap x hx
  cases h with
  | blank hblank => exact .blank (hgap hblank)
  | word hblank hne hword hrest h => exact .word (hgap hblank) hne hword hrest h

/-- Every text consists of some words. -/
theorem exists_consists (cs : List Char) : ∃ words, Consists cs words := by
  induction cs with
  | nil => exact ⟨[], .blank nofun⟩
  | cons c cs ih =>
    obtain ⟨words, h⟩ := ih
    by_cases hc : isBlank c = true
    · -- a blank belongs to the gap before the first word
      exact ⟨words, h.cons_blank hc⟩
    have hletter : isBlank c = false := by simpa using hc
    have hsingle : ∀ x ∈ [c], isBlank x = false := fun x hx => by rwa [List.mem_singleton.1 hx]
    -- the character is a word of its own if a blank or nothing follows, and else begins the next word
    cases h with
    | blank hblank =>
      have hhead : ∀ x ∈ cs.head?, isBlank x = true :=
        fun x hx => hblank x (List.mem_of_mem_head? hx)
      have hfirst : Consists ([] ++ ([c] ++ cs)) [[c]] :=
        .word nofun (by simp) hsingle hhead (.blank hblank)
      exact ⟨_, hfirst⟩
    | @word gap word rest words hblank hne hword hrest h =>
      cases gap with
      | nil =>
        have hlonger : ∀ x ∈ c :: word, isBlank x = false := by
          intro x hx
          rcases List.mem_cons.1 hx with rfl | hx
          · exact hletter
          · exact hword x hx
        have hfirst : Consists ([] ++ ((c :: word) ++ rest)) ((c :: word) :: words) :=
          .word nofun (by simp) hlonger hrest h
        exact ⟨_, hfirst⟩
      | cons b gap =>
        have hhead : ∀ x ∈ (b :: gap ++ (word ++ rest)).head?, isBlank x = true := by
          rintro x ⟨⟩
          exact hblank b (List.mem_cons_self ..)
        have hfirst : Consists ([] ++ ([c] ++ (b :: gap ++ (word ++ rest)))) ([c] :: word :: words) :=
          .word nofun (by simp) hsingle hhead (.word hblank hne hword hrest h)
        exact ⟨_, hfirst⟩

/-! ## The words of a text -/

/-- A blank divides the words of a text. -/
theorem wordChars_append_cons {b : Char} (hb : isBlank b = true) (xs ys : List Char) :
    wordChars (xs ++ b :: ys) = wordChars xs ++ wordChars ys := by
  unfold wordChars
  rw [cut_append isBlank xs hb ys, List.filter_append]

/-- Blanks before a text belong to no word. -/
theorem wordChars_append {gap : List Char} (hgap : ∀ c ∈ gap, isBlank c = true) (cs : List Char) :
    wordChars (gap ++ cs) = wordChars cs := by
  induction gap with
  | nil => rfl
  | cons b gap ih =>
    have hb := hgap b (List.mem_cons_self ..)
    -- the blank ends the empty text before it, which has no words
    have hfirst : wordChars (b :: (gap ++ cs)) = wordChars [] ++ wordChars (gap ++ cs) :=
      wordChars_append_cons hb [] _
    rw [List.cons_append, hfirst, ih fun c hc => hgap c (List.mem_cons_of_mem _ hc)]
    rfl

/-- A word is its own only word. -/
theorem wordChars_of_word {word : List Char} (hne : word ≠ [])
    (hword : ∀ c ∈ word, isBlank c = false) : wordChars word = [word] := by
  unfold wordChars
  rw [cut_of_none hword]
  simp [hne]

/-- The words that a text consists of are its words. -/
theorem Consists.wordChars_eq (h : Consists cs words) : wordChars cs = words := by
  induction h with
  | @blank gap hblank =>
    have hnone := wordChars_append hblank []
    rwa [List.append_nil] at hnone
  | @word gap word rest words hblank hne hword hrest _ ih =>
    rw [wordChars_append hblank]
    -- what follows a word begins with a blank, which ends it
    cases rest with
    | nil =>
      rw [List.append_nil, wordChars_of_word hne hword, ← ih]
      rfl
    | cons b rest =>
      have hb : isBlank b = true := hrest b rfl
      have hrest : wordChars (b :: rest) = wordChars [] ++ wordChars rest :=
        wordChars_append_cons hb [] rest
      rw [wordChars_append_cons hb, wordChars_of_word hne hword, ← ih, hrest]
      rfl

/-- The words of a text are those that it consists of. -/
theorem wordChars_eq_iff : wordChars cs = words ↔ Consists cs words := by
  constructor
  · rintro rfl
    obtain ⟨words, h⟩ := exists_consists cs
    rwa [h.wordChars_eq]
  · exact Consists.wordChars_eq

/-- A text without words has only blanks. -/
theorem consists_nil_iff : Consists cs [] ↔ ∀ c ∈ cs, isBlank c = true := by
  constructor
  · intro h
    cases h with
    | blank hblank => exact hblank
  · exact .blank

/-- A line consists of blanks and of these words between them. -/
def HasWords (line : String) (words : List String) : Prop :=
  Consists line.toList (words.map String.toList)

/-- The words of a line are those that it consists of. -/
theorem words_eq_iff {line : String} {words : List String} :
    Text.words line = words ↔ HasWords line words := by
  unfold HasWords Text.words
  rw [← wordChars_eq_iff]
  -- lists of characters and the texts they make up go back and forth
  constructor
  · rintro rfl
    simp [Function.comp_def]
  · intro h
    rw [h]
    simp [Function.comp_def]

/-- A word of its own: it is not empty and holds no blank. -/
def IsWord (word : String) : Prop := word ≠ "" ∧ ∀ c ∈ word.toList, isBlank c = false

instance (word : String) : Decidable (IsWord word) :=
  decidable_of_iff (word ≠ "" ∧ word.toList.all (fun c => !isBlank c) = true) (by simp [IsWord])

/-- The words of a line are words of their own. -/
theorem HasWords.isWord {line : String} {words : List String} (h : HasWords line words) :
    ∀ word ∈ words, IsWord word := by
  intro word hword
  obtain ⟨hne, hletters⟩ : word.toList ≠ [] ∧ ∀ c ∈ word.toList, isBlank c = false := by
    apply mem_words
    rw [wordChars_eq_iff.2 h]
    exact List.mem_map_of_mem hword
  exact ⟨fun heq => hne (by rw [heq]; rfl), hletters⟩

/-- Words joined by spaces are the words of the joined text. -/
theorem hasWords_intercalate {words : List String} (h : ∀ word ∈ words, IsWord word) :
    HasWords (" ".intercalate words) words := by
  induction words with
  | nil => exact .blank nofun
  | cons word words ih =>
    obtain ⟨hne, hletters⟩ := h word (List.mem_cons_self ..)
    have hne : word.toList ≠ [] := fun hnil => hne (String.toList_inj.1 hnil)
    have hrest := ih fun w hw => h w (List.mem_cons_of_mem _ hw)
    -- the last word is followed by nothing, and any other one by a space
    cases words with
    | nil =>
      have hlast : Consists ([] ++ (word.toList ++ [])) [word.toList] :=
        .word nofun hne hletters nofun (.blank nofun)
      simpa [HasWords] using hlast
    | cons next words =>
      -- the space belongs to what comes behind the first word
      have hspace : Consists (' ' :: (" ".intercalate (next :: words)).toList) _ :=
        hrest.cons_blank (by decide)
      have hfirst : Consists
          ([] ++ (word.toList ++ ' ' :: (" ".intercalate (next :: words)).toList)) _ :=
        .word nofun hne hletters (by rintro c ⟨⟩; decide) hspace
      simpa [HasWords, String.intercalate_cons_cons] using hfirst

end Text

namespace CompilerCommand

open Text

variable {c d : CompilerCommand}

/-- The program and the arguments before those of a trace. -/
def parts (c : CompilerCommand) : List String := c.program :: c.leadingArgs

/-- Which command a line writes: that of its words. -/
theorem ofLine_eq_ok_iff {line : String} : ofLine line = .ok c ↔ HasWords line c.parts := by
  rw [← words_eq_iff]
  unfold ofLine ofLine? parts
  cases Text.words line with
  | nil => simp
  | cons program args => cases c; simp

/-- A line writes no command exactly if it has no words. -/
theorem ofLine_eq_error_iff {line : String} :
    (∃ failure, ofLine line = .error failure) ↔ HasWords line [] := by
  rw [← words_eq_iff]
  unfold ofLine ofLine?
  cases Text.words line <;> simp

/-- What is shown of a command writes it if its parts are words. -/
theorem ofLine_display_of_isWord (h : ∀ part ∈ c.parts, IsWord part) : ofLine c.display = .ok c :=
  ofLine_eq_ok_iff.2 (hasWords_intercalate h)

/-- A line writes no command exactly if it has only blanks.  Any other line writes the command of its
    words, which is shown as these words with one space between any two, and written by what is shown
    of it.  What is shown of a command whose parts are words writes it, and so tells it from any
    other such command. -/
theorem ofLine_display (line : String) :
    ((∃ failure, ofLine line = .error failure) ↔ ∀ x ∈ line.toList, isBlank x = true) ∧
      (∀ c, ofLine line = .ok c →
        HasWords line c.parts ∧ c.display = " ".intercalate c.parts ∧ ofLine c.display = .ok c) ∧
      (∀ c : CompilerCommand, (∀ part ∈ c.parts, IsWord part) → ofLine c.display = .ok c) ∧
      ∀ c d : CompilerCommand, (∀ part ∈ c.parts, IsWord part) → (∀ part ∈ d.parts, IsWord part) →
        c.display = d.display → c = d := by
  refine ⟨?_, fun c hc => ?_, fun c => ofLine_display_of_isWord, fun c d hc hd hsame => ?_⟩
  · rw [ofLine_eq_error_iff]
    exact consists_nil_iff
  · have hwords := ofLine_eq_ok_iff.1 hc
    exact ⟨hwords, rfl, ofLine_display_of_isWord hwords.isWord⟩
  · -- both are read back from the same text
    have hread := ofLine_display_of_isWord hc
    rw [hsame, ofLine_display_of_isWord hd] at hread
    exact (Except.ok.inj hread).symm

/-- A line with no plain space in it but a no-break space, a tab beside an ideographic space, and a
    line break, writes the command of two words, which is shown with a plain space. -/
theorem ofLine_display_mixed :
    let line := "\u00a0npx\t\u3000tsc\u0085"
    (ofLine line = .ok .standard ∧ ∀ part ∈ standard.parts, IsWord part) ∧
      HasWords line ["npx", "tsc"] ∧ standard.display = "npx tsc" ∧
      ofLine "npx tsc" = .ok .standard := by
  intro line
  have hline : ofLine line = .ok .standard := by decide +kernel
  have hparts : ∀ part ∈ standard.parts, IsWord part := by decide
  obtain ⟨-, hgiven, hbuilt, -⟩ := ofLine_display line
  obtain ⟨hwords, -, -⟩ := hgiven standard hline
  exact ⟨⟨hline, hparts⟩, hwords, by decide, hbuilt standard hparts⟩

end CompilerCommand

end TypeLeak
