import TypeLeak.Json.Parser

/-!
# What follows a scalar

Words, strings and numbers are read from the front of a text.  Whatever follows them is left behind
and makes no difference, with one exception: a number could go on with a digit, a point or the
letter of an exponent.  Only success is carried over in this way; where the text of a scalar is cut
short, what follows it can make it whole.

## Key results

- `carries_readString`, `carries_readWord`: strings and words are read alike, whatever follows them
- `carries_readNumber`: so are numbers, if they end there
- `carries_readScalar`: so are scalars
-/

namespace TypeLeak.Json

/-- A reading gives the same as another one and leaves more behind. -/
def Carries {α : Type} (rest : List Char) (x y : Except Fault (WithRest α)) : Prop :=
  ∀ a left, x = .ok (a, left) → y = .ok (a, left ++ rest)

namespace Carries

variable {α β : Type} {rest : List Char}

/-- A reading that succeeds is carried over as it is. -/
theorem ok (a : α) (left : List Char) : Carries rest (.ok (a, left)) (.ok (a, left ++ rest)) := by
  intro b left' h
  cases h
  rfl

/-- A reading that fails asks nothing of the other one. -/
theorem error (f : Fault) (y : Except Fault (WithRest α)) : Carries rest (.error f) y := nofun

/-- Readings one after the other carry over if each of them does. -/
theorem bind {x y : Except Fault (WithRest α)} {f g : WithRest α → Except Fault (WithRest β)}
    (hxy : Carries rest x y) (hfg : ∀ a left, Carries rest (f (a, left)) (g (a, left ++ rest))) :
    Carries rest (x >>= f) (y >>= g) := by
  cases x with
  | error fault => exact error fault _
  | ok read =>
    rw [hxy read.1 read.2 rfl]
    exact hfg read.1 read.2

end Carries

/-! ## Numbers -/

/-- A number could go on with this character. -/
def extendsNumber (c : Char) : Bool := c.isDigit || c == '.' || c == 'e' || c == 'E'

/-- A number ends where this text begins. -/
def Ends (rest : List Char) : Prop := ∀ c ∈ rest.head?, extendsNumber c = false

section Numbers

variable {rest : List Char}

/-- A number ends at the end of the text, or at a character that is none of its own. -/
theorem Ends.cases (h : Ends rest) :
    rest = [] ∨ ∃ c cs, rest = c :: cs ∧ c.isDigit = false ∧ c ≠ '.' ∧ c ≠ 'e' ∧ c ≠ 'E' := by
  cases rest with
  | nil => exact .inl rfl
  | cons c cs =>
    have hc := h c rfl
    simp only [extendsNumber, Bool.or_eq_false_iff, beq_eq_false_iff_ne] at hc
    exact .inr ⟨c, cs, rfl, hc.1.1.1, hc.1.1.2, hc.1.2, hc.2⟩

/-- The digits of a number are not taken any further than its end. -/
theorem takeDigits_append (hrest : Ends rest) (n : Nat) (cs : List Char) :
    takeDigits n (cs ++ rest) = ((takeDigits n cs).1, (takeDigits n cs).2 ++ rest) := by
  -- the empty case is where it counts that no digit follows; so it is in the lemmas below
  induction cs generalizing n with
  | nil => rcases hrest.cases with rfl | ⟨c, cs, rfl, hc, -⟩ <;> simp [takeDigits, *]
  | cons c cs ih =>
    rw [List.cons_append, takeDigits, takeDigits]
    split
    · exact ih _
    · rfl

/-- The digits of an exponent, or the place where they become too large, are found alike. -/
theorem takeExponent_append (hrest : Ends rest) (n : Nat) (cs : List Char) :
    takeExponent n (cs ++ rest) =
      match takeExponent n cs with
      | .ok (m, left) => .ok (m, left ++ rest)
      | .error left => .error (left ++ rest) := by
  induction cs generalizing n with
  | nil => rcases hrest.cases with rfl | ⟨c, cs, rfl, hc, -⟩ <;> simp [takeExponent, *]
  | cons c cs ih =>
    rw [List.cons_append, takeExponent, takeExponent]
    split
    · -- a digit: it may be the one that makes the exponent too large
      split
      · rfl
      · exact ih _
    · rfl

/-- Digits that are passed over end with the number. -/
theorem skipDigits_append (hrest : Ends rest) (cs : List Char) :
    skipDigits (cs ++ rest) = skipDigits cs ++ rest := by
  have hstop : skipDigits rest = rest := by
    rcases hrest.cases with rfl | ⟨c, cs, rfl, hc, -⟩ <;> simp [skipDigits, *]
  -- `dropWhile` goes on into `rest` only if nothing is left of `cs`
  unfold skipDigits at hstop ⊢
  rw [List.dropWhile_append, hstop]
  split
  · rename_i hempty
    rw [List.isEmpty_iff.1 hempty, List.nil_append]
  · rfl

/-- The digits in front of a text are no more of them when the number ends there. -/
theorem takeWhile_isDigit_append (hrest : Ends rest) (cs : List Char) :
    (cs ++ rest).takeWhile Char.isDigit = cs.takeWhile Char.isDigit := by
  induction cs with
  | nil => rcases hrest.cases with rfl | ⟨c, cs, rfl, hc, -⟩ <;> simp [*]
  | cons c cs ih => simp only [List.cons_append, List.takeWhile_cons, ih]

/-- Whether a digit comes next is decided before the number ends. -/
theorem head?_isDigit_append (hrest : Ends rest) (cs : List Char) :
    ((cs ++ rest).head?.map Char.isDigit).getD false = (cs.head?.map Char.isDigit).getD false := by
  cases cs with
  | nil => rcases hrest.cases with rfl | ⟨c, cs, rfl, hc, -⟩ <;> simp [*]
  | cons c cs => rfl

/-- A complaint about the next character is a failure, wherever the text ends. -/
theorem carries_failOnNextOr {α : Type} (atEnd problem : Problem) (cs : List Char)
    (y : Except Fault (WithRest α)) : Carries rest (failOnNextOr atEnd problem cs) y := by
  unfold failOnNextOr
  split <;> exact .error _ _

/-- What becomes of the digits and the exponent does not look at the text behind them. -/
theorem carries_finishReal (negative : Bool) (digits : Nat) (exponent : Int) (cs : List Char) :
    Carries rest (finishReal negative digits exponent cs)
      (finishReal negative digits exponent (cs ++ rest)) := by
  unfold finishReal
  split
  · exact .ok _ _
  · exact .error _ _

/-- An exponent behind its letter and its sign. -/
private def readPower (negative : Bool) (digits : Nat) (start : Int) (down : Bool)
    (cs : List Char) : Except Fault (WithRest Number) :=
  if (cs.head?.map Char.isDigit).getD false then
    match takeExponent 0 cs with
    | .ok (n, rest) => finishReal negative digits (if down then start - n else start + n) rest
    | .error rest =>
      if digits ≠ 0 ∧ !down then failBefore .numberTooLarge rest
      else .ok (.real ⟨negative, .zero⟩, skipDigits rest)
  else failOnNextOr .endInValue .invalidNumber cs

private theorem readExponent_plus (negative : Bool) (digits : Nat) (start : Int) (cs : List Char) :
    readExponent negative digits start ('+' :: cs) = readPower negative digits start false cs := rfl

private theorem readExponent_minus (negative : Bool) (digits : Nat) (start : Int) (cs : List Char) :
    readExponent negative digits start ('-' :: cs) = readPower negative digits start true cs := rfl

private theorem readExponent_bare (negative : Bool) (digits : Nat) (start : Int) {c : Char}
    (hplus : c ≠ '+') (hminus : c ≠ '-') (cs : List Char) :
    readExponent negative digits start (c :: cs) =
      readPower negative digits start false (c :: cs) := by
  unfold readExponent
  split
  rename_i down left heq
  split at heq
  · simp_all
  · simp_all
  · cases heq
    rfl

/-- An exponent behind its sign is read alike if it ends there. -/
private theorem carries_readPower (hrest : Ends rest) (negative : Bool) (digits : Nat) (start : Int)
    (down : Bool) (cs : List Char) :
    Carries rest (readPower negative digits start down cs)
      (readPower negative digits start down (cs ++ rest)) := by
  unfold readPower
  rw [head?_isDigit_append hrest, takeExponent_append hrest]
  split
  · cases takeExponent 0 cs with
    | ok read => exact carries_finishReal _ _ _ _
    | error left =>
      dsimp only
      split
      · exact .error _ _
      · -- too small an exponent is no failure: the value is zero
        rw [skipDigits_append hrest]
        exact .ok _ _
  · exact carries_failOnNextOr _ _ _ _

/-- So is an exponent behind its letter, with a sign or without one. -/
theorem carries_readExponent (hrest : Ends rest) (negative : Bool) (digits : Nat) (start : Int)
    (cs : List Char) :
    Carries rest (readExponent negative digits start cs)
      (readExponent negative digits start (cs ++ rest)) := by
  -- a sign chooses the direction, and all the three ways end in `readPower`
  have hpower := carries_readPower hrest negative digits start
  cases cs with
  | nil => exact .error _ _
  | cons c cs =>
    by_cases hplus : c = '+'
    · subst hplus
      rw [List.cons_append, readExponent_plus, readExponent_plus]
      exact hpower false cs
    by_cases hminus : c = '-'
    · subst hminus
      rw [List.cons_append, readExponent_minus, readExponent_minus]
      exact hpower true cs
    · rw [List.cons_append, readExponent_bare _ _ _ hplus hminus,
        readExponent_bare _ _ _ hplus hminus]
      exact hpower false (c :: cs)

/-- The rest of a number after a character that is no exponent's letter. -/
private theorem readTail_of_ne (negative : Bool) (digits : Nat) (exponent : Int) {cs : List Char}
    (h : ∀ c ∈ cs.head?, c ≠ 'e' ∧ c ≠ 'E') :
    readTail negative digits exponent cs = finishReal negative digits exponent cs := by
  unfold readTail
  split
  · exact absurd rfl (h 'e' rfl).1
  · exact absurd rfl (h 'E' rfl).2
  · rfl

/-- So is what may follow the digits: an exponent or nothing. -/
theorem carries_readTail (hrest : Ends rest) (negative : Bool) (digits : Nat) (exponent : Int)
    (cs : List Char) :
    Carries rest (readTail negative digits exponent cs)
      (readTail negative digits exponent (cs ++ rest)) := by
  cases cs with
  | nil =>
    -- nothing is left of the number, so `rest` is looked at
    have hends : ∀ c ∈ rest.head?, c ≠ 'e' ∧ c ≠ 'E' := by
      rcases hrest.cases with rfl | ⟨c, cs, rfl, -, -, hlower, hupper⟩ <;> simp [*]
    rw [readTail_of_ne _ _ _ (by simp), List.nil_append, readTail_of_ne _ _ _ hends]
    exact carries_finishReal _ _ _ []
  | cons c cs =>
    by_cases hlower : c = 'e'
    · subst hlower
      exact carries_readExponent hrest _ _ _ _
    by_cases hupper : c = 'E'
    · subst hupper
      exact carries_readExponent hrest _ _ _ _
    · rw [readTail_of_ne _ _ _ (by simp [*]), readTail_of_ne _ _ _ (by simp [*])]
      exact carries_finishReal _ _ _ _

/-- So is a fraction, together with the exponent behind it. -/
theorem carries_readFraction (hrest : Ends rest) (negative : Bool) (digits : Nat) (exponent : Int)
    (cs : List Char) :
    Carries rest (readFraction negative digits exponent cs)
      (readFraction negative digits exponent (cs ++ rest)) := by
  unfold readFraction
  rw [takeDigits_append hrest, head?_isDigit_append hrest]
  dsimp only
  -- the number of digits behind the point is a difference of lengths, and `rest` is in both
  rw [skipDigits_append hrest, List.length_append, List.length_append, Nat.add_sub_add_right]
  split
  · exact carries_readTail hrest _ _ _ _
  · exact carries_failOnNextOr _ _ _ _

/-- A number that ends with the digits before a point. -/
private def finishNumber (negative : Bool) (digits extra : Nat) (rest : List Char) :
    Except Fault (WithRest Number) :=
  if extra ≠ 0 then finishReal negative digits extra rest
  else if !negative then .ok (.integer digits, rest)
  else if digits ≠ 0 ∧ digits ≤ Magnitude.twoTo 63 then .ok (.integer (-digits), rest)
  else finishReal true digits 0 rest

/-- A number behind these digits. -/
private def readMore (negative : Bool) (digits extra : Nat) (cs : List Char) :
    Except Fault (WithRest Number) :=
  match cs with
  | '.' :: rest => readFraction negative digits extra rest
  | 'e' :: rest => readExponent negative digits extra rest
  | 'E' :: rest => readExponent negative digits extra rest
  | rest => finishNumber negative digits extra rest

/-- A number is its digits and what is behind them, unless a zero leads other digits. -/
private theorem readNumber_cons (negative : Bool) (c : Char) (tail : List Char) :
    readNumber negative (c :: tail) =
      if !c.isDigit then failOnNext .invalidNumber (c :: tail)
      else if c = '0' ∧ (tail.head?.map Char.isDigit).getD false then failOnNext .invalidNumber tail
      else readMore negative (takeDigits 0 (c :: tail)).1
        ((takeDigits 0 (c :: tail)).2.takeWhile Char.isDigit).length
        (skipDigits (takeDigits 0 (c :: tail)).2) := rfl

/-- A number without a point and an exponent is settled by its digits alone. -/
private theorem carries_finishNumber (negative : Bool) (digits extra : Nat) (cs : List Char) :
    Carries rest (finishNumber negative digits extra cs)
      (finishNumber negative digits extra (cs ++ rest)) := by
  -- by the bounds of the integers; the text behind is in none of the conditions
  unfold finishNumber
  split
  · exact carries_finishReal _ _ _ _
  split
  · exact .ok _ _
  split
  · exact .ok _ _
  · exact carries_finishReal _ _ _ _

/-- Behind the digits of a number comes nothing but a point or an exponent. -/
private theorem readMore_of_ne (negative : Bool) (digits extra : Nat) {cs : List Char}
    (h : ∀ c ∈ cs.head?, c ≠ '.' ∧ c ≠ 'e' ∧ c ≠ 'E') :
    readMore negative digits extra cs = finishNumber negative digits extra cs := by
  unfold readMore
  split
  · exact absurd rfl (h '.' rfl).1
  · exact absurd rfl (h 'e' rfl).2.1
  · exact absurd rfl (h 'E' rfl).2.2
  · rfl

/-- What is behind the digits of a number is read alike if it ends there. -/
private theorem carries_readMore (hrest : Ends rest) (negative : Bool) (digits extra : Nat)
    (cs : List Char) :
    Carries rest (readMore negative digits extra cs)
      (readMore negative digits extra (cs ++ rest)) := by
  cases cs with
  | nil =>
    -- as for `readTail`: it is `rest` that is looked at now
    have hends : ∀ c ∈ rest.head?, c ≠ '.' ∧ c ≠ 'e' ∧ c ≠ 'E' := by
      rcases hrest.cases with rfl | ⟨c, cs, rfl, -, hpoint, hlower, hupper⟩ <;> simp [*]
    rw [readMore_of_ne _ _ _ (by simp), List.nil_append, readMore_of_ne _ _ _ hends]
    exact carries_finishNumber _ _ _ []
  | cons c cs =>
    by_cases hpoint : c = '.'
    · subst hpoint
      exact carries_readFraction hrest _ _ _ _
    by_cases hlower : c = 'e'
    · subst hlower
      exact carries_readExponent hrest _ _ _ _
    by_cases hupper : c = 'E'
    · subst hupper
      exact carries_readExponent hrest _ _ _ _
    · rw [readMore_of_ne _ _ _ (by simp [*]), readMore_of_ne _ _ _ (by simp [*])]
      exact carries_finishNumber _ _ _ _

/-- A number is read alike in front of any text in which it could not go on. -/
theorem carries_readNumber (hrest : Ends rest) (negative : Bool) (cs : List Char) :
    Carries rest (readNumber negative cs) (readNumber negative (cs ++ rest)) := by
  cases cs with
  | nil => exact .error _ _
  | cons c tail =>
    -- both conditions and all the three parts of `readMore` are of the digits, which end before
    -- `rest`
    rw [List.cons_append, readNumber_cons, readNumber_cons, ← List.cons_append,
      takeDigits_append hrest, head?_isDigit_append hrest, takeWhile_isDigit_append hrest,
      skipDigits_append hrest]
    split
    · exact .error _ _
    split
    · exact .error _ _
    · exact carries_readMore hrest _ _ _ _

end Numbers

/-! ## Strings and words -/

variable {rest : List Char}

/-- Four hexadecimal digits are read alike, whatever follows them. -/
theorem carries_readHexFour (cs : List Char) :
    Carries rest (readHexFour cs) (readHexFour (cs ++ rest)) := by
  unfold readHexFour
  split
  · rename_i a b c d left
    simp only [List.cons_append]
    split
    · exact .ok _ _
    · exact .error _ _
  · -- fewer than four characters are left, so nothing is claimed about the longer text
    split <;> exact .error _ _

/-- So is a character in hexadecimal digits, or the two halves of one. -/
theorem carries_readUnicode (cs : List Char) :
    Carries rest (readUnicode cs) (readUnicode (cs ++ rest)) := by
  unfold readUnicode
  apply Carries.bind (carries_readHexFour cs)
  intro first left
  dsimp only
  split
  · exact .error _ _
  split
  · -- the other half has to follow
    split
    · exact .error _ _
    · exact .error _ _
    · apply Carries.bind (carries_readHexFour _)
      intro second left
      dsimp only
      split
      · exact .ok _ _
      · exact .error _ _
    · exact .error _ _
    · exact .error _ _
  · exact .ok _ _

/-- So is what is behind a backslash. -/
theorem carries_readEscape (cs : List Char) :
    Carries rest (readEscape cs) (readEscape (cs ++ rest)) := by
  unfold readEscape
  split
  · exact .error _ _
  iterate 8 exact .ok _ _
  · exact carries_readUnicode _
  · exact .error _ _

/-- So is a string behind its opening mark; more fuel does it no harm. -/
theorem carries_readStringBody {fuel fuel' : Nat} (hfuel : fuel ≤ fuel') (cs : List Char) :
    Carries rest (readStringBody fuel cs) (readStringBody fuel' (cs ++ rest)) := by
  -- there is more fuel on the right, where the text is longer
  induction fuel generalizing fuel' cs with
  | zero => exact .error _ _
  | succ fuel ih =>
    obtain ⟨fuel', rfl⟩ : ∃ n, fuel' = n + 1 := ⟨fuel' - 1, by omega⟩
    have hbody := fun cs => ih (Nat.le_of_succ_le_succ hfuel) cs
    cases cs with
    | nil => exact .error _ _
    | cons c cs =>
      by_cases hquote : c = '"'
      · subst hquote
        exact .ok _ _
      by_cases hbackslash : c = '\\'
      · subst hbackslash
        -- an escape and the rest of the string behind it
        apply Carries.bind (carries_readEscape cs)
        intro escaped left
        apply Carries.bind (hbody left)
        exact fun text left => .ok _ _
      · -- any other character stands for itself, if it may be in a string at all
        rw [List.cons_append, readStringBody, readStringBody]
        · split
          · exact .error _ _
          · apply Carries.bind (hbody cs)
            exact fun text left => .ok _ _
        all_goals simp_all

/-- A string is read alike, whatever follows it. -/
theorem carries_readString (cs : List Char) :
    Carries rest (readString cs) (readString (cs ++ rest)) := by
  unfold readString
  apply Carries.bind
  · exact carries_readStringBody (by simp) cs
  · exact fun text left => .ok _ _

/-- So is one of the words of the language. -/
theorem carries_readWord (value : Value) (word cs : List Char) :
    Carries rest (readWord value word cs) (readWord value word (cs ++ rest)) := by
  -- a word is read letter by letter; both texts lose the same one
  induction word generalizing cs with
  | nil => exact .ok _ _
  | cons w word ih =>
    cases cs with
    | nil => exact .error _ _
    | cons c cs =>
      rw [List.cons_append, readWord, readWord]
      split
      · exact ih cs
      · exact .error _ _

/-- A value that begins with a digit is a number. -/
private theorem readScalar_of_isDigit {c : Char} (hc : c.isDigit = true) (cs : List Char) :
    readScalar (c :: cs) = (do
      let (n, rest) ← readNumber false (c :: cs)
      .ok (.number n, rest)) := by
  unfold readScalar
  split
  · contradiction
  -- the marks of the other scalars are no digits
  iterate 5
    rename_i heq
    cases heq
    exact absurd hc (by decide)
  · simp [hc]

/-- A scalar is read alike, whatever follows it, unless it is a number that could go on. -/
theorem carries_readScalar (hrest : Ends rest) (cs : List Char) :
    Carries rest (readScalar cs) (readScalar (cs ++ rest)) := by
  have hnumber : ∀ negative cs, Carries rest
      (do let (n, left) ← readNumber negative cs; Except.ok (Value.number n, left))
      (do let (n, left) ← readNumber negative (cs ++ rest); Except.ok (Value.number n, left)) := by
    intro negative cs
    apply Carries.bind (carries_readNumber hrest _ _)
    exact fun n left => .ok _ _
  -- only the shorter text is taken apart: the longer one begins in the same way
  rw [readScalar.eq_def cs]
  split
  · exact .error _ _
  iterate 3 exact carries_readWord _ _ _
  · apply Carries.bind (carries_readString _)
    exact fun text left => .ok _ _
  · exact hnumber true _
  · split
    · rename_i hdigit
      cases cs with
      | nil => contradiction
      | cons c cs =>
        rw [List.cons_append, readScalar_of_isDigit hdigit]
        exact hnumber false (c :: cs)
    · exact .error _ _

end TypeLeak.Json
