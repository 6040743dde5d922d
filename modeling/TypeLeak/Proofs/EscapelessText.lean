import TypeLeak.EntryTrace
import TypeLeak.Failure
import TypeLeak.Proofs.AsciiText
import TypeLeak.Proofs.PathNames
import TypeLeak.Text.Quoted

/-!
# Texts without the escape character

The codes that colour a terminal begin with the escape character.  No message that is made here
holds one by itself: quoted texts show it by its code point, and numbers have digits.  So a message
holds an escape character only if a text from outside does that is shown as it is.

## Key results

- `escapeless_append`, `Escapeless.intercalate`: texts that are put together
- `escapeless_quote`, `escapeless_quoteList`: quoted texts, whatever is quoted
- `escapeless_violation`: what is said about a value of another kind than expected
- `Quiet`, `escapeless_summary`: decoders and what is wrong with a document
- `escapeless_osError`, `escapeless_readError`: what the system and the decoder say
- `escapeless_join`, `escapeless_path`, `escapeless_display`: what is shown of paths and commands
-/

namespace TypeLeak

namespace Text

/-- A text does not hold the escape character. -/
def Escapeless (s : String) : Prop := '\x1b' ∉ s.toList

instance (s : String) : Decidable (Escapeless s) := inferInstanceAs (Decidable (_ ∉ _))

/-- Two texts put together hold the escape character only if one of them does. -/
@[simp] theorem escapeless_append {a b : String} :
    Escapeless (a ++ b) ↔ Escapeless a ∧ Escapeless b := by
  simp [Escapeless]

/-- So does the text of a list of characters only if it is among them. -/
@[simp] theorem escapeless_ofList {cs : List Char} :
    Escapeless (String.ofList cs) ↔ '\x1b' ∉ cs := by
  simp [Escapeless]

/-- A text whose characters come from another one. -/
theorem Escapeless.of_subset {s t : String} (h : Escapeless s) (hsub : t.toList ⊆ s.toList) :
    Escapeless t :=
  fun hmem => h (hsub hmem)

/-- So do texts behind one another, with a text between them. -/
theorem Escapeless.intercalate {sep : String} {texts : List String} (hsep : Escapeless sep)
    (h : ∀ text ∈ texts, Escapeless text) : Escapeless (sep.intercalate texts) := by
  induction texts with
  | nil => exact List.not_mem_nil
  | cons text texts ih =>
    have hrest := ih fun t ht => h t (List.mem_cons_of_mem _ ht)
    -- the separator stands only between two texts, so one text is a case of its own
    cases texts with
    | nil => simpa using h text (List.mem_singleton_self _)
    | cons next texts =>
      rw [String.intercalate_cons_cons, escapeless_append, escapeless_append]
      exact ⟨⟨h text (List.mem_cons_self ..), hsep⟩, hrest⟩

/-- Trimming a text adds nothing to it. -/
theorem Escapeless.trim {s : String} (h : Escapeless s) : Escapeless (trim s) := by
  refine h.of_subset fun c hc => ?_
  rw [Text.trim, String.toList_ofList, trimChars, List.mem_reverse] at hc
  -- a text is trimmed at its back, reversed, and then at its front
  have hback := (List.dropWhile_suffix _).subset hc
  exact (List.dropWhile_suffix _).subset (List.mem_reverse.1 hback)

/-! ## Numbers -/

/-- No digit is the escape character. -/
theorem escape_not_mem_toDigits {base : Nat} (hbase : 1 < base) (n : Nat) :
    '\x1b' ∉ Nat.toDigits base n := by
  have hdigit : ∀ k, '\x1b' ∉ [Nat.digitChar k] := fun k hmem =>
    Nat.digitChar_ne '\x1b' (by decide) (List.mem_singleton.1 hmem).symm
  -- the digits in front are those of a smaller number
  induction n using Nat.strong_induction_on with
  | _ n ih =>
    rw [Nat.toDigits_eq_if hbase]
    split
    · exact hdigit n
    · have hless : n / base < n := Nat.div_lt_self (by omega) hbase
      rw [List.mem_append, not_or]
      exact ⟨ih _ hless, hdigit _⟩

/-- A natural number is written with digits alone. -/
@[simp] theorem escapeless_nat (n : Nat) : Escapeless (toString n) := by
  show '\x1b' ∉ n.repr.toList
  rw [Nat.toList_repr]
  exact escape_not_mem_toDigits (by decide) n

/-- So is an integer, up to its sign. -/
@[simp] theorem escapeless_int (n : Int) : Escapeless (toString n) := by
  cases n with
  | ofNat n => exact escapeless_nat n
  | negSucc n =>
    show Escapeless ("-" ++ toString (n + 1))
    rw [escapeless_append]
    exact ⟨by decide, escapeless_nat _⟩

/-! ## Quoted texts -/

/-- A quoted text shows the escape character by its code point. -/
theorem escapeless_quote (s : String) : Escapeless (quote s) := by
  have hchar : ∀ c, '\x1b' ∉ quoteChar c := by
    intro c
    unfold quoteChar
    split
    · rename_i hc
      rcases hc with rfl | rfl <;> decide
    split
    · decide
    split
    · decide
    split
    · decide
    split
    · decide
    split
    · -- a printable character is shown as itself, and the escape character is none
      rename_i hc
      rw [List.mem_singleton]
      rintro rfl
      exact absurd hc (by decide)
    · -- any other character is shown by its code point in hexadecimal digits
      simp [hexDigits, escape_not_mem_toDigits]
  unfold quote
  rw [escapeless_ofList]
  simp [hchar]

/-- So does a list of quoted texts. -/
theorem escapeless_quoteList (items : List String) : Escapeless (quoteList items) := by
  unfold quoteList
  rw [escapeless_append, escapeless_append]
  refine ⟨⟨by decide, .intercalate (by decide) fun text htext => ?_⟩, by decide⟩
  obtain ⟨item, -, rfl⟩ := List.mem_map.1 htext
  exact escapeless_quote item

end Text

open Text

/-! ## What is wrong with a document -/

/-- A magnitude is written with digits, a point and an exponent. -/
theorem escapeless_magnitude (x : Magnitude) : Escapeless x.text := by
  unfold Magnitude.text
  split
  · decide
  rcases Magnitude.trimZeros 17 x.shortest with ⟨c, g⟩
  -- whatever part of the digits is shown, and with however many zeros
  have hdigits : '\x1b' ∉ Nat.toDigits 10 c :=
    escape_not_mem_toDigits (by decide) c
  have htake : ∀ k, '\x1b' ∉ (Nat.toDigits 10 c).take k :=
    fun k hmem => hdigits (List.mem_of_mem_take hmem)
  have hdrop : ∀ k, '\x1b' ∉ (Nat.toDigits 10 c).drop k :=
    fun k hmem => hdigits (List.mem_of_mem_drop hmem)
  have hzeros : ∀ k, '\x1b' ∉ List.replicate k '0' :=
    fun k hmem => absurd (List.eq_of_mem_replicate hmem) (by decide)
  have hpoint : Escapeless "." := by decide
  dsimp only
  split
  · -- the point is behind the digits or among them
    rw [escapeless_append, escapeless_append, escapeless_ofList, List.mem_append, not_or]
    refine ⟨⟨⟨htake _, hzeros _⟩, hpoint⟩, ?_⟩
    split
    · decide
    · exact escapeless_ofList.2 (hdrop _)
  split
  · -- the point is in front of them
    refine escapeless_append.2 ⟨by decide, escapeless_ofList.2 ?_⟩
    rw [List.mem_append, not_or]
    exact ⟨hzeros _, hdigits⟩
  · -- an exponent is shown
    rw [escapeless_append, escapeless_append, escapeless_append, escapeless_ofList]
    refine ⟨⟨⟨htake _, ?_⟩, ?_⟩, escapeless_nat _⟩
    · split
      · decide
      · exact escapeless_append.2 ⟨hpoint, escapeless_ofList.2 (hdrop _)⟩
    · split <;> decide

/-- So is a floating-point number, up to its sign. -/
theorem escapeless_binary64 (x : Binary64) : Escapeless x.text := by
  unfold Binary64.text
  rw [escapeless_append]
  refine ⟨?_, escapeless_magnitude _⟩
  split <;> decide

/-- What is said about a text that writes no document names a line and a column, and nothing of
it. -/
theorem escapeless_textError (e : Json.TextError) : Escapeless e.message := by
  have hproblem : Escapeless e.problem.message := by
    cases e.problem <;> decide
  unfold Json.TextError.message
  simp only [escapeless_append, escapeless_nat, and_true]
  exact ⟨⟨hproblem, by decide⟩, by decide⟩

/-- What is said about a value of another kind than expected. -/
theorem escapeless_violation {found : Json.Value} {expected : FieldKind} :
    Escapeless (Violation.wrongKind found expected).message := by
  -- only texts and numbers are shown as they are found, a text quoted and a number in digits
  have hfound : Escapeless (Violation.describeValue found) := by
    cases found with
    | bool value => cases value <;> decide
    | number value =>
      cases value with
      | integer value =>
        exact escapeless_append.2 ⟨escapeless_append.2 ⟨by decide, escapeless_int _⟩, by decide⟩
      | real value =>
        exact escapeless_append.2
          ⟨escapeless_append.2 ⟨by decide, escapeless_binary64 _⟩, by decide⟩
    | string value => exact escapeless_append.2 ⟨by decide, escapeless_quote _⟩
    | null => decide
    | array items => exact (by decide : Escapeless "sequence")
    | object members => exact (by decide : Escapeless "map")
  have hexpected : Escapeless expected.description := by
    cases expected <;> decide
  unfold Violation.message
  simp only [escapeless_append]
  exact ⟨⟨⟨by decide, hfound⟩, by decide⟩, hexpected⟩

namespace Shape

variable {α β : Type}

/-- What is said about a violation, if there is one, does not hold the escape character. -/
def Quiet (x : Except Violation α) : Prop :=
  ∀ violation, x = .error violation → Escapeless violation.message

/-- A decoder that succeeds says nothing. -/
theorem quiet_ok (a : α) : Quiet (.ok a) := nofun

/-- A value of another kind than expected is described, and its texts are quoted. -/
theorem quiet_wrongKind (found : Json.Value) (expected : FieldKind) :
    Quiet (.error (.wrongKind found expected) : Except Violation α) := by
  rintro _ ⟨⟩
  exact escapeless_violation

/-- Decoders one after the other are quiet if each of them is. -/
theorem Quiet.bind {x : Except Violation α} {f : α → Except Violation β} (hx : Quiet x)
    (hf : ∀ a, Quiet (f a)) : Quiet (x >>= f) := by
  cases x with
  | error violation =>
    rintro _ ⟨⟩
    exact hx violation rfl
  | ok a => exact hf a

/-- What becomes of the value makes no difference to what is said. -/
theorem Quiet.map {x : Except Violation α} (hx : Quiet x) (f : α → β) : Quiet (x.map f) := by
  cases x with
  | error violation =>
    rintro _ ⟨⟩
    exact hx violation rfl
  | ok a => exact quiet_ok _

/-- The decoder of texts is quiet, and so are those made of it. -/
theorem quiet_decodeText (v : Json.Value) : Quiet (decodeText v) := by
  cases v with
  | string s => exact quiet_ok s
  | null | bool | number | array | object => exact quiet_wrongKind _ _

/-- The decoder of lists of texts is quiet. -/
theorem quiet_decodeTexts (v : Json.Value) : Quiet (decodeTexts v) := by
  cases v with
  | array items =>
    -- the first item that is no text is the one that is described
    show Quiet (decodeTextItems items)
    induction items with
    | nil => exact quiet_ok []
    | cons v vs ih => exact (quiet_decodeText v).bind fun text => ih.bind fun texts => quiet_ok _
  | null | bool | number | string | object => exact quiet_wrongKind _ _

/-- The decoder of maps of texts is quiet. -/
theorem quiet_decodeTextMap (v : Json.Value) : Quiet (decodeTextMap v) := by
  cases v with
  | object members =>
    show Quiet (decodeTextMembers members)
    induction members with
    | nil => exact quiet_ok []
    | cons m ms ih =>
      obtain ⟨key, v⟩ := m
      exact (quiet_decodeText v).bind fun text => ih.bind fun texts => quiet_ok _
  | null | bool | number | string | array => exact quiet_wrongKind _ _

/-- The decoder of a field is as quiet as that of its value. -/
theorem quiet_field {decode : Json.Value → Except Violation α} (h : ∀ v, Quiet (decode v))
    (key : String) (v : Json.Value) : Quiet (field decode key v) := by
  unfold field
  split
  · exact quiet_ok none
  · exact (h _).map some

/-- So is the decoder of a field that may be null. -/
theorem quiet_optionalField {decode : Json.Value → Except Violation α} (h : ∀ v, Quiet (decode v))
    (key : String) (v : Json.Value) : Quiet (optionalField decode key v) := by
  unfold optionalField
  split
  · exact quiet_ok none
  · exact quiet_ok none
  · exact (h _).map some

/-- A field that is missing is named, so its key matters. -/
theorem quiet_require {key : String} (hkey : Escapeless key) (content : Option α) :
    Quiet (require key content) := by
  cases content with
  | some a => exact quiet_ok a
  | none =>
    rintro _ ⟨⟩
    exact escapeless_append.2 ⟨escapeless_append.2 ⟨by decide, hkey⟩, by decide⟩

/-- What is wrong with a text that should write a document. -/
theorem escapeless_summary {decode : Json.Value → Except Violation α} (h : ∀ v, Quiet (decode v))
    {subject content : String} {e : ShapeError} (he : parse decode subject content = .error e) :
    e.subject = subject ∧ Escapeless e.summary := by
  have hsingle : ∀ text : String, Escapeless text → Escapeless ("; ".intercalate [text]) :=
    fun text htext => .intercalate (by decide) fun t ht => by rwa [List.mem_singleton.1 ht]
  unfold parse at he
  split at he
  · rename_i error _
    cases he
    exact ⟨rfl, hsingle _ (escapeless_append.2 ⟨by decide, escapeless_textError error⟩)⟩
  · rename_i v _
    unfold validate at he
    split at he
    · rename_i members _
      cases hdecode : decode (.object members) with
      | ok a =>
        rw [hdecode] at he
        exact nomatch he
      | error violation =>
        rw [hdecode] at he
        cases he
        exact ⟨rfl, hsingle _ (h _ violation hdecode)⟩
    · -- a document that is no object: its kind is named, and nothing of it is shown
      cases he
      refine ⟨rfl, hsingle _ (escapeless_append.2 ⟨by decide, ?_⟩)⟩
      unfold Violation.describeKind
      split <;> decide

end Shape

/-- The decoder of source maps is quiet. -/
theorem SourceMap.quiet_decode (v : Json.Value) : Shape.Quiet (SourceMap.decode v) :=
  (Shape.quiet_field Shape.quiet_decodeTexts _ v).bind fun sources =>
    (Shape.quiet_require (by decide) sources).bind fun _ => Shape.quiet_ok _

/-- The decoder of manifests is quiet. -/
theorem Manifest.quiet_decode (v : Json.Value) : Shape.Quiet (Manifest.decode v) := by
  have htext : ∀ key, Shape.Quiet (Shape.optionalField Shape.decodeText key v) :=
    fun key => Shape.quiet_optionalField Shape.quiet_decodeText key v
  have hmap : ∀ key, Shape.Quiet (Shape.optionalField Shape.decodeTextMap key v) :=
    fun key => Shape.quiet_optionalField Shape.quiet_decodeTextMap key v
  exact (hmap _).bind fun _ => (hmap _).bind fun _ => (htext _).bind fun _ =>
    (htext _).bind fun _ => (hmap _).bind fun _ => Shape.quiet_ok _

/-! ## What the system says -/

/-- The system's messages are fixed texts. -/
theorem escapeless_osError (cause : OsError) : Escapeless cause.message := by
  cases cause <;> decide

/-- So is the message about a text that is not UTF-8. -/
theorem escapeless_readError (cause : World.ReadError) : Escapeless cause.message := by
  cases cause with
  | os cause => exact escapeless_osError cause
  | notUtf8 => decide

/-! ## Paths and commands -/

/-- A text of the operating system is shown with the escape character only if it has its byte. -/
theorem escapeless_lossy_iff {t : OsText} : Escapeless t.lossy ↔ 0x1B ∉ t.bytes :=
  not_congr (OsText.mem_lossy_iff (by decide))

/-- A joined path is shown without the escape character if both its parts are. -/
theorem escapeless_join {p : Path} {name : OsText} (hp : Escapeless p.lossy)
    (hname : Escapeless name.lossy) : Escapeless (p.join ⟨name⟩).lossy := by
  have hslash : ¬ (0x1B : UInt8) = OsText.slashByte := by decide
  unfold Path.lossy at hp ⊢
  rw [escapeless_lossy_iff] at hp hname ⊢
  unfold Path.join
  -- an absolute name replaces the path, and a slash is set between the two only where none is
  split
  · exact hname
  split
  · simp [hp, hname]
  · simp [hp, hname, hslash]

/-- The path of a location is shown without it if all its names are. -/
theorem escapeless_path {loc : Location} (h : ∀ name ∈ loc, Escapeless name.lossy) :
    Escapeless loc.path.lossy := by
  rw [Location.lossy_path]
  exact escapeless_append.2 ⟨by decide, .intercalate (by decide) (List.forall_mem_map.2 h)⟩

/-- What is shown of a command comes from the line that writes it. -/
theorem escapeless_display {line : String} {c : CompilerCommand}
    (h : CompilerCommand.ofLine line = .ok c) (hline : Escapeless line) : Escapeless c.display := by
  have hwords : words line = c.program :: c.leadingArgs := by
    unfold CompilerCommand.ofLine CompilerCommand.ofLine? at h
    split at h
    · exact nomatch h
    · rename_i hsome
      cases h
      split at hsome
      · exact nomatch hsome
      · rename_i hwords
        cases hsome
        exact hwords
  -- the words are cut out of the line, and blanks are put between them
  refine .intercalate (by decide) fun word hword => hline.of_subset ?_
  rw [← hwords] at hword
  obtain ⟨piece, hpiece, rfl⟩ := List.mem_map.1 hword
  rw [String.toList_ofList]
  exact subset_of_mem_cut (List.mem_filter.1 hpiece).1

end TypeLeak
