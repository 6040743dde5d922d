import TypeLeak.CompilerConfig
import TypeLeak.Proofs.JsonDocument

/-!
# Reading back written JSON

A written value is read back as that value, whatever follows it.  This holds for *plain* values:
those without numbers, whose objects are in the order of their keys and which are not nested too
deep.  Strings are read character by character.  All else is written with blanks between tokens, so
that what is written is one of the texts of a document that has the value.

## Key results

- `readString_writeString`: a string between quotes, with its escapes, is read as that string
- `exists_writes_writeValue`: a plain value is written as a document of that value
- `parse_text`: so every plain value is read back
- `CompilerConfig.parse_json`: so is a configuration
- `CompilerConfig.encode_reads_back`: writing a configuration never fails and loses nothing
-/

namespace TypeLeak.Json

/-! ## Strings -/

/-- A hexadecimal digit is read as what it is written for. -/
private theorem hexValue_hexDigit : ∀ n < 16, hexValue (hexDigit n) = some n := by decide

/-- An escaped control character is read as itself. -/
private theorem readEscape_control {c : Char} (hc : c < ' ') (rest : List Char) :
    readEscape ('u' :: '0' :: '0' :: hexDigit (c.toNat / 16) :: hexDigit (c.toNat % 16) :: rest) =
      .ok (c, rest) := by
  have hsmall : c.toNat < 32 := hc
  have hzero : hexValue '0' = some 0 := by decide
  have hhigh := hexValue_hexDigit (c.toNat / 16) (by omega)
  have hlow := hexValue_hexDigit (c.toNat % 16) (by omega)
  have hvalue : ((0 * 16 + 0) * 16 + c.toNat / 16) * 16 + c.toNat % 16 = c.toNat := by omega
  have hfour : readHexFour
      ('0' :: '0' :: hexDigit (c.toNat / 16) :: hexDigit (c.toNat % 16) :: rest) =
        .ok (c.toNat, rest) := by
    simp only [readHexFour, hzero, hhigh, hlow, hvalue]
  show readUnicode _ = _
  unfold readUnicode
  rw [hfour]
  simp only [bind, Except.bind]
  -- it is no half of a pair
  rw [if_neg (by omega), if_neg (by omega), Char.ofNat_toNat]

/-- A character of a string is read from what is written for it. -/
private theorem readStringBody_escapeChar (fuel : Nat) (c : Char) (rest : List Char) :
    readStringBody (fuel + 1) (escapeChar c ++ rest) =
      (readStringBody fuel rest).map fun read => (c :: read.1, read.2) := by
  -- an escape is read by `readEscape`, and the rest of the string as before
  have hescape : ∀ written, readEscape (written ++ rest) = .ok (c, rest) →
      readStringBody (fuel + 1) ('\\' :: written ++ rest) =
        (readStringBody fuel rest).map fun read => (c :: read.1, read.2) := by
    intro written hread
    rw [List.cons_append, readStringBody, hread]
    simp only [bind, Except.bind]
    cases readStringBody fuel rest with
    | error f => rfl
    | ok read => rfl
  unfold escapeChar
  split
  · rename_i h; subst h; exact hescape ['"'] rfl
  split
  · rename_i h; subst h; exact hescape ['\\'] rfl
  split
  · rename_i h; subst h; exact hescape ['b'] rfl
  split
  · rename_i h; subst h; exact hescape ['t'] rfl
  split
  · rename_i h; subst h; exact hescape ['n'] rfl
  split
  · rename_i h; subst h; exact hescape ['f'] rfl
  split
  · rename_i h; subst h; exact hescape ['r'] rfl
  split
  · rename_i hcontrol
    exact hescape ['u', '0', '0', _, _] (readEscape_control hcontrol rest)
  · rename_i hquote hbackslash _ _ _ _ _ hcontrol
    -- every other character stands for itself
    rw [List.singleton_append, readStringBody]
    · rw [if_neg hcontrol]
      cases readStringBody fuel rest with
      | error f => rfl
      | ok read => rfl
    · exact hquote
    · exact hbackslash

/-- What is written for the characters of a string is read as these characters, up to the quote. -/
private theorem readStringBody_escaped (cs rest : List Char) (fuel : Nat)
    (hfuel : cs.length < fuel) :
    readStringBody fuel (cs.flatMap escapeChar ++ '"' :: rest) = .ok (cs, rest) := by
  -- each character takes one unit of fuel, and the closing quote another
  induction cs generalizing fuel with
  | nil =>
    cases fuel with
    | zero => exact absurd hfuel (Nat.not_lt_zero _)
    | succ fuel => rfl
  | cons c cs ih =>
    cases fuel with
    | zero => exact absurd hfuel (Nat.not_lt_zero _)
    | succ fuel =>
      rw [List.flatMap_cons, List.append_assoc, readStringBody_escapeChar,
        ih fuel (Nat.lt_of_succ_lt_succ hfuel)]
      rfl

/-- At least one character is written for each, so there is fuel enough. -/
private theorem length_le_escaped (cs : List Char) :
    cs.length ≤ (cs.flatMap escapeChar).length := by
  induction cs with
  | nil => exact Nat.le_refl _
  | cons c cs ih =>
    have hone : 1 ≤ (escapeChar c).length := by
      unfold escapeChar
      repeat' split
      all_goals simp
    rw [List.flatMap_cons, List.length_append, List.length_cons]
    omega

/-- A string is read from what is written between its quotes. -/
theorem readString_writeString (s : String) (rest : List Char) :
    readString (s.toList.flatMap escapeChar ++ '"' :: rest) = .ok (s, rest) := by
  have hlen := length_le_escaped s.toList
  unfold readString
  rw [readStringBody_escaped _ _ _ (by rw [List.length_append]; omega)]
  simp [bind, Except.bind, String.ofList_toList]

/-! ## Lines -/

/-- A line break with its indentation is blank. -/
private theorem isBlank_lineBreak (level : Nat) : IsBlank (lineBreak level) := by
  intro c hc
  rcases List.mem_cons.1 hc with rfl | hc
  · rfl
  · rw [List.eq_of_mem_replicate hc]
    rfl

/-- Elements on lines of their own are elements with blanks around them. -/
private theorem exists_items_writeLines (level level' : Nat) {items : List (Document × List Char)}
    (hne : items ≠ []) (h : ∀ i ∈ items, Writes i.1 i.2) :
    ∃ lines : List (Document × List Char), lines ≠ [] ∧ lines.map Prod.fst = items.map Prod.fst ∧
      (∀ i ∈ lines, Writes i.1 i.2) ∧
      [','].intercalate (lines.map Prod.snd) =
        writeLines level (items.map Prod.snd) ++ lineBreak level' := by
  have hbreak := isBlank_lineBreak level
  induction items with
  | nil => exact absurd rfl hne
  | cons item items ih =>
    have hitem := h item (by simp)
    -- the last item has the line break before the closing bracket behind it
    cases items with
    | nil =>
      refine ⟨[(item.1, lineBreak level ++ item.2 ++ lineBreak level')], by simp, rfl, ?_,
        by simp [writeLines]⟩
      simp only [List.forall_mem_singleton]
      exact .blanks _ _ hbreak (isBlank_lineBreak level') hitem
    | cons next items =>
      obtain ⟨lines, hlines, hdocs, hwrites, htext⟩ := ih (by simp) fun i hi => h i (by simp [hi])
      obtain ⟨line, more, rfl⟩ := List.exists_cons_of_ne_nil hlines
      refine ⟨(item.1, lineBreak level ++ item.2) :: line :: more, by simp, by simp [← hdocs],
        List.forall_mem_cons.2 ⟨hitem.blank_before hbreak, hwrites⟩, ?_⟩
      rw [List.map_cons, List.map_cons, List.intercalate_cons_cons, ← List.map_cons, htext]
      simp [writeLines]

/-- So are members. -/
private theorem exists_members_writeLines (level level' : Nat) {members : List MemberText}
    (hne : members ≠ []) (hkeys : ∀ m ∈ members, WritesKey m.key m.keyText)
    (h : ∀ m ∈ members, Writes m.content m.text) :
    ∃ lines : List MemberText, lines ≠ [] ∧
      (lines.map fun m => (m.key, m.content)) = (members.map fun m => (m.key, m.content)) ∧
      (∀ m ∈ lines, WritesKey m.key m.keyText) ∧ (∀ m ∈ lines, Writes m.content m.text) ∧
      [','].intercalate (lines.map MemberText.chars) =
        writeLines level (members.map MemberText.chars) ++ lineBreak level' := by
  have hbreak := isBlank_lineBreak level
  induction members with
  | nil => exact absurd rfl hne
  | cons m members ih =>
    -- the line break before a member goes to its key
    have hkey := (hkeys m (by simp)).blank_before hbreak
    have hm := h m (by simp)
    -- behind the last value stands the line break of the closing bracket
    cases members with
    | nil =>
      refine ⟨[⟨m.key, lineBreak level ++ m.keyText, m.content, m.text ++ lineBreak level'⟩],
        by simp, rfl, by simpa using hkey, ?_, by simp [writeLines, MemberText.chars]⟩
      simp only [List.forall_mem_singleton]
      exact .blanks [] _ (by decide) (isBlank_lineBreak level') hm
    | cons next members =>
      obtain ⟨lines, hlines, hdocs, hlineKeys, hwrites, htext⟩ := ih (by simp)
        (fun m hm => hkeys m (by simp [hm])) fun m hm => h m (by simp [hm])
      obtain ⟨line, more, rfl⟩ := List.exists_cons_of_ne_nil hlines
      refine ⟨⟨m.key, lineBreak level ++ m.keyText, m.content, m.text⟩ :: line :: more, by simp,
        by simpa using hdocs, List.forall_mem_cons.2 ⟨hkey, hlineKeys⟩,
        List.forall_mem_cons.2 ⟨hm, hwrites⟩, ?_⟩
      rw [List.map_cons, List.map_cons, List.intercalate_cons_cons, ← List.map_cons, htext]
      simp [writeLines, MemberText.chars]

/-! ## Values -/

/-- A value without numbers, whose objects are in the order of their keys, and in which at most
    `depth` brackets are open at a time. -/
inductive Plain : Nat → Value → Prop where
  | null {depth : Nat} : Plain depth .null
  | bool {depth : Nat} (value : Bool) : Plain depth (.bool value)
  | string {depth : Nat} (value : String) : Plain depth (.string value)
  | array {depth : Nat} {items : List Value} :
      (∀ item ∈ items, Plain depth item) → Plain (depth + 1) (.array items)
  | object {depth : Nat} {members : List (String × Value)} :
      (∀ m ∈ members, Plain depth m.2) → Value.sortMembers members = members →
      Plain (depth + 1) (.object members)

/-- The items of an array are written one by one. -/
private theorem writeItems_eq (level : Nat) (items : List Value) :
    writeItems level items = items.map (writeValue level) := by
  induction items with
  | nil => rw [writeItems]; rfl
  | cons v vs ih => rw [writeItems, ih]; rfl

/-- So are the members of an object, each with its key. -/
private theorem writeMembers_eq (level : Nat) (members : List (String × Value)) :
    writeMembers level members =
      members.map fun m => writeString m.1 ++ ':' :: ' ' :: writeValue level m.2 := by
  induction members with
  | nil => rw [writeMembers]; rfl
  | cons m ms ih => rw [writeMembers, ih]; rfl

/-- A string between its quotes is a scalar. -/
private theorem readScalar_writeString (s : String) :
    readScalar (writeString s) = .ok (.string s, []) := by
  have hread := readString_writeString s []
  show readScalar ('"' :: (s.toList.flatMap escapeChar ++ ['"'])) = _
  simp only [readScalar, hread, bind, Except.bind]

/-- A key is written as a string. -/
private theorem writesKey_writeString (key : String) : WritesKey key (writeString key) :=
  ⟨[], key.toList.flatMap escapeChar ++ ['"'], [], by decide, by decide,
    readString_writeString key [], by simp [writeString]⟩

/-- Steps that each come back to where they began come back together. -/
private theorem mapM_map_eq_some {α β : Type} {f : β → Option α} {g : α → β} {xs : List α}
    (h : ∀ x ∈ xs, f (g x) = some x) : (xs.map g).mapM f = some xs := by
  rw [mapM_eq_some_iff]
  constructor
  · intro y hy
    obtain ⟨x, hx, rfl⟩ := List.mem_map.1 hy
    simp [h x hx]
  · rw [List.filterMap_map]
    exact (List.filterMap_congr h).trans List.filterMap_some

/-- A plain value is the value of a document that is written as the value is. -/
theorem exists_writes_writeValue {depth : Nat} {v : Value} (h : Plain depth v) :
    ∃ d : Document, d.value? depth = some v ∧ ∀ level, Writes d (writeValue level v) := by
  -- over the construction of the value; the document has the same shape
  induction h with
  | null => exact ⟨.scalar .null, by simp, fun level => by rw [writeValue]; exact .scalar rfl⟩
  | bool value =>
    refine ⟨.scalar (.bool value), by simp, fun level => ?_⟩
    cases value <;> rw [writeValue] <;> exact .scalar rfl
  | string value =>
    refine ⟨.scalar (.string value), by simp, fun level => ?_⟩
    rw [writeValue]
    exact .scalar (readScalar_writeString value)
  | @array depth items _ ih =>
    choose! doc hvalue hwrites using ih
    refine ⟨.array (items.map doc), ?_, fun level => ?_⟩
    · rw [Document.value?, mapM_map_eq_some hvalue]
      rfl
    · cases items with
      | nil =>
        rw [writeValue]
        exact .emptyArray [] (by decide)
      | cons v vs =>
        -- every element is written on a line of its own, one level further in
        have hitems : ∀ i ∈ (v :: vs).map fun v => (doc v, writeValue (level + 1) v),
            Writes i.1 i.2 := by
          intro i hi
          obtain ⟨v, hv, rfl⟩ := List.mem_map.1 hi
          exact hwrites v hv _
        obtain ⟨lines, hne, hdocs, hlines, htext⟩ :=
          exists_items_writeLines (level + 1) level (by simp) hitems
        have harray := Writes.array lines hne hlines
        rw [List.map_map] at hdocs htext
        rw [hdocs, htext] at harray
        rw [writeValue, writeItems_eq]
        exact harray
  | @object depth members _ hsorted ih =>
    choose! doc hvalue hwrites using ih
    refine ⟨.object (members.map fun m => (m.1, doc m)), ?_, fun level => ?_⟩
    · have hmembers : ∀ m ∈ members, ((doc m).value? depth).map (m.1, ·) = some m := by
        intro m hm
        rw [hvalue m hm]
        rfl
      rw [Document.value?, mapM_map_eq_some hmembers, Option.map_some, Value.ofMembers, hsorted]
    · cases members with
      | nil =>
        rw [writeValue]
        exact .emptyObject [] (by decide)
      | cons m ms =>
        -- and so is every member
        have hkeys : ∀ t ∈ (m :: ms).map fun m => (⟨m.1, writeString m.1, doc m,
            [' '] ++ writeValue (level + 1) m.2⟩ : MemberText), WritesKey t.key t.keyText := by
          intro t ht
          obtain ⟨m, -, rfl⟩ := List.mem_map.1 ht
          exact writesKey_writeString m.1
        have htexts : ∀ t ∈ (m :: ms).map fun m => (⟨m.1, writeString m.1, doc m,
            [' '] ++ writeValue (level + 1) m.2⟩ : MemberText), Writes t.content t.text := by
          intro t ht
          obtain ⟨m, hm, rfl⟩ := List.mem_map.1 ht
          exact (hwrites m hm _).blank_before (by decide)
        obtain ⟨lines, hne, hdocs, hlineKeys, hlines, htext⟩ :=
          exists_members_writeLines (level + 1) level (by simp) hkeys htexts
        have hobject := Writes.object lines hne hlineKeys hlines
        rw [List.map_map] at hdocs htext
        rw [hdocs, htext] at hobject
        rw [writeValue, writeMembers_eq]
        exact hobject

/-- Every plain value is the value of its text. -/
theorem parse_text {v : Value} (h : Plain maxDepth v) : parse v.text = .ok v := by
  obtain ⟨d, hvalue, hwrites⟩ := exists_writes_writeValue h
  have htext : Writes d v.text.toList := by
    rw [Value.text, String.toList_ofList]
    exact hwrites 0
  exact (parse_eq_ok_iff htext).2 hvalue

end TypeLeak.Json

namespace TypeLeak.CompilerConfig

open Json (Plain)

/-- The value of a configuration is plain. -/
private theorem plain_value (c : CompilerConfig) : Plain Json.maxDepth c.value := by
  have hincludes : Plain 126 (.array (c.includes.map .string)) := by
    apply Plain.array
    intro item hitem
    obtain ⟨text, -, rfl⟩ := List.mem_map.1 hitem
    exact .string text
  refine .object (fun m hm => ?_) ?_
  · rcases List.mem_cons.1 hm with rfl | hm
    · exact .string _
    · rw [List.mem_singleton.1 hm]
      exact hincludes
  · have hne : "include" ≠ "extends" := by decide
    -- the two keys are in order as they are written
    have hnlt : ¬ "include" < "extends" := by decide
    simp [Json.Value.sortMembers, Json.Value.insertMember, hne, hnlt]

/-- The text of a configuration holds that configuration. -/
theorem parse_json (c : CompilerConfig) (subject : String) :
    Shape.parse decode subject c.json = .ok c := by
  unfold Shape.parse json
  rw [Json.parse_text (plain_value c)]
  show (decode c.value).mapError _ = _
  rw [decode_value]
  rfl

/-- Every configuration can be written, whatever its texts are made of, and is read back from what
    was written: no path and no repetition gets lost, and no two configurations make the same
    file. -/
theorem encode_reads_back (c : CompilerConfig) :
    c.encode = .ok c.json ∧ (∀ subject, Shape.parse decode subject c.json = .ok c) ∧
      ∀ other : CompilerConfig, other.encode = c.encode → other = c := by
  refine ⟨c.encode_eq, c.parse_json, fun other hsame => ?_⟩
  rw [other.encode_eq, c.encode_eq] at hsame
  have htext : other.json = c.json := Except.ok.inj hsame
  -- one text cannot be read as two configurations
  have hread : Shape.parse decode "" other.json = .ok c := by
    rw [htext]
    exact c.parse_json ""
  rw [other.parse_json] at hread
  exact Except.ok.inj hread

end TypeLeak.CompilerConfig
