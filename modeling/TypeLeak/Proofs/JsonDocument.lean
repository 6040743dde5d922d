import Mathlib.Data.List.DropRight
import TypeLeak.Proofs.ScalarText

/-!
# Documents and their texts

A document is a value as it is written: the members of its objects are in any order, and a key may
come more than once.  It has many texts, which differ in the blanks between tokens and in how
strings and numbers are spelled.  Each of them is read as the value of the document, and none is
accepted if the document has no value because its brackets are nested too deep.

The proof goes by the construction of the text.  A value is read up to the blanks behind it, so that
all that counts of what follows is how it goes on after them.

## Key results

- `readItems_pieces`, `readMembers_pieces`: texts with commas between them are read one by one
- `Writes.reads`: every text of a document is read as its value
- `parse_eq_ok_iff`: it is accepted exactly if there is one
-/

namespace TypeLeak.Json

/-- A document as it is written: its members are in any order, and a key may come again. -/
inductive Document where
  | scalar (value : Value)
  | array (items : List Document)
  | object (members : List (String × Document))
  deriving Inhabited

/-- The value of a document in which no more than `depth` brackets are open at a time. -/
def Document.value? : (depth : Nat) → Document → Option Value
  | _, .scalar v => some v
  | 0, _ => none
  | depth + 1, .array items => (items.mapM (value? depth)).map .array
  | depth + 1, .object members =>
    (members.mapM fun m => (value? depth m.2).map (m.1, ·)).map .ofMembers

/-- Nothing but gaps. -/
def IsBlank (cs : List Char) : Prop := ∀ c ∈ cs, isGap c = true

instance (cs : List Char) : Decidable (IsBlank cs) :=
  decidable_of_iff (cs.all isGap = true) List.all_eq_true

/-- The text of a key in an object, with the blanks around it. -/
def WritesKey (key : String) (text : List Char) : Prop :=
  ∃ before quoted after, IsBlank before ∧ IsBlank after ∧ readString quoted = .ok (key, []) ∧
    text = before ++ '"' :: quoted ++ after

/-- A member of an object and how it is written. -/
structure MemberText where
  key : String
  keyText : List Char
  content : Document
  text : List Char

/-- The text of a member. -/
def MemberText.chars (m : MemberText) : List Char := m.keyText ++ ':' :: m.text

/-- The texts of a document.  Between tokens there may be blanks, and a scalar may be spelled in any
    way in which it can be read. -/
inductive Writes : Document → List Char → Prop where
  | scalar {v : Value} {text : List Char} : readScalar text = .ok (v, []) → Writes (.scalar v) text
  | blanks (before after : List Char) {d : Document} {text : List Char} : IsBlank before →
      IsBlank after → Writes d text → Writes d (before ++ text ++ after)
  | emptyArray (gap : List Char) : IsBlank gap → Writes (.array []) ('[' :: gap ++ [']'])
  | array (items : List (Document × List Char)) : items ≠ [] → (∀ i ∈ items, Writes i.1 i.2) →
      Writes (.array (items.map Prod.fst)) ('[' :: [','].intercalate (items.map Prod.snd) ++ [']'])
  | emptyObject (gap : List Char) : IsBlank gap → Writes (.object []) ('{' :: gap ++ ['}'])
  | object (members : List MemberText) : members ≠ [] →
      (∀ m ∈ members, WritesKey m.key m.keyText) → (∀ m ∈ members, Writes m.content m.text) →
      Writes (.object (members.map fun m => (m.key, m.content)))
        ('{' :: [','].intercalate (members.map MemberText.chars) ++ ['}'])

/-! ## Values of documents -/

/-- Steps that may fail succeed on a list if each of them does. -/
theorem mapM_eq_some_iff {α β : Type} {f : α → Option β} {xs : List α} {ys : List β} :
    xs.mapM f = some ys ↔ (∀ x ∈ xs, (f x).isSome = true) ∧ xs.filterMap f = ys := by
  induction xs generalizing ys with
  | nil => simp [List.mapM_nil]
  | cons x xs ih =>
    rw [List.mapM_cons]
    -- the first failure is the failure of all, and takes the first conjunct with it
    cases hx : f x with
    | none => simp [hx]
    | some y =>
      rw [List.filterMap_cons_some hx, List.forall_mem_cons, hx]
      simp only [bind, Option.bind_some, Option.bind_eq_some_iff, ih, pure, Option.some.injEq,
        Option.isSome_some, true_and]
      constructor
      · rintro ⟨vs, ⟨hall, rfl⟩, rfl⟩
        exact ⟨hall, rfl⟩
      · rintro ⟨hall, rfl⟩
        exact ⟨_, ⟨hall, rfl⟩, rfl⟩

namespace Document

/-- The value of a member. -/
def memberValue (depth : Nat) (m : String × Document) : Option (String × Value) :=
  (m.2.value? depth).map (m.1, ·)

/-- An array has a value if there is depth left for its bracket and each of its items has one. -/
theorem value?_array_eq_some_iff {depth : Nat} {items : List Document} {v : Value} :
    (array items).value? depth = some v ↔ ∃ below, depth = below + 1 ∧
      (∀ i ∈ items, (i.value? below).isSome = true) ∧
      Value.array (items.filterMap (value? below)) = v := by
  -- at depth zero the bracket is one too many
  cases depth with
  | zero => simp [value?]
  | succ below =>
    rw [value?, Option.map_eq_some_iff]
    simp only [mapM_eq_some_iff]
    constructor
    · rintro ⟨vs, ⟨hall, rfl⟩, rfl⟩
      exact ⟨below, rfl, hall, rfl⟩
    · rintro ⟨_, heq, hall, rfl⟩
      cases heq
      exact ⟨_, ⟨hall, rfl⟩, rfl⟩

/-- So has an object, whose value settles the order of the members and the keys that come again. -/
theorem value?_object_eq_some_iff {depth : Nat} {members : List (String × Document)} {v : Value} :
    (object members).value? depth = some v ↔ ∃ below, depth = below + 1 ∧
      (∀ m ∈ members, (m.2.value? below).isSome = true) ∧
      Value.ofMembers (members.filterMap (memberValue below)) = v := by
  -- one bracket is used up, and so each member has one less
  cases depth with
  | zero => simp [value?]
  | succ below =>
    rw [value?, Option.map_eq_some_iff]
    simp only [mapM_eq_some_iff, Option.isSome_map]
    constructor
    · rintro ⟨vs, ⟨hall, rfl⟩, rfl⟩
      exact ⟨below, rfl, hall, rfl⟩
    · rintro ⟨_, heq, hall, rfl⟩
      cases heq
      exact ⟨_, ⟨hall, rfl⟩, rfl⟩

end Document

/-! ## Blanks -/

/-- Blanks may stand before a document. -/
theorem Writes.blank_before {gap : List Char} (hgap : IsBlank gap) {d : Document}
    {text : List Char} (h : Writes d text) : Writes d (gap ++ text) := by
  have hpadded := Writes.blanks gap [] hgap (by decide) h
  rwa [List.append_nil] at hpadded

/-- So they may before a key. -/
theorem WritesKey.blank_before {gap : List Char} (hgap : IsBlank gap) {key : String}
    {text : List Char} (h : WritesKey key text) : WritesKey key (gap ++ text) := by
  obtain ⟨before, quoted, after, hbefore, hafter, hquoted, rfl⟩ := h
  refine ⟨gap ++ before, quoted, after, fun c hc => ?_, hafter, hquoted, by simp⟩
  exact (List.mem_append.1 hc).elim (hgap c) (hbefore c)

/-- A number ends at a blank, and otherwise where it would without the blanks. -/
theorem IsBlank.ends_append {gap rest : List Char} (hgap : IsBlank gap) (hrest : Ends rest) :
    Ends (gap ++ rest) := by
  cases gap with
  | nil => exact hrest
  | cons c cs =>
    intro x hx
    have hc := hgap c (by simp)
    have hx : c = x := by simpa using hx
    subst hx
    -- none of the four blanks goes on with a number
    simp only [isGap, Bool.or_eq_true, beq_iff_eq] at hc
    rcases hc with ((rfl | rfl) | rfl) | rfl <;> decide

/-- Behind its blanks a text begins with a character that closes nothing. -/
def Begins (text : List Char) : Prop := ∃ c cs, skipBlank text = c :: cs ∧ c ≠ ']' ∧ c ≠ '}'

/-- What a text begins with does not depend on what follows it. -/
theorem Begins.skipBlank_append {text : List Char} (h : Begins text) (rest : List Char) :
    ∃ c cs, skipBlank (text ++ rest) = c :: (cs ++ rest) ∧ c ≠ ']' ∧ c ≠ '}' := by
  obtain ⟨c, cs, hskip, hlist, hobject⟩ := h
  refine ⟨c, cs, ?_, hlist, hobject⟩
  unfold skipBlank at hskip ⊢
  rw [List.dropWhile_append, hskip]
  rfl

/-- A value does not mind blanks before it. -/
theorem readValue_skipBlank (depth : Nat) (cs : List Char) :
    readValue depth (skipBlank cs) = readValue depth cs := by
  have hskip : skipBlank (skipBlank cs) = skipBlank cs := List.dropWhile_idempotent isGap cs
  unfold readValue
  rw [hskip]

/-- A digit is no blank and no bracket. -/
private theorem isDigit_begins {c : Char} (h : c.isDigit = true) :
    isGap c = false ∧ c ≠ '[' ∧ c ≠ ']' ∧ c ≠ '{' ∧ c ≠ '}' := by
  have hne : ∀ other : Char, other.isDigit = false → c ≠ other := by
    rintro other hother rfl
    rw [hother] at h
    contradiction
  refine ⟨?_, hne _ rfl, hne _ rfl, hne _ rfl, hne _ rfl⟩
  simp [isGap, hne ' ' rfl, hne '\t' rfl, hne '\n' rfl, hne '\r' rfl]

/-- A scalar begins with a character that is no gap and no bracket. -/
private theorem readScalar_begins {text left : List Char} {v : Value}
    (h : readScalar text = .ok (v, left)) :
    ∃ c cs, text = c :: cs ∧ isGap c = false ∧ c ≠ '[' ∧ c ≠ ']' ∧ c ≠ '{' ∧ c ≠ '}' := by
  unfold readScalar at h
  split at h
  · contradiction
  -- five of the scalars have a mark of their own, and numbers begin with a digit
  iterate 5 exact ⟨_, _, rfl, by decide⟩
  · split at h
    · rename_i hdigit
      cases text with
      | nil => contradiction
      | cons c cs => exact ⟨c, cs, rfl, isDigit_begins hdigit⟩
    · contradiction

/-- Every text of a document begins with something that closes no bracket. -/
theorem Writes.begins {d : Document} {text : List Char} (h : Writes d text) : Begins text := by
  -- blanks are skipped, a scalar begins with a mark of its own, the rest with its bracket
  induction h with
  | scalar hread =>
    obtain ⟨c, cs, rfl, hgap, -, hlist, -, hobject⟩ := readScalar_begins hread
    exact ⟨c, cs, by simp [skipBlank, hgap], hlist, hobject⟩
  | blanks before after hbefore _ _ ih =>
    rw [List.append_assoc, Begins, Json.skipBlank_append hbefore]
    obtain ⟨c, cs, hskip, hlist, hobject⟩ := ih.skipBlank_append _
    exact ⟨c, _, hskip, hlist, hobject⟩
  | emptyArray _ _ => exact ⟨'[', _, rfl, by decide, by decide⟩
  | array _ _ _ _ => exact ⟨'[', _, rfl, by decide, by decide⟩
  | emptyObject _ _ => exact ⟨'{', _, rfl, by decide, by decide⟩
  | object _ _ _ _ _ => exact ⟨'{', _, rfl, by decide, by decide⟩

/-! ## Lists -/

/-- A reading gives this, if anything, and leaves this behind its blanks. -/
def Yields {α : Type} (x : Except Fault (WithRest α)) (o : Option α) (rest : List Char) : Prop :=
  match o with
  | some a => ∃ left, x = .ok (a, left) ∧ skipBlank left = skipBlank rest
  | none => ∃ fault, x = .error fault

/-- What is made of a reading comes to the same as making it of the result. -/
theorem Yields.map {α β : Type} {x : Except Fault (WithRest α)} {o : Option α} {rest : List Char}
    (h : Yields x o rest) (f : α → β) :
    Yields (x.map fun read => (f read.1, read.2)) (o.map f) rest := by
  cases o with
  | none =>
    obtain ⟨fault, rfl⟩ := h
    exact ⟨fault, rfl⟩
  | some a =>
    obtain ⟨left, rfl, hleft⟩ := h
    exact ⟨left, rfl, hleft⟩

/-- What a reader makes of a text, if anything, whatever follows it. -/
def ReadsAs (reader : ValueReader) (text : List Char) (o : Option Value) : Prop :=
  ∀ rest, Ends rest → Yields (reader (text ++ rest)) o rest

/-- The first of texts with commas between them, and how much follows it at least. -/
private theorem intercalate_cons (piece : List Char) (pieces : List (List Char)) :
    ∃ more, [','].intercalate (piece :: pieces) = piece ++ more ∧ pieces.length ≤ more.length := by
  -- each piece behind the first has at least the comma before it
  induction pieces generalizing piece with
  | nil => exact ⟨[], by simp, Nat.le_refl _⟩
  | cons next pieces ih =>
    obtain ⟨more, hmore, hlen⟩ := ih next
    refine ⟨',' :: (next ++ more), ?_, ?_⟩
    · rw [List.intercalate_cons_cons, hmore, List.append_assoc]
      rfl
    · simp only [List.length_cons, List.length_append]
      omega

/-- Texts with commas between them begin with a character that closes nothing, and are no more than
    their characters. -/
theorem skipBlank_pieces {pieces : List (List Char)} (hne : pieces ≠ [])
    (h : ∀ piece ∈ pieces, Begins piece) (rest : List Char) :
    ∃ c cs, skipBlank ([','].intercalate pieces ++ rest) = c :: cs ∧ c ≠ ']' ∧ c ≠ '}' ∧
      pieces.length ≤ (c :: cs).length := by
  -- only the first piece is looked at; the others count by their commas
  cases pieces with
  | nil => exact absurd rfl hne
  | cons piece pieces =>
    obtain ⟨more, hmore, hlen⟩ := intercalate_cons piece pieces
    obtain ⟨c, cs, hskip, hlist, hobject⟩ :=
      (h piece (by simp)).skipBlank_append (more ++ rest)
    refine ⟨c, cs ++ (more ++ rest), ?_, hlist, hobject, ?_⟩
    · rw [hmore, List.append_assoc, hskip]
    · simp only [List.length_cons, List.length_append]
      omega

/-- A number ends at a character that it cannot hold. -/
private theorem ends_cons {c : Char} (h : extendsNumber c = false) (cs : List Char) :
    Ends (c :: cs) := by
  intro x hx
  rwa [← Option.some.inj hx]

section Items

variable {element : ValueReader} (hblank : ∀ cs, element (skipBlank cs) = element cs)
include hblank

/-- The last element of a list is read with the bracket behind it. -/
private theorem readItems_last {text : List Char} {o : Option Value} (h : ReadsAs element text o)
    (fuel : Nat) (rest : List Char) :
    Yields (readItems element (fuel + 1) (skipBlank (text ++ ']' :: rest))) (o.map ([·])) rest := by
  have hread := h (']' :: rest) (ends_cons rfl rest)
  have hclose : skipBlank (']' :: rest) = ']' :: rest := rfl
  rw [readItems, hblank]
  -- an element that is not read is the failure of the list
  cases o with
  | none =>
    obtain ⟨fault, hfault⟩ := hread
    exact ⟨fault, by rw [hfault]; rfl⟩
  | some v =>
    obtain ⟨left, hread, hleft⟩ := hread
    refine ⟨rest, ?_, rfl⟩
    rw [hread]
    simp only [bind, Except.bind, hleft, hclose]

/-- Any other one is read with the comma behind it, and then those that follow. -/
private theorem readItems_comma {text more : List Char} {o : Option Value}
    (h : ReadsAs element text o) {fuel : Nat} {os : Option (List Value)} {rest : List Char}
    (hnext : ∃ c next, skipBlank more = c :: next ∧ c ≠ ']')
    (hmore : Yields (readItems element fuel (skipBlank more)) os rest) :
    Yields (readItems element (fuel + 1) (skipBlank (text ++ ',' :: more)))
      (o.bind fun v => os.map (v :: ·)) rest := by
  have hread := h (',' :: more) (ends_cons rfl more)
  have hcomma : skipBlank (',' :: more) = ',' :: more := rfl
  rw [readItems, hblank]
  cases o with
  | none =>
    obtain ⟨fault, hfault⟩ := hread
    exact ⟨fault, by rw [hfault]; rfl⟩
  | some v =>
    obtain ⟨left, hread, hleft⟩ := hread
    obtain ⟨c, next, hskip, hbracket⟩ := hnext
    rw [hskip] at hmore
    rw [hread]
    simp only [bind, Except.bind, hleft, hcomma, hskip]
    -- a bracket behind the comma would be an error of its own
    split
    · contradiction
    · rename_i heq
      exact absurd (List.cons.inj heq).1 hbracket
    · have hall := hmore.map (v :: ·)
      cases hothers : readItems element fuel (c :: next) with
      | error fault => rwa [hothers] at hall
      | ok read => rwa [hothers] at hall

/-- The elements of a list are read from texts with commas between them. -/
theorem readItems_pieces {value : Document → Option Value} {items : List (Document × List Char)}
    (hne : items ≠ []) (h : ∀ i ∈ items, Begins i.2 ∧ ReadsAs element i.2 (value i.1))
    {fuel : Nat} (hfuel : items.length ≤ fuel) (rest : List Char) :
    Yields (readItems element fuel
        (skipBlank ([','].intercalate (items.map Prod.snd) ++ ']' :: rest)))
      ((items.map Prod.fst).mapM value) rest := by
  -- the last element stands before the bracket, each other one before a comma
  induction items generalizing fuel with
  | nil => exact absurd rfl hne
  | cons item items ih =>
    obtain ⟨fuel, rfl⟩ : ∃ n, fuel = n + 1 := ⟨fuel - 1, by simp at hfuel; omega⟩
    have hitem := (h item (by simp)).2
    -- the element is the last one, or there are more behind a comma
    cases items with
    | nil =>
      have hlast := readItems_last hblank hitem fuel rest
      cases ho : value item.1 <;> simpa [List.mapM_cons, ho] using hlast
    | cons next items =>
      have hbegin : ∀ piece ∈ (next :: items).map Prod.snd, Begins piece :=
        List.forall_mem_map.2 fun i hi => (h i (List.mem_cons_of_mem _ hi)).1
      obtain ⟨c, cs, hskip, hlist, -, -⟩ := skipBlank_pieces (by simp) hbegin (']' :: rest)
      have hrest := ih (by simp) (fun i hi => h i (by simp [hi])) (Nat.le_of_succ_le_succ hfuel)
      have hcomma := readItems_comma hblank hitem ⟨c, cs, hskip, hlist⟩ hrest
      rw [List.map_cons, List.map_cons, List.intercalate_cons_cons, List.append_assoc,
        List.append_assoc, List.map_cons, List.mapM_cons]
      -- an element without a value leaves the list without one, however it goes on
      cases ho : value item.1 with
      | none => rwa [ho] at hcomma
      | some v =>
        rw [ho] at hcomma
        cases hos : ((next :: items).map Prod.fst).mapM value <;> rw [hos] at hcomma <;>
          exact hcomma

/-- A list is read from the texts of its elements. -/
theorem readList_pieces {value : Document → Option Value} {items : List (Document × List Char)}
    (hne : items ≠ []) (h : ∀ i ∈ items, Begins i.2 ∧ ReadsAs element i.2 (value i.1))
    (rest : List Char) :
    Yields (readList element ([','].intercalate (items.map Prod.snd) ++ ']' :: rest))
      (((items.map Prod.fst).mapM value).map .array) rest := by
  have hbegin : ∀ piece ∈ items.map Prod.snd, Begins piece :=
    List.forall_mem_map.2 fun i hi => (h i hi).1
  obtain ⟨c, cs, hskip, hlist, -, hlen⟩ := skipBlank_pieces (by simp [hne]) hbegin (']' :: rest)
  rw [List.length_map] at hlen
  have hitems := readItems_pieces hblank hne h (Nat.le_succ_of_le hlen) rest
  unfold readList
  rw [hskip] at hitems ⊢
  -- what comes first is not the bracket that closes the empty list
  split
  · contradiction
  · rename_i heq
    exact absurd (List.cons.inj heq).1 hlist
  · have hall := hitems.map Value.array
    cases hread : readItems element ((c :: cs).length + 1) (c :: cs) with
    | error fault => rwa [hread] at hall
    | ok read => rwa [hread] at hall

end Items

/-! ## Objects -/

/-- A key is read with the colon behind it. -/
theorem WritesKey.readKey {key : String} {text : List Char} (h : WritesKey key text)
    (cs : List Char) : readKey (skipBlank (text ++ ':' :: cs)) = .ok (key, cs) := by
  obtain ⟨before, quoted, after, hbefore, hafter, hquoted, rfl⟩ := h
  have htext : before ++ '"' :: quoted ++ after ++ ':' :: cs =
      before ++ '"' :: (quoted ++ (after ++ ':' :: cs)) := by simp
  have hquote : ∀ cs, skipBlank ('"' :: cs) = '"' :: cs := fun _ => rfl
  have hcolon : skipBlank (':' :: cs) = ':' :: cs := rfl
  -- the key is a string with blanks and the colon behind it, which make no difference to it
  have hstring : readString (quoted ++ (after ++ ':' :: cs)) = .ok (key, after ++ ':' :: cs) :=
    carries_readString quoted key [] hquoted
  rw [htext, skipBlank_append hbefore, hquote, Json.readKey, hstring]
  simp only [bind, Except.bind, skipBlank_append hafter, hcolon]

/-- A member begins with the quote of its key. -/
theorem MemberText.begins {m : MemberText} (h : WritesKey m.key m.keyText) : Begins m.chars := by
  obtain ⟨before, quoted, after, hbefore, -, -, htext⟩ := h
  refine ⟨'"', quoted ++ (after ++ ':' :: m.text), ?_, by decide, by decide⟩
  rw [MemberText.chars, htext, List.append_assoc, List.append_assoc, List.cons_append,
    skipBlank_append hbefore]
  rfl

section Members

variable {element : ValueReader} {m : MemberText} (hkey : WritesKey m.key m.keyText)

include hkey

/-- The last member of an object is read with the bracket behind it. -/
private theorem readMembers_last {o : Option Value} (h : ReadsAs element m.text o)
    (fuel : Nat) (rest : List Char) :
    Yields (readMembers element (fuel + 1) (skipBlank (m.chars ++ '}' :: rest)))
      (o.map fun v => [(m.key, v)]) rest := by
  have hread := h ('}' :: rest) (ends_cons rfl rest)
  have hclose : skipBlank ('}' :: rest) = '}' :: rest := rfl
  rw [readMembers, MemberText.chars, List.append_assoc, List.cons_append, hkey.readKey]
  -- what the value comes to decides, since the bracket behind it is there
  cases o with
  | none =>
    obtain ⟨fault, hfault⟩ := hread
    exact ⟨fault, by simp only [bind, Except.bind, hfault]⟩
  | some v =>
    obtain ⟨left, hread, hleft⟩ := hread
    refine ⟨rest, ?_, rfl⟩
    simp only [bind, Except.bind, hread, hleft, hclose]

/-- Any other one is read with the comma behind it, and then those that follow. -/
private theorem readMembers_comma {more : List Char} {o : Option Value}
    (h : ReadsAs element m.text o) {fuel : Nat} {os : Option (List (String × Value))}
    {rest : List Char} (hnext : ∃ c next, skipBlank more = c :: next ∧ c ≠ '}')
    (hmore : Yields (readMembers element fuel (skipBlank more)) os rest) :
    Yields (readMembers element (fuel + 1) (skipBlank (m.chars ++ ',' :: more)))
      (o.bind fun v => os.map ((m.key, v) :: ·)) rest := by
  have hread := h (',' :: more) (ends_cons rfl more)
  have hcomma : skipBlank (',' :: more) = ',' :: more := rfl
  rw [readMembers, MemberText.chars, List.append_assoc, List.cons_append, hkey.readKey]
  cases o with
  | none =>
    obtain ⟨fault, hfault⟩ := hread
    exact ⟨fault, by simp only [bind, Except.bind, hfault]⟩
  | some v =>
    obtain ⟨left, hread, hleft⟩ := hread
    obtain ⟨c, next, hskip, hbracket⟩ := hnext
    rw [hskip] at hmore
    simp only [bind, Except.bind, hread, hleft, hcomma, hskip]
    -- so would one behind the comma of a member
    split
    · contradiction
    · rename_i heq
      exact absurd (List.cons.inj heq).1 hbracket
    · have hall := hmore.map ((m.key, v) :: ·)
      cases hothers : readMembers element fuel (c :: next) with
      | error fault => rwa [hothers] at hall
      | ok read => rwa [hothers] at hall

end Members

/-- The members of an object are read from texts with commas between them. -/
theorem readMembers_pieces {element : ValueReader} {value : Document → Option Value}
    {members : List MemberText} (hne : members ≠ [])
    (h : ∀ m ∈ members, WritesKey m.key m.keyText ∧ ReadsAs element m.text (value m.content))
    {fuel : Nat} (hfuel : members.length ≤ fuel) (rest : List Char) :
    Yields (readMembers element fuel
        (skipBlank ([','].intercalate (members.map MemberText.chars) ++ '}' :: rest)))
      (members.mapM fun m => (value m.content).map (m.key, ·)) rest := by
  -- as for lists, each member with its key and its colon
  induction members generalizing fuel with
  | nil => exact absurd rfl hne
  | cons m members ih =>
    obtain ⟨fuel, rfl⟩ : ∃ n, fuel = n + 1 := ⟨fuel - 1, by simp at hfuel; omega⟩
    obtain ⟨hkey, hvalue⟩ := h m (by simp)
    cases members with
    | nil =>
      have hlast := readMembers_last hkey hvalue fuel rest
      cases ho : value m.content <;> simpa [List.mapM_cons, ho] using hlast
    | cons next members =>
      have hbegin : ∀ piece ∈ (next :: members).map MemberText.chars, Begins piece :=
        List.forall_mem_map.2 fun m hm => MemberText.begins (h m (List.mem_cons_of_mem _ hm)).1
      obtain ⟨c, cs, hskip, -, hobject, -⟩ := skipBlank_pieces (by simp) hbegin ('}' :: rest)
      have hrest := ih (by simp) (fun m hm => h m (by simp [hm])) (Nat.le_of_succ_le_succ hfuel)
      have hcomma := readMembers_comma hkey hvalue ⟨c, cs, hskip, hobject⟩ hrest
      rw [List.map_cons, List.map_cons, List.intercalate_cons_cons, List.append_assoc,
        List.append_assoc, List.mapM_cons]
      cases ho : value m.content with
      | none => rwa [ho] at hcomma
      | some v =>
        rw [ho] at hcomma
        cases hos : (next :: members).mapM fun m => (value m.content).map (m.key, ·) <;>
          rw [hos] at hcomma <;> exact hcomma

/-- An object is read from the texts of its members. -/
theorem readObject_pieces {element : ValueReader} {value : Document → Option Value}
    {members : List MemberText} (hne : members ≠ [])
    (h : ∀ m ∈ members, WritesKey m.key m.keyText ∧ ReadsAs element m.text (value m.content))
    (rest : List Char) :
    Yields (readObject element ([','].intercalate (members.map MemberText.chars) ++ '}' :: rest))
      ((members.mapM fun m => (value m.content).map (m.key, ·)).map .ofMembers) rest := by
  have hbegin : ∀ piece ∈ members.map MemberText.chars, Begins piece :=
    List.forall_mem_map.2 fun m hm => MemberText.begins (h m hm).1
  obtain ⟨c, cs, hskip, -, hobject, hlen⟩ := skipBlank_pieces (by simp [hne]) hbegin ('}' :: rest)
  rw [List.length_map] at hlen
  have hmembers := readMembers_pieces hne h (Nat.le_succ_of_le hlen) rest
  unfold readObject
  rw [hskip] at hmembers ⊢
  -- nor the one that closes the empty object
  split
  · contradiction
  · rename_i heq
    exact absurd (List.cons.inj heq).1 hobject
  · have hall := hmembers.map Value.ofMembers
    cases hread : readMembers element ((c :: cs).length + 1) (c :: cs) with
    | error fault => rwa [hread] at hall
    | ok read => rwa [hread] at hall

/-! ## Documents -/

/-- A scalar has a value at any depth. -/
@[simp] theorem Document.value?_scalar (depth : Nat) (v : Value) :
    (Document.scalar v).value? depth = some v := by
  cases depth <;> rfl

/-- A value that begins with no bracket is a scalar. -/
private theorem readValue_scalar {c : Char} {cs : List Char} (hgap : isGap c = false)
    (hlist : c ≠ '[') (hobject : c ≠ '{') (depth : Nat) :
    readValue depth (c :: cs) = readScalar (c :: cs) := by
  have hskip : skipBlank (c :: cs) = c :: cs := by simp [skipBlank, hgap]
  unfold readValue
  rw [hskip]
  split <;> simp_all

/-- Whatever text a document is written as, it is read as the value of the document, or not at all
    if the document has none. -/
theorem Writes.reads {d : Document} {text : List Char} (h : Writes d text) (depth : Nat) :
    ReadsAs (readValue depth) text (d.value? depth) := by
  -- one case for each form of a text; a bracket takes one from the depth, and fails at zero
  induction h generalizing depth with
  | scalar hread =>
    intro rest hrest
    -- the first character says that a scalar is to be read
    obtain ⟨c, cs, rfl, hgap, hlist, -, hobject, -⟩ := readScalar_begins hread
    rw [Document.value?_scalar, List.cons_append, readValue_scalar hgap hlist hobject]
    exact ⟨rest, carries_readScalar hrest _ _ _ hread, rfl⟩
  | @blanks before after d text hbefore hafter _ ih =>
    intro rest hrest
    -- the blanks behind the document belong to what follows it
    have hread := ih depth (after ++ rest) (hafter.ends_append hrest)
    have htext : before ++ text ++ after ++ rest = before ++ (text ++ (after ++ rest)) := by simp
    rw [htext, ← readValue_skipBlank, skipBlank_append hbefore, readValue_skipBlank]
    unfold Yields at hread ⊢
    rwa [skipBlank_append hafter] at hread
  | emptyArray gap hgap =>
    intro rest _
    have hclose : skipBlank (gap ++ ']' :: rest) = ']' :: rest := by
      rw [skipBlank_append hgap]
      rfl
    cases depth with
    | zero => exact ⟨_, rfl⟩
    | succ depth =>
      refine ⟨rest, ?_, rfl⟩
      show readList _ (gap ++ [']'] ++ rest) = _
      rw [List.append_assoc, List.singleton_append, readList, hclose]
      rfl
  | array items hne hitems ih =>
    intro rest _
    cases depth with
    | zero => exact ⟨_, rfl⟩
    | succ depth =>
      -- the induction is for every depth, so it holds for one less
      show Yields (readList _ ([','].intercalate _ ++ [']'] ++ rest)) _ _
      rw [List.append_assoc, List.singleton_append]
      exact readList_pieces (readValue_skipBlank depth) hne
        (fun i hi => ⟨(hitems i hi).begins, ih i hi depth⟩) rest
  | emptyObject gap hgap =>
    intro rest _
    have hclose : skipBlank (gap ++ '}' :: rest) = '}' :: rest := by
      rw [skipBlank_append hgap]
      rfl
    cases depth with
    | zero => exact ⟨_, rfl⟩
    | succ depth =>
      refine ⟨rest, ?_, rfl⟩
      show readObject _ (gap ++ ['}'] ++ rest) = _
      rw [List.append_assoc, List.singleton_append, readObject, hclose]
      rfl
  | object members hne hkeys hcontents ih =>
    intro rest _
    cases depth with
    | zero => exact ⟨_, rfl⟩
    | succ depth =>
      have hread := readObject_pieces hne
        (fun m hm => ⟨hkeys m hm, ih m hm depth⟩) rest
      show Yields (readObject _ ([','].intercalate _ ++ ['}'] ++ rest)) _ _
      rw [List.append_assoc, List.singleton_append, Document.value?, List.mapM_map]
      exact hread

/-- A text that writes a document is accepted exactly if the document has a value. -/
theorem parse_eq_ok_iff {d : Document} {text : String} (h : Writes d text.toList) {v : Value} :
    parse text = .ok v ↔ d.value? maxDepth = some v := by
  have hread := h.reads maxDepth [] (by simp [Ends])
  rw [List.append_nil] at hread
  unfold parse readText
  cases hvalue : d.value? maxDepth with
  | none =>
    rw [hvalue] at hread
    obtain ⟨fault, hfault⟩ := hread
    rw [hfault]
    simp [bind, Except.bind]
  | some value =>
    rw [hvalue] at hread
    obtain ⟨left, hok, hleft⟩ := hread
    -- nothing but blanks is left behind the document
    have hend : skipBlank left = [] := hleft
    rw [hok]
    simp [bind, Except.bind, hend]

end TypeLeak.Json
