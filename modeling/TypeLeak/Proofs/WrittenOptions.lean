import Mathlib.Data.List.TakeWhile
import TypeLeak.CommandLine.Parser
import TypeLeak.Proofs.PathNames

/-!
# What a command line says, however it is written

File names come in groups, each behind an option of its own; the names of a group are arguments of
their own, are joined by commas, or both.  The root and the command line of the compiler stand
anywhere between the groups.  This file says that the reading finds the names in their order, and
the root and the compiler's line, whichever way they are written.

## Key results

- `Given.values_add`: the new values of an option come behind those it has
- `Reader.readAll_supplies`: the arguments of one option settle its values
- `Reader.readAll_writes`: what any way of writing options leaves to be settled
- `parse_writes`: what is asked for does not depend on the way it is written
-/

namespace TypeLeak.CommandLine

/-! ## The values of an option -/

namespace Given

/-- The options that are given are those of the entries, in their order. -/
@[simp] theorem flags_cons (e : Flag × List String) (g : Given) :
    flags (e :: g) = e.1 :: flags g := rfl

/-- Where nothing is given, no option has values. -/
@[simp] theorem values_nil (f : Flag) : values [] f = [] := rfl

/-- The first entry of an option has its values. -/
theorem values_cons (e : Flag × List String) (g : Given) (f : Flag) :
    values (e :: g) f = if e.1 = f then e.2 else g.values f := by
  obtain ⟨f', vs⟩ := e
  by_cases h : f' = f
  · simp [values, h]
  · have hne : (f == f') = false := by simpa using Ne.symm h
    simp [values, List.lookup_cons, h, hne]

/-- An option that is not given has no values. -/
theorem values_of_not_mem {g : Given} {f : Flag} (h : f ∉ g.flags) : g.values f = [] := by
  -- no entry on the way is one of `f`, so the search ends without any
  induction g with
  | nil => rfl
  | cons e g ih =>
    rw [flags_cons, List.mem_cons, not_or] at h
    rw [values_cons, if_neg (Ne.symm h.1), ih h.2]

/-- Entries behind others count only for the options that those do not give. -/
theorem values_append (g g' : Given) (f : Flag) :
    values (g ++ g') f = if f ∈ g.flags then g.values f else g'.values f := by
  induction g with
  | nil => rfl
  | cons e g ih =>
    rw [List.cons_append, values_cons, values_cons, ih, flags_cons]
    -- the entry decides both sides if it is one of `f`, and neither if not
    by_cases he : e.1 = f
    · simp [he]
    · simp [he, Ne.symm he]

/-- An option's entry with more values behind those it has. -/
def extended (f : Flag) (new : List String) (e : Flag × List String) : Flag × List String :=
  if e.1 = f then (e.1, e.2 ++ new) else e

/-- More values are still the values of the same option. -/
theorem extended_fst (f : Flag) (new : List String) (e : Flag × List String) :
    (extended f new e).1 = e.1 := by
  unfold extended
  split <;> rfl

/-- Extending an entry gives no other options. -/
theorem flags_map_extended (g : Given) (f : Flag) (new : List String) :
    flags (g.map (extended f new)) = g.flags := by
  simp [flags, extended_fst, Function.comp_def]

/-- Extending the entry of an option adds to its values and to no other option's. -/
theorem values_map_extended (g : Given) (f f' : Flag) (new : List String) :
    values (g.map (extended f new)) f' =
      if f' = f ∧ f ∈ g.flags then g.values f' ++ new else g.values f' := by
  induction g with
  | nil => simp [flags]
  | cons e g ih =>
    rw [List.map_cons, values_cons, values_cons, extended_fst]
    by_cases he : e.1 = f'
    · subst he
      by_cases hf : e.1 = f <;> simp [extended, hf]
    · -- an entry of another option: it may not be the one that makes `f` given
      rw [if_neg he, if_neg he, ih]
      have hmem : f' = f ∧ f ∈ flags (e :: g) ↔ f' = f ∧ f ∈ flags g := by
        constructor
        · rintro ⟨rfl, h⟩
          exact ⟨rfl, by simpa [Ne.symm he] using h⟩
        · rintro ⟨rfl, h⟩
          exact ⟨rfl, List.mem_cons_of_mem _ h⟩
      simp only [hmem]

/-- An option that is given already is extended where it stands. -/
theorem add_of_mem {g : Given} {f : Flag} (h : f ∈ g.flags) (new : List String) :
    g.add f new = g.map (extended f new) :=
  if_pos (by simpa using h)

/-- An option that is new has its entry behind the others. -/
theorem add_of_not_mem {g : Given} {f : Flag} (h : f ∉ g.flags) (new : List String) :
    g.add f new = g ++ [(f, new)] :=
  if_neg (by simpa using h)

/-- The options given afterwards are those given before and the one that is added. -/
theorem mem_flags_add {g : Given} {f f' : Flag} {new : List String} :
    f' ∈ (g.add f new).flags ↔ f' ∈ g.flags ∨ f' = f := by
  -- an entry that is extended was there before
  by_cases hf : f ∈ g.flags
  · rw [add_of_mem hf, flags_map_extended]
    constructor
    · exact Or.inl
    · rintro (h | rfl)
      exacts [h, hf]
  · simp [add_of_not_mem hf, flags]

/-- The new values of an option come behind those it has. -/
theorem values_add (g : Given) (f f' : Flag) (new : List String) :
    (g.add f new).values f' = g.values f' ++ if f' = f then new else [] := by
  by_cases hf : f ∈ g.flags
  · -- the entry is extended where it stands
    rw [add_of_mem hf, values_map_extended]
    by_cases h : f' = f <;> simp [h, hf]
  · -- a new entry is found behind all the others, where its option is in none of them
    rw [add_of_not_mem hf, values_append, values_cons]
    by_cases h : f' = f
    · subst h
      simp [hf, values_of_not_mem]
    · by_cases hf' : f' ∈ g.flags
      · simp [hf', h]
      · simp [hf', h, Ne.symm h, values_of_not_mem]

end Given

/-! ## The spelling of an argument -/

/-- A text that is not empty and is not taken for an option. -/
def IsValue (text : String) : Prop := text ≠ "" ∧ text.toList.head? ≠ some '-'

instance (text : String) : Decidable (IsValue text) := inferInstanceAs (Decidable (_ ∧ _))

/-- A file name that can stand with others in one argument. -/
def IsFileName (name : String) : Prop := IsValue name ∧ ',' ∉ name.toList

instance (name : String) : Decidable (IsFileName name) := inferInstanceAs (Decidable (_ ∧ _))

/-- A text that does not begin with a dash stands for itself. -/
theorem Argument.ofText_of_head {text : String} (h : text.toList.head? ≠ some '-') :
    ofText text = .plain text := by
  unfold ofText
  split
  all_goals simp_all

/-- Behind two dashes stands the name of an option, perhaps with a value. -/
theorem Argument.ofText_dashes {text : String} (h : text ≠ "") :
    ofText ("--" ++ text) = .long (splitValue text.toList).1 (splitValue text.toList).2 := by
  have hchars : ("--" ++ text).toList = '-' :: '-' :: text.toList := by simp
  unfold ofText
  rw [hchars]
  -- two dashes with nothing behind them end the options; that is what `h` is for
  cases hcs : text.toList with
  | nil => exact absurd (String.toList_eq_nil_iff.1 hcs) h
  | cons c cs => rfl

/-- Without an equals sign there is no value. -/
theorem splitValue_of_not_mem {cs : List Char} (h : '=' ∉ cs) :
    splitValue cs = (String.ofList cs, none) := by
  have hdrop : cs.dropWhile (· != '=') = [] :=
    List.dropWhile_eq_nil_iff.2 fun c hc => by
      simp only [bne_iff_ne]
      rintro rfl
      exact h hc
  rw [splitValue, hdrop]

/-- The value stands behind the first equals sign. -/
theorem splitValue_append {cs : List Char} (h : '=' ∉ cs) (value : List Char) :
    splitValue (cs ++ '=' :: value) = (String.ofList cs, some (String.ofList value)) := by
  have hne : ∀ c ∈ cs, (c != '=') = true := fun c hc => by
    simp only [bne_iff_ne]
    rintro rfl
    exact h hc
  rw [splitValue, List.dropWhile_append_of_pos hne, List.takeWhile_append_of_pos hne]
  simp

namespace Flag

/-- Every option has a name. -/
theorem name_ne_empty (f : Flag) : f.name ≠ "" := by cases f <;> decide

/-- No name of an option holds an equals sign, so a value behind one is found. -/
theorem not_mem_name (f : Flag) : '=' ∉ f.name.toList := by cases f <;> decide

/-- The name of an option behind its dashes is read as that option. -/
theorem ofText_name (f : Flag) : Argument.ofText ("--" ++ f.name) = .long f.name none := by
  rw [Argument.ofText_dashes f.name_ne_empty, splitValue_of_not_mem f.not_mem_name,
    String.ofList_toList]

/-- So is the name with a value behind an equals sign, whatever the value holds. -/
theorem ofText_assigned (f : Flag) (value : String) :
    Argument.ofText ("--" ++ f.name ++ "=" ++ value) = .long f.name (some value) := by
  have htext : "--" ++ f.name ++ "=" ++ value = "--" ++ (f.name ++ "=" ++ value) := by
    simp only [String.append_assoc]
  have hchars : (f.name ++ "=" ++ value).toList = f.name.toList ++ '=' :: value.toList := by simp
  rw [htext, Argument.ofText_dashes (by simp), hchars, splitValue_append f.not_mem_name,
    String.ofList_toList, String.ofList_toList]

end Flag

/-! ## Arguments that supply one option -/

/-- Arguments that supply an option with values: each value is an argument of its own behind the
option, or the only one stands behind an equals sign. -/
inductive Supplies (f : Flag) : List String → List String → Prop where
  | apart (values : List String) : Supplies f values (("--" ++ f.name) :: values)
  | assigned (value : String) : Supplies f [value] ["--" ++ f.name ++ "=" ++ value]

namespace Reader

/-- Reading two lists of arguments is reading one and going on with the other. -/
theorem readAll_append (r : Reader) (args args' : List String) :
    r.readAll (args ++ args') = (r.readAll args).bind fun next => next.readAll args' := by
  induction args generalizing r with
  | nil => rfl
  | cons text args ih =>
    rw [List.cons_append, readAll, readAll]
    -- an argument that stops the reading stops it on both sides
    cases r.read text with
    | error stop => rfl
    | ok next => exact ih next

/-- An option that still takes values takes a text that is one. -/
theorem read_value {g : Given} {f : Flag} {values : List String} {text : String}
    (htext : IsValue text) (hf : f = .files ∨ values = []) :
    read ⟨g, some (f, values), false⟩ text = .ok ⟨g, some (f, values ++ [text]), false⟩ := by
  -- the list of files takes all values there are, any other option only its first
  have htaker : taker ⟨g, some (f, values), false⟩ = some (f, values) := by
    rcases hf with rfl | rfl
    · rfl
    · cases f <;> rfl
  simp only [read, Argument.ofText_of_head htext.2, htaker]
  rfl

/-- An option that takes many values takes all that follow, and any other takes one. -/
theorem readAll_values {g : Given} {f : Flag} {values texts : List String}
    (htexts : ∀ text ∈ texts, IsValue text) (hf : f = .files ∨ (values ++ texts).length ≤ 1) :
    readAll ⟨g, some (f, values), false⟩ texts = .ok ⟨g, some (f, values ++ texts), false⟩ := by
  induction texts generalizing values with
  | nil => simp [readAll]
  | cons text texts ih =>
    -- one more is taken, so an option for one value had none before
    have hfew : f = .files ∨ values = [] := hf.imp id fun h => by
      rw [List.length_append, List.length_cons] at h
      exact List.eq_nil_of_length_eq_zero (by omega)
    rw [readAll, read_value (htexts text (by simp)) hfew]
    show readAll ⟨g, some (f, values ++ [text]), false⟩ texts = _
    rw [ih (fun x hx => htexts x (by simp [hx])) (by simpa using hf), List.append_assoc]
    rfl

/-- An option that takes values is open as soon as what came before it is settled. -/
theorem openFlag_eq {r : Reader} {g : Given} (hg : r.settle = .ok g) {f : Flag}
    (hf : f.takesValue = true) : r.openFlag f = .ok ⟨g, some (f, []), false⟩ := by
  unfold openFlag
  rw [hg]
  cases f with
  | files | root | tsc => rfl
  | help | version => exact absurd hf (by decide)

/-- An option with its value behind an equals sign is settled at once. -/
theorem assignFlag_eq {r : Reader} {g g' : Given} {f : Flag} {value : String}
    (hg : r.settle = .ok g) (hg' : g.settle f [value] = (g', none)) (hf : f.takesValue = true) :
    r.assignFlag f value = .ok ⟨g', none, false⟩ := by
  rw [assignFlag, if_pos hf, hg]
  simp only [bind, Except.bind, hg']

/-- The arguments of one option leave its values settled, or to be settled by what follows. -/
theorem readAll_supplies {r : Reader} {g g' : Given} {f : Flag} {values piece : List String}
    (hpiece : Supplies f values piece) (hplain : r.plainOnly = false) (hg : r.settle = .ok g)
    (hg' : g.settle f values = (g', none)) (hf : f.takesValue = true)
    (hvalues : ∀ value ∈ values, IsValue value) (hmany : f = .files ∨ values.length ≤ 1) :
    ∃ next, r.readAll piece = .ok next ∧ next.plainOnly = false ∧ next.settle = .ok g' := by
  cases hpiece with
  | apart =>
    -- the values are collected, and settled by whatever ends them
    refine ⟨⟨g, some (f, values), false⟩, ?_, rfl, ?_⟩
    · have hread : r.read ("--" ++ f.name) = .ok ⟨g, some (f, []), false⟩ := by
        simp only [read, hplain, f.ofText_name, Flag.ofName?_name, openFlag_eq hg hf]
        rfl
      rw [readAll, hread]
      exact readAll_values hvalues (hmany.imp id fun h => by simpa using h)
    · simp only [settle, settled, hg']
  | assigned value =>
    refine ⟨⟨g', none, false⟩, ?_, rfl, rfl⟩
    have hread : r.read ("--" ++ f.name ++ "=" ++ value) = .ok ⟨g', none, false⟩ := by
      simp only [read, hplain, f.ofText_assigned, Flag.ofName?_name, assignFlag_eq hg hg' hf]
      rfl
    rw [readAll, hread]
    rfl

end Reader

/-! ## A whole command line -/

namespace Given

/-- Names joined by commas, in one argument or in many, are settled name by name. -/
theorem settle_files (g : Given) {parts : List (List String)} (hne : parts ≠ [])
    (hparts : ∀ part ∈ parts, part ≠ [] ∧ ∀ name ∈ part, IsFileName name) :
    g.settle .files (parts.map (",".intercalate)) = (g.add .files parts.flatten, none) := by
  -- cutting at commas undoes the joining, since no name holds one
  have hnames : (parts.map (",".intercalate)).flatMap (Text.splitAt ',') = parts.flatten := by
    rw [List.flatMap_map, ← List.flatMap_id]
    refine List.flatMap_congr fun part hpart => ?_
    exact Text.splitAt_join rfl (hparts part hpart).1 fun name hname =>
      ((hparts part hpart).2 name hname).2
  rw [settle, if_neg (by simpa using hne), if_pos rfl, hnames]

/-- An option that takes one value and is not given yet has that value. -/
theorem settle_single {g : Given} {f : Flag} (hf : f ≠ .files) (hnew : f ∉ g.flags)
    {value : String} (hvalue : value ≠ "") : g.settle f [value] = (g.add f [value], none) := by
  simp [settle, hf, hnew, hvalue]

end Given

/-- A value stays one when more is written behind it. -/
theorem IsValue.append {text : String} (h : IsValue text) (more : String) :
    IsValue (text ++ more) := by
  obtain ⟨hne, hdash⟩ := h
  -- the first character decides, and it stays the first
  cases hcs : text.toList with
  | nil => exact absurd (String.toList_eq_nil_iff.1 hcs) hne
  | cons c cs =>
    rw [hcs] at hdash
    exact ⟨by simp [hne], by simpa [String.toList_append, hcs] using hdash⟩

/-- File names joined by commas are a value. -/
theorem isValue_intercalate {names : List String} (hne : names ≠ [])
    (h : ∀ name ∈ names, IsFileName name) : IsValue (",".intercalate names) := by
  obtain ⟨name, names, rfl⟩ := List.exists_cons_of_ne_nil hne
  have hname := (h name (by simp)).1
  -- the first name stands in front and is a value by itself
  cases names with
  | nil => simpa using hname
  | cons name' names =>
    rw [String.intercalate_cons_cons, String.append_assoc]
    exact hname.append _

/-- The arguments write groups of file names in this order, each behind an option of its own and in
arguments of one or more names, and at most one root and one line for the compiler, anywhere. -/
inductive Writes : List (List String) → Option String → Option String → List String → Prop where
  | nothing : Writes [] none none []
  | files (parts : List (List String)) {groups : List (List String)}
      {root compiler : Option String} {piece args : List String} (hne : parts ≠ [])
      (hparts : ∀ part ∈ parts, part ≠ [] ∧ ∀ name ∈ part, IsFileName name)
      (hpiece : Supplies .files (parts.map (",".intercalate)) piece)
      (rest : Writes groups root compiler args) :
      Writes (parts.flatten :: groups) root compiler (piece ++ args)
  | root {value : String} {groups : List (List String)} {compiler : Option String}
      {piece args : List String} (hvalue : IsValue value) (hpiece : Supplies .root [value] piece)
      (rest : Writes groups none compiler args) :
      Writes groups (some value) compiler (piece ++ args)
  | compiler {line : String} {groups : List (List String)} {root : Option String}
      {piece args : List String} (hline : IsValue line) (hpiece : Supplies .tsc [line] piece)
      (rest : Writes groups root none args) :
      Writes groups root (some line) (piece ++ args)

/-- Arguments are read piece by piece. -/
theorem Reader.readAll_trans {r next last : Reader} {piece args : List String}
    (h : r.readAll piece = .ok next) (h' : next.readAll args = .ok last) :
    r.readAll (piece ++ args) = .ok last := by
  rw [readAll_append, h]
  exact h'

/-- What is left to be settled after any way of writing options. -/
theorem Reader.readAll_writes {groups : List (List String)} {root compiler : Option String}
    {args : List String} (h : Writes groups root compiler args) {r : Reader} {g : Given}
    (hplain : r.plainOnly = false) (hg : r.settle = .ok g)
    (hroot : root ≠ none → .root ∉ g.flags) (hcompiler : compiler ≠ none → .tsc ∉ g.flags) :
    ∃ last given, r.readAll args = .ok last ∧ last.settle = .ok given ∧
      given.values .files = g.values .files ++ groups.flatten ∧
      given.values .root = g.values .root ++ root.toList ∧
      given.values .tsc = g.values .tsc ++ compiler.toList := by
  -- each clause settles its values, so the clauses behind it start from a longer `g`; a root and a
  -- compiler's line are settled only as long as `g` has none
  induction h generalizing r g with
  | nothing => exact ⟨r, g, rfl, hg, by simp, by simp, by simp⟩
  | @files parts groups root compiler piece args hne hparts hpiece rest ih =>
    have hvalues : ∀ value ∈ parts.map (",".intercalate), IsValue value := by
      intro value hvalue
      obtain ⟨part, hpart, rfl⟩ := List.mem_map.1 hvalue
      exact isValue_intercalate (hparts part hpart).1 (hparts part hpart).2
    -- a group of files gives no root and no line, so the conditions on them stay as they are
    obtain ⟨next, hread, hnext, hsettle⟩ := readAll_supplies hpiece hplain hg
      (g.settle_files hne hparts) rfl hvalues (.inl rfl)
    obtain ⟨last, given, hrest, hgiven, hfiles, hroots, hlines⟩ := ih hnext hsettle
      (fun h => by simpa [Given.mem_flags_add] using hroot h)
      (fun h => by simpa [Given.mem_flags_add] using hcompiler h)
    refine ⟨last, given, readAll_trans hread hrest, hgiven, ?_, ?_, ?_⟩
    · rw [hfiles, Given.values_add]
      simp
    · simpa [Given.values_add] using hroots
    · simpa [Given.values_add] using hlines
  | @root value groups compiler piece args hvalue hpiece rest ih =>
    -- no second root is written behind this one: that is the index `none` of the clause
    obtain ⟨next, hread, hnext, hsettle⟩ := readAll_supplies hpiece hplain hg
      (Given.settle_single (by decide) (hroot (by simp)) hvalue.1) rfl (by simpa using hvalue)
      (.inr (by simp))
    obtain ⟨last, given, hrest, hgiven, hfiles, hroots, hlines⟩ := ih hnext hsettle (by simp)
      (fun h => by simpa [Given.mem_flags_add] using hcompiler h)
    exact ⟨last, given, readAll_trans hread hrest, hgiven,
      by simpa [Given.values_add] using hfiles, by simpa [Given.values_add] using hroots,
      by simpa [Given.values_add] using hlines⟩
  | @compiler line groups root piece args hline hpiece rest ih =>
    obtain ⟨next, hread, hnext, hsettle⟩ := readAll_supplies hpiece hplain hg
      (Given.settle_single (by decide) (hcompiler (by simp)) hline.1) rfl (by simpa using hline)
      (.inr (by simp))
    obtain ⟨last, given, hrest, hgiven, hfiles, hroots, hlines⟩ := ih hnext hsettle
      (fun h => by simpa [Given.mem_flags_add] using hroot h) (by simp)
    exact ⟨last, given, readAll_trans hread hrest, hgiven,
      by simpa [Given.values_add] using hfiles, by simpa [Given.values_add] using hroots,
      by simpa [Given.values_add] using hlines⟩

/-- **What is asked for does not depend on how it is written**: the file names are those of the
groups, in their order, and the root and the compiler's line are the ones that are written, or the
defaults, wherever they stand. -/
theorem parse_writes {groups : List (List String)} {root compiler : Option String}
    {args : List String} (h : Writes groups root compiler args) :
    parse args = .ok
      { files := groups.flatten
        root := root.map fun text => ⟨.ofString text⟩
        compiler := compiler.getD "npx tsc" } := by
  obtain ⟨last, given, hread, hsettle, hfiles, hroot, hcompiler⟩ :=
    Reader.readAll_writes h (r := .start) (g := []) rfl rfl (by simp [Given.flags])
      (by simp [Given.flags])
  -- the defaults stand in for what was not given
  have hoptions : given.options =
      { files := groups.flatten
        root := root.map fun text => ⟨.ofString text⟩
        compiler := compiler.getD "npx tsc" } := by
    rw [Given.options, hfiles, hroot, hcompiler]
    cases root <;> cases compiler <;> rfl
  -- nothing is left but to settle the last option and to look its values up
  unfold parse
  rw [hread]
  show (do let given ← last.settle; Except.ok given.options) = _
  rw [hsettle, ← hoptions]
  rfl

/-- Two groups, one of them in two arguments of which one has commas, with the root between them and
the compiler's line behind. -/
theorem parse_writes_mixed :
    Writes [["src/a.ts", "src/b.ts", "c.ts"], ["d.ts"]] (some "app") (some "yarn tsc")
        ["--files", "src/a.ts,src/b.ts", "c.ts", "--root=app", "--files=d.ts", "--tsc",
          "yarn tsc"] ∧
      parse ["--files", "src/a.ts,src/b.ts", "c.ts", "--root=app", "--files=d.ts", "--tsc",
          "yarn tsc"] =
        .ok { files := ["src/a.ts", "src/b.ts", "c.ts", "d.ts"], root := some ⟨"app"⟩,
              compiler := "yarn tsc" } := by
  have h : Writes [["src/a.ts", "src/b.ts", "c.ts"], ["d.ts"]] (some "app") (some "yarn tsc")
      ["--files", "src/a.ts,src/b.ts", "c.ts", "--root=app", "--files=d.ts", "--tsc",
        "yarn tsc"] :=
    -- the values of an option are arguments of their own, or stand behind an equals sign
    .files [["src/a.ts", "src/b.ts"], ["c.ts"]] (by decide) (by decide) (.apart _) <|
      .root (by decide) (.assigned _) <|
      .files [["d.ts"]] (by decide) (by decide) (.assigned _) <|
      .compiler (by decide) (.apart _) .nothing
  exact ⟨h, parse_writes h⟩

end TypeLeak.CommandLine
