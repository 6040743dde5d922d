import TypeLeak.Proofs.CompilerLaunch
import TypeLeak.Proofs.EscapelessText
import TypeLeak.Proofs.ProgramOutput

/-!
# What colour changes

Colour is chosen when a report is rendered, and puts codes around the texts in a style.  A code
begins with the escape character, so if no text of a report holds one, the codes can be told from
the texts, and without them the report reads as it does without colour.  The texts of a check come
from outside or are made here, and those made here never hold the escape character.

## Key results

- `withoutCodes_append_chars`: a span with its codes taken out is its text
- `uncoloured_written`: a report with its codes taken out is the report without colour
- `escapeless_chooseFiles`, `escapeless_trace`, `escapeless_check`: what a check and its stages say
- `seen_of_colour`: a check with colour and one without differ in nothing but the codes
- `checkRun_of_colour`: nor does the program
-/

namespace TypeLeak

namespace Text

/-! ## Codes in a text -/

/-- A text without its codes.  Each goes from an escape character and a bracket to the next m. -/
def withoutCodes : List Char → List Char
  | '\x1b' :: '[' :: cs =>
    match _hrest : cs.dropWhile (· != 'm') with
    | [] => '\x1b' :: '[' :: withoutCodes cs
    | _ :: rest => withoutCodes rest
  | c :: cs => c :: withoutCodes cs
  | [] => []
termination_by cs => cs.length
decreasing_by
  · simp only [List.length_cons]
    omega
  · have hlen := (List.dropWhile_suffix (l := cs) (· != 'm')).length_le
    rw [_hrest] at hlen
    simp only [List.length_cons] at hlen ⊢
    omega
  · simp only [List.length_cons]
    omega

/-- A text without its codes. -/
def uncoloured (s : String) : String := String.ofList (withoutCodes s.toList)

/-- A code in front is taken out, from the escape character to the first m. -/
theorem withoutCodes_code {parameters : List Char} (h : 'm' ∉ parameters) (cs : List Char) :
    withoutCodes ('\x1b' :: '[' :: (parameters ++ 'm' :: cs)) = withoutCodes cs := by
  have hend : (parameters ++ 'm' :: cs).dropWhile (· != 'm') = 'm' :: cs := by
    -- the parameters hold no m, so the first one is the one that ends the code
    rw [List.dropWhile_append_of_pos]
    · rfl
    · intro c hc
      rw [bne_iff_ne]
      rintro rfl
      exact h hc
  rw [withoutCodes, hend]

/-- What stands before the first escape character stays. -/
theorem withoutCodes_append {text : List Char} (h : '\x1b' ∉ text) (cs : List Char) :
    withoutCodes (text ++ cs) = text ++ withoutCodes cs := by
  induction text with
  | nil => rfl
  | cons c text ih =>
    obtain ⟨hc, htext⟩ := not_or.1 (mt List.mem_cons.2 h)
    rw [List.cons_append, withoutCodes, ih htext]
    · rfl
    · rintro rest rfl
      exact absurd rfl hc

namespace Style

/-- Where no code ends within a text, none has to be opened again. -/
theorem reopen_of_not_mem {cs : List Char} (h : '\x1b' ∉ cs) (code : List Char) :
    reopen code cs = cs := by
  induction cs with
  | nil => rfl
  | cons c cs ih =>
    obtain ⟨hc, hcs⟩ := not_or.1 (mt List.mem_cons.2 h)
    rw [reopen, ih hcs]
    rintro rest rfl
    exact absurd rfl hc

/-- The numbers of a code end before its m. -/
theorem withoutCodes_opening (style : Style) (cs : List Char) :
    withoutCodes (style.opening ++ cs) = withoutCodes cs := by
  have hnumber : ∀ n : Nat, 'm' ∉ (toString n).toList := by
    intro n hmem
    have hdigits : (toString n).toList = Nat.toDigits 10 n := Nat.toList_repr
    rw [hdigits] at hmem
    exact absurd (Nat.isDigit_of_mem_toDigits (by decide) (by decide) hmem) (by decide)
  -- the separators are no m either
  have hnumbers : 'm' ∉ (";".intercalate (style.codes.map toString)).toList := by
    generalize style.codes = codes
    induction codes with
    | nil => exact List.not_mem_nil
    | cons n codes ih =>
      cases codes with
      | nil => simpa using hnumber n
      | cons next codes =>
        rw [List.map_cons, List.map_cons, String.intercalate_cons_cons, String.toList_append,
          String.toList_append, List.mem_append, List.mem_append, not_or, not_or]
        exact ⟨⟨hnumber n, by decide⟩, ih⟩
  unfold opening
  simpa using withoutCodes_code hnumbers cs

/-- So is the code that ends a style. -/
theorem withoutCodes_reset (cs : List Char) : withoutCodes (reset ++ cs) = withoutCodes cs := by
  have hzero : 'm' ∉ ['0'] := by decide
  exact withoutCodes_code hzero cs

end Style

/-- A span in front is its text, with its codes taken out. -/
theorem withoutCodes_append_chars {span : Span} (h : Escapeless span.text) (cs : List Char) :
    withoutCodes (span.chars true ++ cs) = span.text.toList ++ withoutCodes cs := by
  obtain ⟨style, text⟩ := span
  cases style with
  | none => exact withoutCodes_append h cs
  | some style =>
    -- the text stands between the two codes, and no code is written again in it
    show withoutCodes
      (style.opening ++ Style.reopen style.opening text.toList ++ Style.reset ++ cs) = _
    rw [Style.reopen_of_not_mem h, List.append_assoc, List.append_assoc,
      Style.withoutCodes_opening, withoutCodes_append h, Style.withoutCodes_reset]

/-- Spans without the escape character are shown with codes around their texts only. -/
theorem uncoloured_render {spans : List Span} (h : ∀ span ∈ spans, Escapeless span.text) :
    uncoloured (render true spans) = render false spans := by
  unfold uncoloured render
  rw [String.toList_ofList]
  congr 1
  -- span by span, each with what is behind it
  induction spans with
  | nil => rw [List.flatMap_nil, withoutCodes]; rfl
  | cons span spans ih =>
    rw [List.flatMap_cons, withoutCodes_append_chars (h span (List.mem_cons_self ..)),
      ih fun s hs => h s (List.mem_cons_of_mem _ hs), List.flatMap_cons, chars_false]

end Text

open Text

/-! ## Reports -/

/-- The spans that an output writes. -/
def Output.spans : Output → List Span
  | .text spans => spans
  | .flush => []

namespace Report

/-- No text of a report holds the escape character. -/
def Escapeless (report : List Output) : Prop :=
  ∀ output ∈ report, ∀ span ∈ output.spans, Text.Escapeless span.text

instance (report : List Output) : Decidable (Escapeless report) :=
  inferInstanceAs (Decidable (∀ output ∈ report, ∀ span ∈ output.spans, '\x1b' ∉ span.text.toList))

/-- Taking the codes out of what a report writes with colour leaves what it writes without. -/
theorem uncoloured_written {report : List Output} (h : Escapeless report) :
    uncoloured (written true report) = written false report := by
  refine uncoloured_render fun span hspan => ?_
  obtain ⟨output, houtput, hspan⟩ := List.mem_flatMap.1 hspan
  cases output with
  | text spans => exact h _ houtput span hspan
  | flush => exact nomatch hspan

/-- An empty report holds nothing. -/
theorem escapeless_nil : Escapeless [] := nofun

/-- Reports one behind the other hold the escape character only if one of them does. -/
theorem Escapeless.append {first second : List Output} (h₁ : Escapeless first)
    (h₂ : Escapeless second) : Escapeless (first ++ second) := by
  intro output houtput
  -- an output belongs to one of the two
  rcases List.mem_append.1 houtput with h | h
  · exact h₁ output h
  · exact h₂ output h

/-- So do the reports of many things. -/
theorem Escapeless.flatMap {α : Type} {xs : List α} {report : α → List Output}
    (h : ∀ x ∈ xs, Escapeless (report x)) : Escapeless (xs.flatMap report) := by
  intro output houtput
  obtain ⟨x, hx, houtput⟩ := List.mem_flatMap.1 houtput
  exact h x hx output houtput

/-- Flushing shows nothing. -/
theorem Escapeless.flush {report : List Output} (h : Escapeless report) :
    Escapeless (report ++ [.flush]) :=
  h.append (by decide)

/-- A line shows its spans and nothing else. -/
theorem escapeless_line {spans : List Span} (h : ∀ span ∈ spans, Text.Escapeless span.text) :
    Escapeless [line spans] := by
  intro output houtput span hspan
  cases List.mem_singleton.1 houtput
  rcases List.mem_append.1 hspan with hspan | hspan
  · exact h span hspan
  · rw [List.mem_singleton.1 hspan]
    decide

/-- A message is shown as it is. -/
theorem escapeless_info {message : String} (h : Text.Escapeless message) :
    Escapeless (info message) :=
  escapeless_line fun span hspan => by rwa [List.mem_singleton.1 hspan]

/-- A line with a mark shows the mark and the message behind it. -/
theorem escapeless_marked {mark : Span} {message : List Span} (hmark : Text.Escapeless mark.text)
    (h : ∀ span ∈ message, Text.Escapeless span.text) : Escapeless (marked mark message) := by
  refine escapeless_line fun span hspan => ?_
  rcases List.mem_cons.1 hspan with rfl | hspan
  · exact hmark
  rcases List.mem_cons.1 hspan with rfl | hspan
  · decide
  · exact h span hspan

/-- A failure's line shows its messages as they are. -/
theorem escapeless_fatal {chain : List String} (h : ∀ message ∈ chain, Text.Escapeless message) :
    Escapeless (fatal chain) := by
  refine (escapeless_marked (by decide) fun span hspan => ?_).flush
  rw [List.mem_singleton.1 hspan]
  exact .intercalate (by decide) h

/-- So does the line of a trace with the name of the entry point. -/
theorem escapeless_entryTrace {entry : String} {trace : EntryTrace} (h : Text.Escapeless entry)
    (hreason : ∀ reason, trace = .invalidMap reason → Text.Escapeless reason) :
    Escapeless (entryTrace entry trace) := by
  have hname : Text.Escapeless (entryTrace.name entry).text := h
  -- the name of the entry point and a reason come from outside; the rest is fixed
  cases trace with
  | found files =>
    have hcount : Text.Escapeless
        ("Found " ++ toString files.length ++ " TypeScript source(s) for ") :=
      escapeless_append.2 ⟨escapeless_append.2 ⟨by decide, escapeless_nat _⟩, by decide⟩
    exact escapeless_marked (by decide)
      (List.forall_mem_cons.2 ⟨hcount, List.forall_mem_singleton.2 hname⟩)
  | entryMissing =>
    exact escapeless_marked (by decide)
      (List.forall_mem_cons.2 ⟨by decide, List.forall_mem_singleton.2 hname⟩)
  | mapMissing =>
    have hend : Text.Escapeless ", cannot trace to TypeScript sources" := by decide
    exact escapeless_marked (by decide) (List.forall_mem_cons.2
      ⟨by decide, List.forall_mem_cons.2 ⟨hname, List.forall_mem_singleton.2 hend⟩⟩)
  | invalidMap reason =>
    have hend : Text.Escapeless (": " ++ reason) :=
      escapeless_append.2 ⟨by decide, hreason reason rfl⟩
    exact escapeless_marked (by decide) (List.forall_mem_cons.2
      ⟨by decide, List.forall_mem_cons.2 ⟨hname, List.forall_mem_singleton.2 hend⟩⟩)
  | noSources =>
    exact escapeless_marked (by decide)
      (List.forall_mem_cons.2 ⟨by decide, List.forall_mem_singleton.2 hname⟩)

/-- The warning that no sources were found is a fixed text. -/
theorem escapeless_noEntrySources : Escapeless noEntrySources := by decide

/-- So is the one that there is nothing to trace. -/
theorem escapeless_noFiles : Escapeless noFiles := by decide

/-- The compiler's output is shown as it is, and the files are quoted. -/
theorem escapeless_typeErrors {files : List String} {output : String}
    (h : Text.Escapeless output) : Escapeless (typeErrors files output) := by
  have hfiles : Text.Escapeless ("   Files being traced: " ++ quoteList files) :=
    escapeless_append.2 ⟨by decide, escapeless_quoteList files⟩
  -- nothing is said about an output that is empty
  have houtput : Escapeless
      (if output = "" then [] else info ("   TypeScript error: " ++ output)) := by
    split
    · exact escapeless_nil
    · exact escapeless_info (escapeless_append.2 ⟨by decide, h⟩)
  have hheader : Escapeless (info "" ++ failure [.plain "TypeScript compilation failed"]) := by
    decide
  exact ((hheader.append (escapeless_info hfiles)).append houtput).flush

/-- What is advised quotes the names of the packages. -/
theorem escapeless_advice (names : List String) : Escapeless (advice names) := by
  refine Escapeless.flush (Escapeless.append (by decide) (escapeless_info ?_))
  exact escapeless_quoteList names

/-- The last line shows how long it took and how many files there were. -/
theorem escapeless_finished {elapsed : String} (h : Text.Escapeless elapsed) (files : Nat) :
    Escapeless (finished elapsed files) := by
  refine escapeless_line ?_
  simp only [List.forall_mem_cons]
  exact ⟨by decide, by decide, by decide, h, by decide, escapeless_nat files, by decide⟩

end Report

/-! ## What a check says -/

/-- No message of a failure holds the escape character. -/
def Failure.Escapeless (failure : Failure) : Prop :=
  ∀ message ∈ failure.chain, Text.Escapeless message

instance (failure : Failure) : Decidable failure.Escapeless :=
  inferInstanceAs (Decidable (∀ message ∈ failure.chain, '\x1b' ∉ message.toList))

open Transcript

/-- What a part of a check reports does not hold the escape character, nor do the messages of its
    failure. -/
structure Transcript.Escapeless {α : Type} (result : Except Failure α) (events : List Event) :
    Prop where
  reported : Report.Escapeless (report events)
  failed : ∀ failure, result = .error failure → failure.Escapeless

namespace Transcript

variable {α : Type} {result : Except Failure α} {before events : List Event}

/-- A part that succeeds shows what it reports. -/
theorem escapeless_ok {a : α} (h : Report.Escapeless (report events)) :
    Escapeless (.ok a) events :=
  ⟨h, fun _ hresult => nomatch hresult⟩

/-- A part that fails shows what it reported before, and its failure. -/
theorem escapeless_error {failure : Failure} (hfailure : failure.Escapeless)
    (h : Report.Escapeless (report events)) :
    Escapeless (.error failure : Except Failure α) events := by
  refine ⟨h, fun failure' hresult => ?_⟩
  rwa [← Except.error.inj hresult]

/-- More may be reported before. -/
theorem Escapeless.behind (h : Escapeless result events)
    (hbefore : Report.Escapeless (report before)) : Escapeless result (before ++ events) := by
  refine ⟨?_, h.failed⟩
  rw [report_append]
  exact hbefore.append h.reported

end Transcript

namespace Prompt

/-- Every repetition of a selection warns in the same fixed words. -/
theorem escapeless_select (candidates : List String) (selections : List (List Nat)) :
    Transcript.Escapeless (select candidates selections).result
      (select candidates selections).events := by
  induction selections with
  | nil => exact escapeless_error (by decide) Report.escapeless_nil
  | cons places later ih =>
    unfold select
    dsimp only
    split
    · -- the warning about an empty selection, and what the same question comes to later
      have hwarning : Report.Escapeless emptySelection := by decide
      exact ih.behind hwarning
    · exact escapeless_ok Report.escapeless_nil

/-- Whatever keeps a conversation from its end is said in words of its own. -/
theorem escapeless_ask (operator : Operator) (candidates : List String) :
    Transcript.Escapeless (ask operator candidates).result (ask operator candidates).events := by
  -- an operator that is absent or out of answers fails in fixed words
  have hquestion : Transcript.Escapeless (question operator candidates).result
      (question operator candidates).events := by
    unfold question
    cases operator with
    | absent => exact escapeless_error (by decide) Report.escapeless_nil
    | script selections inputs =>
      dsimp only
      split
      · cases inputs with
        | nil => exact escapeless_error (by decide) Report.escapeless_nil
        | cons line later => exact escapeless_ok Report.escapeless_nil
      · exact escapeless_select candidates selections
  have hflush : Report.Escapeless (report [.reported .flush]) := by decide
  exact hquestion.behind hflush

end Prompt

/-- No text from outside holds the escape character: no name in the file system, no text among the
    options, no entry point of the manifest and nothing that the compiler prints. -/
structure EscapelessInput (w : World) (toolchain : Toolchain) (o : Options) : Prop where
  names : ∀ e ∈ w.tree.entries, ∀ name ∈ e.1, Escapeless name.lossy
  root : ∀ root, o.root = some root → Escapeless root.lossy
  files : ∀ file ∈ o.files, Escapeless file
  compiler : Escapeless o.compiler
  entryPoints : ∀ p, o.project w = .ok p → ∀ entry ∈ p.manifest.entryPoints, Escapeless entry
  output : ∀ invocation tree finished, toolchain invocation tree = .ok finished →
    Escapeless (Utf8.decodeLossy finished.stdout) ∧ Escapeless (Utf8.decodeLossy finished.stderr)

namespace World

variable {w : World} {toolchain : Toolchain} {operator : Operator} {o : Options} {p : Project}

/-- The root that is found is the one given or made of names. -/
theorem escapeless_root (h : EscapelessInput w toolchain o) {ready : Options} {root : Path}
    (hready : o.locate w = .ok ready) (hroot : ready.knownRoot = .ok root) :
    Escapeless root.lossy := by
  -- the names on the way to an entry are among those of the tree
  have hpath : ∀ {loc : Location} {e : Entry}, w.tree.get? loc = some e →
      Escapeless loc.path.lossy := by
    intro loc e hget
    refine escapeless_path fun name hname => ?_
    have hne : loc ≠ [] := List.ne_nil_of_mem hname
    exact h.names _ (FileTree.mem_entries_of_get? hget hne) name hname
  obtain ⟨hgiven, hcurrent⟩ := root_of_locate hready hroot
  cases hroot' : o.root with
  | none =>
    have hdir := hcurrent hroot'
    unfold currentDirectory at hdir
    split at hdir
    · rename_i hcwd
      simp only [Bool.and_eq_true, FileTree.isDirectory_iff] at hcwd
      rw [← Except.ok.inj hdir]
      exact hpath hcwd.2
    · exact nomatch hdir
  -- a root that cannot be made canonical is kept as it is given
  | some given =>
    rw [hgiven given hroot']
    cases hcanonical : w.canonical given with
    | error cause => exact h.root given hroot'
    | ok q =>
      obtain ⟨loc, e, hfound, -, rfl⟩ := canonical_eq_ok_iff.1 hcanonical
      exact hpath (get?_of_lookUp hfound)

/-- A project is missed at the first stage that fails. -/
theorem of_project_error {failure : Failure} (h : o.project w = .error failure) :
    o.locate w = .error failure ∨
      ∃ ready, o.locate w = .ok ready ∧ (ready.knownRoot = .error failure ∨
        ∃ root, ready.knownRoot = .ok root ∧
          (w.manifest root = .error failure ∨ ready.command = .error failure)) := by
  -- each stage fails by itself, or hands on to the next
  unfold Options.project at h
  rcases bind_eq_error.1 h with h | ⟨ready, hready, h⟩
  · exact .inl h
  rcases bind_eq_error.1 h with h | ⟨root, hroot, h⟩
  · exact .inr ⟨ready, hready, .inl h⟩
  rcases bind_eq_error.1 h with h | ⟨manifest, -, h⟩
  · exact .inr ⟨ready, hready, .inr ⟨root, hroot, .inl h⟩⟩
  rcases bind_eq_error.1 h with h | ⟨command, -, h⟩
  · exact .inr ⟨ready, hready, .inr ⟨root, hroot, .inr h⟩⟩
  · exact nomatch h

/-- A manifest that cannot be used is described without the escape character. -/
theorem escapeless_chain_manifest {root : Path} {failure : Failure} (hroot : Escapeless root.lossy)
    (h : w.manifest root = .error failure) : failure.Escapeless := by
  unfold manifest at h
  dsimp only at h
  -- the path is shown when the file cannot be read, and else only what is in it
  split at h
  · rename_i cause _
    cases h
    have hpath : Escapeless (root.join ⟨Layout.manifestFile⟩).lossy :=
      escapeless_join hroot (by decide)
    exact List.forall_mem_cons.2 ⟨escapeless_append.2 ⟨by decide, hpath⟩,
      List.forall_mem_singleton.2 (escapeless_readError cause)⟩
  · rename_i content _
    cases hparse : Manifest.parse content with
    | ok manifest =>
      rw [hparse] at h
      exact nomatch h
    | error e =>
      rw [hparse] at h
      cases h
      obtain ⟨hsubject, hsummary⟩ := Shape.escapeless_summary Manifest.quiet_decode hparse
      refine List.forall_mem_singleton.2 ?_
      unfold ShapeError.message
      rw [hsubject]
      exact escapeless_append.2 ⟨by decide, hsummary⟩

/-- A project that is not found is missed in words without the escape character. -/
theorem escapeless_chain_project (h : EscapelessInput w toolchain o) {failure : Failure}
    (hfailure : o.project w = .error failure) : failure.Escapeless := by
  -- which stage failed tells what the message is made of
  rcases of_project_error hfailure with hlocate | ⟨ready, hready, hknown | ⟨root, hroot, hrest⟩⟩
  · unfold Options.locate at hlocate
    split at hlocate
    · exact nomatch hlocate
    split at hlocate
    · exact nomatch hlocate
    · rename_i cause _
      cases hlocate
      exact List.forall_mem_singleton.2 (escapeless_osError cause)
  · unfold Options.knownRoot at hknown
    split at hknown
    · exact nomatch hknown
    · cases hknown
      decide
  · rcases hrest with hmanifest | hcommand
    · exact escapeless_chain_manifest (escapeless_root h hready hroot) hmanifest
    · unfold Options.command CompilerCommand.ofLine at hcommand
      split at hcommand
      · cases hcommand
        decide
      · exact nomatch hcommand

/-! ## The stages of a check -/

/-- The walk for the candidates warns, but reports nothing. -/
theorem escapeless_askOperator (w : World) (operator : Operator) (root : Path) :
    Transcript.Escapeless (w.askOperator operator root).result
      (w.askOperator operator root).events := by
  unfold askOperator
  refine (Prompt.escapeless_ask operator _).behind ?_
  rw [report_warnings]
  exact Report.escapeless_nil

/-- The reason why a map is invalid quotes what the map says. -/
theorem escapeless_traceEntry {root : Path} {entry reason : String}
    (h : w.traceEntry root entry = .invalidMap reason) : Escapeless reason := by
  unfold traceEntry at h
  dsimp only at h
  -- only an unreadable or an invalid map gives a reason
  split at h
  · exact nomatch h
  split at h
  · exact nomatch h
  split at h
  · cases h
    exact escapeless_readError _
  split at h
  · rename_i e he
    cases h
    exact (Shape.escapeless_summary SourceMap.quiet_decode he).2
  · unfold EntryTrace.ofFiles at h
    split at h
    · exact nomatch h
    · exact nomatch h

/-- What is reported about the files to trace shows the files provided or the entry points. -/
theorem escapeless_chooseFiles (w : World) (operator : Operator) {provided : List String}
    (hprovided : ∀ file ∈ provided, Escapeless file)
    (hentries : ∀ entry ∈ p.manifest.entryPoints, Escapeless entry) :
    Transcript.Escapeless (w.chooseFiles operator p provided).result
      (w.chooseFiles operator p provided).events := by
  have hasked := w.escapeless_askOperator operator p.root
  have hgiven : Escapeless ("Using provided files: " ++ ", ".intercalate provided) :=
    escapeless_append.2 ⟨by decide, .intercalate (by decide) hprovided⟩
  have hnone : Report.Escapeless (Report.info "No main/module found in package.json.") := by
    decide
  have htraces : Report.Escapeless
      ((w.traceEntries p).flatMap fun t => Report.entryTrace t.1 t.2) := by
    unfold traceEntries
    rw [List.flatMap_map]
    dsimp only
    exact .flatMap fun entry hentry =>
      Report.escapeless_entryTrace (hentries entry hentry) fun _ => escapeless_traceEntry
  have hfound : Escapeless
      ("Found entry points: " ++ ", ".intercalate p.manifest.entryPoints) :=
    escapeless_append.2 ⟨by decide, .intercalate (by decide) hentries⟩
  have hopening := (Report.escapeless_info hfound).append htraces
  -- files provided, no entry points, entry points without sources, or with some
  unfold chooseFiles
  split
  · refine escapeless_ok ?_
    rw [report_ofReport]
    exact Report.escapeless_info hgiven
  split
  · refine hasked.behind ?_
    rwa [report_ofReport]
  dsimp only
  split
  · refine hasked.behind ?_
    rw [report_ofReport]
    exact hopening.append Report.escapeless_noEntrySources
  · refine escapeless_ok ?_
    rwa [report_ofReport]

/-- Ending a trace reports nothing. -/
theorem escapeless_endTrace {config : Path} {events : List Event}
    {result : Except Failure CompilerAnswer} (h : Transcript.Escapeless result events) :
    Transcript.Escapeless (w.endTrace config events result).result
      (w.endTrace config events result).events := by
  -- a warning is not reported
  have hwarnings : report (w.removeConfig config).2 = [] := by
    rcases w.events_removeConfig config with hnone | hone
    · rw [hnone]
      rfl
    · rw [hone]
      rfl
  refine ⟨?_, h.failed⟩
  unfold endTrace
  dsimp only
  rw [report_append, hwarnings, List.append_nil]
  exact h.reported

/-- What a compiler answered shows its command and what it printed. -/
theorem escapeless_outcome {finished : Finished} {command : String} {events : List Event}
    (hcommand : Escapeless command) (hstdout : Escapeless (Utf8.decodeLossy finished.stdout))
    (hstderr : Escapeless (Utf8.decodeLossy finished.stderr))
    (hevents : Report.Escapeless (report events)) :
    Transcript.Escapeless (finished.outcome command) events ∧
      ∀ output, finished.outcome command = .ok (.typeErrors output) → Escapeless output := by
  -- success lists, one exit code stands for type errors, and any other end is a failure
  unfold Finished.outcome
  split
  · exact ⟨escapeless_ok hevents, nofun⟩
  split
  · refine ⟨escapeless_ok hevents, fun output houtput => ?_⟩
    rw [← CompilerAnswer.typeErrors.inj (Except.ok.inj houtput)]
    exact hstdout.trim
  · have hstatus : Escapeless finished.status.describe := by
      cases finished.status with
      | code value =>
        exact escapeless_append.2 ⟨escapeless_append.2 ⟨by decide, escapeless_nat _⟩, by decide⟩
      | signal => exact (by decide : Escapeless "None")
    have hcomplaint : Escapeless finished.complaint := by
      unfold Finished.complaint
      dsimp only
      split
      · exact hstdout.trim
      · exact hstderr.trim
    refine ⟨escapeless_error (List.forall_mem_singleton.2 ?_) hevents, nofun⟩
    simp only [escapeless_append]
    exact ⟨⟨⟨⟨⟨by decide, hcommand⟩, by decide⟩, hstatus⟩, by decide⟩, hcomplaint⟩

/-- A trace shows the project's root, the command and what the compiler printed. -/
theorem escapeless_trace (h : EscapelessInput w toolchain o) (hproject : o.project w = .ok p)
    (files : List String) :
    Transcript.Escapeless (w.trace toolchain p.root p.command files).result
        (w.trace toolchain p.root p.command files).events ∧
      ∀ output, (w.trace toolchain p.root p.command files).result = .ok (.typeErrors output) →
        Escapeless output := by
  obtain ⟨ready, hready, hroot, -, -⟩ := of_project hproject
  have hconfig : Escapeless (p.root.join ⟨Layout.checkConfigFile⟩).lossy :=
    escapeless_join (escapeless_root h hready hroot) (by decide)
  have hdisplay : Escapeless p.command.display :=
    escapeless_display (root_of_project hproject).2.2 h.compiler
  -- nothing to trace, an unwritable configuration, no launch, or an answer
  unfold trace CompilerConfig.forFiles
  by_cases hfiles : files = []
  · rw [if_pos hfiles]
    exact ⟨escapeless_error (by decide) Report.escapeless_nil, nofun⟩
  rw [if_neg hfiles]
  dsimp only
  split
  · rename_i cause _
    have hunwritable : (Failure.unwritable (p.root.join ⟨Layout.checkConfigFile⟩) cause).Escapeless :=
      List.forall_mem_cons.2 ⟨escapeless_append.2 ⟨by decide, hconfig⟩,
        List.forall_mem_singleton.2 (escapeless_osError cause)⟩
    exact ⟨escapeless_endTrace (escapeless_error hunwritable Report.escapeless_nil), nofun⟩
  split
  · rename_i cause _
    have hnotLaunched : (Failure.notLaunched p.command.display cause).Escapeless :=
      List.forall_mem_cons.2
        ⟨escapeless_append.2 ⟨escapeless_append.2 ⟨by decide, hdisplay⟩, by decide⟩,
          List.forall_mem_singleton.2 (escapeless_osError cause)⟩
    exact ⟨escapeless_endTrace (escapeless_error hnotLaunched Report.escapeless_nil), nofun⟩
  · rename_i written _ _ invocation finished hlaunch
    obtain ⟨-, -, -, hrun⟩ := of_launch hlaunch
    obtain ⟨hstdout, hstderr⟩ := h.output _ _ _ hrun
    have hlaunched : Report.Escapeless (report [.launched invocation written.tree]) :=
      Report.escapeless_nil
    obtain ⟨hends, houtput⟩ := escapeless_outcome hdisplay hstdout hstderr hlaunched
    exact ⟨escapeless_endTrace hends, houtput⟩

/-- Checking the files shows what the trace does, and the verdict. -/
theorem escapeless_checkFiles (h : EscapelessInput w toolchain o)
    (hproject : o.project w = .ok p) (files : List String) :
    Transcript.Escapeless (w.checkFiles toolchain p files).result
      (w.checkFiles toolchain p files).events := by
  obtain ⟨htraced, houtput⟩ := escapeless_trace h hproject files
  unfold checkFiles
  dsimp only
  -- the trace failed, or found type errors, or listed files
  split
  · rename_i failure hresult
    exact escapeless_error (htraced.failed failure hresult) htraced.reported
  · rename_i output hresult
    refine escapeless_ok ?_
    rw [report_append, report_ofReport]
    exact htraced.reported.append (Report.escapeless_typeErrors (houtput output hresult))
  · refine escapeless_ok ?_
    rw [report_append, report_ofReport]
    exact htraced.reported.append (Report.escapeless_advice _)

/-- Neither the report of a check nor its failure holds the escape character if nothing does that
    comes from outside. -/
theorem escapeless_check (h : EscapelessInput w toolchain o) (operator : Operator) :
    Transcript.Escapeless (w.check toolchain operator o).result
      (w.check toolchain operator o).events := by
  cases hproject : o.project w with
  | error failure =>
    rw [check_eq_of_no_project hproject]
    exact escapeless_error (escapeless_chain_project h hproject) Report.escapeless_nil
  | ok p =>
    have hchoice := w.escapeless_chooseFiles operator h.files (h.entryPoints p hproject)
    cases hchosen : w.filesToTrace operator p o.files with
    | error failure =>
      have hresult := (w.chooseFiles_result operator p o.files).trans hchosen
      rw [check_eq_of_undecided hproject hchosen]
      exact escapeless_error (hchoice.failed failure hresult) hchoice.reported
    | ok files =>
      -- with no files chosen a check ends before the trace
      by_cases hfiles : files = []
      · rw [hfiles] at hchosen
        rw [check_eq_of_nothing hproject hchosen]
        refine escapeless_ok ?_
        rw [report_append, report_ofReport]
        exact hchoice.reported.append Report.escapeless_noFiles
      · rw [check_eq_of_files hproject hchosen hfiles]
        exact (escapeless_checkFiles h hproject files).behind hchoice.reported

/-! ## Two runs -/

/-- What a check comes to and does, and what it shows: its report, and if it fails the line with the
    failure's messages. -/
structure Appearance where
  result : Except Failure Verdict
  left : World
  questions : List Question
  launches : List (Invocation × FileTree)
  output : String
  lastLine : String

/-- The line that says that a check failed. -/
def failureLine : Except Failure Verdict → List Output
  | .error failure => Report.fatal failure.chain
  | .ok _ => []

/-- A check with colour or without. -/
def seen (w : World) (toolchain : Toolchain) (operator : Operator) (colour : Bool) (o : Options) :
    Appearance :=
  let run := w.check toolchain operator o
  ⟨run.result, run.world, questions run.events, launches run.events,
    Report.written colour (report run.events), Report.written colour (failureLine run.result)⟩

/-- **Colour changes only how a check looks.**  Where no text from outside holds the escape
    character, a check with colour and one without come to the same, leave the same world behind,
    ask the same questions and launch the same, and what the first one shows with its codes taken
    out is what the second one shows. -/
theorem seen_of_colour (h : EscapelessInput w toolchain o) (operator : Operator) :
    let coloured := w.seen toolchain operator true o
    let plain := w.seen toolchain operator false o
    coloured.result = plain.result ∧ coloured.left = plain.left ∧
      coloured.questions = plain.questions ∧ coloured.launches = plain.launches ∧
      uncoloured coloured.output = plain.output ∧
      uncoloured coloured.lastLine = plain.lastLine := by
  obtain ⟨hreport, hfailure⟩ := escapeless_check h operator
  unfold seen
  dsimp only
  generalize w.check toolchain operator o = run at hreport hfailure ⊢
  -- the failure's line is shown beside the report, so it is uncoloured by itself
  have hline : Report.Escapeless (failureLine run.result) := by
    cases hresult : run.result with
    | error failure => exact Report.escapeless_fatal (hfailure failure hresult)
    | ok verdict => exact Report.escapeless_nil
  exact ⟨rfl, rfl, rfl, rfl, Report.uncoloured_written hreport, Report.uncoloured_written hline⟩

/-- A project with an entry point that is traced to a source. -/
def tracedProject : World :=
  .inside (.ofEntries [(["p"], .directory), (["p", "a.ts"], .file [] false),
    (["p", "i.js"], .file [] false),
    (["p", "i.js.map"], .file (Utf8.encode "\x7b\"sources\": [\"a.ts\"]\x7d") false),
    (["p", "package.json"], .file (Utf8.encode "\x7b\"main\": \"i.js\"\x7d") false)]) ["p"]

/-- A compiler that finds a type error. -/
def strictToolchain : Toolchain :=
  fun _ t => .ok ⟨Utf8.encode "a.ts(1,1): error TS2322\n", [], .code 2, t⟩

/-- Both marks and the name of the entry point are coloured. -/
theorem seen_of_colour_traced :
    EscapelessInput tracedProject strictToolchain ⟨[], none, "tsc"⟩ ∧
      (tracedProject.seen strictToolchain .absent true ⟨[], none, "tsc"⟩).output =
        "Found entry points: i.js\n\x1b[1;32m✓\x1b[0m Found 1 TypeScript source(s) for " ++
          "\x1b[34mi.js\x1b[0m\n\n\x1b[1;31m✗\x1b[0m TypeScript compilation failed\n" ++
          "   Files being traced: [\"/p/a.ts\"]\n" ++
          "   TypeScript error: a.ts(1,1): error TS2322\n" ∧
      uncoloured (tracedProject.seen strictToolchain .absent true ⟨[], none, "tsc"⟩).output =
        (tracedProject.seen strictToolchain .absent false ⟨[], none, "tsc"⟩).output := by
  have hknown : (Options.project ⟨[], none, "tsc"⟩ tracedProject).toOption.map
      (fun p : Project => p.manifest.entryPoints) = some ["i.js"] := by
    decide +kernel
  -- nothing from outside is escaped, so the codes are all from the report
  have h : EscapelessInput tracedProject strictToolchain ⟨[], none, "tsc"⟩ := by
    refine ⟨by decide, nofun, nofun, by decide, fun p hproject => ?_, ?_⟩
    · rw [hproject] at hknown
      have hentries : p.manifest.entryPoints = ["i.js"] := Option.some.inj hknown
      rw [hentries]
      decide
    · rintro invocation t _ ⟨⟩
      dsimp only
      decide +kernel
  exact ⟨h, by decide +kernel, (seen_of_colour h .absent).2.2.2.2.1⟩

end World

/-! ## The program -/

namespace CommandLine

/-- So the program's output is the same with its codes taken out, and it exits and leaves the world
    behind as it does without colour. -/
theorem checkRun_of_colour {w : World} {toolchain : Toolchain} {o : Options} {elapsed : String}
    (h : EscapelessInput w toolchain o) (helapsed : Escapeless elapsed) (operator : Operator) :
    let coloured := checkRun w toolchain operator true elapsed o
    let plain := checkRun w toolchain operator false elapsed o
    uncoloured coloured.stdout = plain.stdout ∧ coloured.stderr = plain.stderr ∧
      coloured.exitCode = plain.exitCode ∧ coloured.world = plain.world := by
  refine ⟨?_, rfl, rfl, rfl⟩
  obtain ⟨hreport, hfailure⟩ := World.escapeless_check h operator
  rw [checkRun_stdout, checkRun_stdout]
  generalize w.check toolchain operator o = run at hreport hfailure ⊢
  -- the closing line is written behind the report of the check, to the same output
  have hclosing : Report.Escapeless (ending elapsed run.result).closing := by
    cases hresult : run.result with
    | error failure => exact Report.escapeless_fatal (hfailure failure hresult)
    | ok verdict =>
      cases verdict with
      | noFiles | typeErrors files => exact Report.escapeless_nil.flush
      | checked flagged listed => exact (Report.escapeless_finished helapsed listed).flush
  rw [← Report.written_append, ← Report.written_append]
  exact Report.uncoloured_written (hreport.append hclosing)

end CommandLine

end TypeLeak
