import TypeLeak.Proofs.AsciiText
import TypeLeak.Proofs.SearchSteps

/-!
# Which sources a search finds

What a search finds is told here by paths alone, without the state of the search: a source is found by
the names that lead to it from the root, if all of them are visible, those before the last name
directories that are not left out, and none of these a link back to a directory before it.

## Key results

- `isSource_iff`: a source is called by a stem, a dot and one of the extensions
- `enters_iff`, `takes_iff`: what a search does with a name, told by where its path leads
- `source_mem_findingsFrom_iff_walked`: what is found is what can be walked to
- `mem_sources_iff`: which sources a search finds
-/

namespace TypeLeak

namespace Path

/-- The path along names, one after the other. -/
def along (p : Path) (names : List OsText) : Path := names.foldl (fun q name => q.join ⟨name⟩) p

/-! ## The names of sources -/

private theorem extensionOf_of_dot {stem ext : OsText} (hext : OsText.dotByte ∉ ext.bytes) :
    extensionOf (stem ++ .dot ++ ext) = if stem = .empty then none else some ext := by
  have hlast : Text.cut (· == OsText.dotByte) ext.bytes = [ext.bytes] := by
    apply Text.cut_of_none
    intro c hc
    rw [beq_eq_false_iff_ne]
    rintro rfl
    exact hext hc
  have hpieces : (Text.cut (· == OsText.dotByte) (stem ++ .dot ++ ext).bytes).reverse =
      ext.bytes :: (Text.cut (· == OsText.dotByte) stem.bytes).reverse := by
    have hbytes : (stem ++ .dot ++ ext).bytes = stem.bytes ++ OsText.dotByte :: ext.bytes := by
      simp [OsText.dotByte]
    rw [hbytes, Text.cut_append _ _ (by rfl), hlast, List.reverse_append]
    rfl
  unfold extensionOf
  rw [hpieces]
  by_cases hstem : stem = .empty
  · subst hstem
    rfl
  · rw [if_neg hstem]
    -- what comes before the last dot has a piece, and if only one, no empty one
    cases hrest : (Text.cut (· == OsText.dotByte) stem.bytes).reverse with
    | nil => exact absurd (List.reverse_eq_nil_iff.1 hrest) (Text.cut_ne_nil _ _)
    | cons piece pieces =>
      cases pieces with
      | cons _ _ => simp
      | nil =>
        cases piece with
        | cons _ _ => simp
        | nil =>
          -- only the empty stem is one empty piece
          have hcut := List.reverse_eq_iff.1 hrest
          exact absurd (OsText.ext (Text.eq_nil_of_cut hcut)) hstem

/-- The extension of a name is what follows its last dot, if something comes before it. -/
theorem extensionOf_eq_some_iff {name ext : OsText} :
    extensionOf name = some ext ↔
      ∃ stem, name = stem ++ .dot ++ ext ∧ stem ≠ .empty ∧ OsText.dotByte ∉ ext.bytes := by
  constructor
  · intro h
    by_cases hdot : OsText.dotByte ∈ name.bytes
    · -- cut the name at its last dot
      obtain ⟨back, front, hname, hback⟩ := List.eq_append_cons_of_mem (List.mem_reverse.2 hdot)
      have hcut : name = ⟨front.reverse⟩ ++ .dot ++ ⟨back.reverse⟩ := by
        apply OsText.ext
        rw [← List.reverse_reverse name.bytes, hname]
        simp [OsText.dotByte]
      have hlast : OsText.dotByte ∉ (OsText.mk back.reverse).bytes := by simpa using hback
      rw [hcut, extensionOf_of_dot hlast] at h
      split at h
      · exact nomatch h
      · rename_i hstem
        cases h
        exact ⟨_, hcut, hstem, hlast⟩
    · have hone : Text.cut (· == OsText.dotByte) name.bytes = [name.bytes] := by
        apply Text.cut_of_none
        intro c hc
        rw [beq_eq_false_iff_ne]
        rintro rfl
        exact hdot hc
      unfold extensionOf at h
      rw [hone] at h
      exact nomatch h
  · intro hright
    obtain ⟨stem, rfl, hstem, hext⟩ := hright
    rw [extensionOf_of_dot hext, if_neg hstem]

/-- A text has the extension `ext` exactly if it is a stem, a dot and `ext`. -/
theorem extensionOf_ofString_iff {name ext : String}
    (hext : OsText.dotByte ∉ (OsText.ofString ext).bytes) :
    extensionOf (.ofString name) = some (.ofString ext) ↔
      ∃ stem, name = stem ++ "." ++ ext ∧ stem ≠ "" := by
  rw [extensionOf_eq_some_iff]
  constructor
  · intro hleft
    obtain ⟨stem, hname, hstem, -⟩ := hleft
    -- the stem of a text is shown as a text
    refine ⟨stem.lossy, ?_, fun hempty => hstem (OsText.lossy_eq_empty_iff.1 hempty)⟩
    rw [← OsText.lossy_ofString name, hname, OsText.lossy_append_dot, OsText.lossy_ofString]
  · intro hright
    obtain ⟨stem, rfl, hstem⟩ := hright
    refine ⟨.ofString stem, ?_, fun hempty => hstem ?_, hext⟩
    · rw [OsText.ofString_append, OsText.ofString_append]
      rfl
    · rw [← OsText.lossy_ofString stem, hempty, OsText.lossy_empty]

/-- A source is called by a stem, a dot and one of the extensions. -/
theorem isSource_iff {name : String} (h : IsName name) :
    Layout.isSource name = true ↔
      ∃ stem ext, name = stem ++ "." ++ ext ∧ stem ≠ "" ∧ ext ∈ Layout.sourceExtensions := by
  -- a name is a path of one component, so its file name is the name itself
  have hfile : (Path.mk name).fileName = some (.ofString name) := by
    unfold fileName components
    rw [split_name h]
    simp [Lead.components, h.ofSegment_eq]
  have hdots : ∀ ext ∈ Layout.sourceExtensions, OsText.dotByte ∉ (OsText.ofString ext).bytes := by
    decide
  have hany : Layout.isSource name = true ↔
      ∃ ext ∈ Layout.sourceExtensions, extensionOf (.ofString name) = some (.ofString ext) := by
    unfold Layout.isSource extension
    rw [hfile, Option.bind_some]
    cases extensionOf (.ofString name) <;> simp
  rw [hany]
  constructor
  · intro hleft
    obtain ⟨ext, hmem, hext⟩ := hleft
    obtain ⟨stem, hname, hstem⟩ := (extensionOf_ofString_iff (hdots ext hmem)).1 hext
    exact ⟨stem, ext, hname, hstem, hmem⟩
  · intro hright
    obtain ⟨stem, ext, hname, hstem, hmem⟩ := hright
    exact ⟨ext, hmem, (extensionOf_ofString_iff (hdots ext hmem)).2 ⟨stem, hname, hstem⟩⟩

/-- A name is shown as a name: only what is empty, dots or holds a slash is shown so. -/
theorem isName_lossy {name : OsText} (h : IsName name) : IsName name.lossy := by
  obtain ⟨hempty, hdot, hdots, hslash⟩ := h
  have hascii : ∀ {s : String}, Text.Utf8.IsAsciiText s → name ≠ .ofString s →
      OsText.ofString name.lossy ≠ .ofString s := by
    intro s hs hne heq
    exact hne ((OsText.lossy_eq_iff_of_ascii hs).1 (OsText.ofString_inj.1 heq))
  refine ⟨hascii (s := "") (by decide) hempty, hascii (s := ".") (by decide) hdot,
    hascii (s := "..") (by decide) hdots, ?_⟩
  rwa [OsText.slash_mem_ofString_lossy_iff]

end Path

namespace World

variable {w : World} {filter : SearchFilter} {s : SearchState} {name : OsText}

/-- The entry that a path names is a link. -/
def isLink (w : World) (p : Path) : Bool :=
  match w.tree.seat w.cwd p with
  | .error _ => false
  | .ok loc =>
    match w.tree.get? loc with
    | some (.link _) => true
    | _ => false

/-! ## What stands behind a name -/

/-- The walked path of a state leads to its directory. -/
def Arrived (w : World) (s : SearchState) : Prop :=
  w.resolve s.path = .ok (.present s.dir .directory)

/-- A name of the directory is looked up there. -/
theorem resolve_name (h : w.Arrived s) (hname : Path.IsName name) {found : Target}
    (hresolve : w.resolve (s.path.join ⟨name⟩) = .ok found) :
    ∃ links, w.tree.walk .reading links s.dir [.enter name] = .ok found := by
  obtain ⟨-, -, ⟨links, hreach⟩, -⟩ := resolve_eq_directory_iff.1 h
  obtain ⟨-, -, links', dir, hreach', hwalk⟩ := (resolve_join hname).1 hresolve
  obtain ⟨rfl, rfl⟩ := hreach.unique hreach'
  exact ⟨links, hwalk⟩

/-- What a name of the directory leads to. -/
theorem entry_of_resolve (h : w.Arrived s) (hname : Path.IsName name) {found : Target}
    (hresolve : w.resolve (s.path.join ⟨name⟩) = .ok found) :
    name.size ≤ maxName ∧
      match w.tree.get? (s.dir ++ [name]) with
      | none => found = .vacant (s.dir ++ [name])
      | some .directory => found = .present (s.dir ++ [name]) .directory
      | some (.file bytes executable) =>
        found = .present (s.dir ++ [name]) (.file bytes executable)
      | some (.link _) => True := by
  obtain ⟨links, hwalk⟩ := resolve_name h hname hresolve
  -- the walk from the directory has one step only
  rw [FileTree.walk_enter, if_neg (by simp)] at hwalk
  split at hwalk
  · exact nomatch hwalk
  rename_i hsize
  refine ⟨Nat.not_lt.1 hsize, ?_⟩
  cases hget : w.tree.get? (s.dir ++ [name]) with
  | none =>
    rw [hget] at hwalk
    exact (Except.ok.inj hwalk).symm
  | some e =>
    rw [hget] at hwalk
    cases e with
    | directory =>
      dsimp only at hwalk ⊢
      rw [FileTree.walk_nil, if_pos (FileTree.isDirectory_iff.2 hget)] at hwalk
      exact (Except.ok.inj hwalk).symm
    | file bytes executable => exact (Except.ok.inj hwalk).symm
    | link target => trivial

/-- A name that leads somewhere is that of a link if a link stands there. -/
theorem isLink_name (h : w.Arrived s) (hname : Path.IsName name) {found : Target}
    (hresolve : w.resolve (s.path.join ⟨name⟩) = .ok found) :
    w.isLink (s.path.join ⟨name⟩) = true ↔
      ∃ target, w.tree.get? (s.dir ++ [name]) = some (.link target) := by
  obtain ⟨-, -, ⟨links, hreach⟩, hdir⟩ := resolve_eq_directory_iff.1 h
  obtain ⟨hlong, hnul, -⟩ := (resolve_join hname).1 hresolve
  obtain ⟨hsize, -⟩ := entry_of_resolve h hname hresolve
  -- a path that leads somewhere has an entry
  have hseat := (seat_join hname).2 ⟨hlong, hnul, hsize, links, s.dir, hreach, hdir, rfl⟩
  unfold isLink
  rw [hseat]
  dsimp only
  cases w.tree.get? (s.dir ++ [name]) with
  | none => simp
  | some e => cases e <;> simp

/-- A search enters what a visible name leads to, unless it is left out, locked or a link back. -/
theorem enters_iff (hw : w.tree.WellFormed) (h : w.Arrived s) {sub : Location} :
    w.Enters filter s name sub ↔
      Path.IsName name ∧ filter.skips name.lossy true = false ∧
        w.resolve (s.path.join ⟨name⟩) = .ok (.present sub .directory) ∧
        w.tree.isReadable sub = true ∧ (w.isLink (s.path.join ⟨name⟩) = true → sub ∉ s.trail) := by
  -- whatever stands in a directory has a proper name
  have hproper : ∀ {e}, w.tree.get? (s.dir ++ [name]) = some e → Path.IsName name :=
    fun hget => (Location.isProper_concat.1 (hw.isProper_of_get? hget)).2
  constructor
  · intro hleft
    obtain ⟨hskip, hread, ⟨hget, hexists, rfl⟩ | ⟨target, hget, hresolve, hnew⟩⟩ := hleft
    · have hname := hproper hget
      obtain ⟨loc, e, hresolve⟩ := (exists?_join_iff hname).1 hexists
      have hfound := (entry_of_resolve h hname hresolve).2
      rw [hget] at hfound
      cases hfound
      refine ⟨hname, hskip, hresolve, hread, fun hlink => ?_⟩
      -- a directory is no link
      obtain ⟨target, htarget⟩ := (isLink_name h hname hresolve).1 hlink
      rw [hget] at htarget
      exact nomatch htarget
    · exact ⟨hproper hget, hskip, hresolve, hread, fun _ => hnew⟩
  · intro hright
    obtain ⟨hname, hskip, hresolve, hread, hnew⟩ := hright
    refine ⟨hskip, hread, ?_⟩
    have hfound := (entry_of_resolve h hname hresolve).2
    cases hget : w.tree.get? (s.dir ++ [name]) with
    | none =>
      rw [hget] at hfound
      exact nomatch hfound
    | some e =>
      rw [hget] at hfound
      cases e with
      | directory =>
        cases hfound
        exact .inl ⟨rfl, (exists?_join_iff hname).2 ⟨_, _, hresolve⟩, rfl⟩
      | file bytes executable => exact nomatch hfound
      | link target =>
        exact .inr ⟨target, rfl, hresolve, hnew ((isLink_name h hname hresolve).2 ⟨target, hget⟩)⟩

/-- A search takes every visible source that a name leads to. -/
theorem takes_iff (hw : w.tree.WellFormed) (h : w.Arrived s) :
    w.Takes filter s name ↔
      Path.IsName name ∧ filter.skips name.lossy false = false ∧
        Layout.isSource name.lossy = true ∧
        w.isFile (s.path.join ⟨name⟩) = true := by
  constructor
  · intro hleft
    obtain ⟨hskip, hsource, hfile, e, hget, -⟩ := hleft
    exact ⟨(Location.isProper_concat.1 (hw.isProper_of_get? hget)).2, hskip, hsource, hfile⟩
  · intro hright
    obtain ⟨hname, hskip, hsource, hfile⟩ := hright
    obtain ⟨loc, bytes, executable, hresolve⟩ := isFile_eq_true_iff.1 hfile
    refine ⟨hskip, hsource, hfile, ?_⟩
    have hfound := (entry_of_resolve h hname hresolve).2
    -- what leads to a file has an entry in the directory, and a directory there would lead to
    -- itself
    cases hget : w.tree.get? (s.dir ++ [name]) with
    | none =>
      rw [hget] at hfound
      exact nomatch hfound
    | some e =>
      refine ⟨e, rfl, ?_⟩
      rintro rfl
      rw [hget] at hfound
      exact nomatch hfound

/-! ## Walks of a search -/

/-- A search that goes from a state along names takes a source by the last one. -/
inductive Walked (w : World) (filter : SearchFilter) : SearchState → List OsText → Prop where
  | take {s : SearchState} {name : OsText} : w.Takes filter s name → Walked w filter s [name]
  | enter {s : SearchState} {name : OsText} {sub : Location} {names : List OsText} :
      w.Enters filter s name sub → Walked w filter (s.enter name sub) names →
      Walked w filter s (name :: names)

/-- What is found is what can be walked to. -/
theorem source_mem_findingsFrom_iff_walked {before found : List OsText} :
    Finding.source found ∈ w.findingsFrom filter s before ↔
      ∃ names, w.Walked filter s names ∧ found = before ++ names := by
  -- every directory that is entered comes before the state in the order of the search's end
  induction s using (wellFounded_follows w filter).induction generalizing before with
  | _ s ih =>
    rw [source_mem_findingsFrom_iff]
    constructor
    · intro hleft
      obtain ⟨name, ⟨htakes, rfl⟩ | ⟨sub, henters, hmem⟩⟩ := hleft
      · exact ⟨[name], .take htakes, rfl⟩
      · obtain ⟨names, hwalked, rfl⟩ := (ih _ ⟨name, sub, henters, rfl⟩).1 hmem
        exact ⟨name :: names, .enter henters hwalked, by simp⟩
    · intro hright
      obtain ⟨names, hwalked, rfl⟩ := hright
      cases hwalked with
      | take htakes => exact ⟨_, .inl ⟨htakes, rfl⟩⟩
      | @enter _ name sub names henters hwalked =>
        refine ⟨name, .inr ⟨sub, henters, ?_⟩⟩
        exact (ih _ ⟨name, sub, henters, rfl⟩).2 ⟨names, hwalked, by simp⟩

/-- The names that a search can go along before the last one: each leads to a directory that is not
    left out or locked and, if a link leads there, is none of those already on the way. -/
def Passable (w : World) (filter : SearchFilter) (s : SearchState) (names : List OsText) : Prop :=
  ∀ front name rest, names = front ++ name :: rest → rest ≠ [] →
    ∃ dir, w.resolve (s.path.along (front ++ [name])) = .ok (.present dir .directory) ∧
      w.tree.isReadable dir = true ∧ name.lossy ∉ filter.skipDirs ∧
      (w.isLink (s.path.along (front ++ [name])) = true →
        dir ∉ s.trail ∧ ∀ before, before <+: front → before ≠ [] →
          w.resolve (s.path.along before) ≠ .ok (.present dir .directory))

theorem passable_singleton : w.Passable filter s [name] := by
  intro front last rest hnames hrest
  cases front with
  | nil => exact absurd (List.cons.inj hnames).2.symm hrest
  | cons first front =>
    have hnil := (List.cons.inj hnames).2
    simp at hnil

/-- Names can be gone along if the first one can be entered and the others be gone along from
    there. -/
theorem passable_cons_iff {names : List OsText} (hnames : names ≠ []) :
    w.Passable filter s (name :: names) ↔
      ∃ sub, w.resolve (s.path.join ⟨name⟩) = .ok (.present sub .directory) ∧
        w.tree.isReadable sub = true ∧ name.lossy ∉ filter.skipDirs ∧
        (w.isLink (s.path.join ⟨name⟩) = true → sub ∉ s.trail) ∧
        w.Passable filter (s.enter name sub) names := by
  constructor
  · intro h
    -- the first name is passed with nothing before it, and the others with it before them
    obtain ⟨sub, hresolve, hread, hskip, hnew⟩ := h [] name names rfl hnames
    refine ⟨sub, hresolve, hread, hskip, fun hlink => (hnew hlink).1, ?_⟩
    rintro front last rest rfl hrest
    obtain ⟨dir, hdir, hopen, hlast, hnew⟩ := h (name :: front) last rest rfl hrest
    refine ⟨dir, hdir, hopen, hlast, fun hlink => ?_⟩
    obtain ⟨htrail, hbefore⟩ := hnew hlink
    refine ⟨?_, fun before hle hne => ?_⟩
    · -- the directory entered first is one of those on the way
      have hfirst := hbefore [name] (List.prefix_append [name] front) (by simp)
      rintro (_ | ⟨_, hmem⟩)
      · exact hfirst hresolve
      · exact htrail hmem
    · exact hbefore (name :: before) ((List.prefix_cons_inj name).2 hle) (by simp)
  · intro hright
    obtain ⟨sub, hresolve, hread, hskip, hnew, hpass⟩ := hright
    intro front last rest heq hrest
    cases front with
    | nil =>
      cases heq
      refine ⟨sub, hresolve, hread, hskip, fun hlink => ⟨hnew hlink, fun before hle hne => ?_⟩⟩
      exact absurd (List.prefix_nil.1 hle) hne
    | cons first front =>
      obtain ⟨rfl, rfl⟩ := List.cons.inj heq
      obtain ⟨dir, hdir, hopen, hlast, hnew⟩ := hpass front last rest rfl hrest
      refine ⟨dir, hdir, hopen, hlast, fun hlink => ?_⟩
      obtain ⟨htrail, hbefore⟩ := hnew hlink
      refine ⟨fun hmem => htrail (List.mem_cons_of_mem _ hmem), fun before hle hne => ?_⟩
      -- a directory before it is the one entered first, or one that came after that
      cases before with
      | nil => exact absurd rfl hne
      | cons first' before =>
        obtain ⟨rfl, hle'⟩ := List.cons_prefix_cons.1 hle
        by_cases hnil : before = []
        · subst hnil
          intro heq
          have hsame : w.resolve (s.path.join ⟨first'⟩) = .ok (.present dir .directory) := heq
          rw [hresolve] at hsame
          cases hsame
          exact htrail (List.mem_cons_self ..)
        · exact hbefore before hle' hnil

theorem skips_eq_false_iff {name : String} {isDir : Bool} :
    filter.skips name isDir = false ↔
      name.toList.head? ≠ some '.' ∧ (isDir = true → name ∉ filter.skipDirs) := by
  cases isDir <;> simp [SearchFilter.skips]

/-- What can be walked to, told by paths. -/
theorem walked_iff (hw : w.tree.WellFormed) (h : w.Arrived s) {names : List OsText} :
    w.Walked filter s names ↔
      (∀ name ∈ names, Path.IsName name ∧ name.lossy.toList.head? ≠ some '.') ∧
        w.Passable filter s names ∧ w.isFile (s.path.along names) = true ∧
        ∃ front last, names = front ++ [last] ∧ Layout.isSource last.lossy = true := by
  -- induction on the names, from the state that each of them leads to
  induction names generalizing s with
  | nil =>
    refine iff_of_false (fun hwalked => nomatch hwalked) ?_
    rintro ⟨-, -, -, front, last, hnil, -⟩
    simp at hnil
  | cons name names ih =>
    cases names with
    | nil =>
      -- the only name is taken
      have htakes : w.Walked filter s [name] ↔ w.Takes filter s name := by
        constructor
        · intro hwalked
          cases hwalked with
          | take htakes => exact htakes
          | enter _ hnil => exact nomatch hnil
        · exact .take
      rw [htakes, takes_iff hw h, skips_eq_false_iff]
      constructor
      · intro hleft
        obtain ⟨hname, ⟨hvisible, -⟩, hsource, hfile⟩ := hleft
        refine ⟨fun n hn => ?_, passable_singleton, hfile, [], name, rfl, hsource⟩
        rw [List.mem_singleton.1 hn]
        exact ⟨hname, hvisible⟩
      · intro hright
        obtain ⟨hnames, -, hfile, front, last, hlast, hsource⟩ := hright
        obtain ⟨hname, hvisible⟩ := hnames name (by simp)
        obtain rfl : name = last := by
          cases front with
          | nil => exact (List.cons.inj hlast).1
          | cons _ front =>
            have hnil := (List.cons.inj hlast).2
            simp at hnil
        exact ⟨hname, ⟨hvisible, nofun⟩, hsource, hfile⟩
    | cons next names =>
      -- the first name is entered
      have henter : w.Walked filter s (name :: next :: names) ↔
          ∃ sub, w.Enters filter s name sub ∧
            w.Walked filter (s.enter name sub) (next :: names) := by
        constructor
        · intro hwalked
          cases hwalked with
          | enter henters hrest => exact ⟨_, henters, hrest⟩
        · intro hright
          obtain ⟨sub, henters, hrest⟩ := hright
          exact .enter henters hrest
      rw [henter, passable_cons_iff (by simp)]
      constructor
      · intro hleft
        obtain ⟨sub, henters, hwalked⟩ := hleft
        obtain ⟨hname, hskip, hresolve, hread, hnew⟩ := (enters_iff hw h).1 henters
        obtain ⟨hvisible, hkept⟩ := skips_eq_false_iff.1 hskip
        have harrived : w.Arrived (s.enter name sub) := hresolve
        obtain ⟨hnames, hpass, hfile, front, last, hlast, hsource⟩ := (ih harrived).1 hwalked
        refine ⟨fun n hn => ?_, ⟨sub, hresolve, hread, hkept rfl, hnew, hpass⟩, hfile,
          name :: front, last, by rw [hlast]; rfl, hsource⟩
        rcases List.mem_cons.1 hn with rfl | hn
        · exact ⟨hname, hvisible⟩
        · exact hnames n hn
      · intro hright
        obtain ⟨hnames, ⟨sub, hresolve, hread, hkept, hnew, hpass⟩, hfile, front, last, hlast,
          hsource⟩ := hright
        obtain ⟨hname, hvisible⟩ := hnames name (by simp)
        have harrived : w.Arrived (s.enter name sub) := hresolve
        refine ⟨sub, (enters_iff hw h).2
          ⟨hname, skips_eq_false_iff.2 ⟨hvisible, fun _ => hkept⟩, hresolve, hread, hnew⟩, ?_⟩
        refine (ih harrived).2 ⟨fun n hn => hnames n (List.mem_cons_of_mem _ hn), hpass, hfile, ?_⟩
        cases front with
        | nil =>
          have hnil := (List.cons.inj hlast).2
          simp at hnil
        | cons _ front => exact ⟨front, last, (List.cons.inj hlast).2, hsource⟩

/-! ## The sources that a search finds -/

/-- From a root, names lead to a source that a search has to find: none of them is shown as a hidden
    one; the root and those before the last one lead to directories that may be read, that are not
    left out and, where a link leads there, not to one that was already on the way; the last one
    leads to a file, and is shown as a stem, a dot and an extension. -/
structure LeadsToSource (w : World) (filter : SearchFilter) (root : Path)
    (names : List OsText) : Prop where
  named : ∀ name ∈ names, name ≠ .empty ∧ OsText.slashByte ∉ name.bytes
  visible : ∀ name ∈ names, name.lossy.toList.head? ≠ some '.'
  opened : ∀ dir, w.resolve root = .ok (.present dir .directory) → w.tree.isReadable dir = true
  passable : ∀ front name rest, names = front ++ name :: rest → rest ≠ [] →
    ∃ dir, w.resolve (root.along (front ++ [name])) = .ok (.present dir .directory) ∧
      w.tree.isReadable dir = true ∧ name.lossy ∉ filter.skipDirs ∧
      (w.isLink (root.along (front ++ [name])) = true →
        ∀ before, before <+: front → w.resolve (root.along before) ≠ .ok (.present dir .directory))
  file : w.isFile (root.along names) = true
  typed : ∃ front last stem ext, names = front ++ [last] ∧ last.lossy = stem ++ "." ++ ext ∧
    stem ≠ "" ∧ ext ∈ Layout.sourceExtensions

/-- A path leads to a directory of the tree, or to one that has been removed. -/
def leadsToDirectory (w : World) (p : Path) : Bool :=
  match w.resolve p with
  | .ok (.present _ .directory) => true
  | .ok .removed => true
  | _ => false

section Root

variable {root : Path} {names : List OsText}

/-- What is listed are the sources found, each by its names as they are shown. -/
theorem mem_sources_iff_findings {listed : String} :
    listed ∈ w.sources root filter ↔
      ∃ found, Finding.source found ∈ w.findings root filter ∧
        listed = "/".intercalate (found.map OsText.lossy) := by
  unfold sources
  rw [List.mem_filterMap]
  constructor
  · intro hleft
    obtain ⟨finding, hmem, hname⟩ := hleft
    -- what cannot be read is a finding, too, but no source
    cases finding with
    | source found => exact ⟨found, hmem, (Option.some.inj hname).symm⟩
    | broken found => exact nomatch hname
  · intro hright
    obtain ⟨found, hmem, hname⟩ := hright
    exact ⟨.source found, hmem, congrArg some hname.symm⟩

/-- A search whose root is a directory of the tree that may be read begins there. -/
theorem findings_of_directory {dir : Location}
    (hroot : w.resolve root = .ok (.present dir .directory)) (hread : w.tree.isReadable dir = true)
    (hinput : root.isSame ⟨"-"⟩ = false) :
    w.findings root filter = w.findingsFrom filter ⟨[dir], dir, root⟩ [] := by
  unfold findings findingsFrom
  rw [hinput, if_neg Bool.false_ne_true, hroot]
  dsimp only
  rw [if_pos hread]

/-- A locked directory is reported, and nothing is found in it. -/
theorem findings_of_locked {dir : Location}
    (hroot : w.resolve root = .ok (.present dir .directory))
    (hlocked : w.tree.isReadable dir = false) (hinput : root.isSame ⟨"-"⟩ = false) :
    w.findings root filter = [.broken []] := by
  unfold findings
  rw [hinput, if_neg Bool.false_ne_true, hroot]
  dsimp only
  rw [hlocked, if_neg Bool.false_ne_true]

/-- A search in a directory of the tree finds what can be walked to from there. -/
theorem mem_sources_iff_walked {dir : Location} {listed : String}
    (hroot : w.resolve root = .ok (.present dir .directory)) (hread : w.tree.isReadable dir = true)
    (hinput : root.isSame ⟨"-"⟩ = false) :
    listed ∈ w.sources root filter ↔
      ∃ names, w.Walked filter ⟨[dir], dir, root⟩ names ∧
        listed = "/".intercalate (names.map OsText.lossy) := by
  rw [mem_sources_iff_findings, findings_of_directory hroot hread hinput]
  -- the names after the root are all of them
  apply exists_congr
  intro names
  apply and_congr_left
  intro _
  rw [source_mem_findingsFrom_iff_walked]
  simp

/-- A path is reached if names along it lead to something. -/
theorem reaches_of_along {links : Nat} {dir : Location}
    (hnames : ∀ name ∈ names, Path.IsName name) (h : w.Reaches (root.along names) links dir) :
    ∃ links' dir', w.Reaches root links' dir' := by
  induction names generalizing root with
  | nil => exact ⟨links, dir, h⟩
  | cons name names ih =>
    obtain ⟨_, _, hfirst⟩ := ih (fun n hn => hnames n (List.mem_cons_of_mem _ hn)) h
    exact reaches_of_join (hnames name (List.mem_cons_self ..)) hfirst

/-- No names lead to a file from a directory that has been removed. -/
theorem isFile_along_of_removed (h : w.resolve root = .ok .removed) (hne : names ≠ [])
    (hnames : ∀ name ∈ names, Path.IsName name) : w.isFile (root.along names) = false := by
  rw [Bool.eq_false_iff]
  intro hfile
  -- the last name would be looked up in a directory reached from the root
  obtain ⟨front, last, rfl⟩ := (List.eq_nil_or_concat' names).resolve_left hne
  have hpath : root.along (front ++ [last]) = (root.along front).join ⟨last⟩ := by
    unfold Path.along
    rw [List.foldl_append]
    rfl
  obtain ⟨loc, bytes, executable, hresolve⟩ := isFile_eq_true_iff.1 hfile
  rw [hpath] at hresolve
  obtain ⟨-, -, links, dir, hreach, -⟩ := (resolve_join (hnames last (by simp))).1 hresolve
  obtain ⟨_, _, hroot⟩ := reaches_of_along (fun n hn => hnames n (by simp [hn])) hreach
  exact not_reaches_of_removed h hroot

end Root

namespace LeadsToSource

variable {root : Path} {names : List OsText}

/-- A directory can call an entry by any of the names, since they are visible. -/
theorem isName (h : w.LeadsToSource filter root names) : ∀ name ∈ names, Path.IsName name := by
  intro name hname
  obtain ⟨hne, hslash⟩ := h.named name hname
  have hvisible := h.visible name hname
  refine ⟨hne, ?_, ?_, hslash⟩
  · rintro rfl
    exact hvisible (by decide)
  · rintro rfl
    exact hvisible (by decide)

/-- A source is called by at least one name. -/
theorem ne_nil (h : w.LeadsToSource filter root names) : names ≠ [] := by
  obtain ⟨front, last, -, -, hnames, -⟩ := h.typed
  rw [hnames]
  simp

end LeadsToSource

/-- From a directory of the tree that may be read, names lead to a source exactly if a search can walk
    to it. -/
theorem walked_iff_leadsToSource {root : Path} {names : List OsText} {dir : Location}
    (hw : w.tree.WellFormed) (hroot : w.resolve root = .ok (.present dir .directory))
    (hread : w.tree.isReadable dir = true) :
    w.Walked filter ⟨[dir], dir, root⟩ names ↔ w.LeadsToSource filter root names := by
  have harrived : w.Arrived ⟨[dir], dir, root⟩ := hroot
  rw [walked_iff hw harrived]
  constructor
  · intro hleft
    obtain ⟨hproper, hpass, hfile, front, last, rfl, hsource⟩ := hleft
    obtain ⟨stem, ext, htext, hstem, hext⟩ :=
      (Path.isSource_iff (Path.isName_lossy (hproper last (by simp)).1)).1 hsource
    refine ⟨fun name hname => ?_, fun name hname => (hproper name hname).2, fun dir' hdir' => ?_, ?_,
      hfile, front, last, stem, ext, rfl, htext, hstem, hext⟩
    · obtain ⟨⟨hne, -, -, hslash⟩, -⟩ := hproper name hname
      exact ⟨hne, hslash⟩
    · rw [hroot] at hdir'
      cases hdir'
      exact hread
    intro front' name rest heq hrest
    obtain ⟨sub, hresolve, hopen, hkept, hnew⟩ := hpass front' name rest heq hrest
    refine ⟨sub, hresolve, hopen, hkept, fun hlink before hle => ?_⟩
    obtain ⟨htrail, hbefore⟩ := hnew hlink
    by_cases hnil : before = []
    · -- the root is the first directory on the way
      subst hnil
      intro heq
      have hsame : w.resolve root = .ok (.present sub .directory) := heq
      rw [hroot] at hsame
      cases hsame
      exact htrail (List.mem_singleton_self _)
    · exact hbefore before hle hnil
  · intro h
    obtain ⟨front, last, stem, ext, hnames, htext, hstem, hext⟩ := h.typed
    -- the way begins with the root alone, which the names before count as well
    refine ⟨fun name hname => ⟨h.isName name hname, h.visible name hname⟩, ?_, h.file,
      front, last, hnames, ?_⟩
    · intro front' name rest heq hrest
      obtain ⟨sub, hresolve, hopen, hkept, hnew⟩ := h.passable front' name rest heq hrest
      refine ⟨sub, hresolve, hopen, hkept, fun hlink =>
        ⟨?_, fun before hle _ => hnew hlink before hle⟩⟩
      intro hmem
      obtain rfl := List.mem_singleton.1 hmem
      exact hnew hlink [] (List.nil_prefix ..) hroot
    · have hmem : last ∈ names := by rw [hnames]; simp
      exact (Path.isSource_iff (Path.isName_lossy (h.isName last hmem))).2
        ⟨stem, ext, htext, hstem, hext⟩

/-- A search of a directory ends, and lists exactly the sources that names lead to from there, each
    by the names as they are shown. -/
theorem mem_sources_iff (w : World) (filter : SearchFilter) (root : Path)
    (hw : w.tree.WellFormed) (hroot : w.leadsToDirectory root = true)
    (hinput : root.isSame ⟨"-"⟩ = false) (listed : String) :
    WellFounded (w.Follows filter) ∧
      (listed ∈ w.sources root filter ↔
        ∃ names, w.LeadsToSource filter root names ∧
          listed = "/".intercalate (names.map OsText.lossy)) := by
  refine ⟨wellFounded_follows w filter, ?_⟩
  unfold leadsToDirectory at hroot
  split at hroot
  · rename_i dir hpresent
    by_cases hread : w.tree.isReadable dir = true
    · rw [mem_sources_iff_walked hpresent hread hinput]
      simp only [walked_iff_leadsToSource hw hpresent hread]
    · -- what is locked is not looked into
      rw [mem_sources_iff_findings,
        findings_of_locked hpresent (Bool.eq_false_iff.2 hread) hinput]
      exact iff_of_false (by simp) fun ⟨_, h, _⟩ => hread (h.opened dir hpresent)
  · -- a removed directory holds nothing, and nothing is found in it
    rename_i hremoved
    have hnone : w.findings root filter = [] := by
      unfold findings
      rw [hinput, if_neg Bool.false_ne_true, hremoved]
    rw [mem_sources_iff_findings, hnone]
    refine iff_of_false (fun ⟨_, hmem, _⟩ => nomatch hmem) ?_
    rintro ⟨names, h, -⟩
    have hfile := isFile_along_of_removed hremoved h.ne_nil h.isName
    rw [h.file] at hfile
    exact nomatch hfile
  · exact nomatch hroot

/-- A project whose library lies elsewhere, with links back to the project in both. -/
def linkedSources : World :=
  .inside (.ofEntries [(["p"], .directory), (["p", "a"], .directory),
    (["p", "a", "back"], .link ⟨".."⟩), (["p", "lib"], .link ⟨"../q"⟩), (["q"], .directory),
    (["q", "home"], .link ⟨"../p"⟩), (["q", "x.ts"], .file [] false)]) []

/-- The library's source is found by the link to it, but not once more behind a link back. -/
theorem mem_sources_linkedSources :
    "lib/x.ts" ∈ linkedSources.sources ⟨"p"⟩ .standard ∧
      "a/back/lib/x.ts" ∉ linkedSources.sources ⟨"p"⟩ .standard := by
  have hw : linkedSources.tree.WellFormed := by decide
  have hdir : linkedSources.leadsToDirectory ⟨"p"⟩ = true := by decide +kernel
  have hroot : linkedSources.resolve ⟨"p"⟩ = .ok (.present ["p"] .directory) := by decide +kernel
  have hiff := fun listed =>
    (mem_sources_iff linkedSources .standard ⟨"p"⟩ hw hdir (by decide) listed).2
  constructor
  · refine (hiff _).2 ⟨["lib", "x.ts"], ⟨by decide, by decide, fun _ _ => rfl, ?_, by decide +kernel,
      ["lib"], "x.ts", "x", "ts", rfl, by decide, by decide, by decide⟩, by decide⟩
    intro front name rest hnames hrest
    -- only the library is gone into
    have hfront : front = [] ∧ name = .ofString "lib" := by
      cases front with
      | nil => exact ⟨rfl, (List.cons.inj hnames).1.symm⟩
      | cons first front =>
        have hlen := congrArg List.length hnames
        have hpos := List.length_pos_iff.2 hrest
        simp only [List.length_cons, List.length_append, List.length_nil] at hlen
        omega
    obtain ⟨rfl, rfl⟩ := hfront
    refine ⟨["q"], by decide +kernel, rfl, by decide, fun _ before hle => ?_⟩
    rw [List.prefix_nil.1 hle]
    show linkedSources.resolve ⟨"p"⟩ ≠ _
    rw [hroot]
    decide
  · intro hmem
    obtain ⟨names, hleads, htext⟩ := (hiff _).1 hmem
    -- no other names are shown like this
    have hnames : names = ["a", "back", "lib", "x.ts"] :=
      OsText.eq_of_intercalate_lossy_eq hleads.named (by decide) (by decide) (by
        rw [← htext]
        decide)
    obtain ⟨dir, hresolve, -, -, hnew⟩ :=
      hleads.passable ["a"] "back" ["lib", "x.ts"] hnames (by simp)
    have hback : linkedSources.resolve (Path.along ⟨"p"⟩ ["a", "back"]) =
        .ok (.present ["p"] .directory) := by decide +kernel
    have hsame := hresolve.symm.trans hback
    cases hsame
    exact hnew (by decide +kernel) [] (List.nil_prefix ..) hroot

/-- A project with a source whose name is not UTF-8. -/
def rawProject : World :=
  .inside (.ofEntries [(["p"], .directory),
    (["p", ⟨[0x61, 0xFF, 0x2E, 0x74, 0x73]⟩], .file [] false)]) []

/-- The source is listed by a name that leads to no file. -/
theorem mem_sources_raw :
    rawProject.tree.WellFormed ∧ rawProject.leadsToDirectory ⟨"p"⟩ = true ∧
      ¬ ("a\ufffd.ts" ∈ rawProject.sources ⟨"p"⟩ .standard ↔
        rawProject.LeadsToSource .standard ⟨"p"⟩ ["a\ufffd.ts"]) := by
  refine ⟨by decide, by decide +kernel, fun hiff => ?_⟩
  have hroot : rawProject.resolve ⟨"p"⟩ = .ok (.present ["p"] .directory) := by decide +kernel
  have htakes : rawProject.Takes .standard ⟨[["p"]], ["p"], ⟨"p"⟩⟩
      ⟨[0x61, 0xFF, 0x2E, 0x74, 0x73]⟩ :=
    ⟨by decide, by decide, by decide +kernel, .file [] false, by decide, by decide⟩
  -- the walk goes by the bytes, and the list shows what they decode to
  have hmem : "a\ufffd.ts" ∈ rawProject.sources ⟨"p"⟩ .standard :=
    (mem_sources_iff_walked hroot rfl (by decide)).2 ⟨_, .take htakes, by decide⟩
  -- the text that is shown is another name, which has no entry
  have hfile := (hiff.1 hmem).file
  exact absurd hfile (by decide +kernel)

end World

end TypeLeak
