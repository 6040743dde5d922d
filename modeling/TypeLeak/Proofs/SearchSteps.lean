import TypeLeak.SourceSearch
import TypeLeak.Proofs.WellFormedTree

/-!
# The steps of a search

A search is in a directory, at the end of a path that was walked to it, and knows the directories on
the way.  From there it takes sources, and enters further directories.  No search goes on for ever: a
link that is entered leads to a directory that is not yet on the way, and between links the search
only goes down.

## Key results

- `mem_names_iff`: the names in a directory are those of its entries
- `choice_congr`: what the search does with a name is settled by where the name leads
- `source_mem_findingsFrom_iff`: what a search finds is a source of its directory or found further on
- `remaining_enter_lt`: less is left to a search that enters a directory
- `wellFounded_follows`: no sequence of directories entered one from the other is endless
-/

namespace TypeLeak

namespace FileTree

/-- A name in a directory tells the location of its entry. -/
theorem eq_concat_of_name {loc dir : Location} {name : OsText}
    (h : Location.nameIn dir loc = some name) : loc = dir ++ [name] := by
  unfold Location.nameIn at h
  split at h
  · rename_i last hlast
    split at h
    · rename_i hdir
      cases h
      rw [← hdir, List.dropLast_append_getLast? name hlast]
    · exact nomatch h
  · exact nomatch h

/-- The names in a directory are those of its entries. -/
theorem mem_names_iff {t : FileTree} {dir : Location} {name : OsText} :
    name ∈ t.names dir ↔ ∃ e, t.get? (dir ++ [name]) = some e := by
  have hne : dir ++ [name] ≠ [] := by simp
  unfold names
  rw [List.mem_mergeSort, List.mem_filterMap]
  constructor
  · intro hleft
    obtain ⟨⟨loc, e⟩, hmem, hname⟩ := hleft
    obtain rfl := eq_concat_of_name hname
    -- a name that is listed has an entry, so its location has one too
    cases hget : t.get? (dir ++ [name]) with
    | some e' => exact ⟨e', rfl⟩
    | none =>
      simp only [get?, hne, if_false, List.lookup_eq_none_iff] at hget
      exact absurd (hget _ hmem) (by simp)
  · intro hright
    obtain ⟨e, hget⟩ := hright
    refine ⟨(dir ++ [name], e), mem_entries_of_get? hget hne, ?_⟩
    simp [Location.nameIn]

end FileTree

/-- Where a search is. -/
structure SearchState where
  /-- the directories on the way, with this one -/
  trail : List Location
  dir : Location
  /-- the path that was walked to the directory -/
  path : Path

namespace SearchState

/-- Where a search is after it has gone into a directory by a name. -/
def enter (s : SearchState) (name : OsText) (sub : Location) : SearchState :=
  ⟨sub :: s.trail, sub, s.path.join ⟨name⟩⟩

end SearchState

/-- What a search can do with a name. -/
inductive SearchChoice where
  | leave
  /-- what is found there has the names on the way to it -/
  | report (found : List OsText → Finding)
  | enter (sub : Location)

namespace World

variable {w : World} {filter : SearchFilter} {s : SearchState}

/-- A search goes from its directory into another one by a name. -/
def Enters (w : World) (filter : SearchFilter) (s : SearchState) (name : OsText)
    (sub : Location) : Prop :=
  filter.skips name.lossy true = false ∧ w.tree.isReadable sub = true ∧
    ((w.tree.get? (s.dir ++ [name]) = some .directory ∧
        w.exists? (s.path.join ⟨name⟩) = true ∧ sub = s.dir ++ [name]) ∨
      ∃ target, w.tree.get? (s.dir ++ [name]) = some (.link target) ∧
        w.resolve (s.path.join ⟨name⟩) = .ok (.present sub .directory) ∧ sub ∉ s.trail)

/-- A search takes a source from its directory by a name. -/
def Takes (w : World) (filter : SearchFilter) (s : SearchState) (name : OsText) : Prop :=
  filter.skips name.lossy false = false ∧ Layout.isSource name.lossy = true ∧
    w.isFile (s.path.join ⟨name⟩) = true ∧
    ∃ e, w.tree.get? (s.dir ++ [name]) = some e ∧ e ≠ .directory

/-- A search looks a name up if it does not leave it out, and that of a link always. -/
def LooksUp (w : World) (filter : SearchFilter) (s : SearchState) (name : OsText) : Prop :=
  ∃ e, w.tree.get? (s.dir ++ [name]) = some e ∧
    (filter.skips name.lossy (e == .directory) = false ∨ ∃ target, e = .link target)

/-- What is found from a state on, `names` after the root. -/
def findingsFrom (w : World) (filter : SearchFilter) (s : SearchState) (names : List OsText) :
    List Finding :=
  w.findingsIn filter s.trail s.dir s.path names

/-- What is found by one name in the directory of a state. -/
def findingsBy (w : World) (filter : SearchFilter) (s : SearchState) (names : List OsText)
    (name : OsText) : List Finding :=
  match w.tree.get? (s.dir ++ [name]) with
  | none => []
  | some .directory =>
    if filter.skips name.lossy true then []
    else if !w.exists? (s.path.join ⟨name⟩) || !w.tree.isReadable (s.dir ++ [name]) then
      [.broken (names ++ [name])]
    else w.findingsFrom filter (s.enter name (s.dir ++ [name])) (names ++ [name])
  | some (.file ..) =>
    if filter.skips name.lossy false || !Layout.isSource name.lossy ||
        !w.isFile (s.path.join ⟨name⟩) then
      []
    else [.source (names ++ [name])]
  | some (.link _) =>
    match w.resolve (s.path.join ⟨name⟩) with
    | .ok (.present loc .directory) =>
      if s.trail.contains loc ∨ ¬ w.tree.isReadable loc then [.broken (names ++ [name])]
      else if filter.skips name.lossy true then []
      else w.findingsFrom filter (s.enter name loc) (names ++ [name])
    | .ok (.present _ (.file ..)) =>
      if filter.skips name.lossy false || !Layout.isSource name.lossy then []
      else [.source (names ++ [name])]
    | _ => [.broken (names ++ [name])]

/-- A search goes through its directory name by name. -/
theorem findingsFrom_eq (names : List OsText) :
    w.findingsFrom filter s names =
      (w.tree.names s.dir).flatMap (w.findingsBy filter s names) := by
  unfold findingsFrom
  rw [findingsIn]
  congr 1
  funext name
  -- entry by entry the two are the same, but for how a link's target is written
  unfold findingsBy
  split
  · rename_i hentry
    rw [hentry]
  · rename_i hentry
    rw [hentry]
    rfl
  · rename_i hentry
    rw [hentry]
  · rename_i hentry
    rw [hentry]
    dsimp only
    unfold resolve
    split
    · rename_i htarget
      rw [htarget]
      simp only [List.contains_iff_mem]
      rfl
    · rename_i htarget
      rw [htarget]
    · rename_i hother hother'
      split
      · rename_i htarget
        exact absurd htarget (hother _)
      · rename_i htarget
        exact absurd htarget (hother' _ _ _)
      · rfl

/-- Of one name, a search makes a source that it takes, or what is found in a directory that it
    enters. -/
theorem source_mem_findingsBy_iff {names found : List OsText} {name : OsText} :
    Finding.source found ∈ w.findingsBy filter s names name ↔
      (w.Takes filter s name ∧ found = names ++ [name]) ∨
        ∃ sub, w.Enters filter s name sub ∧
          Finding.source found ∈ w.findingsFrom filter (s.enter name sub) (names ++ [name]) := by
  unfold findingsBy Takes Enters
  cases hentry : w.tree.get? (s.dir ++ [name]) with
  | none => simp
  | some e =>
    cases e with
    | directory =>
      -- only a directory that is not left out, can be looked up and is not locked is entered
      cases hskip : filter.skips name.lossy true <;>
        cases hexists : w.exists? (s.path.join ⟨name⟩) <;>
        cases hread : w.tree.isReadable (s.dir ++ [name]) <;>
        simp [hread]
    | file bytes executable =>
      -- a file is taken if it is visible, is called like a source and can be looked up
      cases filter.skips name.lossy false <;> cases Layout.isSource name.lossy <;>
        cases w.isFile (s.path.join ⟨name⟩) <;> simp
    | link target =>
      -- what a link leads to is settled by its path
      cases hresolve : w.resolve (s.path.join ⟨name⟩) with
      | error cause => simp [isFile, hresolve]
      | ok target =>
        cases target with
        | vacant loc => simp [isFile, hresolve]
        | removed => simp [isFile, hresolve]
        | present loc e =>
          cases e with
          | link target => simp [isFile, hresolve]
          | file bytes executable =>
            cases filter.skips name.lossy false <;> cases Layout.isSource name.lossy <;>
              simp [isFile, hresolve]
          | directory =>
            by_cases hnew : loc ∈ s.trail
            · simp [isFile, hresolve, hnew]
            · cases hread : w.tree.isReadable loc <;> cases filter.skips name.lossy true <;>
                simp [isFile, hresolve, hnew, hread]

/-- What a search does with a name of its directory. -/
def choice (w : World) (filter : SearchFilter) (s : SearchState) (name : OsText) : SearchChoice :=
  match w.tree.get? (s.dir ++ [name]) with
  | none => .leave
  | some .directory =>
    if filter.skips name.lossy true then .leave
    else if !w.exists? (s.path.join ⟨name⟩) || !w.tree.isReadable (s.dir ++ [name]) then
      .report .broken
    else .enter (s.dir ++ [name])
  | some (.file ..) =>
    if filter.skips name.lossy false || !Layout.isSource name.lossy ||
        !w.isFile (s.path.join ⟨name⟩) then
      .leave
    else .report .source
  | some (.link _) =>
    match w.resolve (s.path.join ⟨name⟩) with
    | .ok (.present loc .directory) =>
      if s.trail.contains loc ∨ ¬ w.tree.isReadable loc then .report .broken
      else if filter.skips name.lossy true then .leave
      else .enter loc
    | .ok (.present _ (.file ..)) =>
      if filter.skips name.lossy false || !Layout.isSource name.lossy then .leave else .report .source
    | _ => .report .broken

/-- What is found by a name follows from what a search does with it. -/
theorem findingsBy_eq_choice (names : List OsText) (name : OsText) :
    w.findingsBy filter s names name =
      match w.choice filter s name with
      | .leave => []
      | .report found => [found (names ++ [name])]
      | .enter sub => w.findingsFrom filter (s.enter name sub) (names ++ [name]) := by
  -- both go by the entry, and then by the same questions
  unfold findingsBy choice
  split
  · rfl
  · split
    · rfl
    · split <;> rfl
  · split <;> rfl
  · split
    · split
      · rfl
      · split <;> rfl
    · split <;> rfl
    · rfl

/-- A directory that a search chooses to enter is entered. -/
theorem enters_of_choice {name : OsText} {sub : Location} (h : w.choice filter s name = .enter sub) :
    w.Enters filter s name sub := by
  -- of all the cases two enter: a directory, and a link to one that is new on the way
  unfold choice at h
  split at h
  · exact nomatch h
  · rename_i hentry
    split at h
    · exact nomatch h
    rename_i hskip
    split at h
    · exact nomatch h
    rename_i hleft
    cases h
    simp only [Bool.or_eq_true, Bool.not_eq_true', not_or, Bool.not_eq_false] at hleft
    obtain ⟨hexists, hread⟩ := hleft
    exact ⟨by simpa using hskip, hread, .inl ⟨hentry, hexists, rfl⟩⟩
  · split at h <;> exact nomatch h
  · rename_i target hentry
    split at h
    · rename_i loc hresolve
      split at h
      · exact nomatch h
      rename_i hleft
      obtain ⟨hnew, hread⟩ := not_or.1 hleft
      split at h
      · exact nomatch h
      rename_i hskip
      cases h
      exact ⟨by simpa using hskip, not_not.1 hread,
        .inr ⟨target, hentry, hresolve, by simpa using hnew⟩⟩
    · split at h <;> exact nomatch h
    · exact nomatch h

/-- What a search does with a name depends on the directories on the way, on what stands there, on
    what may be read and, if the name is looked up, on where its path leads. -/
theorem choice_congr {w' : World} {s' : SearchState} {name : OsText} (hw : w.tree.WellFormed)
    (hdir : s'.dir = s.dir) (htrail : s'.trail = s.trail)
    (hread : ∀ loc, w'.tree.isReadable loc = w.tree.isReadable loc)
    (hentry : w'.tree.get? (s.dir ++ [name]) = w.tree.get? (s.dir ++ [name]))
    (hfound : w.LooksUp filter s name → ∀ loc e,
      w'.resolve (s'.path.join ⟨name⟩) = .ok (.present loc e) ↔
        w.resolve (s.path.join ⟨name⟩) = .ok (.present loc e)) :
    w'.choice filter s' name = w.choice filter s name := by
  unfold choice
  simp only [hdir, htrail, hentry, hread]
  cases hget : w.tree.get? (s.dir ++ [name]) with
  | none => rfl
  | some e =>
    have hname : Path.IsName name := (Location.isProper_concat.1 (hw.isProper_of_get? hget)).2
    cases e with
    | directory =>
      cases hskip : filter.skips name.lossy true with
      | true => simp only [if_true]
      | false =>
        have hsame := hfound ⟨_, hget, .inl hskip⟩
        have hexists : w'.exists? (s'.path.join ⟨name⟩) = w.exists? (s.path.join ⟨name⟩) := by
          rw [Bool.eq_iff_iff, exists?_join_iff hname, exists?_join_iff hname]
          simp only [hsame]
        simp only [hexists]
    | file bytes executable =>
      cases hskip : filter.skips name.lossy false with
      | true => simp only [Bool.true_or, if_true]
      | false =>
        have hsame := hfound ⟨_, hget, .inl hskip⟩
        have hfile : w'.isFile (s'.path.join ⟨name⟩) = w.isFile (s.path.join ⟨name⟩) := by
          rw [Bool.eq_iff_iff, isFile_eq_true_iff, isFile_eq_true_iff]
          simp only [hsame]
        simp only [hfile]
    | link target =>
      have hsame := hfound ⟨_, hget, .inr ⟨target, rfl⟩⟩
      dsimp only
      by_cases hpresent : ∃ loc e, w.resolve (s.path.join ⟨name⟩) = .ok (.present loc e)
      · obtain ⟨loc, e, hpresent⟩ := hpresent
        rw [hpresent, (hsame loc e).2 hpresent]
      · -- both links lead to nothing
        have hpresent' : ∀ loc e, w'.resolve (s'.path.join ⟨name⟩) ≠ .ok (.present loc e) :=
          fun loc e h => hpresent ⟨loc, e, (hsame loc e).1 h⟩
        split
        · rename_i h
          exact absurd h (hpresent' _ _)
        · rename_i h
          exact absurd h (hpresent' _ _)
        · split
          · rename_i h
            exact absurd ⟨_, _, h⟩ hpresent
          · rename_i h
            exact absurd ⟨_, _, h⟩ hpresent
          · rfl

/-- What a search finds is a source of its directory, or found from a directory that it enters. -/
theorem source_mem_findingsFrom_iff {names found : List OsText} :
    Finding.source found ∈ w.findingsFrom filter s names ↔
      ∃ name, (w.Takes filter s name ∧ found = names ++ [name]) ∨
        ∃ sub, w.Enters filter s name sub ∧
          Finding.source found ∈ w.findingsFrom filter (s.enter name sub) (names ++ [name]) := by
  rw [findingsFrom_eq, List.mem_flatMap]
  simp only [source_mem_findingsBy_iff]
  apply exists_congr
  intro name
  apply and_iff_right_of_imp
  intro hname
  -- a name that is taken or entered is one of the directory
  rw [FileTree.mem_names_iff]
  rcases hname with ⟨⟨-, -, -, e, hentry, -⟩, -⟩ | ⟨sub, ⟨-, -, hsub⟩, -⟩
  · exact ⟨e, hentry⟩
  · rcases hsub with ⟨hentry, -, -⟩ | ⟨target, hentry, -, -⟩
    · exact ⟨_, hentry⟩
    · exact ⟨_, hentry⟩

/-- How many entries a search reports as broken. -/
def warnings (w : World) (root : Path) (filter : SearchFilter) : Nat :=
  (w.findings root filter).countP Finding.isBroken

/-! ## The search ends -/

/-- One state of a search comes from another by entering a directory. -/
def Follows (w : World) (filter : SearchFilter) (next s : SearchState) : Prop :=
  ∃ name sub, w.Enters filter s name sub ∧ next = s.enter name sub

/-- What is left to a search: the directories that are off the way, and how far down the tree goes
    on from its own. -/
def remaining (w : World) (s : SearchState) : Nat × Nat :=
  (w.tree.unvisited s.trail, w.tree.height - s.dir.length)

/-- Less is left to a search that enters a directory. -/
theorem remaining_enter_lt {name : OsText} {sub : Location} (h : w.Enters filter s name sub) :
    Prod.Lex (· < ·) (· < ·) (w.remaining (s.enter name sub)) (w.remaining s) := by
  obtain ⟨-, -, ⟨hentry, -, rfl⟩ | ⟨target, -, hresolve, hnew⟩⟩ := h
  · -- a name leads further down, and does not put a directory back off the way
    have hlen : (s.dir ++ [name]).length ≤ w.tree.height :=
      FileTree.length_le_height hentry (by simp)
    have hle : w.tree.unvisited ((s.dir ++ [name]) :: s.trail) ≤ w.tree.unvisited s.trail :=
      w.tree.unvisited_cons_le (s.dir ++ [name]) s.trail
    have hdown : w.tree.height - (s.dir ++ [name]).length < w.tree.height - s.dir.length := by
      rw [List.length_append, List.length_singleton] at hlen ⊢
      omega
    rcases Nat.lt_or_eq_of_le hle with hlt | heq
    · exact Prod.Lex.left _ _ hlt
    · show Prod.Lex _ _ (w.tree.unvisited ((s.dir ++ [name]) :: s.trail), _) _
      rw [heq]
      exact Prod.Lex.right _ hdown
  · -- a link that is followed puts a further directory on the way
    have hdir : w.tree.get? sub = some .directory := FileTree.get?_of_resolve hresolve
    have hlt : w.tree.unvisited (sub :: s.trail) < w.tree.unvisited s.trail :=
      w.tree.unvisited_cons_lt (FileTree.mem_directories hdir) hnew
    exact Prod.Lex.left _ _ hlt

/-- No sequence of directories entered one from the other is endless. -/
theorem wellFounded_follows (w : World) (filter : SearchFilter) :
    WellFounded (w.Follows filter) := by
  have hwf : WellFounded (InvImage (Prod.Lex (· < ·) (· < ·)) w.remaining) :=
    InvImage.wf w.remaining Prod.instWellFoundedRelation.wf
  refine Subrelation.wf (fun {next s} hfollows => ?_) hwf
  obtain ⟨name, sub, henters, rfl⟩ := hfollows
  exact remaining_enter_lt henters

end World

end TypeLeak
