import Mathlib.Logic.Relation
import TypeLeak.Proofs.FoundSources

/-!
# How the root of a search is written

A search looks every name up by the path that was walked to it, and that path begins with the root
as it was given.  Where a name leads depends on the directory that the path reaches, and on the
spelling of the path only by the limits of the operating system: its length, and how many links are
left to follow.  So searches that start at one directory find the same, whatever path was taken to
it; nor does the name of that directory matter, or where it lies.

## Key results

- `WithinLimits`: what the limits must not do to a name that is looked up
- `resolve_eq_of_arrived`: a name leads to the same from every path to its directory
- `findingsFrom_eq_of_arrived`: so the same is found from there
- `sources_eq_of_same_directory`: the same sources and as many warnings for every path to a root
-/

namespace TypeLeak

namespace World

variable {w : World} {filter : SearchFilter} {s s' : SearchState} {name : OsText}

/-- The operating system does not refuse the path of a name for its length, nor for the links on
    it, unless no number of links would be enough. -/
structure WithinLimits (w : World) (s : SearchState) (name : OsText) : Prop where
  short : (s.path.join ⟨name⟩).isTooLong = false
  followed : w.resolve (s.path.join ⟨name⟩) = .error .tooManyLinks →
    ∀ links, w.tree.walk .reading links s.dir [.enter name] = .error .tooManyLinks

/-- Wherever a search comes to, the names that it looks up are within the limits. -/
def Unhindered (w : World) (filter : SearchFilter) (s : SearchState) : Prop :=
  ∀ later, Relation.ReflTransGen (fun before after => w.Follows filter after before) s later →
    ∀ name, w.LooksUp filter later name → w.WithinLimits later name

/-- A search that is not hindered stays so in the directories that it enters. -/
theorem Unhindered.enter (h : w.Unhindered filter s) {sub : Location}
    (henters : w.Enters filter s name sub) : w.Unhindered filter (s.enter name sub) :=
  fun later hlater => h later (.head ⟨name, sub, henters, rfl⟩ hlater)

/-- A search is unhindered if it is in its directory and after each of its steps. -/
theorem unhindered_iff : w.Unhindered filter s ↔
    (∀ name, w.LooksUp filter s name → w.WithinLimits s name) ∧
      ∀ name sub, w.Enters filter s name sub → w.Unhindered filter (s.enter name sub) := by
  constructor
  · intro h
    exact ⟨h s .refl, fun name sub henters => h.enter henters⟩
  · intro hright later hlater
    obtain ⟨hhere, henter⟩ := hright
    rcases hlater.cases_head with rfl | ⟨next, ⟨name, sub, henters, rfl⟩, hrest⟩
    · exact hhere
    · exact henter name sub henters later hrest

/-- What a name leads to on one path to its directory, it leads to on another one. -/
private theorem resolve_of_arrived (hs : w.Arrived s) (hs' : w.Arrived s') (hdir : s'.dir = s.dir)
    (hname : Path.IsName name) (hlimits : w.WithinLimits s' name) {found : Target}
    (h : w.resolve (s.path.join ⟨name⟩) = .ok found) :
    w.resolve (s'.path.join ⟨name⟩) = .ok found := by
  obtain ⟨-, -, ⟨links, hreach⟩, -⟩ := resolve_eq_directory_iff.1 hs
  obtain ⟨-, hnul, hwalk⟩ := (resolve_join_iff_of_reaches hname hreach).1 h
  obtain ⟨-, -, ⟨links', hreach'⟩, -⟩ := resolve_eq_directory_iff.1 hs'
  rw [hdir] at hreach'
  have hresolve := resolve_join_of_reaches hname hlimits.short hnul hreach'
  rw [hresolve]
  -- the two paths leave different numbers of links, neither of which is used up
  have hfound : w.tree.walk .reading links s.dir [.enter name] ≠ .error .tooManyLinks := by
    rw [hwalk]
    exact nofun
  have hfound' : w.tree.walk .reading links' s.dir [.enter name] ≠ .error .tooManyLinks := by
    intro hmany
    rw [hmany] at hresolve
    have hnever := hlimits.followed hresolve links
    rw [hdir] at hnever
    exact hfound hnever
  rcases Nat.le_total links links' with hle | hle
  · rw [FileTree.walk_of_more_links hle hfound, hwalk]
  · rw [← FileTree.walk_of_more_links hle hfound', hwalk]

/-- A name leads to the same from every path to its directory. -/
theorem resolve_eq_of_arrived (hs : w.Arrived s) (hs' : w.Arrived s') (hdir : s'.dir = s.dir)
    (hname : Path.IsName name) (hlimits : w.WithinLimits s name)
    (hlimits' : w.WithinLimits s' name) {found : Target} :
    w.resolve (s'.path.join ⟨name⟩) = .ok found ↔ w.resolve (s.path.join ⟨name⟩) = .ok found :=
  ⟨resolve_of_arrived hs' hs hdir.symm hname hlimits, resolve_of_arrived hs hs' hdir hname hlimits'⟩

/-- Searches that came to a directory by different paths find the same from there. -/
theorem findingsFrom_eq_of_arrived (hw : w.tree.WellFormed) (hs : w.Arrived s)
    (hs' : w.Arrived s') (hdir : s'.dir = s.dir) (htrail : s'.trail = s.trail)
    (hfree : w.Unhindered filter s) (hfree' : w.Unhindered filter s') (names : List OsText) :
    w.findingsFrom filter s' names = w.findingsFrom filter s names := by
  -- induction on the directories that are still going to be entered
  induction s using (wellFounded_follows w filter).induction generalizing s' names with
  | _ s ih =>
    obtain ⟨hlimits, henter⟩ := unhindered_iff.1 hfree
    obtain ⟨hlimits', henter'⟩ := unhindered_iff.1 hfree'
    -- what is done with a name depends on what is found by it, which no spelling changes
    have hchoice : ∀ name, w.choice filter s' name = w.choice filter s name := by
      intro name
      refine choice_congr hw hdir htrail (fun _ => rfl) rfl fun hlooks loc e => ?_
      have hlooks' : w.LooksUp filter s' name := by
        unfold LooksUp
        rwa [hdir]
      have ⟨entry, hget, _⟩ := hlooks
      have hname : Path.IsName name := (Location.isProper_concat.1 (hw.isProper_of_get? hget)).2
      exact resolve_eq_of_arrived hs hs' hdir hname (hlimits name hlooks) (hlimits' name hlooks')
    rw [findingsFrom_eq, findingsFrom_eq, hdir]
    congr 1
    funext name
    rw [findingsBy_eq_choice, findingsBy_eq_choice, hchoice name]
    cases hsub : w.choice filter s name with
    | leave => rfl
    | report found => rfl
    | enter sub =>
      have henters : w.Enters filter s name sub := enters_of_choice hsub
      have henters' : w.Enters filter s' name sub := enters_of_choice ((hchoice name).trans hsub)
      -- both go on from the directory that the name leads to
      have harrived : w.Arrived (s.enter name sub) := ((enters_iff hw hs).1 henters).2.2.1
      have harrived' : w.Arrived (s'.enter name sub) := ((enters_iff hw hs').1 henters').2.2.1
      exact ih _ ⟨name, sub, henters, rfl⟩ harrived harrived' rfl
        (congrArg (sub :: ·) htrail) (henter name sub henters) (henter' name sub henters') _

/-- A search finds the same sources and reports as many broken entries for every path to a
    directory, unless the limits of the operating system come in. -/
theorem sources_eq_of_same_directory (w : World) (filter : SearchFilter) (root root' : Path)
    (hw : w.tree.WellFormed) (hroot : w.leadsToDirectory root = true)
    (hsame : w.resolve root' = w.resolve root) (hinput : root.isSame ⟨"-"⟩ = false)
    (hinput' : root'.isSame ⟨"-"⟩ = false)
    (hfree : ∀ dir, w.resolve root = .ok (.present dir .directory) →
      w.Unhindered filter ⟨[dir], dir, root⟩ ∧ w.Unhindered filter ⟨[dir], dir, root'⟩) :
    w.sources root' filter = w.sources root filter ∧
      w.warnings root' filter = w.warnings root filter := by
  have hfindings : w.findings root' filter = w.findings root filter := by
    unfold leadsToDirectory at hroot
    split at hroot
    · rename_i dir hpresent
      obtain ⟨hfree, hfree'⟩ := hfree dir hpresent
      have harrived : w.Arrived ⟨[dir], dir, root⟩ := hpresent
      have harrived' : w.Arrived ⟨[dir], dir, root'⟩ := hsame.trans hpresent
      -- a locked directory is reported by either path
      by_cases hread : w.tree.isReadable dir = true
      · rw [findings_of_directory hpresent hread hinput,
          findings_of_directory harrived' hread hinput']
        exact findingsFrom_eq_of_arrived hw harrived harrived' rfl rfl hfree hfree' []
      · have hlocked : w.tree.isReadable dir = false := Bool.eq_false_iff.2 hread
        rw [findings_of_locked hpresent hlocked hinput,
          findings_of_locked harrived' hlocked hinput']
    · -- nothing is found in a removed directory
      rename_i hremoved
      unfold findings
      rw [hinput, hinput', hsame, hremoved]
    · exact nomatch hroot
  unfold sources warnings
  rw [hfindings]
  exact ⟨rfl, rfl⟩

/-- A hidden directory in one that searches leave out, with a link to itself in it and another link
    to it from elsewhere. -/
def hiddenRoot : World :=
  .inside (.ofEntries [(["dist"], .directory), (["dist", ".work"], .directory),
    (["dist", ".work", "a.ts"], .file [] false), (["dist", ".work", "b"], .link ⟨"b"⟩),
    (["near"], .link ⟨"dist/.work/"⟩)]) ["dist"]

/-- What stands in the hidden directory. -/
private theorem name_in_hiddenRoot {name : OsText} {e : Entry}
    (h : hiddenRoot.tree.get? ((["dist", ".work"] : Location) ++ [name]) = some e) :
    (name = .ofString "a.ts" ∧ e = .file [] false) ∨ (name = .ofString "b" ∧ e = .link ⟨"b"⟩) := by
  have hmem := FileTree.mem_entries_of_get? h (by simp)
  simpa [hiddenRoot, inside, FileTree.ofEntries] using hmem

/-- The link to itself would not lead anywhere with more links. -/
private theorem unhindered_hiddenRoot {root : Path}
    (hroot : root = ⟨".work"⟩ ∨ root = ⟨"/near/..//.work/"⟩) :
    hiddenRoot.Unhindered .standard ⟨[["dist", ".work"]], ["dist", ".work"], root⟩ := by
  -- the link leads to itself, so more links do not help
  have hself : ∀ links, hiddenRoot.tree.walk .reading links ["dist", ".work"] [.enter "b"] =
      .error .tooManyLinks := by
    intro links
    induction links with
    | zero => decide +kernel
    | succ links ih => exact ih
  have hshort : (root.join ⟨"a.ts"⟩).isTooLong = false ∧ (root.join ⟨"b"⟩).isTooLong = false := by
    rcases hroot with rfl | rfl <;> decide
  have hfile : hiddenRoot.resolve (root.join ⟨"a.ts"⟩) ≠ .error .tooManyLinks := by
    rcases hroot with rfl | rfl <;> decide +kernel
  have hlink : hiddenRoot.resolve (root.join ⟨"b"⟩) = .error .tooManyLinks := by
    rcases hroot with rfl | rfl <;> decide +kernel
  refine unhindered_iff.2 ⟨fun name hlooks => ?_, fun name sub henters => ?_⟩
  · obtain ⟨e, hget, -⟩ := hlooks
    rcases name_in_hiddenRoot hget with ⟨rfl, -⟩ | ⟨rfl, -⟩
    · exact ⟨hshort.1, fun hmany => absurd hmany hfile⟩
    · exact ⟨hshort.2, fun _ => hself⟩
  · -- nothing in it is entered
    obtain ⟨-, -, ⟨hget, -, -⟩ | ⟨target, hget, hresolve, -⟩⟩ := henters
    · rcases name_in_hiddenRoot hget with ⟨-, he⟩ | ⟨-, he⟩ <;> exact nomatch he
    · rcases name_in_hiddenRoot hget with ⟨-, he⟩ | ⟨rfl, -⟩
      · exact nomatch he
      · exact nomatch hlink.symm.trans hresolve

/-- Neither its name nor its place matters, nor the way that leads there. -/
theorem sources_eq_of_same_directory_hidden :
    hiddenRoot.leadsToDirectory ⟨".work"⟩ = true ∧
      hiddenRoot.resolve ⟨"/near/..//.work/"⟩ = hiddenRoot.resolve ⟨".work"⟩ ∧
      hiddenRoot.sources ⟨"/near/..//.work/"⟩ .standard = hiddenRoot.sources ⟨".work"⟩ .standard ∧
      hiddenRoot.warnings ⟨"/near/..//.work/"⟩ .standard =
        hiddenRoot.warnings ⟨".work"⟩ .standard := by
  have hdir : hiddenRoot.leadsToDirectory ⟨".work"⟩ = true := by decide +kernel
  have hsame : hiddenRoot.resolve ⟨"/near/..//.work/"⟩ = hiddenRoot.resolve ⟨".work"⟩ := by
    decide +kernel
  have hroot : hiddenRoot.resolve ⟨".work"⟩ = .ok (.present ["dist", ".work"] .directory) := by
    decide +kernel
  refine ⟨hdir, hsame, sources_eq_of_same_directory hiddenRoot .standard ⟨".work"⟩
    ⟨"/near/..//.work/"⟩ (by decide) hdir hsame (by decide) (by decide) fun dir hpresent => ?_⟩
  -- the directory is the one that was computed
  cases hroot.symm.trans hpresent
  exact ⟨unhindered_hiddenRoot (.inl rfl), unhindered_hiddenRoot (.inr rfl)⟩

end World

end TypeLeak
