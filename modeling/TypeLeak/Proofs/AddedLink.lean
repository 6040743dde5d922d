import TypeLeak.Proofs.FoundSources

/-!
# Links that lead a search nowhere new

A link is put at a free name.  It is *isolated* from a root if its target is missing or its own
place, or if its target is a directory on the way from the root to it; in the second case no other
link below the root may lead to a directory, and none at all have a target that passes through the
name, so that nothing else comes to lead further than before.  A search reports an isolated link
wherever it walks the directory of the link, goes on with the next name, and finds the same as
without it.

## Key results

- `walk_withLink_iff`: other names lead to the same as without the link
- `names_withLink`: the directory of the link has one name more, and the others have the same
- `choice_withLink_of_ne`, `choice_withLink_self`: what the search does with other names, and with
  that of the link
- `moreBroken_findingsFrom`: what is found from a directory with and without the link
- `sources_withLink`: the same sources, and one broken entry more for each walk of the directory
-/

namespace TypeLeak

namespace FileTree

variable {t : FileTree}

/-! ## A link at a free name -/

/-- The tree with a link at a name of a directory. -/
def withLink (t : FileTree) (dir : Location) (name : OsText) (target : Path) : FileTree :=
  t.insert (dir ++ [name]) (.link target)

section WithLink

variable {dir : Location} {name : OsText} {target : Path}

/-- The link stands at its name. -/
theorem get?_withLink_self :
    (t.withLink dir name target).get? (dir ++ [name]) = some (.link target) := by
  unfold withLink
  rw [get?_insert, if_neg (by simp), if_pos rfl]

/-- Everything else stands where it was. -/
theorem get?_withLink_of_ne {loc : Location} (h : loc ≠ dir ++ [name]) :
    (t.withLink dir name target).get? loc = t.get? loc := get?_insert_of_ne h _

variable (hfree : t.get? (dir ++ [name]) = none)

include hfree

/-- What was there before does not stand at the name of the link. -/
theorem ne_of_get? {loc : Location} {e : Entry} (hget : t.get? loc = some e) :
    loc ≠ dir ++ [name] := by
  rintro rfl
  rw [hfree] at hget
  exact nomatch hget

/-- All ways through the tree lead through it with the link. -/
theorem waysIn_withLink : t.WaysIn (t.withLink dir name target) :=
  waysIn_insert _ fun e he => by rw [hfree] at he; exact nomatch he

/-- The directories are the same. -/
theorem isDirectory_withLink (loc : Location) :
    (t.withLink dir name target).isDirectory loc = t.isDirectory loc := by
  unfold isDirectory
  by_cases heq : loc = dir ++ [name]
  · subst heq
    rw [get?_withLink_self, hfree]
    rfl
  · rw [get?_withLink_of_ne heq]

/-- A well-formed tree stays one with the link. -/
theorem WellFormed.withLink (h : t.WellFormed) (hdir : t.isDirectory dir = true)
    (hname : Path.IsName name) : (t.withLink dir name target).WellFormed := by
  refine h.insert _ ?_ ?_ ?_
  · exact Location.isProper_concat.2 ⟨h.isProper_of_get? (isDirectory_iff.1 hdir), hname⟩
  · rwa [List.dropLast_concat]
  · simp [isDirectory, hfree]

/-- The names of a directory are those it had and that of the link; other directories keep their
    names. -/
theorem names_withLink :
    (∃ before after, t.names dir = before ++ after ∧
      (t.withLink dir name target).names dir = before ++ name :: after) ∧
      ∀ dir', dir' ≠ dir → (t.withLink dir name target).names dir' = t.names dir' := by
  -- nothing stood at the name, so putting the link there takes nothing away
  have hkept : (t.erase (dir ++ [name])).entries = t.entries := by
    refine List.filter_eq_self.2 fun entry hentry => ?_
    simp only [get?, List.append_ne_nil_of_right_ne_nil _ (List.cons_ne_nil _ _), if_false,
      List.lookup_eq_none_iff] at hfree
    rw [bne_comm]
    exact hfree entry hentry
  unfold names withLink insert
  rw [hkept]
  constructor
  · have hin : Location.nameIn dir (dir ++ [name]) = some name := by simp [Location.nameIn]
    simp only [List.filterMap_cons, hin]
    -- the names are sorted, and one that is added gets its place among the others
    have htrans : ∀ a b c : OsText, decide (a ≤ b) = true → decide (b ≤ c) = true →
        decide (a ≤ c) = true := fun a b c hab hbc =>
      decide_eq_true (List.le_trans (of_decide_eq_true hab) (of_decide_eq_true hbc))
    have htotal : ∀ a b : OsText, (decide (a ≤ b) || decide (b ≤ a)) = true := fun a b => by
      have hle : a ≤ b ∨ b ≤ a := List.le_total a.bytes b.bytes
      simpa using hle
    obtain ⟨before, after, hwith, hwithout, -⟩ := List.mergeSort_cons htrans htotal name _
    exact ⟨before, after, hwithout, hwith⟩
  · intro dir' hne
    have hout : Location.nameIn dir' (dir ++ [name]) = none := by simp [Location.nameIn, hne.symm]
    simp only [List.filterMap_cons, hout]

end WithLink

/-! ## Walks with and without a link -/

/-- What is behind a name in a directory, as far as links are followed at all. -/
def behind (t : FileTree) (dir : Location) (name : OsText) : Except OsError Target :=
  t.walk .reading maxLinks dir [.enter name]

/-- From `start`, steps pass through a name in a directory. -/
def PassesThrough (t : FileTree) (start : Location) (steps : List Step) (dir : Location)
    (name : OsText) : Prop :=
  ∃ front rest links, steps = front ++ .enter name :: rest ∧ t.Leads maxLinks start front links dir

/-- No link below `root` leads to a directory. -/
def LinksToNoDirectory (t : FileTree) (root : Location) : Prop :=
  ∀ dir name target sub, root <+: dir → t.get? (dir ++ [name]) = some (.link target) →
    t.behind dir name ≠ .ok (.present sub .directory)

/-- What is walked before the last steps is a directory. -/
theorem WellFormed.walk_front (h : t.WellFormed) {links : Nat} {dir : Location}
    {steps rest : List Step} {found : Target} (hdir : t.isDirectory dir = true) (hrest : rest ≠ [])
    (hwalk : t.walk .reading links dir (steps ++ rest) = .ok found) :
    ∃ sub, t.walk .reading links dir steps = .ok (.present sub .directory) := by
  obtain ⟨links', sub, hleads⟩ := leads_of_walk hwalk fun hnil => absurd hnil hrest
  exact ⟨sub, walk_eq_directory_iff.2 ⟨⟨links', hleads⟩, h.isDirectory_of_leads hleads hdir⟩⟩

/-- What is found once with the links that are left is found with all links. -/
theorem walk_of_le {links more : Nat} {dir : Location} {steps : List Step} {found : Target}
    (hle : links ≤ more) (h : t.walk .reading links dir steps = .ok found) :
    t.walk .reading more dir steps = .ok found := by
  rw [walk_of_more_links hle (by rw [h]; exact nofun), h]

section Insert

variable {dir : Location} {name : OsText} {target : Path}

/-- A link at a free name, and what it could lead to. -/
inductive IsolatedLink (t : FileTree) (root dir : Location) (name : OsText) (target : Path) : Prop
  /-- Its target is missing, or its own place, where nothing was before. -/
  | astray : (∀ loc e, t.walk .reading maxLinks (linkStart dir target) target.steps ≠
      .ok (.present loc e)) → IsolatedLink t root dir name target
  /-- Its target is on the way from the root to it, and nothing leads further because of it. -/
  | back {loc : Location} :
      t.walk .reading maxLinks (linkStart dir target) target.steps = .ok (.present loc .directory) →
      root <+: loc → loc <+: dir → t.LinksToNoDirectory root →
      (∀ dir' name' target', t.get? (dir' ++ [name']) = some (.link target') →
        ¬ t.PassesThrough (linkStart dir' target') target'.steps dir name) →
      IsolatedLink t root dir name target

variable (hfree : t.get? (dir ++ [name]) = none)

include hfree

/-- What a walk finds, it finds with the link as well. -/
theorem walk_withLink_of_walk {links : Nat} {start : Location} {steps : List Step} {loc : Location}
    {e : Entry} (h : t.walk .reading links start steps = .ok (.present loc e)) :
    (t.withLink dir name target).walk .reading links start steps = .ok (.present loc e) := by
  -- nothing stood where the link is, so no way is lost
  have hways : t.WaysIn (t.withLink dir name target) := waysIn_withLink hfree
  -- a directory is led to; a file stands at the end of the steps
  rcases finds_of_walk h with ⟨sub, hsub⟩ | ⟨dir', name', hends, hfound⟩
  · cases hsub
    obtain ⟨⟨links', hleads⟩, hdir⟩ := walk_eq_directory_iff.1 h
    exact walk_eq_directory_iff.2 ⟨⟨links', hleads.mono hways⟩, hways.isDirectory hdir⟩
  · rcases hfound with ⟨hvacant, -⟩ | ⟨bytes, executable, hfile, hget⟩
    · exact nomatch hvacant
    · cases hfile
      refine walk_of_ends (hends.mono hways) ?_
      rw [get?_withLink_of_ne (ne_of_get? hfree hget), hget]

/-- What a walk finds with the link, it finds without it, if nothing is found behind the link. -/
theorem walk_of_walk_withLink {links : Nat} (hw : (t.withLink dir name target).WellFormed)
    (hdir : t.isDirectory dir = true)
    (hnever : ∀ fewer, fewer ≤ links → ∀ loc e,
      (t.withLink dir name target).walk .reading fewer dir [.enter name] ≠ .ok (.present loc e))
    {start : Location} {steps : List Step} {loc : Location} {e : Entry}
    (h : (t.withLink dir name target).walk .reading links start steps = .ok (.present loc e)) :
    t.walk .reading links start steps = .ok (.present loc e) := by
  -- induction on the links that are left, and inside it on the steps
  induction links using Nat.strong_induction_on generalizing start steps with
  | _ links followed =>
    induction steps generalizing start with
    | nil => rwa [walk_nil, isDirectory_withLink hfree, ← walk_nil] at h
    | cons step steps ih =>
      cases step with
      | slash =>
        rw [walk_slash] at h ⊢
        exact ih h
      | stay =>
        rw [walk_stay] at h ⊢
        exact ih h
      | up =>
        rw [walk_up] at h ⊢
        exact ih h
      | enter name' =>
        by_cases hloc : start ++ [name'] = dir ++ [name]
        · -- the link would lead to what is found, or to a directory on the way to it
          obtain ⟨rfl, hlast⟩ := List.append_inj' hloc rfl
          cases hlast
          by_cases hnil : steps = []
          · rw [hnil] at h
            exact absurd h (hnever links (Nat.le_refl _) loc e)
          · have hdir' : (t.withLink start name target).isDirectory start = true := by
              rwa [isDirectory_withLink hfree]
            have hfront : (t.withLink start name target).walk .reading links start
                ([.enter name] ++ steps) = .ok (.present loc e) := h
            obtain ⟨sub, hsub⟩ := hw.walk_front hdir' hnil hfront
            exact absurd hsub (hnever links (Nat.le_refl _) sub .directory)
        · rw [walk_enter, if_neg (by simp)] at h ⊢
          split at h
          · exact nomatch h
          rename_i hsize
          rw [get?_withLink_of_ne hloc] at h
          rw [if_neg hsize]
          cases hget : t.get? (start ++ [name']) with
          | none => rwa [hget] at h
          | some entry =>
            rw [hget] at h
            cases entry with
            | directory => exact ih h
            | file bytes executable => exact h
            | link target' =>
              cases links with
              | zero => exact nomatch h
              | succ fewer =>
                refine followed fewer (Nat.lt_succ_self _) (fun k hk => ?_) h
                exact hnever k (Nat.le_succ_of_le hk)

/-- A link whose target leads nowhere without it leads nowhere. -/
theorem walk_withLink_ne_of_astray (hw : t.WellFormed) (hdir : t.isDirectory dir = true)
    (hname : Path.IsName name)
    (hastray : ∀ loc e, t.walk .reading maxLinks (linkStart dir target) target.steps ≠
      .ok (.present loc e)) {links : Nat} (hle : links ≤ maxLinks) (loc : Location) (e : Entry) :
    (t.withLink dir name target).walk .reading links dir [.enter name] ≠ .ok (.present loc e) := by
  -- on the links allowed: following this one costs one of them
  induction links using Nat.strong_induction_on generalizing loc e with
  | _ links ih =>
    intro h
    rw [walk_enter, if_neg (by simp), get?_withLink_self] at h
    split at h
    · exact nomatch h
    cases links with
    | zero => exact nomatch h
    | succ fewer =>
      -- the target is walked with fewer links, so that nothing is found behind the link on the way
      have hfewer : fewer ≤ maxLinks := Nat.le_of_succ_le hle
      have hnever : ∀ k, k ≤ fewer → ∀ loc e, (t.withLink dir name target).walk .reading k dir
          [.enter name] ≠ .ok (.present loc e) := fun k hk =>
        ih k (Nat.lt_succ_of_le hk) (hk.trans hfewer)
      have htarget : (t.withLink dir name target).walk .reading fewer (linkStart dir target)
          target.steps = .ok (.present loc e) := by
        simpa using h
      exact hastray loc e (walk_of_le hfewer
        (walk_of_walk_withLink hfree (hw.withLink hfree hdir hname) hdir hnever htarget))

/-- What is found with the link along steps that do not pass through it is found without it, if the
    links on the way lead to the same without it. -/
private theorem walk_of_not_passesThrough (hw : (t.withLink dir name target).WellFormed)
    {links : Nat} (hfollow : ∀ fewer, fewer ≤ links → ∀ dir' name' target' loc e,
      t.get? (dir' ++ [name']) = some (.link target') →
      (t.withLink dir name target).walk .reading fewer dir' [.enter name'] = .ok (.present loc e) →
      t.walk .reading fewer dir' [.enter name'] = .ok (.present loc e))
    {begin start : Location} {front rest : List Step} {left : Nat} {loc : Location} {e : Entry}
    (hle : links ≤ left) (hpass : ¬ t.PassesThrough begin (front ++ rest) dir name)
    (hleads : t.Leads maxLinks begin front left start)
    (h : (t.withLink dir name target).walk .reading links start rest = .ok (.present loc e)) :
    t.walk .reading links start rest = .ok (.present loc e) := by
  -- induction on the steps ahead; those behind lead to `start` and leave at least as many links
  induction rest generalizing links front left start with
  | nil => rwa [walk_nil, isDirectory_withLink hfree, ← walk_nil] at h
  | cons step rest ih =>
    have hpass' : ¬ t.PassesThrough begin ((front ++ [step]) ++ rest) dir name := by
      rwa [List.append_assoc, List.singleton_append]
    cases step with
    | slash =>
      rw [walk_slash] at h ⊢
      exact ih hfollow hle hpass' (Leads.append_iff.2 ⟨_, _, hleads, .slash .here⟩) h
    | stay =>
      rw [walk_stay] at h ⊢
      exact ih hfollow hle hpass' (Leads.append_iff.2 ⟨_, _, hleads, .stay .here⟩) h
    | up =>
      rw [walk_up] at h ⊢
      exact ih hfollow hle hpass' (Leads.append_iff.2 ⟨_, _, hleads, .up .here⟩) h
    | enter next =>
      -- it is the front of the steps that would pass through the link
      have hloc : start ++ [next] ≠ dir ++ [name] := by
        intro hloc
        obtain ⟨rfl, hlast⟩ := List.append_inj' hloc rfl
        cases hlast
        exact hpass ⟨front, rest, left, rfl, hleads⟩
      have hsame : (t.withLink dir name target).get? (start ++ [next]) = t.get? (start ++ [next]) :=
        get?_withLink_of_ne hloc
      cases hget : t.get? (start ++ [next]) with
      | none =>
        rw [walk_enter, hsame, hget] at h
        rwa [walk_enter, hget]
      | some entry =>
        cases entry with
        | directory =>
          rw [walk_enter, if_neg (by simp), hsame, hget] at h
          rw [walk_enter, if_neg (by simp), hget]
          split at h
          · exact nomatch h
          rename_i hsize
          rw [if_neg hsize]
          exact ih hfollow hle hpass' (Leads.append_iff.2
            ⟨_, _, hleads, .enter (Nat.not_lt.1 hsize) hget .here⟩) h
        | file bytes executable =>
          rw [walk_enter, hsame, hget] at h
          rwa [walk_enter, hget]
        | link target' =>
          by_cases hnil : rest = []
          · rw [hnil] at h ⊢
            exact hfollow links (Nat.le_refl _) _ _ _ _ _ hget h
          · -- a link on the way leads to the same directory, and the walk goes on from there
            have hstart : (t.withLink dir name target).isDirectory start = true := by
              have hdir := hw.isDirectory_dropLast (hsame.trans hget)
              rwa [List.dropLast_concat] at hdir
            have hfront : (t.withLink dir name target).walk .reading links start
                ([.enter next] ++ rest) = .ok (.present loc e) := h
            obtain ⟨links', sub, hwith⟩ := leads_of_walk hfront fun hrest => absurd hrest hnil
            obtain ⟨⟨fewer, hwithout⟩, -⟩ := walk_eq_directory_iff.1
              (hfollow links (Nat.le_refl _) _ _ _ _ _ hget (walk_eq_directory_iff.2
                ⟨⟨links', hwith⟩, hw.isDirectory_of_leads hwith hstart⟩))
            obtain ⟨rfl, -⟩ := (hwithout.mono (waysIn_withLink hfree)).unique hwith
            rw [walk_append hwith (.inl rfl)] at hfront
            rw [← List.singleton_append, walk_append hwithout (.inl rfl)]
            have hmore := hwithout.more (left - links)
            rw [Nat.add_sub_cancel' hle] at hmore
            exact ih (fun k hk => hfollow k (hk.trans hwithout.links_le)) (Nat.le_add_right _ _)
              hpass' (Leads.append_iff.2 ⟨_, _, hleads, hmore⟩) hfront

/-- What is found behind another link with this one is found without it, if no link's target passes
    through this one. -/
theorem walk_link_of_walk_withLink (hw : (t.withLink dir name target).WellFormed)
    (hpass : ∀ dir' name' target', t.get? (dir' ++ [name']) = some (.link target') →
      ¬ t.PassesThrough (linkStart dir' target') target'.steps dir name)
    {links : Nat} (hle : links ≤ maxLinks) {dir' : Location} {name' : OsText} {target' : Path}
    {loc : Location} {e : Entry} (hlink : t.get? (dir' ++ [name']) = some (.link target'))
    (h : (t.withLink dir name target).walk .reading links dir' [.enter name'] =
      .ok (.present loc e)) :
    t.walk .reading links dir' [.enter name'] = .ok (.present loc e) := by
  -- a link is followed with fewer links left than there were, and so are those on its way
  induction links using Nat.strong_induction_on generalizing dir' name' target' loc e with
  | _ links ih =>
    rw [walk_enter, if_neg (by simp), get?_withLink_of_ne (ne_of_get? hfree hlink), hlink] at h
    rw [walk_enter, if_neg (by simp), hlink]
    split at h
    · exact nomatch h
    rename_i hsize
    rw [if_neg hsize]
    cases links with
    | zero => exact nomatch h
    | succ links =>
      simp only [List.append_nil] at h ⊢
      have hle' : links ≤ maxLinks := Nat.le_of_succ_le hle
      have hpass' : ¬ t.PassesThrough (linkStart dir' target') ([] ++ target'.steps) dir name :=
        hpass _ _ _ hlink
      exact walk_of_not_passesThrough hfree hw
        (fun fewer hfewer _ _ _ _ _ hget =>
          ih fewer (Nat.lt_succ_of_le hfewer) (hfewer.trans hle') hget)
        hle' hpass' .here h

/-- Every other name of a directory leads to the same with an isolated link as without it. -/
theorem walk_withLink_iff (hw : t.WellFormed) (hdir : t.isDirectory dir = true)
    (hname : Path.IsName name) {root : Location} (hlink : t.IsolatedLink root dir name target)
    {dir' : Location} {name' : OsText} (hne : dir' ++ [name'] ≠ dir ++ [name]) {links : Nat}
    (hle : links ≤ maxLinks) {loc : Location} {e : Entry} :
    (t.withLink dir name target).walk .reading links dir' [.enter name'] = .ok (.present loc e) ↔
      t.walk .reading links dir' [.enter name'] = .ok (.present loc e) := by
  have hw' : (t.withLink dir name target).WellFormed := hw.withLink hfree hdir hname
  refine ⟨fun h => ?_, walk_withLink_of_walk hfree⟩
  cases hlink with
  | astray hastray =>
    refine walk_of_walk_withLink hfree hw' hdir (fun fewer hfewer => ?_) h
    exact walk_withLink_ne_of_astray hfree hw hdir hname hastray (hfewer.trans hle)
  | back _ _ _ _ hpass =>
    -- only a link looks further than the name
    cases hget : t.get? (dir' ++ [name']) with
    | none =>
      rw [walk_enter, get?_withLink_of_ne hne, hget] at h
      rwa [walk_enter, hget]
    | some entry =>
      cases entry with
      | directory =>
        rw [walk_enter, get?_withLink_of_ne hne, hget] at h
        rw [walk_enter, hget]
        simp only [walk_nil, isDirectory_withLink hfree] at h ⊢
        exact h
      | file bytes executable =>
        rw [walk_enter, get?_withLink_of_ne hne, hget] at h
        rwa [walk_enter, hget]
      | link target' => exact walk_link_of_walk_withLink hfree hw' hpass hle hget h

/-- What is found behind an isolated link is a directory on the way to it. -/
theorem of_walk_withLink (hw : t.WellFormed) (hdir : t.isDirectory dir = true)
    (hname : Path.IsName name) {root : Location} (hlink : t.IsolatedLink root dir name target)
    {links : Nat} (hle : links ≤ maxLinks) {loc : Location} {e : Entry}
    (h : (t.withLink dir name target).walk .reading links dir [.enter name] =
      .ok (.present loc e)) :
    e = .directory ∧ root <+: loc ∧ loc <+: dir ∧ t.LinksToNoDirectory root := by
  cases hlink with
  | astray hastray =>
    exact absurd h (walk_withLink_ne_of_astray hfree hw hdir hname hastray hle loc e)
  -- what the target leads to is known, and a walk comes to one end only
  | back hback hroot hloc hlinks _ =>
    rw [walk_enter, if_neg (by simp), get?_withLink_self] at h
    split at h
    · exact nomatch h
    cases links with
    | zero => exact nomatch h
    | succ links =>
      simp only [List.append_nil] at h
      have hfound := walk_of_le (Nat.le_of_succ_le hle) h
      rw [walk_withLink_of_walk hfree hback] at hfound
      cases hfound
      exact ⟨rfl, hroot, hloc, hlinks⟩

end Insert

end FileTree

/-! ## A search with the link -/

/-- Findings with more broken entries among them and the same sources. -/
structure MoreBroken (more : Nat) (found found' : List Finding) : Prop where
  sources : found'.filterMap Finding.source? = found.filterMap Finding.source?
  broken : found'.countP Finding.isBroken = found.countP Finding.isBroken + more

namespace MoreBroken

/-- The same findings have no more broken entries. -/
theorem refl (found : List Finding) : MoreBroken 0 found found := ⟨rfl, rfl⟩

/-- A broken entry that was not there. -/
theorem one (names : List OsText) : MoreBroken 1 [] [.broken names] := ⟨rfl, rfl⟩

/-- More broken entries in two parts are added up. -/
theorem append {more₁ more₂ : Nat} {found₁ found₁' found₂ found₂' : List Finding}
    (h₁ : MoreBroken more₁ found₁ found₁') (h₂ : MoreBroken more₂ found₂ found₂') :
    MoreBroken (more₁ + more₂) (found₁ ++ found₂) (found₁' ++ found₂') where
  sources := by rw [List.filterMap_append, List.filterMap_append, h₁.sources, h₂.sources]
  broken := by
    rw [List.countP_append, List.countP_append, h₁.broken, h₂.broken]
    omega

/-- The broken entries that come from each of the names are added up. -/
theorem flatMap {names : List OsText} {found found' : OsText → List Finding}
    {walked : OsText → List Location} {dir : Location}
    (h : ∀ name ∈ names, MoreBroken ((walked name).count dir) (found name) (found' name)) :
    MoreBroken ((names.flatMap walked).count dir) (names.flatMap found) (names.flatMap found') := by
  induction names with
  | nil => exact refl []
  | cons name names ih =>
    simp only [List.flatMap_cons, List.count_append]
    exact (h name (by simp)).append (ih fun n hn => h n (by simp [hn]))

end MoreBroken

namespace World

variable {w : World} {filter : SearchFilter} {s : SearchState}

/-- The directories that a search walks from a state on, as often as it does. -/
def walkedFrom (w : World) (filter : SearchFilter) (s : SearchState) : List Location :=
  s.dir :: (w.tree.names s.dir).flatMap fun name =>
    match _hchoice : w.choice filter s name with
    | .enter sub => w.walkedFrom filter (s.enter name sub)
    | _ => []
termination_by w.remaining s
decreasing_by exact remaining_enter_lt (enters_of_choice _hchoice)

/-- The directories that are walked from where a name leads. -/
def walkedBy (w : World) (filter : SearchFilter) (s : SearchState) (name : OsText) :
    List Location :=
  match w.choice filter s name with
  | .enter sub => w.walkedFrom filter (s.enter name sub)
  | _ => []

/-- A directory that is walked comes first, and then those that are walked from its names. -/
theorem walkedFrom_eq : w.walkedFrom filter s =
    s.dir :: (w.tree.names s.dir).flatMap (w.walkedBy filter s) := by
  rw [walkedFrom]
  congr 2
  funext name
  unfold walkedBy
  -- the recursion needs to know the choice, and the equation does not
  split
  · rename_i hchoice
    rw [hchoice]
  · rename_i hchoice
    split
    · rename_i hchoice'
      exact absurd hchoice' (hchoice _)
    · rfl

/-- The directories that a search walks, in their order. -/
def directoriesWalked (w : World) (root : Path) (filter : SearchFilter) : List Location :=
  if root.isSame ⟨"-"⟩ then []
  else
    match w.resolve root with
    | .ok (.present loc .directory) =>
      if w.tree.isReadable loc then w.walkedFrom filter ⟨[loc], loc, root⟩ else []
    | _ => []

/-- The file system with a link at a name of a directory. -/
def withLink (w : World) (dir : Location) (name : OsText) (target : Path) : World :=
  { w with tree := w.tree.withLink dir name target }

/-- The directory of a state is below `root`, and all those from there down to it are on the way. -/
def OnWay (root : Location) (s : SearchState) : Prop :=
  root <+: s.dir ∧ ∀ loc, root <+: loc → loc <+: s.dir → loc ∈ s.trail

section WithLink

variable {dir root : Location} {name : OsText} {target : Path}

/-- If no link below the root leads to a directory, a search only goes down. -/
theorem onWay_enter (hw : w.tree.WellFormed) (hlinks : w.tree.LinksToNoDirectory root)
    (h : w.Arrived s) (hway : OnWay root s) {next : OsText} {sub : Location}
    (henters : w.Enters filter s next sub) : OnWay root (s.enter next sub) := by
  -- a directory is entered by its own name or by a link, and there is no such link
  obtain ⟨-, -, ⟨-, -, rfl⟩ | ⟨target, hget, hresolve, -⟩⟩ := henters
  · refine ⟨hway.1.trans (List.prefix_append _ _), fun loc hroot hloc => ?_⟩
    rcases List.prefix_concat_iff.1 hloc with rfl | hloc
    · exact List.mem_cons_self
    · exact List.mem_cons_of_mem _ (hway.2 loc hroot hloc)
  · -- such a link would be one below the root that leads to a directory
    have hnext : Path.IsName next := (Location.isProper_concat.1 (hw.isProper_of_get? hget)).2
    obtain ⟨-, -, ⟨links, hreach⟩, -⟩ := resolve_eq_directory_iff.1 h
    obtain ⟨-, -, hwalk⟩ := (resolve_join_iff_of_reaches hnext hreach).1 hresolve
    exact absurd (FileTree.walk_of_le hreach.links_le hwalk) (hlinks _ _ _ _ hway.1 hget)

variable (hw : w.tree.WellFormed) (hdir : w.tree.isDirectory dir = true) (hname : Path.IsName name)
  (hfree : w.tree.get? (dir ++ [name]) = none) (hlink : w.tree.IsolatedLink root dir name target)

include hfree

/-- A path reaches the same directory with the link. -/
theorem reaches_withLink {p : Path} {links : Nat} {loc : Location} (h : w.Reaches p links loc) :
    (w.withLink dir name target).Reaches p links loc :=
  h.mono rfl (FileTree.waysIn_withLink hfree)

/-- A search that has arrived somewhere has done so with the link too. -/
theorem arrived_withLink (h : w.Arrived s) : (w.withLink dir name target).Arrived s := by
  -- a directory that was reached is reached by the same way
  have hways : w.tree.WaysIn (w.withLink dir name target).tree := FileTree.waysIn_withLink hfree
  obtain ⟨hne, hshort, ⟨links, hreach⟩, hdir⟩ := resolve_eq_directory_iff.1 h
  exact resolve_eq_directory_iff.2
    ⟨hne, hshort, ⟨links, reaches_withLink hfree hreach⟩, hways.isDirectory hdir⟩

include hw hdir hname hlink

/-- A search does the same with every other name. -/
theorem choice_withLink_of_ne (h : w.Arrived s) {next : OsText}
    (hne : s.dir ++ [next] ≠ dir ++ [name]) :
    (w.withLink dir name target).choice filter s next = w.choice filter s next := by
  refine choice_congr hw rfl rfl (fun _ => rfl) (FileTree.get?_withLink_of_ne hne)
    fun hlooks loc e => ?_
  obtain ⟨entry, hget, -⟩ := hlooks
  have hnext : Path.IsName next := (Location.isProper_concat.1 (hw.isProper_of_get? hget)).2
  obtain ⟨-, -, ⟨links, hreach⟩, -⟩ := resolve_eq_directory_iff.1 h
  have hreach' : (w.withLink dir name target).Reaches s.path links s.dir :=
    reaches_withLink hfree hreach
  -- the name is looked up in the same directory, and leads to the same
  rw [resolve_join_iff_of_reaches hnext hreach, resolve_join_iff_of_reaches hnext hreach']
  exact and_congr_right fun _ => and_congr_right fun _ =>
    FileTree.walk_withLink_iff hfree hw hdir hname hlink hne hreach.links_le

/-- It reports the link. -/
theorem choice_withLink_self (h : w.Arrived s) (hs : s.dir = dir)
    (hway : w.tree.LinksToNoDirectory root → OnWay root s) :
    (w.withLink dir name target).choice filter s name = .report .broken := by
  -- whatever is behind the link is a directory on the way
  have hback : ∀ loc e, (w.withLink dir name target).resolve (s.path.join ⟨name⟩) =
      .ok (.present loc e) → e = .directory ∧ loc ∈ s.trail := by
    intro loc e hresolve
    obtain ⟨-, -, ⟨links, hreach⟩, -⟩ := resolve_eq_directory_iff.1 h
    have hreach' : (w.withLink dir name target).Reaches s.path links s.dir :=
      reaches_withLink hfree hreach
    obtain ⟨-, -, hwalk⟩ := (resolve_join_iff_of_reaches hname hreach').1 hresolve
    rw [hs] at hwalk
    obtain ⟨he, hroot, hloc, hlinks⟩ :=
      FileTree.of_walk_withLink hfree hw hdir hname hlink hreach.links_le hwalk
    rw [← hs] at hloc
    exact ⟨he, (hway hlinks).2 loc hroot hloc⟩
  have hentry : (w.withLink dir name target).tree.get? (s.dir ++ [name]) = some (.link target) := by
    rw [hs]
    exact FileTree.get?_withLink_self
  unfold choice
  rw [hentry]
  dsimp only
  split
  · rename_i hresolve
    rw [if_pos (.inl (List.contains_iff_mem.2 (hback _ _ hresolve).2))]
  · rename_i hresolve
    exact nomatch (hback _ _ hresolve).1
  · rfl

/-- With the link, a search finds the same from a state on, and reports the link once for each time
    that it walks its directory. -/
theorem moreBroken_findingsFrom (h : w.Arrived s)
    (hway : w.tree.LinksToNoDirectory root → OnWay root s) (names : List OsText) :
    MoreBroken ((w.walkedFrom filter s).count dir) (w.findingsFrom filter s names)
      ((w.withLink dir name target).findingsFrom filter s names) := by
  -- induction on the directories that are still going to be entered
  induction s using (wellFounded_follows w filter).induction generalizing names with
  | _ s ih =>
    have hby : ∀ next, s.dir ++ [next] ≠ dir ++ [name] →
        MoreBroken ((w.walkedBy filter s next).count dir) (w.findingsBy filter s names next)
          ((w.withLink dir name target).findingsBy filter s names next) := by
      intro next hne
      rw [findingsBy_eq_choice, findingsBy_eq_choice, walkedBy,
        choice_withLink_of_ne hw hdir hname hfree hlink h hne]
      cases hchoice : w.choice filter s next with
      | leave => exact .refl _
      | report found => exact .refl _
      | enter sub =>
        have henters : w.Enters filter s next sub := enters_of_choice hchoice
        have harrived : w.Arrived (s.enter next sub) := ((enters_iff hw h).1 henters).2.2.1
        exact ih _ ⟨next, sub, henters, rfl⟩ harrived
          (fun hlinks => onWay_enter hw hlinks h (hway hlinks) henters) _
    rw [findingsFrom_eq, findingsFrom_eq, walkedFrom_eq]
    -- only in the directory of the link there is one name more
    by_cases hs : s.dir = dir
    · obtain ⟨before, after, hnames, hnames'⟩ := (FileTree.names_withLink hfree).1
      have hnames' : (w.withLink dir name target).tree.names dir = before ++ name :: after :=
        hnames'
      have hself : (w.withLink dir name target).findingsBy filter s names name =
          [.broken (names ++ [name])] := by
        rw [findingsBy_eq_choice, choice_withLink_self hw hdir hname hfree hlink h hs hway]
      have hold : ∀ next ∈ before ++ after, MoreBroken ((w.walkedBy filter s next).count dir)
          (w.findingsBy filter s names next)
          ((w.withLink dir name target).findingsBy filter s names next) := by
        intro next hnext
        rw [← hnames] at hnext
        obtain ⟨e, hget⟩ := FileTree.mem_names_iff.1 hnext
        rw [← hs] at hget
        exact hby next (FileTree.ne_of_get? hfree hget)
      -- the link stands between the names that come before and after it
      have hbefore := MoreBroken.flatMap fun next hnext => hold next (List.mem_append_left _ hnext)
      have hafter := MoreBroken.flatMap fun next hnext => hold next (List.mem_append_right _ hnext)
      have hall := hbefore.append ((MoreBroken.one (names ++ [name])).append hafter)
      rw [hs, hnames, hnames', List.count_cons_self, List.flatMap_append, List.flatMap_append,
        List.flatMap_append, List.flatMap_cons, hself, List.count_append, Nat.add_assoc,
        Nat.add_comm (List.count dir (after.flatMap _)) 1]
      exact hall
    · have hnames : (w.withLink dir name target).tree.names s.dir = w.tree.names s.dir :=
        (FileTree.names_withLink hfree).2 s.dir hs
      rw [hnames, List.count_cons_of_ne hs]
      exact .flatMap fun next _ => hby next fun heq => hs (List.append_inj' heq rfl).1

end WithLink

/-- A link that is put at a free name, and is missing its target, leads to itself or leads back to
    a directory on the way, does not change what sources a search finds.  It is reported once each
    time that the search walks the directory of the link. -/
theorem sources_withLink (w : World) (filter : SearchFilter) (root : Path) {top dir : Location}
    {name : OsText} {target : Path} (hw : w.tree.WellFormed)
    (hroot : w.resolve root = .ok (.present top .directory))
    (hdir : w.tree.isDirectory dir = true) (hname : Path.IsName name)
    (hfree : w.tree.get? (dir ++ [name]) = none)
    (hlink : w.tree.IsolatedLink top dir name target) :
    (w.withLink dir name target).sources root filter = w.sources root filter ∧
      (w.withLink dir name target).warnings root filter =
        w.warnings root filter + (w.directoriesWalked root filter).count dir := by
  have harrived : w.Arrived ⟨[top], top, root⟩ := hroot
  have harrived' : (w.withLink dir name target).Arrived ⟨[top], top, root⟩ :=
    arrived_withLink hfree harrived
  have hmore : MoreBroken ((w.directoriesWalked root filter).count dir) (w.findings root filter)
      ((w.withLink dir name target).findings root filter) := by
    -- nothing is searched for the standard input
    cases hinput : root.isSame ⟨"-"⟩ with
    | true =>
      unfold directoriesWalked findings
      rw [hinput]
      exact .refl []
    | false =>
      unfold directoriesWalked
      rw [hinput, if_neg Bool.false_ne_true, hroot]
      dsimp only
      by_cases hread : w.tree.isReadable top = true
      · rw [if_pos hread, findings_of_directory hroot hread hinput,
          findings_of_directory harrived' hread hinput]
        refine moreBroken_findingsFrom hw hdir hname hfree hlink harrived
          (fun _ => ⟨List.prefix_rfl, fun loc htop hloc => ?_⟩) []
        -- between the root and itself is only the root
        rw [List.mem_singleton]
        exact hloc.eq_of_length_le htop.length_le
      · -- a locked root is reported with the link and without it
        have hlocked : w.tree.isReadable top = false := Bool.eq_false_iff.2 hread
        rw [if_neg hread, findings_of_locked hroot hlocked hinput,
          findings_of_locked harrived' hlocked hinput]
        exact .refl _
  exact ⟨hmore.sources, hmore.broken⟩

/-- A project with a directory, and in it a source and a link to the source. -/
def nestedProject : World :=
  .inside (.ofEntries [(["p"], .directory), (["p", "a"], .directory),
    (["p", "a", "x.ts"], .file [] false), (["p", "a", "y.ts"], .link ⟨"x.ts"⟩)]) []

/-- There is only one link in the project. -/
private theorem link_in_nestedProject {dir : Location} {name : OsText} {target : Path}
    (h : nestedProject.tree.get? (dir ++ [name]) = some (.link target)) :
    dir = (["p", "a"] : Location) ∧ name = .ofString "y.ts" ∧ target = ⟨"x.ts"⟩ := by
  have hmem := FileTree.mem_entries_of_get? h (by simp)
  have hlink : dir ++ [name] = (["p", "a"] : Location) ++ [.ofString "y.ts"] ∧
      target = ⟨"x.ts"⟩ := by
    simpa [nestedProject, inside, FileTree.ofEntries] using hmem
  -- the location of an entry tells its directory and its name
  obtain ⟨rfl, hlast⟩ := List.append_inj' hlink.1 rfl
  exact ⟨rfl, (List.cons.inj hlast).1, hlink.2⟩

/-- The directory is walked once. -/
private theorem count_nestedProject :
    (nestedProject.directoriesWalked ⟨"p"⟩ .standard).count (["p", "a"] : Location) = 1 := by
  have hroot : nestedProject.resolve ⟨"p"⟩ = .ok (.present ["p"] .directory) := by decide +kernel
  have hinput : Path.isSame ⟨"p"⟩ ⟨"-"⟩ = false := by decide
  have hnames : nestedProject.tree.names ["p"] = [.ofString "a"] := by
    simp [FileTree.names, Location.nameIn, nestedProject, inside, FileTree.ofEntries]
  have henter : nestedProject.choice .standard ⟨[["p"]], ["p"], ⟨"p"⟩⟩ "a" = .enter ["p", "a"] := by
    have hexists : nestedProject.exists? (Path.join ⟨"p"⟩ ⟨"a"⟩) = true := by decide +kernel
    rfl
  have hleaf : ∀ next, nestedProject.walkedBy .standard
      (SearchState.enter ⟨[["p"]], ["p"], ⟨"p"⟩⟩ "a" ["p", "a"]) next = [] := by
    intro next
    unfold walkedBy
    split
    · -- no directory stands there, and the link leads to a file
      rename_i sub hchoice
      obtain ⟨-, -, ⟨hget, -, -⟩ | ⟨target, hget, hresolve, -⟩⟩ := enters_of_choice hchoice
      · have hmem := FileTree.mem_entries_of_get? hget (by simp)
        simp [nestedProject, inside, FileTree.ofEntries, SearchState.enter] at hmem
      · obtain ⟨-, rfl, rfl⟩ := link_in_nestedProject hget
        have hfile : nestedProject.resolve ((Path.join ⟨"p"⟩ ⟨"a"⟩).join ⟨"y.ts"⟩) =
            .ok (.present ["p", "a", "x.ts"] (.file [] false)) := by decide +kernel
        cases hfile.symm.trans hresolve
    · rfl
  unfold directoriesWalked
  rw [hinput, if_neg Bool.false_ne_true, hroot]
  dsimp only
  rw [walkedFrom_eq, hnames, List.flatMap_singleton, walkedBy, henter]
  dsimp only
  rw [walkedFrom_eq, List.flatMap_eq_nil_iff.2 fun next _ => hleaf next]
  decide

/-- A link back to the project is reported, and so is one to itself. -/
theorem sources_withLink_nested :
    (nestedProject.tree.IsolatedLink ["p"] ["p", "a"] "up" ⟨".."⟩ ∧
        (nestedProject.withLink ["p", "a"] "up" ⟨".."⟩).sources ⟨"p"⟩ .standard =
          nestedProject.sources ⟨"p"⟩ .standard ∧
        (nestedProject.withLink ["p", "a"] "up" ⟨".."⟩).warnings ⟨"p"⟩ .standard =
          nestedProject.warnings ⟨"p"⟩ .standard + 1) ∧
      nestedProject.tree.IsolatedLink ["p"] ["p", "a"] "b" ⟨"./b"⟩ ∧
        (nestedProject.withLink ["p", "a"] "b" ⟨"./b"⟩).sources ⟨"p"⟩ .standard =
          nestedProject.sources ⟨"p"⟩ .standard ∧
        (nestedProject.withLink ["p", "a"] "b" ⟨"./b"⟩).warnings ⟨"p"⟩ .standard =
          nestedProject.warnings ⟨"p"⟩ .standard + 1 := by
  have hup : nestedProject.tree.IsolatedLink ["p"] ["p", "a"] "up" ⟨".."⟩ := by
    have hback : nestedProject.tree.walk .reading FileTree.maxLinks
        (FileTree.linkStart ["p", "a"] ⟨".."⟩) (Path.steps ⟨".."⟩) =
          .ok (.present ["p"] .directory) := by decide +kernel
    refine .back hback (List.prefix_refl _) (by decide) ?_ ?_
    · intro dir name target sub _ hget
      obtain ⟨rfl, rfl, rfl⟩ := link_in_nestedProject hget
      have hfile : nestedProject.tree.behind ["p", "a"] "y.ts" =
          .ok (.present ["p", "a", "x.ts"] (.file [] false)) := by decide +kernel
      rw [hfile]
      exact nofun
    · -- the other link's target is a name beside it
      rintro dir name target hget ⟨front, rest, links, hsteps, -⟩
      obtain ⟨rfl, rfl, rfl⟩ := link_in_nestedProject hget
      have hmem : Step.enter "up" ∈ Path.steps ⟨"x.ts"⟩ := by
        rw [hsteps]
        simp
      exact absurd hmem (by decide)
  have hself : nestedProject.tree.IsolatedLink ["p"] ["p", "a"] "b" ⟨"./b"⟩ := by
    -- without the link its own name is free
    have hvacant : nestedProject.tree.walk .reading FileTree.maxLinks
        (FileTree.linkStart ["p", "a"] ⟨"./b"⟩) (Path.steps ⟨"./b"⟩) =
          .ok (.vacant ["p", "a", "b"]) := by decide +kernel
    refine .astray fun loc e => ?_
    rw [hvacant]
    exact nofun
  have hroot : nestedProject.resolve ⟨"p"⟩ = .ok (.present ["p"] .directory) := by decide +kernel
  have hsources := sources_withLink nestedProject .standard ⟨"p"⟩ (by decide) hroot (by decide)
    (by decide) (by decide) hup
  have hsources' := sources_withLink nestedProject .standard ⟨"p"⟩ (by decide) hroot (by decide)
    (by decide) (by decide) hself
  rw [count_nestedProject] at hsources hsources'
  exact ⟨⟨hup, hsources⟩, hself, hsources'⟩

end World

end TypeLeak
