import TypeLeak.Proofs.PathWalk

/-!
# Well-formed file trees

A finite map from locations to entries is a file tree if every entry has a name that a directory
can call it, and stands in a directory.  In a well-formed tree, walks go through directories only.

## Key results

- `isDirectory_of_leads`: steps from a directory lead to a directory
- `WellFormed.insert` / `WellFormed.erase`: what is no directory can be put in, replaced and taken out
- `of_writeText`, `of_unlink`: what writing and unlinking can do
- `writeText_wellFormed`: writing a file keeps the tree well-formed
-/

namespace TypeLeak

namespace FileTree

variable {t : FileTree}

/-- Every entry has a proper name and stands in a directory. -/
structure WellFormed (t : FileTree) : Prop where
  named : ∀ e ∈ t.entries, Location.IsProper e.1
  rooted : ∀ e ∈ t.entries, t.isDirectory e.1.dropLast = true

/-- Well-formedness is a condition on each entry. -/
theorem wellFormed_iff : t.WellFormed ↔
    ∀ e ∈ t.entries, Location.IsProper e.1 ∧ t.isDirectory e.1.dropLast = true :=
  ⟨fun h e he => ⟨h.named e he, h.rooted e he⟩,
    fun h => ⟨fun e he => (h e he).1, fun e he => (h e he).2⟩⟩

instance (t : FileTree) : Decidable t.WellFormed := decidable_of_iff _ wellFormed_iff.symm

/-- The top is a directory. -/
theorem isDirectory_nil : t.isDirectory [] = true := by simp [isDirectory, get?]

/-- A directory is elsewhere than where none stands. -/
theorem ne_of_isDirectory {dir loc : Location} (hdir : t.isDirectory dir = true)
    (hfree : t.isDirectory loc = false) : dir ≠ loc := by
  rintro rfl
  rw [hdir] at hfree
  exact nomatch hfree

/-- What is found below the top is an entry. -/
theorem mem_entries_of_get? {loc : Location} {e : Entry} (h : t.get? loc = some e)
    (hne : loc ≠ []) : (loc, e) ∈ t.entries := by
  simp only [get?, hne, if_false] at h
  obtain ⟨front, back, hentries, -⟩ := List.lookup_eq_some_iff.1 h
  rw [hentries]
  simp

namespace WellFormed

variable (h : t.WellFormed)

include h

/-- What is in the tree has a proper name. -/
theorem isProper_of_get? {loc : Location} {e : Entry} (hget : t.get? loc = some e) :
    loc.IsProper := by
  by_cases hne : loc = []
  · subst hne
    simp [Location.IsProper]
  · exact h.named _ (mem_entries_of_get? hget hne)

/-- What is in the tree stands in a directory. -/
theorem isDirectory_dropLast {loc : Location} {e : Entry} (hget : t.get? loc = some e) :
    t.isDirectory loc.dropLast = true := by
  by_cases hne : loc = []
  · subst hne
    exact isDirectory_nil
  · exact h.rooted _ (mem_entries_of_get? hget hne)

/-- Steps from a directory lead to a directory. -/
theorem isDirectory_of_leads {links links' : Nat} {dir dir' : Location} {steps : List Step}
    (hleads : t.Leads links dir steps links' dir') (hdir : t.isDirectory dir = true) :
    t.isDirectory dir' = true := by
  induction hleads with
  | here => exact hdir
  | slash _ ih => exact ih hdir
  | stay _ ih => exact ih hdir
  | up _ ih => exact ih (h.isDirectory_dropLast (isDirectory_iff.1 hdir))
  | enter _ hget _ ih => exact ih (isDirectory_iff.2 hget)
  | @follow _ _ _ _ _ target _ _ _ _ ih =>
    apply ih
    -- a link is walked from the root or from where it stands
    unfold linkStart
    split
    · exact isDirectory_nil
    · exact hdir

/-- Steps that enter names end in a directory, and with a name. -/
theorem isDirectory_of_ends {links : Nat} {dir dir' : Location} {steps : List Step}
    {name : OsText} (hends : t.Ends links dir steps dir' name) (hdir : t.isDirectory dir = true)
    (hsteps : ∀ n, .enter n ∈ steps → Path.IsName n) :
    t.isDirectory dir' = true ∧ Path.IsName name := by
  induction hends with
  | last => exact ⟨hdir, hsteps _ (by simp)⟩
  | slash _ ih => exact ih hdir fun n hn => hsteps n (by simp [hn])
  | stay _ ih => exact ih hdir fun n hn => hsteps n (by simp [hn])
  | up _ ih =>
    exact ih (h.isDirectory_dropLast (isDirectory_iff.1 hdir)) fun n hn => hsteps n (by simp [hn])
  | enter _ hget _ ih => exact ih (isDirectory_iff.2 hget) fun n hn => hsteps n (by simp [hn])
  -- a link is walked from the top or from where it stands, and has proper names in it
  | @follow _ _ _ _ _ target _ _ _ _ ih =>
    refine ih ?_ fun n hn => ?_
    · unfold linkStart
      split
      · exact isDirectory_nil
      · exact hdir
    · rcases List.mem_append.1 hn with hn | hn
      · exact Path.isName_of_mem_steps hn
      · exact hsteps n (by simp [hn])

/-- An entry can be put where no directory stands, in a directory and under a proper name. -/
theorem insert {loc : Location} (e : Entry) (hloc : loc.IsProper)
    (hparent : t.isDirectory loc.dropLast = true) (hfree : t.isDirectory loc = false) :
    (t.insert loc e).WellFormed := by
  -- the place is no directory, so that no directory is lost
  have hkept : ∀ dir, t.isDirectory dir = true → (t.insert loc e).isDirectory dir = true := by
    intro dir hdir
    rwa [isDirectory, get?_insert_of_ne (ne_of_isDirectory hdir hfree)]
  apply wellFormed_iff.2
  intro entry hentry
  rcases List.mem_cons.1 hentry with rfl | hentry
  · exact ⟨hloc, hkept _ hparent⟩
  · have hold := List.mem_of_mem_filter hentry
    exact ⟨h.named _ hold, hkept _ (h.rooted _ hold)⟩

/-- What is no directory can be taken out. -/
theorem erase {loc : Location} (hfree : t.isDirectory loc = false) : (t.erase loc).WellFormed := by
  apply wellFormed_iff.2
  intro entry hentry
  have hold := List.mem_of_mem_filter hentry
  refine ⟨h.named _ hold, ?_⟩
  have hdir := h.rooted _ hold
  -- what is taken out is no directory, so that nothing stands in it
  rwa [isDirectory, get?_erase_of_ne (ne_of_isDirectory hdir hfree)]

end WellFormed

end FileTree

namespace World

open FileTree

variable {w : World}

/-- A path that is resolved to a free name, or to a file, ends in a directory with a name. -/
theorem isProper_of_resolveFor {purpose : Purpose} {p : Path} {found : Target} {loc : Location}
    (h : w.tree.WellFormed) (hfound : w.tree.resolveFor purpose w.cwd p = .ok found)
    (hloc : found = .vacant loc ∨ ∃ bytes executable, found = .present loc (.file bytes executable)) :
    loc.IsProper ∧ w.tree.isDirectory loc.dropLast = true ∧ w.tree.isDirectory loc = false := by
  rcases finds_of_lookUp (lookUp_of_resolveFor hfound) with hremoved | ⟨hstart, rest, hrest, hfinds⟩
  -- neither a removed directory nor a present one is meant
  · rcases hloc with hloc | ⟨bytes, executable, hloc⟩ <;> rw [hremoved] at hloc <;>
      cases hloc
  obtain ⟨dir, name, hends, rfl, hfile⟩ := hfinds.ends hloc
  obtain ⟨hparent, hname⟩ := h.isDirectory_of_ends hends hstart fun n hn =>
    Path.isName_of_mem_steps (hrest.subset hn)
  have hproper : Location.IsProper (dir ++ [name]) :=
    Location.isProper_concat.2 ⟨h.isProper_of_get? (isDirectory_iff.1 hparent), hname⟩
  rw [List.dropLast_concat, Bool.eq_false_iff]
  refine ⟨hproper, hparent, fun hdir => ?_⟩
  obtain ⟨bytes, executable, hentry⟩ := hfile _ (isDirectory_iff.1 hdir)
  exact nomatch hentry

/-- Where a text ends up that is written to a path. -/
def writesTo (w : World) (p : Path) : Option Location :=
  match w.tree.resolveFor .writing w.cwd p with
  | .ok (.present loc (.file ..)) => some loc
  | .ok (.vacant loc) => some loc
  | _ => none

/-- A text is written to a free name or in the place of a file. -/
theorem of_writesTo {p : Path} {loc : Location} (h : w.writesTo p = some loc) :
    ∃ found, w.tree.resolveFor .writing w.cwd p = .ok found ∧
      (found = .vacant loc ∨ ∃ bytes executable, found = .present loc (.file bytes executable)) := by
  unfold writesTo at h
  split at h
  · rename_i bytes executable hfound
    cases h
    exact ⟨_, hfound, .inr ⟨bytes, executable, rfl⟩⟩
  · rename_i hfound
    cases h
    exact ⟨_, hfound, .inl rfl⟩
  · exact nomatch h

/-- Writing a text puts in a file, or is refused. -/
theorem writeText_eq (p : Path) (text : String) :
    match w.writesTo p with
    | some loc => ∃ executable, w.writeText p text =
        .ok { w with tree := w.tree.insert loc (.file (Text.Utf8.encode text) executable) }
    | none => ∃ cause, w.writeText p text = .error cause := by
  unfold writesTo writeText
  -- both go by where the path leads: to a free name, to a file, or to something else
  cases w.tree.resolveFor .writing w.cwd p with
  | error cause => exact ⟨cause, rfl⟩
  | ok found =>
    cases found with
    | vacant loc => exact ⟨_, rfl⟩
    | removed => exact ⟨_, rfl⟩
    | present loc e =>
      cases e with
      | directory => exact ⟨_, rfl⟩
      | file bytes executable => exact ⟨_, rfl⟩
      | link target => exact ⟨_, rfl⟩

/-- A text that was written is a file at the place to write to. -/
theorem of_writeText {ready : World} {p : Path} {text : String}
    (h : w.writeText p text = .ok ready) :
    ∃ loc executable, w.writesTo p = some loc ∧
      ready = { w with tree := w.tree.insert loc (.file (Text.Utf8.encode text) executable) } := by
  have hwrite := w.writeText_eq p text
  cases hplace : w.writesTo p with
  | none =>
    rw [hplace] at hwrite
    obtain ⟨cause, hcause⟩ := hwrite
    rw [hcause] at h
    exact nomatch h
  | some loc =>
    rw [hplace] at hwrite
    obtain ⟨executable, hwritten⟩ := hwrite
    rw [hwritten] at h
    exact ⟨loc, executable, rfl, (Except.ok.inj h).symm⟩

/-- Unlinking takes out an entry that is no directory. -/
theorem of_unlink {left : World} {p : Path} (h : w.unlink p = .ok left) :
    ∃ loc e, w.tree.seat w.cwd p = .ok loc ∧ w.tree.get? loc = some e ∧ e ≠ .directory ∧
      left = { w with tree := w.tree.erase loc } := by
  unfold unlink at h
  -- a directory is refused, and so is what is not there
  split at h
  · exact nomatch h
  rename_i loc hseat
  split at h
  · exact nomatch h
  · exact nomatch h
  · rename_i e hne hget
    exact ⟨loc, e, hseat, hget, hne, (Except.ok.inj h).symm⟩

/-- Writing a file keeps the tree well-formed. -/
theorem writeText_wellFormed {ready : World} {p : Path} {text : String} (h : w.tree.WellFormed)
    (hready : w.writeText p text = .ok ready) : ready.tree.WellFormed := by
  obtain ⟨loc, executable, hplace, rfl⟩ := of_writeText hready
  obtain ⟨found, hfound, hloc⟩ := of_writesTo hplace
  obtain ⟨hproper, hparent, hfree⟩ := isProper_of_resolveFor h hfound hloc
  exact h.insert _ hproper hparent hfree

end World

end TypeLeak
