import TypeLeak.Path

/-! # File trees

A file tree is a finite map from locations to entries.  A *location* is the list of names that
leads from the root to an entry, without links, dots or repeated slashes; an *entry* is a
directory, a regular file with its bytes, or a link with the path it points to.  The root is
always a directory.

Some entries are *locked*: the program may not read them, so it is told neither the names in a
locked directory nor the bytes of a locked file.  A path can still lead to them.  (A directory that
may not even be passed through is to the program a locked one without entries.)

* `get?_insert`   what is found after an entry is put in
* `get?_erase`    what is found after an entry is taken out
* `get?_insert_of_ne`, `get?_erase_of_ne`   every other location keeps its entry
-/

namespace TypeLeak

/-- The names from the root down to an entry. -/
abbrev Location := List OsText

namespace Location

/-- The absolute path of a location in its plainest spelling. -/
def path (loc : Location) : Path := ⟨.slash ++ .ofSegments loc⟩

/-- The name that a location has in a directory, if it is one of an entry there. -/
def nameIn (dir loc : Location) : Option OsText :=
  match loc.getLast? with
  | some name => if loc.dropLast = dir then some name else none
  | none => none

end Location

/-- What stands at a location. -/
inductive Entry where
  | directory
  /-- a regular file, which may be executable -/
  | file (bytes : List UInt8) (executable : Bool)
  | link (target : Path)
  deriving Repr, DecidableEq

/-- The finite map from locations to entries. -/
structure FileTree where
  entries : List (Location × Entry)
  /-- where the entries are that may not be read -/
  locked : List Location
  deriving Repr

namespace FileTree

/-- A tree without locked entries. -/
def ofEntries (entries : List (Location × Entry)) : FileTree := ⟨entries, []⟩

/-- Only the root. -/
def empty : FileTree := ofEntries []

/-- The entry at a location. -/
def get? (t : FileTree) (loc : Location) : Option Entry :=
  -- the root is not among the entries
  if loc = [] then some .directory else t.entries.lookup loc

/-- The tree without the entry at `loc`. -/
def erase (t : FileTree) (loc : Location) : FileTree :=
  ⟨t.entries.filter fun e => e.1 != loc, t.locked.filter (· != loc)⟩

/-- The tree with `e` at `loc`. -/
def insert (t : FileTree) (loc : Location) (e : Entry) : FileTree :=
  -- what was there before is taken out, but what is locked stays locked
  { t with entries := (loc, e) :: (t.erase loc).entries }

/-- The tree without the entry at `loc` and everything below it. -/
def prune (t : FileTree) (loc : Location) : FileTree :=
  ⟨t.entries.filter fun e => !loc.isPrefixOf e.1, t.locked.filter fun l => !loc.isPrefixOf l⟩

/-- A location holds a directory. -/
def isDirectory (t : FileTree) (loc : Location) : Bool := t.get? loc == some .directory

/-- The entry at a location may be read. -/
def isReadable (t : FileTree) (loc : Location) : Bool := !t.locked.contains loc

/-- The names in a directory, in the order of their bytes. -/
def names (t : FileTree) (dir : Location) : List OsText :=
  (t.entries.filterMap fun e => Location.nameIn dir e.1).mergeSort (fun a b => a ≤ b)

/-- The locations of all directories, the root among them. -/
def directories (t : FileTree) : List Location :=
  [] :: (t.entries.filter (·.2 == .directory)).map (·.1)

/-- No entry has a longer location than this. -/
def height (t : FileTree) : Nat := (t.entries.map (·.1.length)).foldl max 0

/-- What is left after a location was taken out is found as before. -/
private theorem lookup_filter_ne (entries : List (Location × Entry)) {loc loc' : Location} :
    (entries.filter fun e => e.1 != loc).lookup loc' =
      if loc' = loc then none else entries.lookup loc' := by
  induction entries with
  | nil => simp
  | cons e es ih =>
    obtain ⟨k, v⟩ := e
    -- the first entry is taken out or stays in front
    by_cases hk : k = loc
    · subst hk
      simp only [bne_self_eq_false, List.filter_cons, Bool.false_eq_true, if_false, ih,
        List.lookup_cons]
      by_cases h : loc' = k
      · simp [h]
      · have hb : (loc' == k) = false := by simp [h]
        simp [h, hb]
    · have hk' : (k != loc) = true := by simp [hk]
      simp only [List.filter_cons, hk', if_true, List.lookup_cons, ih]
      by_cases h : loc' = k
      · subst h; simp [hk]
      · have hb : (loc' == k) = false := by simp [h]
        simp [hb]

/-- What is found after an entry is taken out. -/
theorem get?_erase (t : FileTree) (loc loc' : Location) :
    (t.erase loc).get? loc' =
      if loc' = [] then some .directory else if loc' = loc then none else t.get? loc' := by
  by_cases h : loc' = []
  · simp [get?, h]
  · simp only [get?, h, if_false, erase, lookup_filter_ne]

/-- What is found after an entry is put in. -/
theorem get?_insert (t : FileTree) (loc : Location) (e : Entry) (loc' : Location) :
    (t.insert loc e).get? loc' =
      if loc' = [] then some .directory else if loc' = loc then some e else t.get? loc' := by
  by_cases h : loc' = []
  · simp [get?, h]
  · simp only [get?, h, if_false, insert, List.lookup_cons, erase, lookup_filter_ne]
    by_cases h' : loc' = loc <;> simp [h', beq_eq_false_iff_ne.2]

/-- The root is a directory in every tree, so asking about it first makes no difference. -/
private theorem get?_eq_ite (t : FileTree) (loc : Location) :
    (if loc = [] then some .directory else t.get? loc) = t.get? loc := by
  split
  · rename_i hnil
    rw [hnil]
    rfl
  · rfl

/-- All other entries stay when one is taken out. -/
theorem get?_erase_of_ne {t : FileTree} {loc loc' : Location} (h : loc' ≠ loc) :
    (t.erase loc).get? loc' = t.get? loc' := by
  rw [get?_erase, if_neg h, get?_eq_ite]

/-- All other entries stay when one is put in. -/
theorem get?_insert_of_ne {t : FileTree} {loc loc' : Location} (h : loc' ≠ loc) (e : Entry) :
    (t.insert loc e).get? loc' = t.get? loc' := by
  rw [get?_insert, if_neg h, get?_eq_ite]

end FileTree

end TypeLeak
