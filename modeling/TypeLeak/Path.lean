import TypeLeak.Text.OsText

/-! # Paths

A path is the text that names a file, kept exactly as it was spelled; like every text of the
operating system, it need not be UTF-8.  Its *components* say what it means: a leading slash is the
root, a leading dot is the starting directory, and every other empty segment or dot is skipped.  Two
spellings with the same components are the same path.

`ancestors` walks upwards by dropping the last component at a time and shows what is left as it
was spelled, so the ancestors of `a//b/./c` are itself, `a//b`, `a` and the empty path.

* `parent_eq`                    the parent is the nearest other ancestor
* `isSame_iff`                   the same path is the same components
* `isSame_refl`, `isSame_symm`   whatever way it is spelled
-/

namespace TypeLeak

/-- A path as it was spelled. -/
structure Path where
  text : OsText
  deriving Repr, DecidableEq

namespace Path

/-- The path to be shown, or to be put where a `String` is needed. -/
def lossy (p : Path) : String := p.text.lossy

/-- One step of a path. -/
inductive Component where
  /-- the slash at the beginning -/
  | root
  /-- a dot at the beginning of a path that does not start at the root -/
  | here
  /-- two dots -/
  | up
  /-- any other name -/
  | name (text : OsText)
  deriving Repr, DecidableEq

/-- What a path begins with. -/
inductive Lead where
  | root
  | here
  | bare
  deriving Repr, DecidableEq

/-- A segment that is no component behind the beginning of a path. -/
def isIdle (segment : OsText) : Bool := segment == .empty || segment == .dot

/-- The lead of a path and the segments after it. -/
def split (p : Path) : Lead × List OsText :=
  match p.text.segments with
  -- an empty segment in front of others is what a leading slash leaves
  | .empty :: second :: rest => (.root, second :: rest)
  | .dot :: rest => (.here, rest)
  | segments => (.bare, segments)

/-- The spelling of a lead and segments. -/
def spell : Lead → List OsText → Path
  | .root, segments => ⟨.slash ++ .ofSegments segments⟩
  -- a dot alone has no slash behind it
  | .here, [] => ⟨.dot⟩
  | .here, segments => ⟨.dot ++ .slash ++ .ofSegments segments⟩
  | .bare, segments => ⟨.ofSegments segments⟩

/-- The component that a lead stands for. -/
def Lead.components : Lead → List Component
  | .root => [.root]
  | .here => [.here]
  | .bare => []

/-- The component that a segment stands for. -/
def ofSegment (segment : OsText) : Option Component :=
  if isIdle segment then none
  else if segment = .dots then some .up
  else some (.name segment)

/-- The meaning of a path, step by step. -/
def components (p : Path) : List Component :=
  let (lead, segments) := p.split
  lead.components ++ segments.filterMap ofSegment

/-- Two spellings of the same path. -/
def isSame (p q : Path) : Bool := p.components == q.components

/-- A path begins at the root. -/
def isAbsolute (p : Path) : Bool := p.components.head? == some .root

/-- The beginnings of reversed segments that end just before one of its components, the longest
    first. -/
def shortened : List OsText → List (List OsText)
  | [] => []
  | segment :: before =>
    -- idle segments before a component belong to it, so that they go with it
    if isIdle segment then shortened before
    else (before.dropWhile isIdle).reverse :: shortened before

/-- The path itself and what is left of it as its last component is dropped again and again. -/
def ancestors (p : Path) : List Path :=
  let (lead, segments) := p.split
  p :: (shortened segments.reverse).map (spell lead) ++ (if lead = .here then [⟨.empty⟩] else [])

/-- The path without its last component; the root and the empty path have none. -/
def parent (p : Path) : Option Path :=
  let (lead, segments) := p.split
  match segments.reverse.dropWhile isIdle with
  | _ :: before => some (spell lead (before.dropWhile isIdle).reverse)
  -- a dot in front is a component too, and leaves the empty path
  | [] => if lead = .here then some ⟨.empty⟩ else none

/-- `q` seen from the directory `p`: an absolute `q` replaces `p`. -/
def join (p q : Path) : Path :=
  -- nothing is put before an absolute path, nor behind an empty one
  if q.isAbsolute || p.text == .empty then q
  else if p.text.bytes.getLast? == some OsText.slashByte then ⟨p.text ++ q.text⟩
  else ⟨p.text ++ .slash ++ q.text⟩

/-- The name that a path ends with, unless it ends at the root or with dots. -/
def fileName (p : Path) : Option OsText :=
  match p.components.getLast? with
  | some (.name text) => some text
  | _ => none

/-- The part of a name after its last dot, provided that something stands before that dot. -/
def extensionOf (name : OsText) : Option OsText :=
  match (Text.cut (· == OsText.dotByte) name.bytes).reverse with
  -- no dot, or only one at the beginning
  | [] | [_] | [_, []] => none
  | last :: _ => some ⟨last⟩

/-- The extension of the file that a path names. -/
def extension (p : Path) : Option OsText := p.fileName.bind extensionOf

/-- One component added to a clean sequence: dots vanish, and two dots take back the name before
    them, stay at the root, and are kept where there is nothing to take back. -/
def pushClean (clean : List Component) (c : Component) : List Component :=
  match c with
  | .here => clean
  | .up =>
    match clean.getLast? with
    | some (.name _) => clean.dropLast
    | some .root => clean
    | _ => clean ++ [.up]
  | c => clean ++ [c]

/-- How a component is spelled between slashes. -/
def Component.text : Component → OsText
  | .root => .empty
  | .here => .dot
  | .up => .dots
  | .name text => text

/-- The plainest spelling of components. -/
def ofComponents : List Component → Path
  | [] => ⟨.dot⟩
  | [.root] => ⟨.slash⟩
  | components => ⟨.ofSegments (components.map Component.text)⟩

/-- The path with its dots resolved by looking at its spelling only. -/
def clean (p : Path) : Path := ofComponents (p.components.foldl pushClean [])

/-- The path with `suffix` written behind it. -/
def append (p : Path) (suffix : OsText) : Path := ⟨p.text ++ suffix⟩

/-- The longest beginning is that before the last component. -/
private theorem head?_shortened (segments : List OsText) :
    (shortened segments).head? =
      match segments.dropWhile isIdle with
      | _ :: before => some (before.dropWhile isIdle).reverse
      | [] => none := by
  induction segments with
  | nil => rfl
  | cons segment before ih => by_cases h : isIdle segment <;> simp [shortened, h, ih]

/-- The parent is the nearest ancestor other than the path itself. -/
theorem parent_eq (p : Path) : p.parent = p.ancestors.tail.head? := by
  have h := head?_shortened p.split.2.reverse
  unfold parent ancestors
  -- no component but perhaps the dot in front, or a last one
  cases hs : p.split.2.reverse.dropWhile isIdle with
  | nil =>
    simp only [hs, List.head?_eq_none_iff] at h
    simp only [hs, h]
    by_cases hl : p.split.1 = .here <;> simp [hl]
  | cons _ before =>
    simp only [hs, List.head?_eq_some_iff] at h
    obtain ⟨rest, h⟩ := h
    simp [h, hs]

/-- Spellings of one path have the same components. -/
theorem isSame_iff {p q : Path} : p.isSame q = true ↔ p.components = q.components := by
  simp [isSame]

/-- Every path is the same as itself. -/
@[simp] theorem isSame_refl (p : Path) : p.isSame p = true := by simp [isSame]

/-- The order of the two makes no difference. -/
theorem isSame_symm {p q : Path} (h : p.isSame q = true) : q.isSame p = true :=
  isSame_iff.2 (isSame_iff.1 h).symm

/-- A path with its components and its plainest spelling at hand, so that it is quickly told from
    other paths. -/
structure Indexed where
  path : Path
  components : List Component
  plain : Path
  components_eq : components = path.components
  plain_eq : plain = ofComponents components

namespace Indexed

/-- A path with its components worked out. -/
def ofPath (p : Path) : Indexed := ⟨p, p.components, ofComponents p.components, rfl, rfl⟩

/-- Two spellings of the same path.  Plain spellings that differ decide this at once. -/
def isSame (a b : Indexed) : Bool := a.plain == b.plain && a.components == b.components

/-- Plain spellings are told apart no differently than components. -/
theorem isSame_eq (a b : Indexed) : a.isSame b = a.path.isSame b.path := by
  obtain ⟨p, _, _, rfl, rfl⟩ := a
  obtain ⟨q, _, _, rfl, rfl⟩ := b
  by_cases h : p.components = q.components <;> simp [isSame, Path.isSame, h]

end Indexed

end Path

end TypeLeak
