import Mathlib.Data.Set.List
import TypeLeak.EntryTrace
import TypeLeak.Manifest
import TypeLeak.CompilerConfig

/-!
# Which documents have a shape

A shape says of an object which members it needs, which it may have, and of what kind these are.
Three documents are read: manifests, source maps and the configurations of traces.  For each of them
the shape is stated by the members of the value alone, and so is what is read from one that has it.

## Key results

- `optionalField_eq_ok`, `field_eq_ok`: what is read from a member
- `Manifest.decode_eq_ok`, `SourceMap.decode_eq_ok`, `CompilerConfig.decode_eq_ok`: what is read from
  all members together
- `validate_exact`: exactly the values of a shape are accepted, what is read is what they hold, and
  any other value has one violation
-/

namespace TypeLeak

namespace Json.Value

/-! ## Kinds of values -/

/-- The value is an object. -/
def IsObject (v : Value) : Prop := ∃ members, v = .object members

/-- The value is a text. -/
def IsText (v : Value) : Prop := ∃ text, v = .string text

/-- The value is an array of texts. -/
def IsTextList (v : Value) : Prop := ∃ items, v = .array items ∧ ∀ item ∈ items, item.IsText

/-- The value is an object whose members are texts. -/
def IsTextMap (v : Value) : Prop := ∃ members, v = .object members ∧ ∀ m ∈ members, m.2.IsText

/-- The list of texts that an array writes. -/
def ofTexts (texts : List String) : Value := .array (texts.map .string)

/-- The keyed texts that an object writes. -/
def ofTextMap (texts : DependencyClass) : Value := .object (texts.map fun m => (m.1, .string m.2))

/-- All values of a list are of a kind exactly if the list is written from contents of that kind. -/
private theorem forall_mem_iff_exists_map {α β : Type} {f : α → β} {kind : β → Prop}
    (hkind : ∀ b, kind b ↔ ∃ a, b = f a) (bs : List β) :
    (∀ b ∈ bs, kind b) ↔ ∃ as : List α, bs = as.map f := by
  constructor
  · intro h
    -- the library says it of lists over the range of a function
    have hrange : bs ∈ {bs | ∀ b ∈ bs, b ∈ Set.range f} := fun b hb =>
      ((hkind b).1 (h b hb)).imp fun _ => Eq.symm
    rw [← Set.range_list_map] at hrange
    exact hrange.imp fun _ => Eq.symm
  · rintro ⟨as, rfl⟩ b hb
    obtain ⟨a, -, rfl⟩ := List.mem_map.1 hb
    exact (hkind _).2 ⟨a, rfl⟩

/-- The arrays of texts are the values that lists of texts write. -/
theorem isTextList_iff {v : Value} : v.IsTextList ↔ ∃ texts, v = ofTexts texts := by
  have htexts := forall_mem_iff_exists_map (fun v : Value => Iff.refl v.IsText)
  constructor
  · rintro ⟨items, rfl, h⟩
    obtain ⟨texts, rfl⟩ := (htexts items).1 h
    exact ⟨texts, rfl⟩
  · rintro ⟨texts, rfl⟩
    exact ⟨_, rfl, (htexts _).2 ⟨texts, rfl⟩⟩

/-- The objects whose members are texts are the values that keyed texts write. -/
theorem isTextMap_iff {v : Value} : v.IsTextMap ↔ ∃ texts, v = ofTextMap texts := by
  -- a member is written from its key and its text together
  have hkeyed : ∀ m : String × Value,
      m.2.IsText ↔ ∃ text : String × String, m = (text.1, .string text.2) := by
    rintro ⟨key, m⟩
    constructor
    · rintro ⟨text, hm⟩
      exact ⟨(key, text), Prod.ext rfl hm⟩
    · rintro ⟨text, hm⟩
      exact ⟨text.2, (Prod.ext_iff.1 hm).2⟩
  have htexts := forall_mem_iff_exists_map hkeyed
  constructor
  · rintro ⟨members, rfl, h⟩
    obtain ⟨texts, rfl⟩ := (htexts members).1 h
    exact ⟨texts, rfl⟩
  · rintro ⟨texts, rfl⟩
    exact ⟨_, rfl, (htexts _).2 ⟨texts, rfl⟩⟩

/-! ## Members -/

/-- The member `key` is there and of a kind. -/
def Needs (v : Value) (key : String) (kind : Value → Prop) : Prop :=
  ∃ m, v.member? key = some m ∧ kind m

/-- The member `key` is missing, null or of a kind. -/
def Allows (v : Value) (key : String) (kind : Value → Prop) : Prop :=
  ∀ m, v.member? key = some m → m = .null ∨ kind m

/-- The member `key` writes a content, and is missing or null if there is none. -/
def Holds {α : Type} (v : Value) (key : String) (write : α → Value) : Option α → Prop
  | none => v.member? key = none ∨ v.member? key = some .null
  | some a => v.member? key = some (write a)

/-- The member `key` is an object in which a name is a key. -/
def HasKey (v : Value) (key name : String) : Prop :=
  ∃ members, v.member? key = some (.object members) ∧ name ∈ members.map Prod.fst

variable {α : Type} {v : Value} {key : String} {kind : Value → Prop} {write : α → Value}

/-- A member is there and of a kind exactly if it writes a content of that kind. -/
theorem needs_iff (hkind : ∀ m, kind m ↔ ∃ a, m = write a) :
    v.Needs key kind ↔ ∃ a, v.member? key = some (write a) := by
  simp only [Needs, hkind]
  constructor
  · rintro ⟨m, hm, a, rfl⟩
    exact ⟨a, hm⟩
  · rintro ⟨a, hm⟩
    exact ⟨_, hm, a, rfl⟩

/-- A member is missing, null or of a kind exactly if it holds some content, or none. -/
theorem allows_iff (hkind : ∀ m, kind m ↔ ∃ a, m = write a) :
    v.Allows key kind ↔ ∃ content, v.Holds key write content := by
  simp only [Allows, hkind]
  constructor
  · intro h
    -- missing and null both hold nothing
    cases hm : v.member? key with
    | none => exact ⟨none, .inl hm⟩
    | some m =>
      rcases h m hm with rfl | ⟨a, rfl⟩
      · exact ⟨none, .inr hm⟩
      · exact ⟨some a, hm⟩
  · rintro ⟨content, h⟩ m hm
    cases content with
    | none =>
      rcases h with h | h
      · exact nomatch h.symm.trans hm
      · exact .inl (Option.some.inj (hm.symm.trans h))
    | some a => exact .inr ⟨a, Option.some.inj (hm.symm.trans h)⟩

end Json.Value

namespace Shape

open Json (Value)
open Json.Value

variable {α : Type} {decode : Value → Except Violation α} {write : α → Value} {key : String}
  {v : Value}

/-! ## Reading members -/

/-- A content that is required is there. -/
theorem require_eq_ok {content : Option α} {a : α} :
    require key content = .ok a ↔ content = some a := by
  cases content <;> simp [require]

/-- What is read from a member that is there is a content. -/
private theorem map_some_eq_ok {x : Except Violation α} {content : Option α} :
    x.map some = .ok content ↔ ∃ a, content = some a ∧ x = .ok a := by
  cases x <;> simp [Except.map, eq_comm]

/-- What is read from a member that is not null when it is there. -/
theorem field_eq_ok (hdecode : ∀ m a, decode m = .ok a ↔ m = write a) {content : Option α} :
    field decode key v = .ok content ↔ v.member? key = content.map write := by
  unfold field
  cases v.member? key with
  | none => cases content <;> simp
  | some m => cases content <;> simp [map_some_eq_ok, hdecode]

/-- What is read from a member that may be null. -/
theorem optionalField_eq_ok (hdecode : ∀ m a, decode m = .ok a ↔ m = write a)
    (hnull : ∀ a, write a ≠ .null) {content : Option α} :
    optionalField decode key v = .ok content ↔ v.Holds key write content := by
  unfold optionalField
  -- missing, null, or a member that has to be decoded
  split
  · rename_i hm
    cases content <;> simp [Holds, hm]
  · rename_i hm
    cases content <;> simp [Holds, hm, (hnull _).symm]
  · rename_i m hne hm
    have hm' : m ≠ .null := fun heq => hne (by rw [heq])
    cases content with
    | none => simp [Holds, hm, map_some_eq_ok, hm']
    | some a => simp [Holds, hm, map_some_eq_ok, hdecode]

/-! ## Exact shapes -/

/-- A decoder reads exactly the values of a shape, reads from them what they hold, and finds one thing
    wrong with any other value. -/
structure Exact {α : Type} (decode : Value → Except Violation α) (Shaped : Value → Prop)
    (Reads : Value → α → Prop) : Prop where
  accepts : ∀ subject v, (∃ a, validate decode subject v = .ok a) ↔ Shaped v
  content : ∀ subject v a, validate decode subject v = .ok a → Reads v a
  refuses : ∀ subject v e, validate decode subject v = .error e →
    e.subject = subject ∧ ∃ violation, e.violations = [violation]

/-- A value that is no object is refused before it is decoded. -/
theorem validate_eq_ok {subject : String} {a : α} :
    validate decode subject v = .ok a ↔ v.IsObject ∧ decode v = .ok a := by
  unfold validate
  split
  · rename_i members
    cases decode (.object members) <;> simp [Except.mapError, IsObject]
  · rename_i hobject
    simp only [reduceCtorEq, false_iff, not_and]
    rintro ⟨members, rfl⟩
    exact absurd rfl (hobject members)

/-- A value that is refused has one thing wrong, and is called by its subject. -/
theorem of_validate_eq_error {subject : String} {e : ShapeError}
    (h : validate decode subject v = .error e) :
    e.subject = subject ∧ ∃ violation, e.violations = [violation] := by
  -- a decoder stops at the first thing that is wrong, so there is only one
  unfold validate at h
  split at h
  · rename_i members
    cases hdecode : decode (.object members) with
    | ok a =>
      rw [hdecode] at h
      exact nomatch h
    | error violation =>
      rw [hdecode] at h
      cases h
      exact ⟨rfl, _, rfl⟩
  · cases h
    exact ⟨rfl, _, rfl⟩

/-- A decoder is exact if it reads what a value of the shape holds. -/
theorem exact_of_decode {Shaped : Value → Prop} {Reads : Value → α → Prop}
    (hdecode : ∀ v a, decode v = .ok a ↔ Reads v a)
    (hshaped : ∀ v, Shaped v ↔ v.IsObject ∧ ∃ a, Reads v a) : Exact decode Shaped Reads where
  accepts subject v := by simp only [validate_eq_ok, exists_and_left, hdecode, hshaped]
  content _ v a h := (hdecode v a).1 (validate_eq_ok.1 h).2
  refuses _ _ _ h := of_validate_eq_error h

end Shape

open Json (Value)
open Json.Value

/-! ## Manifests -/

namespace Manifest

/-- The shape of a manifest. -/
structure Shaped (v : Value) : Prop where
  object : v.IsObject
  main : v.Allows "main" IsText
  module : v.Allows "module" IsText
  dependencies : v.Allows "dependencies" IsTextMap
  devDependencies : v.Allows "devDependencies" IsTextMap
  peerDependencies : v.Allows "peerDependencies" IsTextMap

/-- What a manifest tells about a value. -/
structure Reads (v : Value) (m : Manifest) : Prop where
  main : v.Holds "main" .string m.mainEntry
  module : v.Holds "module" .string m.moduleEntry
  dependencies : v.Holds "dependencies" ofTextMap m.runtime
  devDependencies : v.Holds "devDependencies" ofTextMap m.dev
  peerDependencies : v.Holds "peerDependencies" ofTextMap m.peer
  runtime : ∀ name, m.declaresRuntime name = true ↔ v.HasKey "dependencies" name
  dev : ∀ name, m.declaresDev name = true ↔ v.HasKey "devDependencies" name
  peer : ∀ name, m.declaresPeer name = true ↔ v.HasKey "peerDependencies" name

variable {v : Value} {m : Manifest}

/-- What is read from a manifest, member by member. -/
theorem decode_eq_ok : decode v = .ok m ↔
    v.Holds "main" .string m.mainEntry ∧ v.Holds "module" .string m.moduleEntry ∧
      v.Holds "dependencies" ofTextMap m.runtime ∧ v.Holds "devDependencies" ofTextMap m.dev ∧
      v.Holds "peerDependencies" ofTextMap m.peer := by
  have htext (key : String) (content : Option String) :
      Shape.optionalField Shape.decodeText key v = .ok content ↔ v.Holds key .string content :=
    Shape.optionalField_eq_ok (fun _ _ => Shape.decodeText_eq_ok) (fun _ => nofun)
  have hmap (key : String) (content : Option DependencyClass) :
      Shape.optionalField Shape.decodeTextMap key v = .ok content ↔
        v.Holds key ofTextMap content :=
    Shape.optionalField_eq_ok (fun _ _ => Shape.decodeTextMap_eq_ok) (fun _ => nofun)
  unfold decode
  -- each field is read on its own, whatever comes of the others
  simp only [bind_eq_ok, htext, hmap, Except.ok.injEq]
  constructor
  · rintro ⟨runtime, hruntime, dev, hdev, main, hmain, entry, hentry, peer, hpeer, rfl⟩
    exact ⟨hmain, hentry, hruntime, hdev, hpeer⟩
  · rintro ⟨hmain, hentry, hruntime, hdev, hpeer⟩
    exact ⟨_, hruntime, _, hdev, _, hmain, _, hentry, _, hpeer, rfl⟩

/-- A class of dependencies declares the keys of the object that it was read from. -/
theorem declares_iff_hasKey {key : String} {c : Option DependencyClass}
    (h : v.Holds key ofTextMap c) (name : String) : declares c name = true ↔ v.HasKey key name := by
  rw [declares_iff]
  cases c with
  | none =>
    -- there is no object, so there are no keys
    refine iff_of_false (by simp) ?_
    rintro ⟨members, hmembers, -⟩
    rcases h with h | h <;> exact nomatch h.symm.trans hmembers
  | some deps =>
    -- writing the texts as values leaves the keys as they are
    have hkeys : (deps.map fun m => (m.1, Value.string m.2)).map Prod.fst = deps.map Prod.fst := by
      rw [List.map_map]
      rfl
    constructor
    · rintro ⟨_, ⟨⟩, hname⟩
      exact ⟨_, h, by rwa [hkeys]⟩
    · rintro ⟨members, hmembers, hname⟩
      cases h.symm.trans hmembers
      exact ⟨deps, rfl, by rwa [← hkeys]⟩

/-- The members read tell which names are declared, so a manifest is read exactly if it tells all
about the value. -/
theorem decode_eq_ok_iff_reads : decode v = .ok m ↔ Reads v m := by
  rw [decode_eq_ok]
  constructor
  · rintro ⟨hmain, hmodule, hruntime, hdev, hpeer⟩
    exact ⟨hmain, hmodule, hruntime, hdev, hpeer, declares_iff_hasKey hruntime,
      declares_iff_hasKey hdev, declares_iff_hasKey hpeer⟩
  · intro h
    exact ⟨h.main, h.module, h.dependencies, h.devDependencies, h.peerDependencies⟩

/-- The values with the shape of a manifest are those that one can be read from. -/
theorem shaped_iff : Shaped v ↔ v.IsObject ∧ ∃ m, Reads v m := by
  have htext (key : String) : v.Allows key IsText ↔ ∃ content, v.Holds key .string content :=
    allows_iff fun _ => Iff.rfl
  have hmap (key : String) : v.Allows key IsTextMap ↔ ∃ content, v.Holds key ofTextMap content :=
    allows_iff fun _ => isTextMap_iff
  simp only [← decode_eq_ok_iff_reads, decode_eq_ok]
  -- member by member: what is allowed is what can be held
  constructor
  · rintro ⟨hobject, hmain, hmodule, hruntime, hdev, hpeer⟩
    obtain ⟨main, hmain⟩ := (htext _).1 hmain
    obtain ⟨entry, hmodule⟩ := (htext _).1 hmodule
    obtain ⟨runtime, hruntime⟩ := (hmap _).1 hruntime
    obtain ⟨dev, hdev⟩ := (hmap _).1 hdev
    obtain ⟨peer, hpeer⟩ := (hmap _).1 hpeer
    exact ⟨hobject, ⟨main, entry, runtime, dev, peer⟩, hmain, hmodule, hruntime, hdev, hpeer⟩
  · rintro ⟨hobject, m, hmain, hmodule, hruntime, hdev, hpeer⟩
    exact ⟨hobject, (htext _).2 ⟨_, hmain⟩, (htext _).2 ⟨_, hmodule⟩, (hmap _).2 ⟨_, hruntime⟩,
      (hmap _).2 ⟨_, hdev⟩, (hmap _).2 ⟨_, hpeer⟩⟩

end Manifest

/-! ## Source maps -/

namespace SourceMap

/-- The shape of a source map. -/
structure Shaped (v : Value) : Prop where
  object : v.IsObject
  sources : v.Needs "sources" IsTextList

/-- What a source map tells about a value. -/
def Reads (v : Value) (map : SourceMap) : Prop := v.member? "sources" = some (ofTexts map.sources)

variable {v : Value} {map : SourceMap}

/-- A source map is read from its list of sources. -/
theorem decode_eq_ok : decode v = .ok map ↔ Reads v map := by
  have hlist (content : Option (List String)) :
      Shape.field Shape.decodeTexts "sources" v = .ok content ↔
        v.member? "sources" = content.map ofTexts :=
    Shape.field_eq_ok fun _ _ => Shape.decodeTexts_eq_ok
  unfold decode
  simp only [bind_eq_ok, Shape.require_eq_ok, hlist, Except.ok.injEq]
  constructor
  · rintro ⟨_, hsources, sources, rfl, rfl⟩
    exact hsources
  · intro hsources
    exact ⟨some map.sources, hsources, _, rfl, rfl⟩

/-- The values with the shape of a source map are those that one can be read from. -/
theorem shaped_iff : Shaped v ↔ v.IsObject ∧ ∃ map, Reads v map := by
  have hlist : v.Needs "sources" IsTextList ↔ _ := needs_iff fun _ => isTextList_iff
  constructor
  · rintro ⟨hobject, hsources⟩
    obtain ⟨sources, hsources⟩ := hlist.1 hsources
    exact ⟨hobject, ⟨sources⟩, hsources⟩
  · rintro ⟨hobject, map, hsources⟩
    exact ⟨hobject, hlist.2 ⟨_, hsources⟩⟩

end SourceMap

/-! ## Trace configurations -/

namespace CompilerConfig

/-- The shape of a trace configuration. -/
structure Shaped (v : Value) : Prop where
  object : v.IsObject
  extendsPath : v.Needs "extends" IsText
  includes : v.Needs "include" IsTextList

/-- What a configuration tells about a value. -/
structure Reads (v : Value) (c : CompilerConfig) : Prop where
  extendsPath : v.member? "extends" = some (.string c.extendsPath)
  includes : v.member? "include" = some (ofTexts c.includes)

variable {v : Value} {c : CompilerConfig}

/-- A configuration is read from the path that it extends and the files that it includes. -/
theorem decode_eq_ok : decode v = .ok c ↔ Reads v c := by
  have htext (content : Option String) :
      Shape.field Shape.decodeText "extends" v = .ok content ↔
        v.member? "extends" = content.map .string :=
    Shape.field_eq_ok fun _ _ => Shape.decodeText_eq_ok
  have hlist (content : Option (List String)) :
      Shape.field Shape.decodeTexts "include" v = .ok content ↔
        v.member? "include" = content.map ofTexts :=
    Shape.field_eq_ok fun _ _ => Shape.decodeTexts_eq_ok
  unfold decode
  simp only [bind_eq_ok, Shape.require_eq_ok, htext, hlist, Except.ok.injEq]
  -- both members have to be there, whatever else is
  constructor
  · rintro ⟨_, hextends, _, hinclude, extendsPath, rfl, includes, rfl, rfl⟩
    exact ⟨hextends, hinclude⟩
  · rintro ⟨hextends, hinclude⟩
    exact ⟨some c.extendsPath, hextends, some c.includes, hinclude, _, rfl, _, rfl, rfl⟩

/-- The values with the shape of a configuration are those that one can be read from. -/
theorem shaped_iff : Shaped v ↔ v.IsObject ∧ ∃ c, Reads v c := by
  have htext : v.Needs "extends" IsText ↔ _ := needs_iff fun _ => Iff.rfl
  have hlist : v.Needs "include" IsTextList ↔ _ := needs_iff fun _ => isTextList_iff
  constructor
  · rintro ⟨hobject, hextends, hinclude⟩
    obtain ⟨extendsPath, hextends⟩ := htext.1 hextends
    obtain ⟨includes, hinclude⟩ := hlist.1 hinclude
    exact ⟨hobject, ⟨extendsPath, includes⟩, hextends, hinclude⟩
  · rintro ⟨hobject, c, hextends, hinclude⟩
    exact ⟨hobject, htext.2 ⟨_, hextends⟩, hlist.2 ⟨_, hinclude⟩⟩

end CompilerConfig

/-- All three shapes are read exactly. -/
theorem validate_exact :
    Shape.Exact Manifest.decode Manifest.Shaped Manifest.Reads ∧
      Shape.Exact SourceMap.decode SourceMap.Shaped SourceMap.Reads ∧
      Shape.Exact CompilerConfig.decode CompilerConfig.Shaped CompilerConfig.Reads :=
  ⟨Shape.exact_of_decode (fun _ _ => Manifest.decode_eq_ok_iff_reads) fun _ => Manifest.shaped_iff,
    Shape.exact_of_decode (fun _ _ => SourceMap.decode_eq_ok) fun _ => SourceMap.shaped_iff,
    Shape.exact_of_decode (fun _ _ => CompilerConfig.decode_eq_ok)
      fun _ => CompilerConfig.shaped_iff⟩

end TypeLeak
