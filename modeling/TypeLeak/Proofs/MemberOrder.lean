import Mathlib.Data.String.Basic
import TypeLeak.EntryTrace
import TypeLeak.Manifest
import TypeLeak.CompilerConfig
import TypeLeak.Proofs.JsonDocument

/-!
# The order of members

Objects are kept in the order of their keys, with the last member of each key.  So it does not
matter in which order the members of a document are written, as long as those of one key keep their
order, nor what a member holds whose key comes again later.  Violations are looked for in the order
of the keys too, and are the same.

## Key results

- `Value.lookup_sortMembers`: what is found in an object is the last member of a key
- `Value.Sorted.eq_of_lookup_eq`: sorted members are told by what is found in them
- `Rearranged.value?_eq`: a rearranged document has the same value
- `parse_rearranged`: so the same is read from it, be it a content or a violation
-/

namespace TypeLeak.Json

/-! ## The last member of each key -/

namespace Value

/-- Members in the order of their keys, each key once. -/
def Sorted (members : List (String × Value)) : Prop := members.Pairwise fun a b => a.1 < b.1

/-- After a member is put in, there is no other that was not there. -/
theorem mem_insertMember {key : String} {value : Value} {members : List (String × Value)}
    {m : String × Value} (h : m ∈ insertMember key value members) :
    m = (key, value) ∨ m ∈ members := by
  induction members with
  | nil => simpa [insertMember] using h
  | cons first rest ih =>
    obtain ⟨k, v⟩ := first
    rw [insertMember] at h
    -- the key is there already, comes before the first one, or goes further back
    split at h
    · rcases List.mem_cons.1 h with rfl | h
      · exact .inl rfl
      · exact .inr (List.mem_cons_of_mem _ h)
    split at h
    · exact List.mem_cons.1 h
    · rcases List.mem_cons.1 h with rfl | h
      · exact .inr (List.mem_cons_self ..)
      · exact (ih h).imp_right (List.mem_cons_of_mem _)

/-- A member that is put in keeps the order. -/
theorem sorted_insertMember (key : String) (value : Value) {members : List (String × Value)}
    (h : Sorted members) : Sorted (insertMember key value members) := by
  induction members with
  | nil => exact List.pairwise_singleton _ _
  | cons first rest ih =>
    obtain ⟨k, v⟩ := first
    obtain ⟨hfirst, hrest⟩ := List.pairwise_cons.1 h
    rw [insertMember]
    split
    · rename_i heq
      subst heq
      exact List.pairwise_cons.2 ⟨hfirst, hrest⟩
    split
    · rename_i hlt
      refine List.pairwise_cons.2 ⟨fun m hm => ?_, h⟩
      rcases List.mem_cons.1 hm with rfl | hm
      · exact hlt
      · exact String.lt_trans hlt (hfirst m hm)
    · rename_i hne hnlt
      refine List.pairwise_cons.2 ⟨fun m hm => ?_, ih hrest⟩
      -- what is put in behind comes after the first key, and so does what was there
      rcases mem_insertMember hm with rfl | hm
      · exact lt_of_le_of_ne (not_lt.1 hnlt) (Ne.symm hne)
      · exact hfirst m hm

/-- Members are put in one after the other, the last of them last. -/
theorem sortMembers_concat (members : List (String × Value)) (m : String × Value) :
    sortMembers (members ++ [m]) = insertMember m.1 m.2 (sortMembers members) := by
  simp [sortMembers, List.foldl_append]

/-- So they come to be in order. -/
theorem sorted_sortMembers (members : List (String × Value)) : Sorted (sortMembers members) := by
  induction members using List.reverseRecOn with
  | nil => exact List.Pairwise.nil
  | append_singleton members m ih =>
    rw [sortMembers_concat]
    exact sorted_insertMember m.1 m.2 ih

/-- What is found in an object is the last of the members with a key. -/
theorem lookup_sortMembers (members : List (String × Value)) (key : String) :
    (sortMembers members).lookup key = members.reverse.lookup key := by
  -- a member put in last overrides those of its key
  induction members using List.reverseRecOn with
  | nil => rfl
  | append_singleton members m ih =>
    rw [sortMembers_concat, lookup_insertMember, List.reverse_append, List.reverse_singleton,
      List.singleton_append, List.lookup_cons, ih]
    by_cases hkey : key = m.1
    · simp [hkey]
    · simp [hkey, beq_eq_false_iff_ne.2 hkey]

/-- In sorted members those of a key are found by it. -/
theorem Sorted.mem_iff {members : List (String × Value)} (h : Sorted members) {m : String × Value} :
    m ∈ members ↔ members.lookup m.1 = some m.2 := by
  induction members with
  | nil => simp
  | cons first rest ih =>
    obtain ⟨hfirst, hrest⟩ := List.pairwise_cons.1 h
    rw [List.mem_cons, List.lookup_cons, ih hrest]
    by_cases hkey : m.1 = first.1
    · -- a member of the same key behind the first one would be out of order
      have hnot : rest.lookup m.1 ≠ some m.2 := fun hfound => by
        have hlt := hfirst m ((ih hrest).2 hfound)
        rw [hkey] at hlt
        exact String.lt_irrefl _ hlt
      simp [hkey, Prod.ext_iff, hkey ▸ hnot, eq_comm]
    · simp [beq_eq_false_iff_ne.2 hkey, Prod.ext_iff, hkey]

/-- Sorted members are told by what is found in them. -/
theorem Sorted.eq_of_lookup_eq {members members' : List (String × Value)} (h : Sorted members)
    (h' : Sorted members') (hlookup : ∀ key, members.lookup key = members'.lookup key) :
    members = members' := by
  have hnodup : ∀ {ms : List (String × Value)}, Sorted ms → ms.Nodup := fun hms =>
    hms.imp fun hlt heq => by rw [heq] at hlt; exact String.lt_irrefl _ hlt
  -- they have the same members, and there is one order for these
  apply List.Perm.eq_of_pairwise _ h h'
  · rw [List.perm_ext_iff_of_nodup (hnodup h) (hnodup h')]
    intro m
    rw [h.mem_iff, h'.mem_iff, hlookup]
  · intro a b _ _ hab hba
    exact absurd (String.lt_trans hab hba) (String.lt_irrefl _)

/-- So an object is told by the last member of each key. -/
theorem ofMembers_eq {members members' : List (String × Value)}
    (h : ∀ key, members.reverse.lookup key = members'.reverse.lookup key) :
    ofMembers members = ofMembers members' := by
  unfold ofMembers
  congr 1
  apply (sorted_sortMembers members).eq_of_lookup_eq (sorted_sortMembers members')
  intro key
  rw [lookup_sortMembers, lookup_sortMembers, h]

end Value

/-! ## Rearranged documents -/

/-- A document with its members in another order.  Members of one key keep their order, and one
    whose key comes again later may be left out, whatever it holds. -/
inductive Rearranged : Document → Document → Prop where
  | same (d : Document) : Rearranged d d
  | trans {d d' d'' : Document} : Rearranged d d' → Rearranged d' d'' → Rearranged d d''
  | items (items : List (Document × Document)) : (∀ i ∈ items, Rearranged i.1 i.2) →
      Rearranged (.array (items.map Prod.fst)) (.array (items.map Prod.snd))
  | members (members : List (String × Document × Document)) :
      (∀ m ∈ members, Rearranged m.2.1 m.2.2) →
      Rearranged (.object (members.map fun m => (m.1, m.2.1)))
        (.object (members.map fun m => (m.1, m.2.2)))
  | reordered {members members' : List (String × Document)} :
      (∀ key, members.filter (·.1 == key) = members'.filter (·.1 == key)) →
      Rearranged (.object members) (.object members')
  | overridden (before after : List (String × Document)) {key : String} {d : Document} :
      key ∈ after.map Prod.fst →
      Rearranged (.object (before ++ (key, d) :: after)) (.object (before ++ after))

/-- Two neighbours with different keys may change places. -/
theorem Rearranged.swap (before after : List (String × Document)) {m n : String × Document}
    (hne : m.1 ≠ n.1) :
    Rearranged (.object (before ++ m :: n :: after)) (.object (before ++ n :: m :: after)) := by
  apply Rearranged.reordered
  intro key
  rw [List.filter_append, List.filter_append]
  congr 1
  by_cases hm : m.1 = key
  · have hn : n.1 ≠ key := hm ▸ hne.symm
    simp [hm, hn]
  · simp [List.filter_cons, hm]

namespace Document

/-- The value of a member keeps its key. -/
theorem memberValue_fst {depth : Nat} {m : String × Document} {read : String × Value}
    (h : memberValue depth m = some read) : read.1 = m.1 := by
  obtain ⟨v, -, rfl⟩ := Option.map_eq_some_iff.1 h
  rfl

/-- The last member of a key is found among the members of that key. -/
private theorem lookup_reverse_filter (depth : Nat) (members : List (String × Document))
    (key : String) :
    ((members.filter (·.1 == key)).filterMap (memberValue depth)).reverse.lookup key =
      (members.filterMap (memberValue depth)).reverse.lookup key := by
  have hlookup : ∀ ms : List (String × Value),
      (ms.filter (·.1 == key)).lookup key = ms.lookup key := by
    intro ms
    induction ms with
    | nil => rfl
    | cons m ms ih =>
      obtain ⟨k, v⟩ := m
      by_cases hkey : key = k
      · simp [hkey]
      · rw [List.filter_cons_of_neg (by simpa using Ne.symm hkey), ih, List.lookup_cons,
          beq_eq_false_iff_ne.2 hkey]
  -- members of one key may be told apart before their values are taken
  have hfilter : (members.filter (·.1 == key)).filterMap (memberValue depth) =
      (members.filterMap (memberValue depth)).filter (·.1 == key) := by
    rw [List.filterMap_filter, List.filter_filterMap]
    apply List.filterMap_congr
    intro m _
    cases hread : memberValue depth m with
    | none => simp
    | some read => simp [Option.filter, memberValue_fst hread]
  rw [hfilter, ← List.filter_reverse, hlookup]

/-- A member that is overridden is not found. -/
private theorem lookup_reverse_overridden {depth : Nat} {before after : List (String × Document)}
    {key : String} (hkey : key ∈ after.map Prod.fst)
    (hafter : ∀ m ∈ after, (m.2.value? depth).isSome = true) (d : Document) (k : String) :
    ((before ++ (key, d) :: after).filterMap (memberValue depth)).reverse.lookup k =
      ((before ++ after).filterMap (memberValue depth)).reverse.lookup k := by
  rw [List.filterMap_append, List.filterMap_append]
  cases hread : memberValue depth (key, d) with
  | none => rw [List.filterMap_cons_none hread]
  | some read =>
    obtain ⟨fst, v⟩ := read
    have hfst : fst = key := memberValue_fst hread
    rw [List.filterMap_cons_some hread, List.reverse_append, List.reverse_append, List.reverse_cons,
      List.lookup_append, List.lookup_append, List.lookup_append]
    by_cases hk : k = key
    · -- the member that comes later is found first
      obtain ⟨m, hm, hmkey⟩ := List.mem_map.1 hkey
      obtain ⟨v, hv⟩ := Option.isSome_iff_exists.1 (hafter m hm)
      have hfound : ((after.filterMap (memberValue depth)).reverse.lookup k).isSome = true := by
        rw [List.lookup_isSome_iff]
        refine ⟨(m.1, v), ?_, by simp [hk, hmkey]⟩
        rw [List.mem_reverse, List.mem_filterMap]
        exact ⟨m, hm, by simp [memberValue, hv]⟩
      obtain ⟨found, hfound⟩ := Option.isSome_iff_exists.1 hfound
      rw [hfound]
      rfl
    · have hother : [(fst, v)].lookup k = none := by simp [hfst, hk]
      rw [hother, Option.or_none]

end Document

open Document in
/-- A rearranged document has the same value, wherever the document has one. -/
theorem Rearranged.value?_eq {d d' : Document} (h : Rearranged d d') {depth : Nat} {v : Value}
    (hv : d.value? depth = some v) : d'.value? depth = some v := by
  -- moving members and leaving some out keeps their values, and the last one of each key
  induction h generalizing depth v with
  | same d => exact hv
  | trans _ _ ih ih' => exact ih' (ih hv)
  | items items _ ih =>
    obtain ⟨below, rfl, hall, rfl⟩ := value?_array_eq_some_iff.1 hv
    have hsame : ∀ i ∈ items, i.2.value? below = i.1.value? below := by
      intro i hi
      obtain ⟨v, hv⟩ := Option.isSome_iff_exists.1 (hall i.1 (List.mem_map_of_mem hi))
      rw [hv, ih i hi hv]
    refine value?_array_eq_some_iff.2 ⟨below, rfl, ?_, ?_⟩
    · intro i hi
      obtain ⟨i, hmem, rfl⟩ := List.mem_map.1 hi
      rw [hsame i hmem]
      exact hall i.1 (List.mem_map_of_mem hmem)
    · rw [List.filterMap_map, List.filterMap_map]
      exact congrArg _ (List.filterMap_congr hsame)
  | members members _ ih =>
    obtain ⟨below, rfl, hall, rfl⟩ := value?_object_eq_some_iff.1 hv
    have hsame : ∀ m ∈ members, m.2.2.value? below = m.2.1.value? below := by
      intro m hm
      obtain ⟨v, hv⟩ := Option.isSome_iff_exists.1
        (hall (m.1, m.2.1) (List.mem_map.2 ⟨m, hm, rfl⟩))
      rw [hv, ih m hm hv]
    refine value?_object_eq_some_iff.2 ⟨below, rfl, ?_, ?_⟩
    · intro m hm
      obtain ⟨m, hmem, rfl⟩ := List.mem_map.1 hm
      rw [hsame m hmem]
      exact hall (m.1, m.2.1) (List.mem_map.2 ⟨m, hmem, rfl⟩)
    · rw [List.filterMap_map, List.filterMap_map]
      refine congrArg _ (List.filterMap_congr fun m hm => ?_)
      simp only [Function.comp_apply, memberValue, hsame m hm]
  | @reordered members members' horder =>
    obtain ⟨below, rfl, hall, rfl⟩ := value?_object_eq_some_iff.1 hv
    refine value?_object_eq_some_iff.2 ⟨below, rfl, ?_, ?_⟩
    · intro m hm
      have hkey : m ∈ members.filter (·.1 == m.1) := by
        rw [horder]
        exact List.mem_filter.2 ⟨hm, by simp⟩
      exact hall m (List.mem_filter.1 hkey).1
    · apply Value.ofMembers_eq
      intro key
      rw [← lookup_reverse_filter, ← lookup_reverse_filter _ members, horder]
  | @overridden before after key d hkey =>
    obtain ⟨below, rfl, hall, rfl⟩ := value?_object_eq_some_iff.1 hv
    refine value?_object_eq_some_iff.2 ⟨below, rfl, ?_, ?_⟩
    · intro m hm
      apply hall m
      rcases List.mem_append.1 hm with hm | hm <;> simp [hm]
    · apply Value.ofMembers_eq
      intro k
      rw [lookup_reverse_overridden hkey]
      exact fun m hm => hall m (by simp [hm])

/-- A text that writes a rearranged document is read as the same value, provided that the text of
    the document is accepted. -/
theorem parse_eq_of_rearranged {d d' : Document} {text text' : String} (hd : Writes d text.toList)
    (hd' : Writes d' text'.toList) (h : Rearranged d d') {v : Value} (hv : parse text = .ok v) :
    parse text' = .ok v := by
  rw [parse_eq_ok_iff hd']
  exact h.value?_eq ((parse_eq_ok_iff hd).1 hv)

end TypeLeak.Json

namespace TypeLeak

open Json (Document Writes WritesKey Rearranged)

/-- The order of the members of a document does not matter, nor do members whose key comes again
    later: whatever is read from a text that is accepted, be it a content or a violation, is read
    from every text of the rearranged document. -/
theorem parse_rearranged {d d' : Document} {text text' : String} (hd : Writes d text.toList)
    (hd' : Writes d' text'.toList) (h : Rearranged d d')
    (haccepted : ∃ v, Json.parse text = .ok v) :
    Json.parse text' = Json.parse text ∧ Manifest.parse text' = Manifest.parse text ∧
      (∀ subject, Shape.parse SourceMap.decode subject text' =
        Shape.parse SourceMap.decode subject text) ∧
      ∀ subject, Shape.parse CompilerConfig.decode subject text' =
        Shape.parse CompilerConfig.decode subject text := by
  obtain ⟨v, hv⟩ := haccepted
  have hv' := Json.parse_eq_of_rearranged hd hd' h hv
  -- everything is read from the value, and that is the same
  have hshape : ∀ {α : Type} (decode : Json.Value → Except Violation α) (subject : String),
      Shape.parse decode subject text' = Shape.parse decode subject text := by
    intro α decode subject
    unfold Shape.parse
    rw [hv, hv']
  exact ⟨hv'.trans hv.symm, hshape _ _, hshape _, hshape _⟩

/-! ## Two texts of one manifest -/

/-- Dependencies with wrong versions. -/
def looseClass : Document :=
  .object [("b", .scalar (.bool true)), ("a", .scalar (.number (.integer 7)))]

/-- The same in order. -/
def orderedClass : Document :=
  .object [("a", .scalar (.number (.integer 7))), ("b", .scalar (.bool true))]

/-- A manifest with an entry point that is overridden. -/
def looseManifest : Document :=
  .object [("main", .scalar .null), ("dependencies", looseClass), ("main", .scalar (.bool false))]

/-- The same without it, in another order. -/
def orderedManifest : Document :=
  .object [("main", .scalar (.bool false)), ("dependencies", orderedClass)]

/-- The one manifest is the other one rearranged. -/
private theorem rearranged_looseManifest : Rearranged looseManifest orderedManifest := by
  -- the overridden entry point goes, the class is rearranged, and then it changes places
  apply Rearranged.trans (.overridden [] _ (by simp))
  apply Rearranged.trans (.members [("dependencies", looseClass, orderedClass),
    ("main", .scalar (.bool false), .scalar (.bool false))] ?_)
  · exact .swap [] [] (by decide)
  · intro m hm
    rcases List.mem_cons.1 hm with rfl | hm
    · exact .swap [] [] (by decide)
    · rw [List.mem_singleton.1 hm]
      exact .same _

/-- A key without blanks around it. -/
private theorem writesKey {key : String} {quoted : List Char}
    (h : Json.readString quoted = .ok (key, [])) : WritesKey key ('"' :: quoted) :=
  ⟨[], quoted, [], by decide, by decide, h, by simp⟩

/-- The first text writes the first manifest, without blanks. -/
private theorem writes_looseManifest : Writes looseManifest
    "\x7b\"main\":null,\"dependencies\":\x7b\"b\":true,\"a\":7\x7d,\"main\":false\x7d".toList := by
  -- the class inside is written first, for it to be a member of the whole
  have hclass : Writes looseClass "\x7b\"b\":true,\"a\":7\x7d".toList := by
    apply Writes.object [⟨"b", "\"b\"".toList, .scalar (.bool true), "true".toList⟩,
      ⟨"a", "\"a\"".toList, .scalar (.number (.integer 7)), "7".toList⟩] (by simp)
    · simp only [List.forall_mem_cons]
      exact ⟨writesKey rfl, writesKey rfl, by simp⟩
    · simp only [List.forall_mem_cons]
      exact ⟨.scalar rfl, .scalar rfl, by simp⟩
  apply Writes.object [⟨"main", "\"main\"".toList, .scalar .null, "null".toList⟩,
    ⟨"dependencies", "\"dependencies\"".toList, looseClass, "\x7b\"b\":true,\"a\":7\x7d".toList⟩,
    ⟨"main", "\"main\"".toList, .scalar (.bool false), "false".toList⟩] (by simp)
  · simp only [List.forall_mem_cons]
    exact ⟨writesKey rfl, writesKey rfl, writesKey rfl, by simp⟩
  · simp only [List.forall_mem_cons]
    exact ⟨.scalar rfl, hclass, .scalar rfl, by simp⟩

/-- The second one writes the second manifest, with blanks and an escape in a key. -/
private theorem writes_orderedManifest : Writes orderedManifest
    "\x7b \"m\\u0061in\" :false,\"dependencies\": \x7b\"a\":7,\"b\":true\x7d\x7d".toList := by
  have hclass : Writes orderedClass " \x7b\"a\":7,\"b\":true\x7d".toList := by
    apply Writes.blank_before (show Json.IsBlank [' '] by decide)
    apply Writes.object [⟨"a", "\"a\"".toList, .scalar (.number (.integer 7)), "7".toList⟩,
      ⟨"b", "\"b\"".toList, .scalar (.bool true), "true".toList⟩] (by simp)
    · simp only [List.forall_mem_cons]
      exact ⟨writesKey rfl, writesKey rfl, by simp⟩
    · simp only [List.forall_mem_cons]
      exact ⟨.scalar rfl, .scalar rfl, by simp⟩
  -- an escaped key is the same key
  have hmain : WritesKey "main" " \"m\\u0061in\" ".toList :=
    ⟨[' '], "m\\u0061in\"".toList, [' '], by decide, by decide, rfl, rfl⟩
  apply Writes.object [⟨"main", " \"m\\u0061in\" ".toList, .scalar (.bool false), "false".toList⟩,
    ⟨"dependencies", "\"dependencies\"".toList, orderedClass,
      " \x7b\"a\":7,\"b\":true\x7d".toList⟩] (by simp)
  · simp only [List.forall_mem_cons]
    exact ⟨hmain, writesKey rfl, by simp⟩
  · simp only [List.forall_mem_cons]
    exact ⟨.scalar rfl, hclass, by simp⟩

/-- Both texts have the violation of the wrong version that comes first in the order of the keys. -/
theorem parse_rearranged_loose :
    let text := "\x7b\"main\":null,\"dependencies\":\x7b\"b\":true,\"a\":7\x7d,\"main\":false\x7d"
    let text' := "\x7b \"m\\u0061in\" :false,\"dependencies\": \x7b\"a\":7,\"b\":true\x7d\x7d"
    (Writes looseManifest text.toList ∧ Writes orderedManifest text'.toList ∧
        Rearranged looseManifest orderedManifest ∧ ∃ v, Json.parse text = .ok v) ∧
      Manifest.parse text' =
        .error ⟨"package.json", ["invalid type: integer `7`, expected a string"]⟩ := by
  intro text text'
  -- the text is valid JSON, although it is no manifest
  have haccepted : ∃ v, Json.parse text = .ok v :=
    ⟨_, (Json.parse_eq_ok_iff writes_looseManifest).2 rfl⟩
  refine ⟨⟨writes_looseManifest, writes_orderedManifest, rearranged_looseManifest, haccepted⟩, ?_⟩
  rw [(parse_rearranged writes_looseManifest writes_orderedManifest rearranged_looseManifest
    haccepted).2.1]
  decide +kernel

end TypeLeak
