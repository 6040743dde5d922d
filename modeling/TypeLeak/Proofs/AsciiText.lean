import Mathlib.Algebra.Ring.Nat
import TypeLeak.FileTree.Basic
import TypeLeak.Proofs.CutText
import TypeLeak.Proofs.Utf8Text

/-!
# ASCII in decoded bytes

A byte below 0x80 is a character of its own in every text, also next to bytes that are no text:
nothing that was left unfinished before it goes on behind it, and no character is read from other
bytes that could be taken for it.  So a text of the operating system is shown segment by segment,
and what shows a slash has one.

## Key results

- `run_beyondAscii`: the invariant of the decoder's machine
- `decodeLossy_append_ascii`: what comes before an ASCII byte and what comes after it are decoded
  apart
- `mem_of_mem_decodeLossy`: an ASCII character is only read from the byte that stands for it
- `eq_map_asciiByte`: what is shown as ASCII is ASCII
- `lossy_ofString`: a `String` is shown as it is
- `lossy_ofSegments`: segments are shown one by one
- `mem_lossy_iff`: an ASCII character is shown exactly where its byte stands
- `segments_ofString`: the segments of a `String`
-/

namespace TypeLeak

namespace Text.Utf8

/-- A character of one byte, other than NUL. -/
def IsAscii (c : Char) : Prop := c ≠ '\x00' ∧ c.toNat < 0x80

instance (c : Char) : Decidable (IsAscii c) := inferInstanceAs (Decidable (_ ∧ _))

/-- A text of ASCII characters only. -/
def IsAsciiText (s : String) : Prop := ∀ c ∈ s.toList, IsAscii c

-- the characters are looked at one by one, not all that there are
instance (s : String) : Decidable (IsAsciiText s) := List.decidableBAll _ s.toList

/-- The byte of an ASCII character. -/
def asciiByte (c : Char) : UInt8 := UInt8.ofNat c.toNat

/-! ## The machine beyond ASCII -/

/-- A character that has been begun is going to be one beyond ASCII, and no ASCII byte belongs to
    it. -/
def Pending.BeyondAscii (p : Pending) : Prop :=
  0x80 ≤ p.low ∧ 0x80 ≤ (p.value * 64 + (p.low.toNat - 0x80)) * 64 ^ (p.missing - 1)

instance (p : Pending) : Decidable p.BeyondAscii := inferInstanceAs (Decidable (_ ∧ _))

/-- What each byte gives when no character is unfinished. -/
private theorem start_byte : ∀ n < 256,
    (∀ p ∈ (start (UInt8.ofNat n)).2, p.BeyondAscii) ∧
      ∀ o ∈ (start (UInt8.ofNat n)).1, (o.map asciiByte).getD (UInt8.ofNat n) = UInt8.ofNat n := by
  -- 256 bytes, each looked at by itself
  decide +kernel

/-- A character is begun by a byte that leads to one beyond ASCII, and a character that a byte gives
    by itself has the byte's number. -/
theorem start_beyondAscii (b : UInt8) :
    (∀ p ∈ (start b).2, p.BeyondAscii) ∧ ∀ c, some c ∈ (start b).1 → asciiByte c = b := by
  obtain ⟨hpending, hchar⟩ := start_byte b.toNat b.toNat_lt
  rw [UInt8.ofNat_toNat] at hpending hchar
  exact ⟨hpending, fun c hc => hchar _ hc⟩

/-- No number beyond ASCII is that of an ASCII character. -/
theorem ofNat_ne_ascii {n : Nat} (h : 0x80 ≤ n) {c : Char} (hc : IsAscii c) : Char.ofNat n ≠ c := by
  intro heq
  by_cases hvalid : n.isValidChar
  · have hnat : (Char.ofNat n).toNat = n := by
      rw [Char.ofNat, dif_pos hvalid]
      rfl
    have hsmall := hc.2
    rw [heq] at hnat
    omega
  · -- a number that is no character's is read as NUL
    rw [Char.ofNat, dif_neg hvalid] at heq
    exact hc.1 heq.symm

/-- A byte leaves at most a character beyond ASCII unfinished, and gives an ASCII character only if
    it stands for it. -/
theorem step_beyondAscii {state : Option Pending} (hstate : ∀ p ∈ state, p.BeyondAscii)
    (b : UInt8) :
    (∀ p ∈ (step state b).2, p.BeyondAscii) ∧
      ∀ c, IsAscii c → some c ∈ (step state b).1 → asciiByte c = b := by
  cases state with
  | none =>
    obtain ⟨hpending, hchar⟩ := start_beyondAscii b
    exact ⟨hpending, fun c _ => hchar c⟩
  | some p =>
    obtain ⟨hlow, hvalue⟩ := hstate p rfl
    unfold step
    dsimp only
    split
    · rename_i hrange
      -- the byte adds at least as much to what has been read as the smallest one that could follow
      have hbyte : p.low.toNat ≤ b.toNat := UInt8.le_iff_toNat_le.1 hrange.1
      have hread : 0x80 ≤ (p.value * 64 + (b.toNat - 0x80)) * 64 ^ (p.missing - 1) :=
        hvalue.trans (Nat.mul_le_mul_right _ (by omega))
      split
      · -- the character is finished, with a number that is beyond ASCII
        rename_i hlast
        rw [show p.missing - 1 = 0 by omega, Nat.pow_zero, Nat.mul_one] at hread
        refine ⟨nofun, fun c hc hmem => ?_⟩
        rw [List.mem_singleton, Option.some.injEq] at hmem
        exact absurd hmem.symm (ofNat_ne_ascii hread hc)
      · -- one byte less is missing, and the bound moves on by one power of 64
        refine ⟨fun q hq => ?_, fun c _ hmem => absurd hmem List.not_mem_nil⟩
        rw [Option.mem_some_iff] at hq
        subst hq
        have hpow : p.missing - 1 = p.missing - 1 - 1 + 1 := by omega
        rw [hpow, Nat.pow_succ', ← Nat.mul_assoc] at hread
        have hzero : (0x80 : UInt8).toNat - 0x80 = 0 := rfl
        unfold Pending.BeyondAscii
        dsimp only
        rw [hzero, Nat.add_zero]
        exact ⟨UInt8.le_refl _, hread⟩
    · -- the unfinished character is faulty, and the byte is looked at afresh
      obtain ⟨hpending, hchar⟩ := start_beyondAscii b
      exact ⟨hpending, fun c _ hmem => hchar c ((List.mem_cons.1 hmem).resolve_left nofun)⟩

/-- The same holds of a run. -/
theorem run_beyondAscii {state : Option Pending} (hstate : ∀ p ∈ state, p.BeyondAscii)
    (bytes : List UInt8) :
    (∀ p ∈ (run state bytes).2, p.BeyondAscii) ∧
      ∀ c, IsAscii c → some c ∈ (run state bytes).1 → asciiByte c ∈ bytes := by
  -- the invariant is that of the character that is unfinished between two bytes
  induction bytes generalizing state with
  | nil => exact ⟨hstate, fun c _ hmem => absurd hmem List.not_mem_nil⟩
  | cons b bytes ih =>
    obtain ⟨hnext, hfirst⟩ := step_beyondAscii hstate b
    obtain ⟨hlast, hrest⟩ := ih hnext
    refine ⟨hlast, fun c hc hmem => ?_⟩
    rcases List.mem_append.1 hmem with hmem | hmem
    · exact hfirst c hc hmem ▸ List.mem_cons_self ..
    · exact List.mem_cons_of_mem _ (hrest c hc hmem)

/-! ## Decoding at an ASCII byte -/

/-- What comes before an ASCII byte and what comes after it are decoded apart: nothing that was left
    unfinished before it goes on behind it. -/
theorem decode_append_ascii (xs : List UInt8) {b : UInt8} (hb : b < 0x80) (ys : List UInt8) :
    decode (xs ++ b :: ys) = decode xs ++ some (Char.ofNat b.toNat) :: decode ys := by
  have hlow : ∀ p, (run none xs).2 = some p → 0x80 ≤ p.low := fun p hp =>
    ((run_beyondAscii (by simp) xs).1 p hp).1
  unfold decode
  simp only [run_append, run_ascii _ hb hlow]
  simp

/-- So they are shown apart, with the ASCII character between them. -/
theorem decodeLossy_append_ascii (xs : List UInt8) {b : UInt8} (hb : b < 0x80)
    (ys : List UInt8) :
    (decodeLossy (xs ++ b :: ys)).toList =
      (decodeLossy xs).toList ++ Char.ofNat b.toNat :: (decodeLossy ys).toList := by
  rw [decodeLossy, decode_append_ascii xs hb]
  simp [decodeLossy]

/-- An ASCII character is only read from the byte that stands for it. -/
theorem mem_of_mem_decodeLossy {c : Char} (hc : IsAscii c) {bytes : List UInt8}
    (h : c ∈ (decodeLossy bytes).toList) : asciiByte c ∈ bytes := by
  rw [decodeLossy, String.toList_ofList] at h
  obtain ⟨o, ho, heq⟩ := List.mem_map.1 h
  cases o with
  | none =>
    -- no faulty part is written as an ASCII character
    have hsmall := hc.2
    rw [← heq] at hsmall
    exact absurd hsmall (by decide)
  | some d =>
    rw [Option.getD_some] at heq
    subst heq
    rcases List.mem_append.1 ho with ho | ho
    · exact (run_beyondAscii (by simp) bytes).2 d hc ho
    · -- an unfinished character at the end is a faulty part
      cases hlast : (run none bytes).2 with
      | none => simp [hlast, finish] at ho
      | some p => simp [hlast, finish] at ho

/-- The bytes of a text are shown as that text. -/
theorem decodeLossy_encode (s : String) : decodeLossy (encode s) = s := by
  unfold decodeLossy decode encode
  rw [run_encode]
  simp [finish, Function.comp_def]

/-! ## ASCII in full -/

/-- The byte of an ASCII character has the character's number. -/
theorem toNat_asciiByte {c : Char} (hc : IsAscii c) : (asciiByte c).toNat = c.toNat := by
  have hsmall := hc.2
  rw [asciiByte, UInt8.toNat_ofNat', Nat.mod_eq_of_lt (by omega)]

/-- So it is below 0x80. -/
theorem asciiByte_lt {c : Char} (hc : IsAscii c) : asciiByte c < 0x80 := by
  rw [UInt8.lt_iff_toNat_lt, toNat_asciiByte hc]
  exact hc.2

/-- And the character is read from it again. -/
theorem ofNat_asciiByte {c : Char} (hc : IsAscii c) : Char.ofNat (asciiByte c).toNat = c := by
  rw [toNat_asciiByte hc, Char.ofNat_toNat]

/-- What comes out first where a character has been begun is no ASCII character: it is a character
    beyond ASCII or a faulty part. -/
private theorem exists_first_of_pending {p : Pending} (hp : p.BeyondAscii) (bytes : List UInt8) :
    ∃ o rest, (run (some p) bytes).1 ++ finish (run (some p) bytes).2 = o :: rest ∧
      ∀ c, IsAscii c → o ≠ some c := by
  -- on the bytes that come; at their end the unfinished character is a faulty part
  induction bytes generalizing p with
  | nil => exact ⟨none, [], rfl, nofun⟩
  | cons b bytes ih =>
    have hstate : ∀ q ∈ some p, q.BeyondAscii := by simpa using hp
    obtain ⟨hnext, hchar⟩ := step_beyondAscii hstate b
    rw [run]
    unfold step at hnext hchar ⊢
    dsimp only at hnext hchar ⊢
    split
    · rename_i hrange
      rw [if_pos hrange] at hnext hchar
      split
      · -- the byte ends the character, and does not stand for it
        rename_i hlast
        rw [if_pos hlast] at hchar
        refine ⟨_, _, rfl, fun c hc heq => ?_⟩
        have hbyte := hchar c hc (by rw [heq]; exact List.mem_singleton_self _)
        exact UInt8.not_lt.2 (UInt8.le_trans hp.1 hrange.1) (hbyte ▸ asciiByte_lt hc)
      · rename_i hmore
        rw [if_neg hmore] at hnext
        exact ih (hnext _ rfl)
    · -- the unfinished character is reported first
      exact ⟨none, _, rfl, nofun⟩

/-- A byte beyond ASCII belongs to no text or begins a character. -/
private theorem start_of_not_ascii {b : UInt8} (hb : ¬ b < 0x80) :
    start b = ([none], none) ∨ ∃ p, p.BeyondAscii ∧ start b = ([], some p) := by
  obtain ⟨hpending, -⟩ := start_beyondAscii b
  have hparts : start b = ([none], none) ∨ ∃ p, start b = ([], some p) := by
    unfold start
    rw [if_neg hb]
    repeat' split
    all_goals simp
  refine hparts.imp_right fun ⟨p, hp⟩ => ⟨p, ?_, hp⟩
  exact hpending p (by rw [hp]; rfl)

/-- What is shown as ASCII is made of the bytes of these characters. -/
theorem eq_map_asciiByte {bytes : List UInt8} {cs : List Char} (hcs : ∀ c ∈ cs, IsAscii c)
    (h : (decodeLossy bytes).toList = cs) : bytes = cs.map asciiByte := by
  have hfaulty : ¬ IsAscii '\ufffd' := by decide
  unfold decodeLossy decode at h
  rw [String.toList_ofList] at h
  -- a byte at a time, from a state in which nothing is unfinished
  induction bytes generalizing cs with
  | nil =>
    rw [← h]
    rfl
  | cons b bytes ih =>
    rw [run] at h
    have hone : step none b = start b := rfl
    dsimp only at h
    rw [hone, List.append_assoc] at h
    by_cases hb : b < 0x80
    · -- the byte is the first character, and the others are shown as the rest
      have hstart : start b = ([some (Char.ofNat b.toNat)], none) := by simp [start, hb]
      have hbyte := (start_beyondAscii b).2 (Char.ofNat b.toNat) (by simp [hstart])
      rw [hstart, List.singleton_append, List.map_cons, Option.getD_some] at h
      subst h
      rw [List.map_cons, hbyte, ← ih (fun c hc => hcs c (List.mem_cons_of_mem _ hc)) rfl]
    · -- something comes out first that is no ASCII character
      exfalso
      rcases start_of_not_ascii hb with hstart | ⟨p, hp, hstart⟩
      · rw [hstart, List.singleton_append, List.map_cons] at h
        exact hfaulty (hcs _ (h ▸ List.mem_cons_self ..))
      · obtain ⟨o, rest, hfirst, hbeyond⟩ := exists_first_of_pending hp bytes
        rw [hstart, List.nil_append, hfirst, List.map_cons] at h
        have hc := hcs _ (h ▸ List.mem_cons_self ..)
        cases o with
        | none => exact hfaulty hc
        | some c => exact hbeyond c hc rfl

/-- No bytes are shown as nothing. -/
theorem decodeLossy_eq_empty_iff {bytes : List UInt8} : decodeLossy bytes = "" ↔ bytes = [] := by
  refine ⟨fun h => ?_, fun h => by rw [h]; rfl⟩
  have hnone : (decodeLossy bytes).toList = [] := by rw [h]; rfl
  exact eq_map_asciiByte (List.forall_mem_nil _) hnone

/-- The bytes of two texts one after the other. -/
theorem encode_append (s t : String) : encode (s ++ t) = encode s ++ encode t := by
  simp [encode]

end Text.Utf8

/-! ## Showing texts of the operating system -/

namespace OsText

open Text.Utf8

/-- A `String` is shown as it is. -/
@[simp] theorem lossy_ofString (s : String) : (ofString s).lossy = s := decodeLossy_encode s

/-- Different strings are different texts. -/
@[simp] theorem ofString_inj {s t : String} : ofString s = ofString t ↔ s = t :=
  ⟨fun h => by rw [← lossy_ofString s, h, lossy_ofString], fun h => by rw [h]⟩

/-- The bytes of a text are those of a `String`. -/
def IsUtf8 (t : OsText) : Prop := ofString t.lossy = t

instance (t : OsText) : Decidable t.IsUtf8 := inferInstanceAs (Decidable (_ = _))

/-- Nothing is shown as nothing. -/
@[simp] theorem lossy_empty : empty.lossy = "" := rfl

/-- Only nothing is shown as nothing. -/
theorem lossy_eq_empty_iff {t : OsText} : t.lossy = "" ↔ t = empty := by
  unfold lossy
  rw [decodeLossy_eq_empty_iff]
  exact ⟨fun h => ext h, fun h => by rw [h]; rfl⟩

/-- The bytes of texts put together are put together. -/
theorem ofString_append (s t : String) : ofString (s ++ t) = ofString s ++ ofString t :=
  ext (encode_append s t)

/-- The bytes of pieces with slashes between them. -/
theorem ofString_intercalate (pieces : List String) :
    ofString ("/".intercalate pieces) = ofSegments (pieces.map ofString) := by
  induction pieces with
  | nil => rfl
  | cons first rest ih =>
    -- a slash stands only between two pieces
    cases rest with
    | nil => simp
    | cons second rest =>
      have hslash : ofString "/" = slash := rfl
      rw [String.intercalate_cons_cons, ofString_append, ofString_append, ih, hslash]
      exact (ofSegments_cons_cons ..).symm

/-- What stands before an ASCII byte is shown without regard to what stands behind it. -/
theorem lossy_append_ascii (s : OsText) {b : UInt8} (hb : b < 0x80) (t : OsText) :
    (s ++ ⟨[b]⟩ ++ t).lossy = s.lossy ++ String.singleton (Char.ofNat b.toNat) ++ t.lossy := by
  have hbytes : (s ++ ⟨[b]⟩ ++ t).bytes = s.bytes ++ b :: t.bytes := by simp
  apply String.toList_inj.1
  unfold lossy
  rw [hbytes, decodeLossy_append_ascii s.bytes hb]
  simp

/-- A slash is shown as a slash, and what is before and behind it apart. -/
theorem lossy_append_slash (s t : OsText) : (s ++ slash ++ t).lossy = s.lossy ++ "/" ++ t.lossy :=
  lossy_append_ascii s (by decide) t

/-- So is a dot. -/
theorem lossy_append_dot (s t : OsText) : (s ++ dot ++ t).lossy = s.lossy ++ "." ++ t.lossy :=
  lossy_append_ascii s (by decide) t

/-- Segments are shown one by one. -/
theorem lossy_ofSegments (pieces : List OsText) :
    (ofSegments pieces).lossy = "/".intercalate (pieces.map lossy) := by
  induction pieces with
  | nil => rfl
  | cons first rest ih =>
    cases rest with
    | nil => simp
    | cons second rest =>
      rw [ofSegments_cons_cons, lossy_append_slash, ih]
      simp [String.intercalate_cons_cons]

/-- ASCII is shown only by the bytes that stand for it. -/
theorem lossy_eq_iff_of_ascii {t : OsText} {s : String} (hs : IsAsciiText s) :
    t.lossy = s ↔ t = ofString s := by
  refine ⟨fun h => ?_, fun h => by rw [h, lossy_ofString]⟩
  have ht : t.bytes = s.toList.map asciiByte := eq_map_asciiByte hs (congrArg String.toList h)
  have hs' : (ofString s).bytes = s.toList.map asciiByte :=
    eq_map_asciiByte hs (congrArg String.toList (lossy_ofString s))
  exact ext (ht.trans hs'.symm)

/-- An ASCII character is shown exactly where its byte stands. -/
theorem mem_lossy_iff {c : Char} (hc : IsAscii c) {t : OsText} :
    c ∈ t.lossy.toList ↔ asciiByte c ∈ t.bytes := by
  constructor
  · exact mem_of_mem_decodeLossy hc
  · intro h
    -- the byte is decoded apart from those before and behind it
    obtain ⟨front, back, hbytes⟩ := List.append_of_mem h
    unfold lossy
    rw [hbytes, decodeLossy_append_ascii front (asciiByte_lt hc), ofNat_asciiByte hc]
    exact List.mem_append_right _ (List.mem_cons_self ..)

/-- A slash is shown exactly where the text has one. -/
theorem slash_mem_lossy_iff {t : OsText} : '/' ∈ t.lossy.toList ↔ slashByte ∈ t.bytes :=
  mem_lossy_iff (by decide)

/-- What is shown has slashes where the text has them. -/
theorem slash_mem_ofString_lossy_iff {t : OsText} :
    slashByte ∈ (ofString t.lossy).bytes ↔ slashByte ∈ t.bytes := by
  rw [← slash_mem_lossy_iff, lossy_ofString, slash_mem_lossy_iff]

/-- The text that is shown is empty only if the text is. -/
theorem ofString_lossy_eq_empty_iff {t : OsText} : ofString t.lossy = empty ↔ t = empty := by
  rw [← lossy_eq_empty_iff, lossy_ofString, lossy_eq_empty_iff]

/-- What segments are shown as is told by what they are shown as together. -/
theorem map_lossy_eq_of_intercalate_eq {pieces pieces' : List OsText}
    (h : ∀ piece ∈ pieces, piece ≠ empty ∧ slashByte ∉ piece.bytes)
    (h' : ∀ piece ∈ pieces', piece ≠ empty ∧ slashByte ∉ piece.bytes)
    (heq : "/".intercalate (pieces.map lossy) = "/".intercalate (pieces'.map lossy)) :
    pieces.map lossy = pieces'.map lossy := by
  -- what a segment is shown as is a segment too: it is not empty and holds no slash
  have hshown : ∀ {pieces : List OsText},
      (∀ piece ∈ pieces, piece ≠ empty ∧ slashByte ∉ piece.bytes) →
      ∀ piece ∈ (pieces.map lossy).map ofString, piece ≠ empty ∧ slashByte ∉ piece.bytes := by
    intro pieces h piece hpiece
    simp only [List.map_map, List.mem_map, Function.comp_apply] at hpiece
    obtain ⟨piece, hmem, rfl⟩ := hpiece
    rw [Ne, ofString_lossy_eq_empty_iff, slash_mem_ofString_lossy_iff]
    exact h piece hmem
  have hbytes := congrArg ofString heq
  rw [ofString_intercalate, ofString_intercalate] at hbytes
  exact List.map_injective_iff.2 (fun _ _ => ofString_inj.1)
    (eq_of_ofSegments_eq (hshown h) (hshown h') hbytes)

/-- Segments are told by what they are shown as, if that is ASCII. -/
theorem eq_of_intercalate_lossy_eq {pieces pieces' : List OsText}
    (h : ∀ piece ∈ pieces, piece ≠ empty ∧ slashByte ∉ piece.bytes)
    (h' : ∀ piece ∈ pieces', piece ≠ empty ∧ slashByte ∉ piece.bytes)
    (hascii : IsAsciiText (ofSegments pieces').lossy)
    (heq : "/".intercalate (pieces.map lossy) = (ofSegments pieces').lossy) : pieces = pieces' := by
  rw [← lossy_ofSegments, lossy_eq_iff_of_ascii hascii] at heq
  exact eq_of_ofSegments_eq h h' (heq.trans ((lossy_eq_iff_of_ascii hascii).1 rfl).symm)

end OsText

/-- What a location's path is shown as. -/
theorem Location.lossy_path (loc : Location) :
    loc.path.lossy = "/" ++ "/".intercalate (loc.map OsText.lossy) := by
  have hslash := OsText.lossy_append_slash .empty (.ofSegments loc)
  rw [OsText.empty_append, OsText.lossy_empty, String.empty_append,
    OsText.lossy_ofSegments] at hslash
  exact hslash

end TypeLeak
