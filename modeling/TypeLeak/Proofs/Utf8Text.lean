import TypeLeak.Text.Utf8

/-!
# Text that survives as bytes

The bytes of a text are read back as that text.  A character of two, three or four bytes is taken
apart into a leading number and tails of six bits each, and the machine puts these together again
one tail at a time, so that its value is always the character shifted by the tails still missing.

## Key results

- `run_encodeChar`: the bytes of a character make the machine give exactly that character
- `decode?_encode`: the bytes of a text are read as that text
-/

namespace TypeLeak.Text.Utf8

/-- What a leading byte of two makes the machine wait for. -/
private theorem start_two : ∀ lead < 32, 2 ≤ lead →
    start (UInt8.ofNat (lead + 0xC0)) = ([], some ⟨lead, 1, 0x80, 0xBF⟩) := by
  decide

/-- A leading byte of three.  The first tail is bounded so that no shorter form and no surrogate
    is read. -/
private theorem start_three : ∀ lead < 16,
    start (UInt8.ofNat (lead + 0xE0)) =
      ([], some ⟨lead, 2, if lead = 0 then 0xA0 else 0x80, if lead = 0xD then 0x9F else 0xBF⟩) := by
  decide

/-- A leading byte of four, with the same for shorter forms and numbers beyond the last
    character. -/
private theorem start_four : ∀ lead < 5,
    start (UInt8.ofNat (lead + 0xF0)) =
      ([], some ⟨lead, 3, if lead = 0 then 0x90 else 0x80, if lead = 4 then 0x8F else 0xBF⟩) := by
  decide

/-- What a tail in range makes of the bits read so far. -/
private theorem step_tail {value missing tail : Nat} {low high : UInt8} (htail : tail < 64)
    (hlow : low.toNat ≤ tail + 0x80) (hhigh : tail + 0x80 ≤ high.toNat) :
    step (some ⟨value, missing, low, high⟩) (UInt8.ofNat (tail + 0x80)) =
      if missing ≤ 1 then ([some (Char.ofNat (value * 64 + tail))], none)
      else ([], some ⟨value * 64 + tail, missing - 1, 0x80, 0xBF⟩) := by
  generalize hb : UInt8.ofNat (tail + 0x80) = b
  have hnat : b.toNat = tail + 0x80 := by
    rw [← hb, UInt8.toNat_ofNat']
    omega
  have hrange : low ≤ b ∧ b ≤ high := by
    rw [UInt8.le_iff_toNat_le, UInt8.le_iff_toNat_le, hnat]
    exact ⟨hlow, hhigh⟩
  simp [step, hrange, hnat]

/-- A tail goes behind the bits read so far. -/
private theorem run_tail {value missing tail : Nat} {low high : UInt8} (htail : tail < 64)
    (hlow : low.toNat ≤ tail + 0x80) (hhigh : tail + 0x80 ≤ high.toNat) (bs : List UInt8) :
    run (some ⟨value, missing + 2, low, high⟩) (UInt8.ofNat (tail + 0x80) :: bs) =
      run (some ⟨value * 64 + tail, missing + 1, 0x80, 0xBF⟩) bs := by
  rw [run, step_tail htail hlow hhigh, if_neg (by omega)]
  rfl

/-- The last tail ends the character. -/
private theorem run_lastTail {value tail : Nat} {low high : UInt8} (htail : tail < 64)
    (hlow : low.toNat ≤ tail + 0x80) (hhigh : tail + 0x80 ≤ high.toNat) :
    run (some ⟨value, 1, low, high⟩) [UInt8.ofNat (tail + 0x80)] =
      ([some (Char.ofNat (value * 64 + tail))], none) := by
  rw [run, step_tail htail hlow hhigh, if_pos (Nat.le_refl 1)]
  rfl

private theorem run_lead {b : UInt8} {p : Pending} (h : start b = ([], some p)) (bs : List UInt8) :
    run none (b :: bs) = run (some p) bs := by
  simp [run, step, h]

/-- Tails that are not the first one are in the range that the machine allows. -/
private theorem tail_in_range {tail : Nat} (htail : tail < 64) :
    (0x80 : UInt8).toNat ≤ tail + 0x80 ∧ tail + 0x80 ≤ (0xBF : UInt8).toNat := by
  show 128 ≤ tail + 0x80 ∧ tail + 0x80 ≤ 191
  omega

/-- The bytes of a character make the machine give exactly that character. -/
theorem run_encodeChar (c : Char) : run none (String.utf8EncodeChar c) = ([some c], none) := by
  have hchar : ∀ n, n = c.toNat → Char.ofNat n = c := by
    rintro n rfl
    exact Char.ofNat_toNat c
  -- a character is no surrogate and not beyond the last one
  have hvalid : c.toNat < 0xD800 ∨ (0xDFFF < c.toNat ∧ c.toNat < 0x110000) := c.valid
  have hval : c.val.toNat = c.toNat := rfl
  unfold String.utf8EncodeChar
  rw [hval]
  dsimp only
  -- one case for each number of bytes
  split
  · rename_i hone
    have hnat : (UInt8.ofNat c.toNat).toNat = c.toNat := by
      rw [UInt8.toNat_ofNat']
      omega
    have hascii : UInt8.ofNat c.toNat < 0x80 := by
      rw [UInt8.lt_iff_toNat_lt, hnat]
      show c.toNat < 128
      omega
    simp only [run, step, start, hascii, if_true, hnat, List.append_nil]
    rw [hchar _ rfl]
  split
  · rename_i hone htwo
    have hlead : c.toNat / 64 % 0x20 = c.toNat / 64 := by omega
    have hbits := hchar (c.toNat / 64 * 64 + c.toNat % 64) (by omega)
    have hlast : c.toNat % 64 < 64 := by omega
    obtain ⟨hlow, hhigh⟩ := tail_in_range hlast
    rw [hlead, run_lead (start_two _ (by omega) (by omega)), run_lastTail hlast hlow hhigh, hbits]
  split
  · rename_i hone htwo hthree
    have hlead : c.toNat / 4096 % 0x10 = c.toNat / 4096 := by omega
    have hbits := hchar ((c.toNat / 4096 * 64 + c.toNat / 64 % 64) * 64 + c.toNat % 64) (by omega)
    -- the first tail is above the shorter forms and below the surrogates
    have hlow : (if c.toNat / 4096 = 0 then 0xA0 else 0x80 : UInt8).toNat ≤
        c.toNat / 64 % 64 + 0x80 := by
      split
      · show 160 ≤ _
        omega
      · show 128 ≤ _
        omega
    have hhigh : c.toNat / 64 % 64 + 0x80 ≤
        (if c.toNat / 4096 = 0xD then 0x9F else 0xBF : UInt8).toNat := by
      split
      · show _ ≤ 159
        omega
      · show _ ≤ 191
        omega
    have hlast : c.toNat % 64 < 64 := by omega
    obtain ⟨hlow', hhigh'⟩ := tail_in_range hlast
    rw [hlead, run_lead (start_three _ (by omega)), run_tail (by omega) hlow hhigh,
      run_lastTail hlast hlow' hhigh', hbits]
  · rename_i hone htwo hthree
    have hlead : c.toNat / 262144 % 0x08 = c.toNat / 262144 := by omega
    have hbits := hchar
      (((c.toNat / 262144 * 64 + c.toNat / 4096 % 64) * 64 + c.toNat / 64 % 64) * 64 +
        c.toNat % 64) (by omega)
    -- the first tail is above the shorter forms and not beyond the last character
    have hlow : (if c.toNat / 262144 = 0 then 0x90 else 0x80 : UInt8).toNat ≤
        c.toNat / 4096 % 64 + 0x80 := by
      split
      · show 144 ≤ _
        omega
      · show 128 ≤ _
        omega
    have hhigh : c.toNat / 4096 % 64 + 0x80 ≤
        (if c.toNat / 262144 = 4 then 0x8F else 0xBF : UInt8).toNat := by
      split
      · show _ ≤ 143
        omega
      · show _ ≤ 191
        omega
    have hmiddle : c.toNat / 64 % 64 < 64 := by omega
    obtain ⟨hlow', hhigh'⟩ := tail_in_range hmiddle
    have hlast : c.toNat % 64 < 64 := by omega
    obtain ⟨hlow'', hhigh''⟩ := tail_in_range hlast
    rw [hlead, run_lead (start_four _ (by omega)), run_tail (by omega) hlow hhigh,
      run_tail hmiddle hlow' hhigh', run_lastTail hlast hlow'' hhigh'', hbits]

/-- The machine gives the characters of a text, and nothing is left unfinished. -/
theorem run_encode (cs : List Char) :
    run none (cs.flatMap String.utf8EncodeChar) = (cs.map some, none) := by
  induction cs with
  | nil => rfl
  | cons c cs ih => rw [List.flatMap_cons, run_append, run_encodeChar, ih, List.map_cons]; rfl

/-- The bytes of a text are read as that text. -/
theorem decode?_encode (s : String) : decode? (encode s) = some s := by
  have hmap : ∀ cs : List Char, (cs.map some).mapM id = some cs := by
    intro cs
    induction cs with
    | nil => rfl
    | cons c cs ih => simp [ih]
  unfold decode? decode encode
  rw [run_encode]
  simp [finish, hmap, String.ofList_toList]

end TypeLeak.Text.Utf8
