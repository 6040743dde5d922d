/-! # UTF-8

Bytes are decoded by a machine that takes one byte at a time.  It is either ready for a new
character or in the middle of one, and then knows how many bytes are missing and in which range
the next one has to lie.  A byte outside that range ends the unfinished character, which is
reported once, and is then looked at afresh: so every maximal part that cannot be the beginning
of a character is reported exactly once.

The machine's output has `none` for a faulty part.  The strict reader refuses a text with one;
the lossy reader writes U+FFFD for each.

* `run_append`   a run over two pieces is a run over the first and, from where it ends, the second
* `run_ascii`    an ASCII byte always ends what was unfinished and stands for itself
-/

namespace TypeLeak.Text.Utf8

/-- The bytes of a text. -/
def encode (s : String) : List UInt8 := s.toList.flatMap String.utf8EncodeChar

/-- A character whose first bytes have been read. -/
structure Pending where
  /-- the bits read so far -/
  value : Nat
  /-- how many bytes are still missing, at least one -/
  missing : Nat
  /-- the smallest byte that can follow -/
  low : UInt8
  /-- the greatest byte that can follow -/
  high : UInt8
  deriving Repr, DecidableEq

/-- What a byte gives when no character is unfinished. -/
def start (b : UInt8) : List (Option Char) × Option Pending :=
  if b < 0x80 then ([some (Char.ofNat b.toNat)], none)
  else if 0xC2 ≤ b ∧ b ≤ 0xDF then ([], some ⟨b.toNat - 0xC0, 1, 0x80, 0xBF⟩)
  else if b = 0xE0 then ([], some ⟨0, 2, 0xA0, 0xBF⟩)
  else if b = 0xED then ([], some ⟨0xD, 2, 0x80, 0x9F⟩)
  else if 0xE1 ≤ b ∧ b ≤ 0xEF then ([], some ⟨b.toNat - 0xE0, 2, 0x80, 0xBF⟩)
  else if b = 0xF0 then ([], some ⟨0, 3, 0x90, 0xBF⟩)
  else if 0xF1 ≤ b ∧ b ≤ 0xF3 then ([], some ⟨b.toNat - 0xF0, 3, 0x80, 0xBF⟩)
  else if b = 0xF4 then ([], some ⟨4, 3, 0x80, 0x8F⟩)
  else ([none], none)

/-- What a byte gives in either state. -/
def step (state : Option Pending) (b : UInt8) : List (Option Char) × Option Pending :=
  match state with
  | none => start b
  | some p =>
    if p.low ≤ b ∧ b ≤ p.high then
      let value := p.value * 64 + (b.toNat - 0x80)
      if p.missing ≤ 1 then ([some (Char.ofNat value)], none)
      else ([], some ⟨value, p.missing - 1, 0x80, 0xBF⟩)
    else
      let (out, state) := start b
      (none :: out, state)

/-- The output over a list of bytes and the state after the last one. -/
def run (state : Option Pending) : List UInt8 → List (Option Char) × Option Pending
  | [] => ([], state)
  | b :: bs =>
    let (out, state) := step state b
    let (outs, last) := run state bs
    (out ++ outs, last)

/-- An unfinished character at the end is a faulty part. -/
def finish : Option Pending → List (Option Char)
  | none => []
  | some _ => [none]

/-- The characters and faulty parts of a list of bytes. -/
def decode (bytes : List UInt8) : List (Option Char) :=
  let (out, last) := run none bytes
  out ++ finish last

/-- The text of the bytes, with U+FFFD for each faulty part. -/
def decodeLossy (bytes : List UInt8) : String :=
  String.ofList ((decode bytes).map (·.getD '\ufffd'))

/-- The text of the bytes, if no part is faulty. -/
def decode? (bytes : List UInt8) : Option String :=
  ((decode bytes).mapM id).map String.ofList

theorem run_append (state : Option Pending) (xs ys : List UInt8) :
    run state (xs ++ ys) =
      ((run state xs).1 ++ (run (run state xs).2 ys).1, (run (run state xs).2 ys).2) := by
  induction xs generalizing state with
  | nil => simp [run]
  | cons x xs ih => simp [run, ih]

/-- An ASCII byte always ends what was unfinished and stands for itself. -/
theorem run_ascii (state : Option Pending) {b : UInt8} (hb : b < 0x80)
    (hlow : ∀ p, state = some p → 0x80 ≤ p.low) (bs : List UInt8) :
    run state (b :: bs) =
      (finish state ++ some (Char.ofNat b.toNat) :: (run none bs).1, (run none bs).2) := by
  cases state with
  | none => simp [run, step, start, hb, finish]
  | some p =>
    have hp : ¬ p.low ≤ b := by
      have h := hlow p rfl
      rw [UInt8.le_iff_toNat_le] at h ⊢
      rw [UInt8.lt_iff_toNat_lt] at hb
      omega
    simp [run, step, start, hb, hp, finish]

end TypeLeak.Text.Utf8
