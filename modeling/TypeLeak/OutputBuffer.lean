import TypeLeak.Report

/-! # Buffered output

What is written waits in a buffer until it is asked for, or until there is no room for more.  A
program that returns has its buffer emptied; one that exits at once loses what still waits.

* `contents_puts`      what has reached the output, and then what waits, is what was written
* `leave_puts_flush`   nothing is lost that was asked to be shown
-/

namespace TypeLeak

open Text (Span)

/-- How many bytes can wait. -/
def OutputBuffer.capacity : Nat := 8192

/-- A buffer in front of an output: what the output has, and what waits. -/
structure OutputBuffer where
  reached : String
  waiting : String
  fits : waiting.utf8ByteSize ≤ OutputBuffer.capacity

/-- How a program ends. -/
inductive Leaving where
  /-- from its main function -/
  | returns
  /-- at once, wherever it is -/
  | exits
  deriving Repr, DecidableEq

namespace OutputBuffer

/-- Nothing is written yet. -/
def empty : OutputBuffer := ⟨"", "", Nat.zero_le _⟩

/-- Everything written so far. -/
def contents (b : OutputBuffer) : String := b.reached ++ b.waiting

/-- Pass everything on. -/
def flush (b : OutputBuffer) : OutputBuffer := ⟨b.contents, "", Nat.zero_le _⟩

/-- Write a text.  It waits if it is shorter than the whole buffer, and what already waits is passed
on if there is no room for both. -/
def write (b : OutputBuffer) (text : String) : OutputBuffer :=
  if hlong : capacity ≤ text.utf8ByteSize then ⟨b.contents ++ text, "", Nat.zero_le _⟩
  else if hroom : (b.waiting ++ text).utf8ByteSize ≤ capacity then
    ⟨b.reached, b.waiting ++ text, hroom⟩
  else ⟨b.contents, text, Nat.le_of_not_le hlong⟩

/-- One step of a report. -/
def put (colour : Bool) (b : OutputBuffer) : Output → OutputBuffer
  | .text spans => spans.foldl (fun b s => b.write (Text.render colour [s])) b
  | .flush => b.flush

/-- A whole report. -/
def puts (colour : Bool) (b : OutputBuffer) (report : List Output) : OutputBuffer :=
  report.foldl (put colour) b

/-- What the output has once the program has left. -/
def leave (b : OutputBuffer) : Leaving → String
  | .returns => b.flush.reached
  | .exits => b.reached

/-- At first nothing is written. -/
@[simp] theorem contents_empty : empty.contents = "" := rfl

/-- Passing on writes nothing. -/
@[simp] theorem contents_flush (b : OutputBuffer) : b.flush.contents = b.contents := by
  simp [flush, contents]

/-- However the room turns out, a text comes behind what is written. -/
theorem contents_write (b : OutputBuffer) (text : String) :
    (b.write text).contents = b.contents ++ text := by
  unfold write
  -- a long text passes on what waits before it, and so does one that does not fit
  split
  · simp [contents]
  · split <;> simp [contents, String.append_assoc]

/-- So do the texts of a line, one after the other. -/
theorem contents_writes (colour : Bool) (b : OutputBuffer) (spans : List Span) :
    (spans.foldl (fun b s => b.write (Text.render colour [s])) b).contents =
      b.contents ++ Text.render colour spans := by
  induction spans generalizing b with
  | nil => simp [Text.render]
  | cons s spans ih =>
    rw [List.foldl_cons, ih, contents_write, String.append_assoc, ← Text.render_append]
    rfl

/-- And so does every step of a report. -/
theorem contents_put (colour : Bool) (b : OutputBuffer) (o : Output) :
    (b.put colour o).contents = b.contents ++ Report.written colour [o] := by
  cases o with
  | flush => simp [put]
  | text spans => simpa [put, Report.written] using contents_writes colour b spans

/-- What has reached the output, and then what waits, is what was written. -/
theorem contents_puts (colour : Bool) (b : OutputBuffer) (report : List Output) :
    (b.puts colour report).contents = b.contents ++ Report.written colour report := by
  induction report generalizing b with
  | nil => simp [puts, Report.written, Text.render]
  | cons o report ih =>
    show ((b.put colour o).puts colour report).contents = _
    -- what the first step writes stands before what the others do
    rw [ih, contents_put, String.append_assoc, ← Report.written_append]
    rfl

/-- Reports may be written in parts. -/
theorem puts_append (colour : Bool) (b : OutputBuffer) (first second : List Output) :
    b.puts colour (first ++ second) = (b.puts colour first).puts colour second :=
  List.foldl_append

/-- Nothing waits behind a request to be shown. -/
theorem waiting_puts_flush (colour : Bool) (b : OutputBuffer) (report : List Output) :
    (b.puts colour (report ++ [.flush])).waiting = "" := by
  rw [puts_append]
  rfl

/-- A program loses nothing if nothing waits when it leaves. -/
theorem leave_of_waiting_eq {b : OutputBuffer} (h : b.waiting = "") (leaving : Leaving) :
    b.leave leaving = b.contents := by
  cases leaving with
  | returns => rfl
  | exits => simp [leave, contents, h]

/-- A program loses nothing, however it leaves, if it asked for all of it to be shown. -/
theorem leave_puts_flush (colour : Bool) (report : List Output) (leaving : Leaving) :
    (empty.puts colour (report ++ [.flush])).leave leaving = Report.written colour report := by
  rw [leave_of_waiting_eq (waiting_puts_flush colour empty report), contents_puts,
    Report.written_append, Report.written_flush]
  simp

/-- A program that exits at once loses what it did not ask to be shown. -/
example : (empty.puts false (Report.info "a")).leave .exits = "" := by decide

end OutputBuffer

end TypeLeak
