import TypeLeak.Proofs.AsciiText
import TypeLeak.Proofs.CompilerLaunch

/-!
# Listings line by line

What the compiler prints is decoded as a whole and then divided into lines.  A line feed is a byte
of its own in every text, also next to bytes that are no text, so the division could as well be made
on the raw bytes: each line has its path, or none, by its own bytes alone, whatever the other lines
are made of.

## Key results

- `splitAt_decodeLossy`: dividing a decoded text at an ASCII character is dividing its bytes
- `listing_decodeLossy`: so a listing is made line by line
- `trace_lists_by_line`: a trace lists what the lines of the compiler's output have, one by one
-/

namespace TypeLeak

/-! ## Lines of bytes -/

open Text (splitAt)
open Text.Utf8 (decodeLossy IsAscii asciiByte)

/-- Dividing a decoded text at an ASCII character is dividing its bytes. -/
theorem Text.splitAt_decodeLossy {c : Char} (hc : IsAscii c) (bytes : List UInt8) :
    splitAt c (decodeLossy bytes) = (bytes.splitOn (asciiByte c)).map decodeLossy := by
  -- by the number of bytes, piece by piece
  induction hn : bytes.length using Nat.strongRecOn generalizing bytes with
  | ind n ih =>
    by_cases hmem : asciiByte c ∈ bytes
    · obtain ⟨first, rest, rfl, hfirst⟩ := List.eq_append_cons_of_mem hmem
      have hpiece : c ∉ (decodeLossy first).toList := fun h =>
        hfirst (Utf8.mem_of_mem_decodeLossy hc h)
      have hlen : rest.length < n := by
        rw [← hn, List.length_append, List.length_cons]
        omega
      have hsplit : splitAt c (decodeLossy (first ++ asciiByte c :: rest)) =
          splitAt c (decodeLossy first) ++ splitAt c (decodeLossy rest) := by
        unfold splitAt
        rw [Utf8.decodeLossy_append_ascii first (Utf8.asciiByte_lt hc), Utf8.ofNat_asciiByte hc,
          Text.cut_append _ _ (by simp), List.map_append]
      rw [hsplit, Text.splitAt_of_not_mem hpiece, ih _ hlen rest rfl,
        List.splitOn_append_cons_self_of_not_mem hfirst]
      rfl
    · have hpiece : c ∉ (decodeLossy bytes).toList := fun h =>
        hmem (Utf8.mem_of_mem_decodeLossy hc h)
      rw [Text.splitAt_of_not_mem hpiece, List.splitOn_eq_singleton hmem]
      rfl

/-- The path on one line of a compiler's output, or none on a blank one. -/
def listedOn (line : List UInt8) : List String :=
  let text := Text.trim (decodeLossy line)
  if text = "" then [] else [text]

/-- The listing of a whole output, from its bytes. -/
theorem listing_decodeLossy (bytes : List UInt8) :
    listing (decodeLossy bytes) = (bytes.splitOn 0x0A).flatMap listedOn := by
  have hfeed : (0x0A : UInt8) = asciiByte '\n' := rfl
  rw [listing_eq, Text.splitAt_decodeLossy (by decide), List.map_map, hfeed]
  induction bytes.splitOn (asciiByte '\n') with
  | nil => rfl
  | cons line lines ih =>
    rw [List.map_cons, List.flatMap_cons, List.filter_cons, ih]
    unfold listedOn
    by_cases hblank : Text.trim (decodeLossy line) = "" <;> simp [hblank]

/-- Two outputs that stand one after the other, with a line feed between them. -/
theorem listing_decodeLossy_append (xs ys : List UInt8) :
    listing (decodeLossy (xs ++ 0x0A :: ys)) =
      listing (decodeLossy xs) ++ listing (decodeLossy ys) := by
  have hjoined : decodeLossy (xs ++ 0x0A :: ys) = decodeLossy xs ++ "\n" ++ decodeLossy ys := by
    apply String.toList_inj.1
    rw [Text.Utf8.decodeLossy_append_ascii xs (by decide)]
    simp
  rw [hjoined, listing_append]

namespace World

open Transcript

variable {w : World} {toolchain : Toolchain} {root : Path} {command : CompilerCommand}
  {files : List String}

/-- A trace that launched the compiler ends as the compiler did. -/
theorem result_of_launched {invocation : Invocation} {t : FileTree}
    (h : (invocation, t) ∈ launches (w.trace toolchain root command files).events) :
    ∃ finished, toolchain invocation t = .ok finished ∧
      (w.trace toolchain root command files).result = finished.outcome command.display := by
  rcases w.launches_trace toolchain root command files with
    hnone | ⟨ready, launched, finished, hwrite, hlaunch, hone⟩
  · rw [hnone] at h
    exact absurd h List.not_mem_nil
  · -- without files nothing would have been launched
    have hfiles : files ≠ [] := by
      rintro rfl
      exact absurd hone (List.cons_ne_nil _ _).symm
    rw [hone, List.mem_singleton] at h
    cases h
    obtain ⟨-, -, -, hrun⟩ := of_launch hlaunch
    refine ⟨finished, hrun, ?_⟩
    unfold trace CompilerConfig.forFiles
    rw [if_neg hfiles]
    dsimp only
    rw [hwrite]
    dsimp only
    rw [hlaunch]
    rfl

/-- What a compiler that ended well has printed is listed line by line, each line by its own bytes:
    the text that these stand for, without the blanks around it, or nothing if that is empty.  So
    two outputs on lines of their own are listed as each of them is, one after the other. -/
theorem trace_lists_by_line (w : World) (toolchain : Toolchain) (root : Path)
    (command : CompilerCommand) (files : List String) (invocation : Invocation) (t : FileTree)
    (finished : Finished)
    (hlaunched : (invocation, t) ∈ launches (w.trace toolchain root command files).events)
    (hran : toolchain invocation t = .ok finished) (hstatus : finished.status = .code 0) :
    ∃ listed, (w.trace toolchain root command files).result = .ok (.listed listed) ∧
      listed = (finished.stdout.splitOn 0x0A).flatMap listedOn ∧
      ∀ xs ys, finished.stdout = xs ++ 0x0A :: ys →
        listed = listing (decodeLossy xs) ++ listing (decodeLossy ys) := by
  obtain ⟨ended, hended, hresult⟩ := result_of_launched hlaunched
  rw [hran] at hended
  cases hended
  -- on success the outcome is the listing of all that was printed, decoded as one text
  have houtcome : finished.outcome command.display =
      .ok (.listed (listing (decodeLossy finished.stdout))) := by
    unfold Finished.outcome
    rw [if_pos hstatus]
  refine ⟨listing (decodeLossy finished.stdout), hresult.trans houtcome,
    listing_decodeLossy finished.stdout, fun xs ys hjoined => ?_⟩
  rw [hjoined, listing_decodeLossy_append]

/-- Lines that end in the middle of a character, with a carriage return, and not at all.  Between
    them there is a blank one, and one begins with a byte that belongs to no text. -/
def mixedOutput : List UInt8 :=
  [0x2F, 0x61, 0xE2, 0x82, 0x0A] ++ [0x20, 0x0D, 0x0A] ++ [0xFF, 0x2F, 0x62, 0x0D, 0x0A] ++
    [0x2F, 0x63]

/-- A compiler that prints them and ends well. -/
def mixedToolchain : Toolchain := fun _ t => .ok ⟨mixedOutput, [], .code 0, t⟩

/-- The three lines that are not blank give a path each. -/
theorem trace_lists_by_line_mixed :
    (∃ invocation t, (invocation, t) ∈
        launches (nearProject.trace mixedToolchain ⟨"/p"⟩ ⟨"tsc", []⟩ ["a.ts"]).events ∧
      mixedToolchain invocation t = .ok ⟨mixedOutput, [], .code 0, t⟩) ∧
      (nearProject.trace mixedToolchain ⟨"/p"⟩ ⟨"tsc", []⟩ ["a.ts"]).result =
        .ok (.listed ["/a\ufffd", "\ufffd/b", "/c"]) := by
  have hlaunched : launches (nearProject.trace mixedToolchain ⟨"/p"⟩ ⟨"tsc", []⟩ ["a.ts"]).events ≠
      [] := by
    decide +kernel
  -- which invocation it was does not matter, since the compiler prints the same in each
  obtain ⟨⟨invocation, t⟩, hmem⟩ := List.exists_mem_of_ne_nil _ hlaunched
  refine ⟨⟨invocation, t, hmem, rfl⟩, ?_⟩
  obtain ⟨listed, hresult, hlines, -⟩ :=
    trace_lists_by_line nearProject mixedToolchain ⟨"/p"⟩ ⟨"tsc", []⟩ ["a.ts"] invocation t _ hmem
      rfl rfl
  have hpaths : (mixedOutput.splitOn 0x0A).flatMap listedOn = ["/a\ufffd", "\ufffd/b", "/c"] := by
    decide +kernel
  rw [hresult, hlines, ← hpaths]

end World

end TypeLeak
