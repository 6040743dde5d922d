import TypeLeak.Binary64

/-! # Similar words

The Jaro similarity of two words counts the letters that they share at nearly the same places,
and those of them that are out of order.  Two words are compared by the mean of the shared parts
of each and of the ordered part of what they share, computed in binary floating point.
-/

namespace TypeLeak.CommandLine.Similarity

/-- The letters with the first free `c` at a place from `low` to before `high` taken. -/
def takeLetter (c : Char) (low high : Nat) :
    (place : Nat) → List (Char × Bool) → Option (List (Char × Bool))
  | _, [] => none
  | place, (d, taken) :: rest =>
    if high ≤ place then none
    else if low ≤ place ∧ c = d ∧ !taken then some ((d, true) :: rest)
    else (takeLetter c low high (place + 1) rest).map ((d, taken) :: ·)

/-- The letters of the first word that the second one has within `reach` places, and the second
    word with these letters taken. -/
def share (reach : Nat) :
    (place : Nat) → List Char → List (Char × Bool) → List Char × List (Char × Bool)
  | _, [], other => ([], other)
  | place, c :: cs, other =>
    match takeLetter c (place - reach) (place + reach + 1) 0 other with
    | none => share reach (place + 1) cs other
    | some other =>
      let (shared, other) := share reach (place + 1) cs other
      (c :: shared, other)

/-- A quotient in binary floating point. -/
def quotient (num den : Nat) : Magnitude := (Magnitude.nearest num den).getD .zero

/-- The mean of three numbers, added from the left. -/
def mean (x y z : Magnitude) : Magnitude :=
  let sum := (x.add y).bind (·.add z)
  (sum.bind (·.div (quotient 3 1))).getD .zero

/-- How similar two words are: 1 for the same letters in the same order, 0 for no shared letter. -/
def score (a b : List Char) : Magnitude :=
  if a = [] ∧ b = [] then quotient 1 1
  else
    let reach := max a.length b.length / 2 - 1
    let (shared, taken) := share reach 0 a (b.map fun c => (c, false))
    let sharedOfOther := (taken.filter Prod.snd).map Prod.fst
    -- two letters out of order make one transposition
    let displaced := (shared.zip sharedOfOther).countP (fun p => p.1 != p.2) / 2
    let count := shared.length
    if count = 0 then .zero
    else
      mean (quotient count a.length) (quotient count b.length)
        (quotient (count - displaced) count)

/-- The similarity that has to be exceeded for a word to be suggested. -/
def threshold : Magnitude := quotient 7 10

/-- The most similar of some words beyond the threshold, the last one of equally similar ones. -/
def mostSimilar {α : Type} (text : α → String) (word : String) (candidates : List α) : Option α :=
  let scored := candidates.map fun c => (score word.toList (text c).toList, c)
  let best := scored.foldl (fun best s =>
    if !threshold.isBelow s.1 then best
    else match best with
      -- of equally similar ones the later one takes over
      | some (b : Magnitude × α) => if s.1.isBelow b.1 then some b else some s
      | none => some s) none
  best.map Prod.snd

end TypeLeak.CommandLine.Similarity
