/-! # Binary floating-point numbers

A finite number of the 64-bit binary format is `± mantissa · 2 ^ exponent`, with fewer than 54 bits
in the mantissa and no exponent below -1074.  Products and quotients are computed exactly and then
rounded once, to the nearest representable number, a tie to the even mantissa.

`shortest` gives the fewest decimal digits that still round to a number, and of those the nearest
to it; `text` writes them.
-/

namespace TypeLeak

/-- The size of a finite number: `mantissa · 2 ^ exponent`. -/
structure Magnitude where
  mantissa : Nat
  exponent : Int
  deriving Repr, DecidableEq

/-- A finite number of the 64-bit binary format; zero has a sign too. -/
structure Binary64 where
  negative : Bool
  magnitude : Magnitude
  deriving Repr, DecidableEq

namespace Magnitude

/-- A power of two. -/
def twoTo (n : Nat) : Nat := Nat.pow 2 n

/-- A power of ten. -/
def tenTo (n : Nat) : Nat := Nat.pow 10 n

/-- The exponent of the smallest positive number. -/
def minExponent : Int := -1074

/-- The exponent of the greatest numbers. -/
def maxExponent : Int := 971

/-- The number zero. -/
def zero : Magnitude := ⟨0, minExponent⟩

/-- The quotient rounded to the nearest integer, a tie to the even one. -/
def divNearest (num den : Nat) : Nat :=
  let q := num / den
  let r := num % den
  if 2 * r < den then q
  else if den < 2 * r then q + 1
  else if q % 2 = 0 then q else q + 1

/-- `num / den` as a quotient of naturals after division by `2 ^ e`. -/
def scaled (num den : Nat) (e : Int) : Nat × Nat :=
  if 0 ≤ e then (num, den * twoTo e.toNat) else (num * twoTo (-e).toNat, den)

/-- The number nearest to `num / den`, unless that lies beyond all finite numbers. -/
def nearest (num den : Nat) : Option Magnitude :=
  if num = 0 then some zero
  else
    let guess := max ((num.log2 : Int) - den.log2 - 53) minExponent
    let (n, d) := scaled num den guess
    let e := if twoTo 53 ≤ n / d then guess + 1 else guess
    let (n, d) := scaled num den e
    let m := divNearest n d
    let (m, e) := if m = twoTo 53 then (twoTo 52, e + 1) else (m, e)
    if maxExponent < e then none else some ⟨m, e⟩

/-- The number as an exact quotient. -/
def ratio (x : Magnitude) : Nat × Nat :=
  if 0 ≤ x.exponent then (x.mantissa * twoTo x.exponent.toNat, 1)
  else (x.mantissa, twoTo (-x.exponent).toNat)

/-- The product, rounded, unless it lies beyond all finite numbers. -/
def mul (x y : Magnitude) : Option Magnitude :=
  nearest (x.ratio.1 * y.ratio.1) (x.ratio.2 * y.ratio.2)

/-- The quotient, rounded, unless it lies beyond all finite numbers. -/
def div (x y : Magnitude) : Option Magnitude :=
  nearest (x.ratio.1 * y.ratio.2) (x.ratio.2 * y.ratio.1)

/-- The sum, rounded, unless it lies beyond all finite numbers. -/
def add (x y : Magnitude) : Option Magnitude :=
  nearest (x.ratio.1 * y.ratio.2 + y.ratio.1 * x.ratio.2) (x.ratio.2 * y.ratio.2)

/-- One number is smaller than another. -/
def isBelow (x y : Magnitude) : Bool := x.ratio.1 * y.ratio.2 < y.ratio.1 * x.ratio.2

/-- The number nearest to a power of ten. -/
def powerOfTen (k : Nat) : Magnitude := (nearest (tenTo k) 1).getD zero

/-- The greatest finite power of ten. -/
def maxPower : Nat := 308

/-- `x` divided by ten to the `k`, in steps of at most the greatest power of ten. -/
def divPowerOfTen (x : Magnitude) (k : Nat) : Magnitude :=
  if k ≤ maxPower then (x.div (powerOfTen k)).getD zero
  else if x.mantissa = 0 then zero
  else divPowerOfTen ((x.div (powerOfTen maxPower)).getD zero) (k - maxPower)
termination_by k
decreasing_by simp only [maxPower] at *; omega

/-- The number read from decimal digits and a power of ten.  The digits are rounded first and the
    power of ten is then multiplied or divided by, so the result is not always the nearest. -/
def ofDecimal (digits : Nat) (exponent : Int) : Option Magnitude :=
  let x := (nearest digits 1).getD zero
  if exponent < 0 then some (x.divPowerOfTen (-exponent).toNat)
  else if exponent ≤ maxPower then x.mul (powerOfTen exponent.toNat)
  else if x.mantissa = 0 then some zero
  else none

/-- The greatest power of ten that is not above `num / den`, among those that matter. -/
def decimalExponent (num den : Nat) : Int :=
  let reaches (k : Int) : Bool :=
    if 0 ≤ k then den * tenTo k.toNat ≤ num else den ≤ num * tenTo (-k).toNat
  (((List.range 634).map fun (i : Nat) => (308 : Int) - (i : Int)).find? reaches).getD (-325)

/-- The decimal `c · 10 ^ g` for the fewest digits that round to `x`, nearest to `x` among those. -/
def shortest (x : Magnitude) : Nat × Int :=
  if x.mantissa = 0 then (0, 0)
  else
    let den := 4 * twoTo (-x.exponent).toNat
    let unit := 4 * twoTo x.exponent.toNat
    let num := x.mantissa * unit
    let high := num + unit / 2
    let low :=
      if x.mantissa = twoTo 52 ∧ minExponent < x.exponent then num - unit / 4 else num - unit / 2
    let closed := x.mantissa % 2 = 0
    let top := decimalExponent num den
    let hit (digits : Nat) : Option (Nat × Int) :=
      let g := top - digits + 1
      -- `c · 10 ^ g` compared with `b / den` is `c * left` compared with `b * right`
      let left := if 0 ≤ g then den * tenTo g.toNat else den
      let right := if 0 ≤ g then 1 else tenTo (-g).toNat
      let fits (c : Nat) : Bool :=
        if closed then low * right ≤ c * left ∧ c * left ≤ high * right
        else low * right < c * left ∧ c * left < high * right
      let c := num * right / left
      let below := num * right - c * left
      let above := (c + 1) * left - num * right
      match fits c, fits (c + 1) with
      | true, true =>
        if below < above ∨ (below = above ∧ c % 2 = 0) then some (c, g) else some (c + 1, g)
      | true, false => some (c, g)
      | false, true => some (c + 1, g)
      | false, false => none
    ((List.range 17).findSome? fun i => hit (i + 1)).getD (0, 0)

/-- The digits without the zeros at their end, each of which counts in the exponent instead. -/
def trimZeros : Nat → Nat × Int → Nat × Int
  | 0, d => d
  | n + 1, (c, g) => if c ≠ 0 ∧ c % 10 = 0 then trimZeros n (c / 10, g + 1) else (c, g)

/-- The shortest digits, positional where the decimal exponent lies between -5 and 15, and with an
    exponent elsewhere. -/
def text (x : Magnitude) : String :=
  if x.mantissa = 0 then "0.0"
  else
    -- there are at most 17 digits, so at most 17 zeros to trim
    let (c, g) := trimZeros 17 x.shortest
    let digits := Nat.toDigits 10 c
    let top : Int := g + digits.length - 1
    if 0 ≤ top ∧ top ≤ 15 then
      let whole := digits.take (top.toNat + 1)
      let fraction := digits.drop (top.toNat + 1)
      String.ofList (whole ++ List.replicate (top.toNat + 1 - whole.length) '0') ++ "." ++
        (if fraction = [] then "0" else String.ofList fraction)
    else if -5 ≤ top ∧ top < 0 then
      "0." ++ String.ofList (List.replicate ((-top).toNat - 1) '0' ++ digits)
    else
      let fraction := digits.drop 1
      String.ofList (digits.take 1) ++
        (if fraction = [] then "" else "." ++ String.ofList fraction) ++
        (if top < 0 then "e-" else "e+") ++ toString top.natAbs

end Magnitude

namespace Binary64

/-- The shortest digits with the sign. -/
def text (x : Binary64) : String :=
  (if x.negative then "-" else "") ++ x.magnitude.text

end Binary64

end TypeLeak
