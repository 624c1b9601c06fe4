/-!
# Floating-point numbers of 64 bits

Numbers with a fraction or an exponent in a document are read to the nearest binary64 value.
Values are kept as a significand and a power of two, so that every step below is exact integer
arithmetic.

* `ofRatio`, `ofDecimal`: the nearest value, a half going to the even significand.
* `shortest`: the fewest decimal digits that read back to the same value.
* `text`: the digits laid out positionally or with an exponent.
-/

namespace BlockCalculus

/-- A binary64 value. A finite one is `significand * 2 ^ exponent`, with a significand below
`2 ^ 53` and an exponent from `-1074` to `971`. -/
inductive Binary64 where
  | nan
  | infinite (negative : Bool)
  | finite (negative : Bool) (significand : Nat) (exponent : Int)
  deriving DecidableEq, Repr

namespace Binary64

/-! ## Rounding to the nearest value -/

/-- The integer nearest to `num / den`; a half goes to the even neighbour. -/
def roundDiv (num den : Nat) : Nat :=
  let q := num / den
  let r := num % den
  if 2 * r < den then q
  else if den < 2 * r then q + 1
  else if q % 2 = 0 then q else q + 1

/-- `n * b ^ e` as a ratio of natural numbers. -/
def scale (n b : Nat) (e : Int) : Nat × Nat :=
  if 0 ≤ e then (n * Nat.pow b e.toNat, 1) else (n, Nat.pow b (-e).toNat)

/-- The value nearest to `num / den`. -/
def ofRatio (negative : Bool) (num den : Nat) : Binary64 :=
  if num = 0 then .finite negative 0 (-1074)
  else
    -- `num / den` lies strictly between two and one half times `2 ^ size`
    let size : Int := (num.log2 : Int) - (den.log2 : Int)
    let fits (e : Int) : Bool :=
      let s := scale num 2 (-e)
      Nat.pow 2 52 * (den * s.2) ≤ s.1
    let e := if fits (size - 52) then size - 52 else size - 53
    let e := if e < -1074 then -1074 else e
    let s := scale num 2 (-e)
    let m := roundDiv s.1 (den * s.2)
    let (m, e) := if m = Nat.pow 2 53 then (Nat.pow 2 52, e + 1) else (m, e)
    if 971 < e then .infinite negative else .finite negative m e

/-- The value nearest to `digits * 10 ^ exponent`, where `length` is the number of digits.
Exponents beyond the range of the format need no large power. -/
def ofDecimal (negative : Bool) (digits length : Nat) (exponent : Int) : Binary64 :=
  if digits = 0 then .finite negative 0 (-1074)
  else if 400 < exponent then .infinite negative
  else if (length : Int) + exponent < -400 then .finite negative 0 (-1074)
  else
    let s := scale digits 10 exponent
    ofRatio negative s.1 s.2

/-- Whether the value is a zero of either sign. -/
def isZero : Binary64 → Bool
  | finite _ 0 _ => true
  | _ => false

/-! ## The shortest digits -/

/-- A positive decimal: `digits * 10 ^ exponent`. -/
structure Decimal where
  digits : Nat
  exponent : Int
  deriving DecidableEq, Repr

/-- Compares the decimal `d * 10 ^ p` with `a * 2 ^ e`. -/
def compareDecimal (d : Nat) (p : Int) (a : Nat) (e : Int) : Ordering :=
  let x := scale d 10 p
  let y := scale a 2 e
  compare (x.1 * y.2) (y.1 * x.2)

/-- The largest power of ten that is at most `a * 2 ^ e`, for `a` positive. -/
def decimalExponent (a : Nat) (e : Int) : Int :=
  let guess := ((a.log2 : Int) + e) * 30103 / 100000
  let candidates := [guess + 1, guess, guess - 1]
  (candidates.find? fun t => compareDecimal 1 t a e != .gt).getD (guess - 1)

/-- A decimal with `k` digits that reads back as `m * 2 ^ e`, the nearest one if there are two.
The reals that read back reach half a unit to either side, a quarter below a power of two, and
the ends count for an even significand. All is measured in quarters of a unit. -/
def withDigits? (m : Nat) (e : Int) (k : Nat) : Option Decimal :=
  let quarter := e - 2
  let low := if m = Nat.pow 2 52 ∧ -1074 < e then 4 * m - 1 else 4 * m - 2
  let high := 4 * m + 2
  let p := decimalExponent (4 * m) quarter - (k : Int) + 1
  let y := scale (4 * m) 2 quarter
  let g := scale 1 10 p
  -- the neighbours on the grid of multiples of `10 ^ p`
  let below := y.1 * g.2 / (y.2 * g.1)
  let readsBack (d : Nat) : Bool :=
    let atLow := compareDecimal d p low quarter
    let atHigh := compareDecimal d p high quarter
    if m % 2 = 0 then atLow != .lt && atHigh != .gt else atLow == .gt && atHigh == .lt
  let distance (d : Nat) : Nat :=
    let x := d * g.1 * y.2
    let v := y.1 * g.2
    if v ≤ x then x - v else v - x
  let tie (d : Nat) : Bool := d % 2 = 0
  match readsBack below, readsBack (below + 1) with
  | true, true =>
    if distance below < distance (below + 1) then some ⟨below, p⟩
    else if distance (below + 1) < distance below then some ⟨below + 1, p⟩
    else some ⟨if tie below then below else below + 1, p⟩
  | true, false => some ⟨below, p⟩
  | false, true => some ⟨below + 1, p⟩
  | false, false => none

/-- The fewest digits that read back as `m * 2 ^ e`. Seventeen always suffice. -/
def shortest (m : Nat) (e : Int) : Decimal :=
  ((List.range 17).findSome? fun k => withDigits? m e (k + 1)).getD ⟨m, 0⟩

/-! ## Text -/

/-- How a decimal is laid out: positionally while its exponent in scientific notation is at least
`least` and below `bound`, otherwise with an exponent of at least two digits and a sign. -/
structure Layout where
  least : Int
  bound : Int

/-- The layout of numbers in messages. -/
def messageLayout : Layout := ⟨-4, 16⟩

/-- The digits of `n` without zeros at the end. -/
def significantDigits (n : Nat) : List Char :=
  ((Nat.toDigits 10 n).reverse.dropWhile (· == '0')).reverse

/-- A positive decimal laid out. -/
def Decimal.layOut (l : Layout) (d : Decimal) : List Char :=
  let ds := significantDigits d.digits
  let point : Int := ((Nat.toDigits 10 d.digits).length : Int) + d.exponent
  let scientific := point - 1
  if l.least ≤ scientific ∧ scientific < l.bound then
    if point ≤ 0 then '0' :: '.' :: List.replicate (-point).toNat '0' ++ ds
    else
      let whole := ds.take point.toNat
      let fraction := ds.drop point.toNat
      whole ++ List.replicate (point.toNat - whole.length) '0' ++
        '.' :: (if fraction.isEmpty then ['0'] else fraction)
  else
    let mantissa := match ds with
      | [] => ['0']
      | [d] => [d]
      | d :: rest => d :: '.' :: rest
    let size := Nat.toDigits 10 scientific.natAbs
    mantissa ++ 'e' :: (if scientific < 0 then '-' else '+') ::
      (if size.length < 2 then '0' :: size else size)

/-- A number as messages show it. -/
def text : Binary64 → String
  | nan => "nan"
  | infinite negative => if negative then "-inf" else "inf"
  | finite negative m e =>
    let body := if m = 0 then ['0', '.', '0'] else (shortest m e).layOut messageLayout
    String.ofList (if negative then '-' :: body else body)

end Binary64

end BlockCalculus
