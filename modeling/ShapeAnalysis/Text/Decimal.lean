/-!
# Decimals with fixed places

The text of a finite double with a fixed number of decimal places.  The double
is decoded into `m * 2 ^ e` and rounded in exact arithmetic.  A tie goes to the
even neighbour.
-/

namespace ShapeAnalysis.Text

/-- The quotient rounded to the nearest number, a tie to the even one. -/
def roundDiv (num den : Nat) : Nat :=
  let q := num / den
  let r := num % den
  if 2 * r < den then q
  else if 2 * r > den then q + 1
  else if q % 2 = 0 then q else q + 1

/-- A non-negative double as significand and exponent, read off its bits. -/
def significand (bits : UInt64) : Nat × Int :=
  let e := ((bits >>> 52) &&& 0x7ff).toNat
  let m := (bits &&& 0xfffffffffffff).toNat
  if e = 0 then (m, -1074) else (m + 0x10000000000000, (e : Int) - 1075)

/-- The double `m * 2 ^ e` in units of `10 ^ -places`, rounded. -/
def scaled (places : Nat) (m : Nat) (e : Int) : Nat :=
  match e with
  | .ofNat k => m * Nat.pow 2 k * Nat.pow 10 places
  | .negSucc k => roundDiv (m * Nat.pow 10 places) (Nat.pow 2 (k + 1))

/-- The decimal text of `n * 10 ^ -places`. -/
def placed (places n : Nat) : String :=
  let low := toString (n % Nat.pow 10 places)
  toString (n / Nat.pow 10 places) ++ "." ++
    String.ofList (List.replicate (places - low.length) '0') ++ low

/-- A non-negative finite double with a fixed number of places. -/
def fixed (places : Nat) (x : Float) : String :=
  let (m, e) := significand x.toBits
  placed places (scaled places m e)

end ShapeAnalysis.Text
