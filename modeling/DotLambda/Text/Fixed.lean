namespace DotLambda

/-!
# Text — fixed places

Numbers in columns, and fractions with a fixed number of decimal places.

* `roundEven` — a quotient rounded to the nearest integer, a half to the even one;
* `fixedPlaces` — a fraction in decimal with a fixed number of places;
* `floatFraction` — a finite float as the fraction that it is.
-/

/-- `num / den` rounded to the nearest integer; of two that are equally near, the even one. -/
def roundEven (num den : Nat) : Nat :=
  let q := num / den
  let r := num % den
  if 2 * r < den then q else if den < 2 * r then q + 1 else q + q % 2

/-- The text with zeros in front up to the given width. -/
def zeroPadded (width n : Nat) : String :=
  let digits := toString n
  String.ofList (List.replicate (width - digits.length) '0') ++ digits

/-- The text with blanks in front up to the given width. -/
def padLeft (width : Nat) (text : String) : String :=
  String.ofList (List.replicate (width - text.length) ' ') ++ text

/-- The text with blanks behind it up to the given width. -/
def padRight (width : Nat) (text : String) : String :=
  text ++ String.ofList (List.replicate (width - text.length) ' ')

/-- `num / den` in decimal with `places` digits after the point, rounded to the nearest such
    number. -/
def fixedPlaces (places num den : Nat) : String :=
  let unit := Nat.pow 10 places
  let scaled := roundEven (num * unit) den
  toString (scaled / unit) ++ "." ++ zeroPadded places (scaled % unit)

/-- The numerator and the denominator of a float that is finite and not negative: its value is
    exactly their quotient. -/
def floatFraction (x : Float) : Nat × Nat :=
  let bits := x.toBits.toNat
  -- 52 bits of the mantissa, without its first one, and 11 bits of the exponent.
  let hidden := Nat.pow 2 52
  let exponent := bits / hidden % Nat.pow 2 11
  let mantissa := bits % hidden + if exponent = 0 then 0 else hidden
  let exponent := max exponent 1
  (mantissa * Nat.pow 2 (exponent - 1075), Nat.pow 2 (1075 - exponent))

end DotLambda
