namespace DotLambda

/-!
# Text — integers

Reading a signed 64-bit integer from decimal digits.
-/

/-- Why a text is no integer. -/
inductive IntegerFault where
  /-- It is not an optional sign with at least one decimal digit and nothing else. -/
  | malformed
  /-- Its value does not fit into 64 bits. -/
  | outOfRange
deriving DecidableEq

/-- The value of decimal digits, `value` being that of the digits before.  Digits are taken from
    left to right, and the first that is none or makes the value too large for 64 bits, be it
    signed or not, ends the reading. -/
def readDigits (value : Nat) : List Char → Except IntegerFault Nat
  | [] => .ok value
  | c :: rest =>
    if c.isDigit then
      let value := 10 * value + (c.toNat - '0'.toNat)
      if value < 0x10000000000000000 then readDigits value rest else .error .outOfRange
    else .error .malformed

/-- The value of at least one decimal digit. -/
def readNatural (text : List Char) : Except IntegerFault Nat :=
  if text.isEmpty then .error .malformed else readDigits 0 text

/-- The value of a text as a signed integer of 64 bits. -/
def readInteger (text : List Char) : Except IntegerFault Int :=
  let (negative, digits) := match text with
    | '-' :: digits => (true, digits)
    | '+' :: digits => (false, digits)
    | digits => (false, digits)
  match readNatural digits with
  | .error fault => .error fault
  | .ok n =>
    let value : Int := if negative then -n else n
    if -0x8000000000000000 ≤ value ∧ value < 0x8000000000000000 then .ok value
    else .error .outOfRange

/-- The value of one of the words for a truth value. -/
def readTruth? (text : String) : Option Bool :=
  if ["1", "t", "T", "TRUE", "true", "True"].contains text then some true
  else if ["0", "f", "F", "FALSE", "false", "False"].contains text then some false
  else none

end DotLambda
