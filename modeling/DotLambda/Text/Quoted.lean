import DotLambda.Text.Printable

namespace DotLambda

/-!
# Text — quoted texts

Messages show a piece of the program between double quotes, on one line and without
invisible characters:

* the quote and the backslash are written after a backslash;
* the seven controls from bell to carriage return have a letter each;
* other ASCII controls are written `\xHH`;
* printable characters stand for themselves;
* every other character is written `\uHHHH`, or `\UHHHHHHHH` beyond four digits.
-/

/-- `n` in lower-case hexadecimal with at least `width` digits. -/
def hexadecimal (width n : Nat) : List Char :=
  let digits := Nat.toDigits 16 n
  List.replicate (width - digits.length) '0' ++ digits

/-- The letter after the backslash for the characters that have one. -/
def escapeLetter? (c : Char) : Option Char :=
  match c.toNat with
  | 0x07 => some 'a'
  | 0x08 => some 'b'
  | 0x09 => some 't'
  | 0x0A => some 'n'
  | 0x0B => some 'v'
  | 0x0C => some 'f'
  | 0x0D => some 'r'
  | 0x22 => some '"'
  | 0x5C => some '\\'
  | _ => none

/-- How one character is written inside quotes. -/
def quoteChar (c : Char) : List Char :=
  match escapeLetter? c with
  | some letter => ['\\', letter]
  | none =>
    let n := c.toNat
    if isPrintable c then [c]
    else if n < 0x20 || n == 0x7F then '\\' :: 'x' :: hexadecimal 2 n
    else if n < 0x10000 then '\\' :: 'u' :: hexadecimal 4 n
    else '\\' :: 'U' :: hexadecimal 8 n

/-- The text between double quotes. -/
def quote (text : List Char) : List Char :=
  '"' :: text.flatMap quoteChar ++ ['"']

/-- `quote` on strings. -/
def quoted (text : String) : String :=
  String.ofList (quote text.toList)

end DotLambda
