import DotLambda.Text.Utf8

namespace DotLambda

/-!
# Text — lines

A text cut into its lines.  A line ends at a line feed, with a carriage return before it or not;
the last line may lack its end.

* `linesOf` — the lines of a text;
* `Line.content` — a line without its end;
* `Line.readings` — a line as it comes out of a buffer that may be too small for it.
-/

/-- A line as it stands in a text. -/
structure Line where
  /-- The characters before the line feed. -/
  raw : List Char
  /-- Whether there is a line feed. -/
  ended : Bool

/-- The line without its end.  A carriage return belongs to the end only before a line feed. -/
def Line.content (l : Line) : List Char :=
  if l.ended && l.raw.getLast? == some '\r' then l.raw.dropLast else l.raw

/-- What a reader gets of a line through a buffer of `capacity` bytes.  A line that fits together
    with its line feed comes whole.  Any other comes in pieces, each as much as the buffer
    holds, and its end is a piece too, be it empty.  A carriage return that fills the buffer is
    left for the next piece, where it may turn out to belong to the end. -/
def Line.readings (capacity : Nat) (l : Line) : List (List Char) :=
  if byteLength l.raw < capacity then
    if l.raw.isEmpty && !l.ended then [] else [l.content]
  else
    let held := takeBytes capacity l.raw
    let piece := if held.getLast? == some '\r' then held.dropLast else held
    -- A buffer that does not hold one character is no buffer.
    if _h : piece = [] then [l.content]
    else piece :: readings capacity ⟨l.raw.drop piece.length, l.ended⟩
termination_by l.raw.length
decreasing_by
  have hpiece := List.length_pos_iff.2 _h
  have hraw : 0 < l.raw.length :=
    List.length_pos_iff.2 fun h => _h (by simp [piece, held, h, takeBytes])
  rw [List.length_drop]
  exact Nat.sub_lt hraw hpiece

/-- The lines of a text. -/
def linesOf (text : List Char) : List Line :=
  if text.isEmpty then []
  else
    match _h : text.dropWhile fun c => c != '\n' with
    | [] => [⟨text, false⟩]
    | _ :: rest => ⟨text.takeWhile fun c => c != '\n', true⟩ :: linesOf rest
termination_by text.length
decreasing_by
  have := (List.dropWhile_sublist (l := text) fun c => c != '\n').length_le
  simp only [_h, List.length_cons] at this
  omega

end DotLambda
