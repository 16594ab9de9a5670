/-!
# Numbers and records in text

Messages write addresses in lower-case hexadecimal, and descriptions of values are written as a
name followed by labelled fields in braces.
-/

namespace BoundaryTag.Text

/-- A number in lower-case hexadecimal digits after `0x`. -/
def hex (n : Nat) : String := "0x" ++ String.ofList (Nat.toDigits 16 n)

/-- A number that may be missing. -/
def number? : Option Nat → String
  | none => "None"
  | some n => "Some(" ++ toString n ++ ")"

/-- A name and its labelled fields in braces, separated by commas. -/
def record (name : String) (fields : List (String × String)) : String :=
  name ++ " \x7b " ++ ", ".intercalate (fields.map fun f => f.1 ++ ": " ++ f.2) ++ " \x7d"

end BoundaryTag.Text
