import SparqlAlgebra.Text.Printable

/-!
# Quoted text in reports

Strings as they are shown in reports: in double quotes, with quotes, backslashes
and all that cannot be printed on its own escaped.
-/

namespace SparqlAlgebra.Text

/-- One character of a report's string. What cannot be printed is written by its
code point in braces. -/
def reportChar (c : Char) : List Char :=
  match c with
  | '"' => ['\\', '"']
  | '\\' => ['\\', '\\']
  | '\n' => ['\\', 'n']
  | '\t' => ['\\', 't']
  | '\r' => ['\\', 'r']
  | '\x00' => ['\\', '0']
  | c =>
    if isPrintable c then [c]
    else ['\\', 'u', '\x7b'] ++ Nat.toDigits 16 c.toNat ++ ['\x7d']

/-- A string as reports show it. -/
def report (s : String) : String :=
  String.ofList ('"' :: s.toList.flatMap reportChar ++ ['"'])

end SparqlAlgebra.Text
