/-!
# Debug text of structured values

Records, lists and dictionaries as text, on one line or with one part per line. The parts are given
as text in the same style.

* `Style`, `Style.record`, `openRecord`, `tuple`, `list`, `dictionary`;
* `quote`: a text in quotes; `hexDigit`, `hexByte`: a byte as two digits.
-/

namespace TagTable

/-- How structured values are laid out. -/
inductive Style where
  /-- All on one line. -/
  | compact
  /-- One part per line, four spaces deeper than the whole. -/
  | pretty
deriving DecidableEq

/-- A text whose further lines are four spaces deeper. -/
def indent (text : String) : String := "\n    ".intercalate (text.splitOn "\n")

/-- A text in quotes, with a backslash before quotes and backslashes. -/
def quote (text : String) : String :=
  let escaped := text.toList.flatMap fun c =>
    if c = '"' ∨ c = '\\' then ['\\', c] else if c = '\n' then ['\\', 'n'] else [c]
  "\"" ++ String.ofList escaped ++ "\""

/-- A digit to the base sixteen. -/
def hexDigit (n : Nat) : Char := Char.ofNat (if n < 10 then 48 + n else 87 + n)

/-- A byte in two digits. -/
def hexByte (b : UInt8) : String :=
  String.ofList [hexDigit (b.toNat / 16), hexDigit (b.toNat % 16)]

namespace Style

/-- Parts on lines of their own, each closed by a comma. -/
def lines (parts : List String) : String :=
  String.join (parts.map fun part => "    " ++ indent part ++ ",\n")

/-- Parts between brackets, on lines of their own in the pretty style. -/
def bracketed (style : Style) (left right : String) (parts : List String) : String :=
  match style, parts with
  | _, [] => left ++ right
  | compact, parts => left ++ ", ".intercalate parts ++ right
  | pretty, parts => left ++ "\n" ++ lines parts ++ right

/-- Parts in square brackets. -/
def list (style : Style) (parts : List String) : String := style.bracketed "[" "]" parts

/-- Parts of a named tuple. -/
def tuple (style : Style) (name : String) (parts : List String) : String :=
  name ++ style.bracketed "(" ")" parts

/-- Keys with their values in braces. -/
def dictionary (style : Style) (parts : List (String × String)) : String :=
  style.bracketed "\x7b" "\x7d" (parts.map fun (key, value) => key ++ ": " ++ value)

/-- A named record with its fields. -/
def record (style : Style) (name : String) (fields : List (String × String)) : String :=
  let parts := fields.map fun (field, value) => field ++ ": " ++ value
  match style with
  | compact => name ++ " \x7b " ++ ", ".intercalate parts ++ " \x7d"
  | pretty => name ++ " \x7b\n" ++ lines parts ++ "\x7d"

/-- A record with named fields and others that are not shown. -/
def openRecord (style : Style) (name : String) (fields : List (String × String)) : String :=
  let parts := fields.map fun (field, value) => field ++ ": " ++ value
  match style with
  | compact => name ++ " \x7b " ++ ", ".intercalate (parts ++ [".."]) ++ " \x7d"
  | pretty => name ++ " \x7b\n" ++ lines parts ++ "    ..\n\x7d"

end Style

end TagTable
