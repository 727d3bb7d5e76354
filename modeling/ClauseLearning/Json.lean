/-!
# JSON values and their text

* `JsonValue.compact`: the text on one line, without blanks.
* `JsonValue.pretty`: one member or item a line, indented by two blanks.
-/

namespace ClauseLearning

/-- A JSON value whose numbers are natural. Members keep their order. -/
inductive JsonValue where
  | null
  | bool (b : Bool)
  | number (n : Nat)
  | string (s : String)
  | array (items : List JsonValue)
  | object (members : List (String × JsonValue))

namespace JsonValue

/-- A value, or `null`. -/
def ofOption {α : Type} (f : α → JsonValue) : Option α → JsonValue
  | some a => f a
  | none => null

/-! ## Strings -/

/-- A digit of a hexadecimal number. -/
def hexDigit (n : Nat) : Char := if n < 10 then Char.ofNat (48 + n) else Char.ofNat (87 + n)

/-- Quotes, backslashes and control characters are escaped, by a letter if there is one for them. -/
def escape (c : Char) : List Char :=
  match c with
  | '"' => ['\\', '"']
  | '\\' => ['\\', '\\']
  | '\n' => ['\\', 'n']
  | '\r' => ['\\', 'r']
  | '\t' => ['\\', 't']
  | '\x08' => ['\\', 'b']
  | '\x0c' => ['\\', 'f']
  | c =>
    if c.toNat < 32 then ['\\', 'u', '0', '0', hexDigit (c.toNat / 16), hexDigit (c.toNat % 16)]
    else [c]

/-- The string in quotes. -/
def quote (s : String) : String := "\"" ++ String.ofList (s.toList.flatMap escape) ++ "\""

/-! ## Values -/

mutual

/-- The text without blanks. -/
def compact : JsonValue → String
  | null => "null"
  | bool b => toString b
  | number n => toString n
  | string s => quote s
  | array items => "[" ++ ",".intercalate (compactItems items) ++ "]"
  | object members => "\x7b" ++ ",".intercalate (compactMembers members) ++ "\x7d"

/-- The texts of the items. -/
def compactItems : List JsonValue → List String
  | [] => []
  | j :: js => j.compact :: compactItems js

/-- The texts of the members, each with its key. -/
def compactMembers : List (String × JsonValue) → List String
  | [] => []
  | (key, j) :: js => (quote key ++ ":" ++ j.compact) :: compactMembers js

end

/-- The start of a line at a depth. -/
def indent (depth : Nat) : String := "\n" ++ String.ofList (List.replicate (2 * depth) ' ')

/-- Parts between brackets, each on a line of its own; nothing between them if there are no parts. -/
def block (opening closing : String) (depth : Nat) (parts : List String) : String :=
  match parts with
  | [] => opening ++ closing
  | parts =>
    opening ++ ",".intercalate (parts.map (indent (depth + 1) ++ ·)) ++ indent depth ++ closing

mutual

/-- The text of a value that starts at a depth. -/
def prettyAt (depth : Nat) : JsonValue → String
  | array items => block "[" "]" depth (prettyItems (depth + 1) items)
  | object members => block "\x7b" "\x7d" depth (prettyMembers (depth + 1) members)
  | j => j.compact

/-- The texts of items at a depth. -/
def prettyItems (depth : Nat) : List JsonValue → List String
  | [] => []
  | j :: js => prettyAt depth j :: prettyItems depth js

/-- The texts of members at a depth, each with its key. -/
def prettyMembers (depth : Nat) : List (String × JsonValue) → List String
  | [] => []
  | (key, j) :: js => (quote key ++ ": " ++ prettyAt depth j) :: prettyMembers depth js

end

/-- The text with one member or item a line. -/
def pretty (j : JsonValue) : String := prettyAt 0 j

end JsonValue

end ClauseLearning
