import QubitPulse.Json.Value

/-!
# Writing documents

Two forms of one value: compact, without any blank, and indented, with one item or member a line.
-/
namespace QubitPulse.Json.Value

def hexChar (n : Nat) : Char :=
  Char.ofNat (if n < 10 then 48 + n else 87 + n)

/-- A character inside a string. Quotes, backslashes and control characters are escaped, the common
control characters by a letter. -/
def escapeChar (c : Char) : List Char :=
  match c with
  | '"' => ['\\', '"']
  | '\\' => ['\\', '\\']
  | '\n' => ['\\', 'n']
  | '\r' => ['\\', 'r']
  | '\t' => ['\\', 't']
  | c =>
    if c.toNat = 8 then ['\\', 'b']
    else if c.toNat = 12 then ['\\', 'f']
    else if c.toNat < 32 then
      ['\\', 'u', '0', '0', hexChar (c.toNat / 16), hexChar (c.toNat % 16)]
    else [c]

def quoted (cs : List Char) : List Char :=
  '"' :: (cs.flatMap escapeChar ++ ['"'])

def textChars (s : Text) : List Char :=
  quoted (s.getD "").toList

mutual

def chars : Value → List Char
  | .null => ['n', 'u', 'l', 'l']
  | .bool true => ['t', 'r', 'u', 'e']
  | .bool false => ['f', 'a', 'l', 's', 'e']
  | .number n => n.chars true
  | .string s => textChars s
  | .array [] => ['[', ']']
  | .array (v :: vs) => '[' :: (chars v ++ itemChars vs)
  | .object [] => ['\x7b', '\x7d']
  | .object ((k, v) :: ms) => '\x7b' :: (textChars k ++ ':' :: (chars v ++ memberChars ms))

/-- Items after the first, and the closing bracket. -/
def itemChars : List Value → List Char
  | [] => [']']
  | v :: vs => ',' :: (chars v ++ itemChars vs)

/-- Members after the first, and the closing brace. -/
def memberChars : List (Text × Value) → List Char
  | [] => ['\x7d']
  | (k, v) :: ms => ',' :: (textChars k ++ ':' :: (chars v ++ memberChars ms))

end

/-- Start of a line at a nesting depth, two blanks for each level. -/
def newLine (depth : Nat) : List Char :=
  '\n' :: List.replicate (2 * depth) ' '

mutual

/-- Indented form of a value at a nesting depth. -/
def indentedChars (depth : Nat) : Value → List Char
  | .null => ['n', 'u', 'l', 'l']
  | .bool true => ['t', 'r', 'u', 'e']
  | .bool false => ['f', 'a', 'l', 's', 'e']
  | .number n => n.chars true
  | .string s => textChars s
  | .array [] => ['[', ']']
  | .array (v :: vs) =>
    '[' :: (newLine (depth + 1) ++ indentedChars (depth + 1) v ++ indentedItems depth vs)
  | .object [] => ['\x7b', '\x7d']
  | .object ((k, v) :: ms) =>
    '\x7b' :: (newLine (depth + 1) ++ textChars k ++ [':', ' '] ++ indentedChars (depth + 1) v ++
      indentedMembers depth ms)

/-- Items after the first, and the closing bracket on a line of its own. -/
def indentedItems (depth : Nat) : List Value → List Char
  | [] => newLine depth ++ [']']
  | v :: vs =>
    ',' :: (newLine (depth + 1) ++ indentedChars (depth + 1) v ++ indentedItems depth vs)

/-- Members after the first, and the closing brace on a line of its own. -/
def indentedMembers (depth : Nat) : List (Text × Value) → List Char
  | [] => newLine depth ++ ['\x7d']
  | (k, v) :: ms =>
    ',' :: (newLine (depth + 1) ++ textChars k ++ [':', ' '] ++ indentedChars (depth + 1) v ++
      indentedMembers depth ms)

end

def compact (v : Value) : String :=
  String.ofList v.chars

def indented (v : Value) : String :=
  String.ofList (v.indentedChars 0)

end QubitPulse.Json.Value
