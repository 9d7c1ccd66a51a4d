import QubitPulse.Json.Token

/-!
# Reading documents

The second of the two steps of reading: tokens to a value. A document is one value with nothing
after it.
-/
namespace QubitPulse.Json.Value

mutual

/-- A value at the head of a token list. The fuel bounds the nesting and the number of members; the
number of tokens is always enough. -/
def readWithin : Nat → List Token → Option (Value × List Token)
  | 0, _ => none
  | fuel + 1, ts =>
    match ts with
    | .null :: rest => some (.null, rest)
    | .bool b :: rest => some (.bool b, rest)
    | .number n :: rest => some (.number n, rest)
    | .string s :: rest => some (.string s, rest)
    | .openBracket :: .closeBracket :: rest => some (.array [], rest)
    | .openBracket :: rest => do
      let (items, rest) ← itemsWithin fuel rest
      return (.array items, rest)
    | .openBrace :: .closeBrace :: rest => some (.object [], rest)
    | .openBrace :: rest => do
      let (members, rest) ← membersWithin fuel rest
      return (.object members, rest)
    | _ => none

/-- Items of an array up to its closing bracket; there is at least one. -/
def itemsWithin : Nat → List Token → Option (List Value × List Token)
  | 0, _ => none
  | fuel + 1, ts => do
    let (v, rest) ← readWithin fuel ts
    match rest with
    | .closeBracket :: rest => return ([v], rest)
    | .comma :: rest =>
      let (vs, rest) ← itemsWithin fuel rest
      return (v :: vs, rest)
    | _ => none

/-- Members of an object up to its closing brace; there is at least one. -/
def membersWithin : Nat → List Token → Option (List (Text × Value) × List Token)
  | 0, _ => none
  | fuel + 1, ts =>
    match ts with
    | .string key :: .colon :: rest => do
      let (v, rest) ← readWithin fuel rest
      match rest with
      | .closeBrace :: rest => return ([(key, v)], rest)
      | .comma :: rest =>
        let (ms, rest) ← membersWithin fuel rest
        return ((key, v) :: ms, rest)
      | _ => none
    | _ => none

end

def ofTokens? (ts : List Token) : Option Value :=
  match readWithin (2 * ts.length + 1) ts with
  | some (v, []) => some v
  | _ => none

def parse? (document : String) : Option Value :=
  (Token.scan document.toList).bind ofTokens?

end QubitPulse.Json.Value
