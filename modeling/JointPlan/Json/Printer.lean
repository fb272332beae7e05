import JointPlan.Json.Basic

/-!
# JSON text

The compact form: no blanks, fields in their order, and only those characters
escaped that have to be.
-/

namespace JointPlan

namespace Json

/-- Doubles are written positionally while the leading digit stands between
`10 ^ -5` and `10 ^ 15`, and always with a point there. -/
def layout : Layout where
  positional lead := -5 ≤ lead ∧ lead ≤ 15
  wholePoint := true
  tie := .toEven

def hexDigit (n : Nat) : Char := "0123456789abcdef".toList.getD n '0'

def escape (c : Char) : String :=
  if c = '"' then "\\\""
  else if c = '\\' then "\\\\"
  else if c = '\n' then "\\n"
  else if c = '\r' then "\\r"
  else if c = '\t' then "\\t"
  else if c.toNat = 8 then "\\b"
  else if c.toNat = 12 then "\\f"
  else if c.toNat < 32 then
    "\\u00" ++ String.ofList [hexDigit (c.toNat / 16), hexDigit (c.toNat % 16)]
  else c.toString

def quote (s : String) : String := "\"" ++ String.join (s.toList.map escape) ++ "\""

mutual

/-- The text of a value. A double that is not a number or infinite is null. -/
def render : Json → String
  | .null => "null"
  | .bool b => if b then "true" else "false"
  | .int n => toString n
  | .float d => if d.isFinite then layout.render d else "null"
  | .str s => quote s
  | .arr items => "[" ++ String.intercalate "," (renderItems items) ++ "]"
  | .obj fields => "\x7b" ++ String.intercalate "," (renderFields fields) ++ "\x7d"

def renderItems : List Json → List String
  | [] => []
  | j :: rest => render j :: renderItems rest

def renderFields : List (String × Json) → List String
  | [] => []
  | (key, j) :: rest => (quote key ++ ":" ++ render j) :: renderFields rest

end

end Json

end JointPlan
