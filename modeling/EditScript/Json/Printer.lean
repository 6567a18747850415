import EditScript.Json.Value

namespace EditScript

/-- The decimal `digits*10^exponent` as a double is written: positional with at least one fraction
digit from 1e-5 up to 1e16, otherwise one digit before the point and an exponent with its sign. -/
def Double.layout (digits : List Char) (exponent : Int) : List Char :=
  let point : Int := digits.length+exponent
  if 0 ≤ exponent ∧ point ≤ 16 then digits ++ List.replicate exponent.toNat '0' ++ ['.', '0']
  else if 0 < point ∧ point ≤ 16 then digits.take point.toNat ++ '.' :: digits.drop point.toNat
  else if -5 < point ∧ point ≤ 0 then '0' :: '.' :: (List.replicate (-point).toNat '0' ++ digits)
  else
    let mantissa := match digits with
      | first :: second :: rest => first :: '.' :: second :: rest
      | short => short
    mantissa ++ 'e' :: (if point ≤ 0 then '-' else '+') :: Nat.toDigits 10 (point-1).natAbs

def Double.spell (d : Double) : List Char :=
  let magnitude :=
    if d.ordinal = 0 then ['0', '.', '0']
    else let (digits, exponent) := shortest d.ordinal
      layout (Nat.toDigits 10 digits) exponent
  if d.negative then '-' :: magnitude else magnitude

def Number.spell : Number → List Char
  | .integer n _ => if n < 0 then '-' :: Nat.toDigits 10 n.natAbs else Nat.toDigits 10 n.natAbs
  | .double d => d.spell

namespace Json

/-- A character inside quotes: escaped if it is a quote, a backslash or a control character. -/
def escape (c : Char) : List Char :=
  if c = '"' then ['\\', '"']
  else if c = '\\' then ['\\', '\\']
  else if c = '\x08' then ['\\', 'b']
  else if c = '\x0c' then ['\\', 'f']
  else if c = '\n' then ['\\', 'n']
  else if c = '\r' then ['\\', 'r']
  else if c = '\t' then ['\\', 't']
  else if c.toNat < 32 then
    ['\\', 'u', '0', '0', Nat.digitChar (c.toNat/16), Nat.digitChar (c.toNat%16)]
  else [c]

def quote (text : String) : List Char := '"' :: (text.toList.flatMap escape ++ ['"'])

/-- The blanks of a written form: before an item or a closing bracket at a depth, and after a
colon. -/
structure Spacing where
  gap : Nat → List Char
  afterColon : List Char

def Spacing.compact : Spacing := ⟨fun _ => [], []⟩

def Spacing.pretty : Spacing := ⟨fun depth => '\n' :: List.replicate (2*depth) ' ', [' ']⟩

mutual

def spell (spacing : Spacing) (depth : Nat) : Json → List Char
  | .null => ['n', 'u', 'l', 'l']
  | .bool true => ['t', 'r', 'u', 'e']
  | .bool false => ['f', 'a', 'l', 's', 'e']
  | .number value => value.spell
  | .string value => quote value
  | .array [] => ['[', ']']
  | .array (item :: items) =>
      '[' :: (spacing.gap (depth+1) ++ spell spacing (depth+1) item ++
        spellItems spacing (depth+1) items ++ spacing.gap depth ++ [']'])
  | .object [] => ['{', '}']
  | .object ((key, value) :: members) =>
      '{' :: (spacing.gap (depth+1) ++ quote key ++ ':' :: spacing.afterColon ++
        spell spacing (depth+1) value ++ spellMembers spacing (depth+1) members ++
        spacing.gap depth ++ ['}'])

def spellItems (spacing : Spacing) (depth : Nat) : List Json → List Char
  | [] => []
  | item :: items =>
      ',' :: (spacing.gap depth ++ spell spacing depth item ++ spellItems spacing depth items)

def spellMembers (spacing : Spacing) (depth : Nat) : List (String × Json) → List Char
  | [] => []
  | (key, value) :: members =>
      ',' :: (spacing.gap depth ++ quote key ++ ':' :: spacing.afterColon ++
        spell spacing depth value ++ spellMembers spacing depth members)

end

/-- The value without blanks. -/
def compact (value : Json) : String := .ofList (value.spell .compact 0)

/-- The value with every item and member on a line of its own. -/
def pretty (value : Json) : String := .ofList (value.spell .pretty 0)

end Json
end EditScript
