import FlowOpt.Number.Layout

/-!
# JSON values and their text

Integers and double-precision numbers are kept apart, and the members of a record keep their order.
A style fixes the line breaks and what stands after a key; the compact style has neither.
-/

namespace FlowOpt

inductive Json where
  | null
  | bool (b : Bool)
  | int (n : Int)
  | float (x : Binary64)
  | text (s : String)
  | list (items : List Json)
  | record (members : List (String × Json))

namespace Json

def hexDigit (n : Nat) : Char := (Nat.digitChar n)

/-- How a character is written inside quotes. -/
def escape (c : Char) : List Char :=
  if c = '"' then ['\\', '"']
  else if c = '\\' then ['\\', '\\']
  else if c = '\x08' then ['\\', 'b']
  else if c = '\x0c' then ['\\', 'f']
  else if c = '\n' then ['\\', 'n']
  else if c = '\r' then ['\\', 'r']
  else if c = '\t' then ['\\', 't']
  else if c.toNat < 32 then
    ['\\', 'u', '0', '0', hexDigit (c.toNat / 16), hexDigit (c.toNat % 16)]
  else [c]

def quote (s : String) : List Char := '"' :: (s.toList.flatMap escape ++ ['"'])

/-- A number has at least one decimal; it is plain from `0.00001` to below `10 ^ 16`. -/
def numbers : Layout := ⟨.even, some (-5, 15), 1⟩

def integer (n : Int) : List Char :=
  if n < 0 then '-' :: Nat.toDigits 10 n.natAbs else Nat.toDigits 10 n.natAbs

structure Style where
  /-- What stands before an item, or before the closing bracket, at a depth. -/
  lineBreak : Nat → List Char
  colon : List Char

def Style.compact : Style := ⟨fun _ => [], [':']⟩

/-- One item a line, two blanks a level. -/
def Style.pretty : Style :=
  ⟨fun depth => '\n' :: List.replicate (2 * depth) ' ', [':', ' ']⟩

mutual

def render (style : Style) (depth : Nat) : Json → List Char
  | .null => ['n', 'u', 'l', 'l']
  | .bool true => ['t', 'r', 'u', 'e']
  | .bool false => ['f', 'a', 'l', 's', 'e']
  | .int n => integer n
  | .float x => if x.isFinite then numbers.render x else ['n', 'u', 'l', 'l']
  | .text s => quote s
  | .list [] => ['[', ']']
  | .list (item :: items) =>
    '[' :: (style.lineBreak (depth + 1) ++ render style (depth + 1) item ++
      renderItems style (depth + 1) items ++ style.lineBreak depth ++ [']'])
  | .record [] => ['{', '}']
  | .record ((key, value) :: members) =>
    '{' :: (style.lineBreak (depth + 1) ++ quote key ++ style.colon ++
      render style (depth + 1) value ++ renderMembers style (depth + 1) members ++
      style.lineBreak depth ++ ['}'])

def renderItems (style : Style) (depth : Nat) : List Json → List Char
  | [] => []
  | item :: items =>
    ',' :: (style.lineBreak depth ++ render style depth item ++ renderItems style depth items)

def renderMembers (style : Style) (depth : Nat) : List (String × Json) → List Char
  | [] => []
  | (key, value) :: members =>
    ',' :: (style.lineBreak depth ++ quote key ++ style.colon ++ render style depth value ++
      renderMembers style depth members)

end

def compact (v : Json) : String := String.ofList (v.render .compact 0)

def pretty (v : Json) : String := String.ofList (v.render .pretty 0)

end Json

end FlowOpt
