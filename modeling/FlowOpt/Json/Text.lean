/-!
# Quoted text, as far as it goes

Between the quotes stand characters and 16-bit escapes. Reading joins a high and a low surrogate to
one character and refuses either alone; skipping does not look at surrogates. So the parts are
kept, with the fault that ended them if no quote did.
-/

namespace FlowOpt.Json

/-- Why a text is not what was asked for. -/
inductive Fault
  /-- The text ended inside a value. -/
  | unfinished
  /-- The text is no JSON. -/
  | illFormed
  /-- The value is JSON of another shape. -/
  | mismatch
  deriving DecidableEq, Repr

inductive TextPart
  | char (c : Char)
  | escaped (unit : Nat)
  deriving DecidableEq, Repr

structure Quoted where
  parts : List TextPart
  stop : Option Fault

def hexValue? (c : Char) : Option Nat :=
  if c.isDigit then some (c.toNat - '0'.toNat)
  else if 'a' ≤ c ∧ c ≤ 'f' then some (c.toNat - 'a'.toNat + 10)
  else if 'A' ≤ c ∧ c ≤ 'F' then some (c.toNat - 'A'.toNat + 10)
  else none

def hexUnit? (a b c d : Char) : Option Nat := do
  return ((← hexValue? a) * 16 + (← hexValue? b)) * 256 + (← hexValue? c) * 16 + (← hexValue? d)

def unescape? (c : Char) : Option Char :=
  if c = '"' ∨ c = '\\' ∨ c = '/' then some c
  else if c = 'b' then some '\x08'
  else if c = 'f' then some '\x0c'
  else if c = 'n' then some '\n'
  else if c = 'r' then some '\r'
  else if c = 't' then some '\t'
  else none

/-- The parts up to the closing quote and the text after it. An escape of four digits is unfinished
when fewer than four bytes are left. -/
def scanParts : List Char → List TextPart × Except Fault (List Char)
  | [] => ([], .error .unfinished)
  | '"' :: rest => ([], .ok rest)
  | ['\\'] => ([], .error .unfinished)
  | '\\' :: 'u' :: a :: b :: c :: d :: rest =>
    match hexUnit? a b c d with
    | some unit =>
      let (parts, after) := scanParts rest
      (.escaped unit :: parts, after)
    | none => ([], .error .illFormed)
  | '\\' :: 'u' :: rest =>
    ([], .error (if (String.ofList rest).utf8ByteSize < 4 then .unfinished else .illFormed))
  | '\\' :: c :: rest =>
    match unescape? c with
    | some c =>
      let (parts, after) := scanParts rest
      (.char c :: parts, after)
    | none => ([], .error .illFormed)
  | c :: rest =>
    if c.toNat < 32 then ([], .error .illFormed)
    else
      let (parts, after) := scanParts rest
      (.char c :: parts, after)

def isHighSurrogate (unit : Nat) : Bool := 0xD800 ≤ unit && unit < 0xDC00

def isLowSurrogate (unit : Nat) : Bool := 0xDC00 ≤ unit && unit < 0xE000

def joinSurrogates (high low : Nat) : Char :=
  Char.ofNat (0x10000 + (high - 0xD800) * 0x400 + (low - 0xDC00))

/-- The characters of the parts, in front of what `stop` reports. -/
def readParts (stop : Option Fault) : List TextPart → Except Fault (List Char)
  | [] =>
    match stop with
    | none => .ok []
    | some fault => .error fault
  | .char c :: parts => (readParts stop parts).map (c :: ·)
  | [.escaped unit] =>
    if isHighSurrogate unit then .error (stop.getD .illFormed)
    else if isLowSurrogate unit then .error .illFormed
    else (readParts stop []).map (Char.ofNat unit :: ·)
  | .escaped unit :: .escaped next :: parts =>
    if isHighSurrogate unit then
      if isLowSurrogate next then
        (readParts stop parts).map (joinSurrogates unit next :: ·)
      else .error .illFormed
    else if isLowSurrogate unit then .error .illFormed
    else (readParts stop (.escaped next :: parts)).map (Char.ofNat unit :: ·)
  | .escaped unit :: .char c :: parts =>
    if isHighSurrogate unit || isLowSurrogate unit then .error .illFormed
    else (readParts stop (.char c :: parts)).map (Char.ofNat unit :: ·)

def Quoted.read (q : Quoted) : Except Fault String :=
  (readParts q.stop q.parts).map String.ofList

end FlowOpt.Json
