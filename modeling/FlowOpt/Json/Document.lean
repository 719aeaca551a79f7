import FlowOpt.Json.Numeral

/-!
# What a text holds, up to its first fault

Scanning never fails: the document ends where the text stops being JSON, and says why. Readers walk
it from left to right and report the first thing they cannot use, be it a fault of the text or a
value of the wrong shape.
-/

namespace FlowOpt.Json

inductive Document where
  | null
  | bool (b : Bool)
  | number (n : Numeral)
  | text (q : Quoted)
  /-- The items up to the closing bracket, or to the fault. -/
  | list (items : List Document) (stop : Option Fault)
  | record (members : List (Quoted × Document)) (stop : Option Fault)
  /-- No value: what a reader reports, and what is reported when the value is skipped. -/
  | broken (read skipped : Fault)

def isBlank (c : Char) : Bool := c == ' ' || c == '\t' || c == '\n' || c == '\r'

def skipBlank (cs : List Char) : List Char := cs.dropWhile isBlank

def scanWord : List Char → List Char → Except Fault (List Char)
  | [], cs => .ok cs
  | _ :: _, [] => .error .unfinished
  | w :: ws, c :: cs => if w = c then scanWord ws cs else .error .illFormed

def stopOf : Except Fault (List Char) → Option Fault
  | .ok _ => none
  | .error fault => some fault

namespace Document

/-- The rest of a word after its first character. -/
def ofWord (d : Document) (word cs : List Char) : Document × Except Fault (List Char) :=
  match scanWord word cs with
  | .ok rest => (d, .ok rest)
  | .error fault => (.broken fault fault, .error fault)

def ofNumeral (negative : Bool) (cs : List Char) : Document × Except Fault (List Char) :=
  match scanNumeral negative cs with
  | .ok (n, rest) => (.number n, .ok rest)
  | .error fault => (.broken fault .illFormed, .error fault)

mutual

/-- The value at the front of the text, and the text after it. -/
def scan : Nat → List Char → Document × Except Fault (List Char)
  | 0, _ => (.broken .illFormed .illFormed, .error .illFormed)
  | fuel + 1, cs =>
    match skipBlank cs with
    | [] => (.broken .unfinished .unfinished, .error .unfinished)
    | 'n' :: cs => ofWord .null ['u', 'l', 'l'] cs
    | 't' :: cs => ofWord (.bool true) ['r', 'u', 'e'] cs
    | 'f' :: cs => ofWord (.bool false) ['a', 'l', 's', 'e'] cs
    | '-' :: cs => ofNumeral true cs
    | '"' :: cs =>
      let (parts, rest) := scanParts cs
      (.text ⟨parts, stopOf rest⟩, rest)
    | '[' :: cs =>
      match skipBlank cs with
      | ']' :: cs => (.list [] none, .ok cs)
      | [] => (.list [] (some .unfinished), .error .unfinished)
      | cs =>
        let (items, rest) := scanItems fuel cs
        (.list items (stopOf rest), rest)
    | '{' :: cs =>
      match skipBlank cs with
      | '}' :: cs => (.record [] none, .ok cs)
      | cs =>
        let (members, rest) := scanMembers fuel cs
        (.record members (stopOf rest), rest)
    | c :: cs =>
      if c.isDigit then ofNumeral false (c :: cs)
      else (.broken .illFormed .illFormed, .error .illFormed)

def scanItems : Nat → List Char → List Document × Except Fault (List Char)
  | 0, _ => ([], .error .illFormed)
  | fuel + 1, cs =>
    let (item, rest) := scan fuel cs
    match rest with
    | .error fault => ([item], .error fault)
    | .ok rest =>
      match skipBlank rest with
      | ',' :: cs =>
        let (items, rest) := scanItems fuel cs
        (item :: items, rest)
      | ']' :: cs => ([item], .ok cs)
      | [] => ([item], .error .unfinished)
      | _ :: _ => ([item], .error .illFormed)

def scanMembers : Nat → List Char → List (Quoted × Document) × Except Fault (List Char)
  | 0, _ => ([], .error .illFormed)
  | fuel + 1, cs =>
    match skipBlank cs with
    | '"' :: cs =>
      let (parts, rest) := scanParts cs
      let key : Quoted := ⟨parts, stopOf rest⟩
      match rest with
      | .error fault => ([(key, .broken fault fault)], .error fault)
      | .ok rest =>
        match skipBlank rest with
        | ':' :: cs =>
          let (value, rest) := scan fuel cs
          match rest with
          | .error fault => ([(key, value)], .error fault)
          | .ok rest =>
            match skipBlank rest with
            | ',' :: cs =>
              let (members, rest) := scanMembers fuel cs
              ((key, value) :: members, rest)
            | '}' :: cs => ([(key, value)], .ok cs)
            | [] => ([(key, value)], .error .unfinished)
            | _ :: _ => ([(key, value)], .error .illFormed)
        | [] => ([(key, .broken .unfinished .unfinished)], .error .unfinished)
        | _ :: _ => ([(key, .broken .illFormed .illFormed)], .error .illFormed)
    | [] => ([], .error .unfinished)
    | _ :: _ => ([], .error .illFormed)

end

/-- The document of a whole text, and the fault after its value if more than blanks follow it. -/
def ofText (text : String) : Document × Option Fault :=
  let cs := text.toList
  let (d, rest) := scan (2 * cs.length + 2) cs
  match rest with
  | .error _ => (d, none)
  | .ok rest => (d, if (skipBlank rest).isEmpty then none else some .illFormed)

def skipStop : Option Fault → Except Fault Unit
  | none => .ok ()
  | some fault => .error fault

mutual

/-- The first fault of a value that nobody reads. Its numerals and surrogates are not looked at. -/
def skip : Document → Except Fault Unit
  | .null => .ok ()
  | .bool _ => .ok ()
  | .number _ => .ok ()
  | .text q => skipStop q.stop
  | .list items stop => do
    skipItems items
    skipStop stop
  | .record members stop => do
    skipMembers members
    skipStop stop
  | .broken _ skipped => .error skipped

def skipItems : List Document → Except Fault Unit
  | [] => .ok ()
  | item :: items => do
    item.skip
    skipItems items

def skipMembers : List (Quoted × Document) → Except Fault Unit
  | [] => .ok ()
  | (key, value) :: members => do
    skipStop key.stop
    value.skip
    skipMembers members

end

/-- The greatest number of lists and records around a value, itself included. -/
def maxDepth : Nat := 127

mutual

/-- The value of a document, with room for `room` levels of lists and records. -/
def value (room : Nat) : Document → Except Fault Json
  | .null => .ok .null
  | .bool b => .ok (.bool b)
  | .number n =>
    match n.value? with
    | some v => .ok v
    | none => .error .illFormed
  | .text q => q.read.map .text
  | .list items stop =>
    if room = 0 then .error .illFormed
    else do
      let items ← valueItems (room - 1) items
      skipStop stop
      return .list items
  | .record members stop =>
    if room = 0 then .error .illFormed
    else do
      let members ← valueMembers (room - 1) members
      skipStop stop
      return .record members
  | .broken read _ => .error read

def valueItems (room : Nat) : List Document → Except Fault (List Json)
  | [] => .ok []
  | item :: items => do
    let item ← item.value room
    let items ← valueItems room items
    return item :: items

def valueMembers (room : Nat) : List (Quoted × Document) → Except Fault (List (String × Json))
  | [] => .ok []
  | (key, value) :: members => do
    let key ← key.read
    let value ← value.value room
    let members ← valueMembers room members
    return (key, value) :: members

end

end Document

end FlowOpt.Json
