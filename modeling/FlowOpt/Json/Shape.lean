import FlowOpt.Json.Document

/-!
# Reading by shape

What is read is told by the shape wanted, from left to right. A scalar is scanned before its kind
is found wrong; a list or record of the wrong kind is refused at its bracket. A record may be given
as the list of its fields in their order.
-/

namespace FlowOpt.Json

namespace Document

/-- What is reported of a document whose kind is wrong. -/
def misread : Document → Fault
  | .text q =>
    match q.read with
    | .ok _ => .mismatch
    | .error fault => fault
  | .number n => if n.value?.isSome then .mismatch else .illFormed
  | .broken read _ => read
  | _ => .mismatch

def string : Document → Except Fault String
  | .text q => q.read
  | d => .error d.misread

/-- Absent when it is null. -/
def nullable {α : Type} (read : Document → Except Fault α) : Document → Except Fault (Option α)
  | .null => .ok none
  | d => (read d).map some

def items {α : Type} (room : Nat) (read : Nat → Document → Except Fault α) :
    Document → Except Fault (List α)
  | .list items stop =>
    if room = 0 then .error .illFormed
    else do
      let values ← items.mapM (read (room - 1))
      skipStop stop
      return values
  | d => .error d.misread

def strings (room : Nat) (d : Document) : Except Fault (List String) :=
  d.items room fun _ item => item.string

/-- A value that is taken whole before it is interpreted. -/
def interpreted {α : Type} (room : Nat) (ofJson? : Json → Option α) (d : Document) :
    Except Fault α := do
  match ofJson? (← d.value room) with
  | some a => return a
  | none => throw .mismatch

end Document

/-- How a record is gathered: `put` takes in one field, `finish` asks for what must be there. -/
structure Shape (σ α : Type) where
  fields : List String
  start : σ
  put : Nat → σ → String → Document → Except Fault σ
  finish : σ → Except Fault α

/-- A field that is given twice is refused before its second value is looked at. -/
def once {σ α : Type} (slot : Option α) (value : Except Fault α) (keep : α → σ) :
    Except Fault σ :=
  if slot.isSome then .error .mismatch else value.map keep

def required {α : Type} : Option α → Except Fault α
  | some a => .ok a
  | none => .error .mismatch

namespace Shape

variable {σ α : Type} (shape : Shape σ α)

def putMember (room : Nat) (acc : σ) (member : Quoted × Document) : Except Fault σ := do
  let key ← member.1.read
  if shape.fields.contains key then shape.put room acc key member.2
  else
    member.2.skip
    return acc

def read (room : Nat) : Document → Except Fault α
  | .record members stop =>
    if room = 0 then .error .illFormed
    else do
      let acc ← members.foldlM (shape.putMember (room - 1)) shape.start
      Document.skipStop stop
      shape.finish acc
  | .list items stop =>
    if room = 0 then .error .illFormed
    else do
      let acc ← (shape.fields.zip items).foldlM
        (fun acc (field, item) => shape.put (room - 1) acc field item) shape.start
      if shape.fields.length < items.length then throw .illFormed
      Document.skipStop stop
      shape.finish acc
  | d => .error d.misread

end Shape

end FlowOpt.Json
