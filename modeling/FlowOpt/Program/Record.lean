import FlowOpt.Json.Shape
import FlowOpt.Program.Function

/-!
# Programs as JSON

Absent fields and empty lists are left out when a record is written, except the instructions of a
function. When one is read they may be missing; an absent field may also be null, a list may not.
-/

namespace FlowOpt

open Json (Document Fault Shape once required)

namespace Literal

def toJson : Literal → Json
  | .bool b => .bool b
  | .int n => .int n.toInt
  | .float x => .float x

def ofJson? : Json → Option Literal
  | .bool b => some (.bool b)
  | .int n => some (.int (Int64.ofInt n))
  | .float x => some (.float x)
  | _ => none

end Literal

namespace Ty

def toJson : Ty → Json
  | .named name => .text name
  | .pointer target => .record [("ptr", target.toJson)]

mutual

def ofJson? : Json → Option Ty
  | .text name => some (.named name)
  | .record members => (targetOf? none members).map .pointer
  | _ => none

/-- The one `ptr` among the members; other members do not matter. -/
def targetOf? (seen : Option Ty) : List (String × Json) → Option Ty
  | [] => seen
  | (key, value) :: members =>
    if key = "ptr" then
      match seen with
      | some _ => none
      | none =>
        match ofJson? value with
        | some ty => targetOf? (some ty) members
        | none => none
    else targetOf? seen members

end

def read (room : Nat) (d : Document) : Except Fault Ty := d.interpreted room ofJson?

end Ty

/-- A member that is written only when there is something to write. -/
def optionalMember {α : Type} (key : String) (toJson : α → Json) :
    Option α → List (String × Json)
  | none => []
  | some a => [(key, toJson a)]

def listMember {α : Type} (key : String) (toJson : α → Json) (items : List α) :
    List (String × Json) :=
  if items.isEmpty then [] else [(key, .list (items.map toJson))]

namespace Instruction

def toJson (i : Instruction) : Json :=
  .record (optionalMember "label" .text i.label ++ optionalMember "op" .text i.op ++
    optionalMember "dest" .text i.dest ++ optionalMember "type" Ty.toJson i.ty ++
    listMember "args" .text i.args ++ listMember "funcs" .text i.funcs ++
    listMember "labels" .text i.labels ++ optionalMember "value" Literal.toJson i.value)

/-- An instruction of which some fields are read. -/
structure Draft where
  label : Option (Option String) := none
  op : Option (Option String) := none
  dest : Option (Option String) := none
  ty : Option (Option Ty) := none
  args : Option (List String) := none
  funcs : Option (List String) := none
  labels : Option (List String) := none
  value : Option (Option Literal) := none

def Draft.put (room : Nat) (d : Draft) (field : String) (value : Document) : Except Fault Draft :=
  match field with
  | "label" => once d.label (value.nullable Document.string) fun v => { d with label := some v }
  | "op" => once d.op (value.nullable Document.string) fun v => { d with op := some v }
  | "dest" => once d.dest (value.nullable Document.string) fun v => { d with dest := some v }
  | "type" => once d.ty (value.nullable (Ty.read room)) fun v => { d with ty := some v }
  | "args" => once d.args (value.strings room) fun v => { d with args := some v }
  | "funcs" => once d.funcs (value.strings room) fun v => { d with funcs := some v }
  | "labels" => once d.labels (value.strings room) fun v => { d with labels := some v }
  | "value" =>
    once d.value (value.nullable (·.interpreted room Literal.ofJson?)) fun v =>
      { d with value := some v }
  | _ => .ok d

def Draft.finish (d : Draft) : Instruction where
  label := d.label.join
  op := d.op.join
  dest := d.dest.join
  ty := d.ty.join
  args := d.args.getD []
  funcs := d.funcs.getD []
  labels := d.labels.getD []
  value := d.value.join

def shape : Shape Draft Instruction where
  fields := ["label", "op", "dest", "type", "args", "funcs", "labels", "value"]
  start := {}
  put := Draft.put
  finish := fun d => .ok d.finish

def read (room : Nat) (d : Document) : Except Fault Instruction := shape.read room d

end Instruction

namespace Parameter

def toJson (p : Parameter) : Json := .record [("name", .text p.name), ("type", p.ty.toJson)]

structure Draft where
  name : Option String := none
  ty : Option Ty := none

def Draft.put (room : Nat) (d : Draft) (field : String) (value : Document) : Except Fault Draft :=
  match field with
  | "name" => once d.name value.string fun v => { d with name := some v }
  | "type" => once d.ty (Ty.read room value) fun v => { d with ty := some v }
  | _ => .ok d

def Draft.finish (d : Draft) : Except Fault Parameter := do
  return { name := ← required d.name, ty := ← required d.ty }

def shape : Shape Draft Parameter := ⟨["name", "type"], {}, Draft.put, Draft.finish⟩

def read (room : Nat) (d : Document) : Except Fault Parameter := shape.read room d

end Parameter

namespace Function

def toJson (f : Function) : Json :=
  .record ([("name", .text f.name)] ++ listMember "args" Parameter.toJson f.params ++
    optionalMember "type" Ty.toJson f.ty ++ [("instrs", .list (f.instrs.map Instruction.toJson))])

structure Draft where
  name : Option String := none
  params : Option (List Parameter) := none
  ty : Option (Option Ty) := none
  instrs : Option (List Instruction) := none

def Draft.put (room : Nat) (d : Draft) (field : String) (value : Document) : Except Fault Draft :=
  match field with
  | "name" => once d.name value.string fun v => { d with name := some v }
  | "args" => once d.params (value.items room Parameter.read) fun v => { d with params := some v }
  | "type" => once d.ty (value.nullable (Ty.read room)) fun v => { d with ty := some v }
  | "instrs" =>
    once d.instrs (value.items room Instruction.read) fun v => { d with instrs := some v }
  | _ => .ok d

def Draft.finish (d : Draft) : Except Fault Function := do
  return {
    name := ← required d.name
    params := d.params.getD []
    ty := d.ty.join
    instrs := d.instrs.getD [] }

def shape : Shape Draft Function := ⟨["name", "args", "type", "instrs"], {}, Draft.put, Draft.finish⟩

def read (room : Nat) (d : Document) : Except Fault Function := shape.read room d

end Function

namespace Program

def toJson (p : Program) : Json :=
  .record [("functions", .list (p.functions.map Function.toJson))]

def shape : Shape (Option (List Function)) Program where
  fields := ["functions"]
  start := none
  put := fun room slot _ value => once slot (value.items room Function.read) some
  finish := fun slot => do return { functions := ← required slot }

def read (room : Nat) (d : Document) : Except Fault Program := shape.read room d

/-- The program a text holds, if it holds nothing else. -/
def ofText (text : String) : Except Fault Program := do
  let (d, trailing) := Document.ofText text
  let p ← read Document.maxDepth d
  Document.skipStop trailing
  return p

def toText (p : Program) : String := p.toJson.pretty

end Program

end FlowOpt
