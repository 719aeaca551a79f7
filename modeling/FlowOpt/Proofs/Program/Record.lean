import FlowOpt.Program.Record
import FlowOpt.Proofs.Json.Shape
import FlowOpt.Proofs.Program.Equality

/-!
# Programs read back

Each part of a program is read by the shape it was written in, so a written program gives itself
when it is read, as long as its numbers have numerals and the reader has room for its depth.
-/

namespace FlowOpt

open Json (Document Fault ReadsBack Shape once)

def unlessEmpty {α : Type} (as : List α) : Option (List α) := if as.isEmpty then none else some as

theorem getD_unlessEmpty {α : Type} (as : List α) : (unlessEmpty as).getD [] = as := by
  cases as <;> rfl

theorem join_map_some {α : Type} (o : Option α) : (o.map some).join = o := by cases o <;> rfl

section Members

variable {α σ β : Type} {toJson : α → Json}

theorem gathers_optionalMember (shape : Shape σ β) {room : Nat} (key : String)
    {read : Nat → Document → Except Fault α} (hread : ReadsBack read toJson)
    (hnull : ∀ a, toJson a ≠ .null) (hkey : shape.fields.contains key)
    (fill : Option (Option α) → σ) (hput : ∀ d, shape.put room (fill none) key d =
      once none (d.nullable (read room)) fun o => fill (some o)) (o : Option α) :
    shape.Gathers room (optionalMember key toJson o) (fill none) (fill (o.map some)) := by
  cases o with
  | none => exact .nil _
  | some a =>
    refine .cons hkey (fun d hd => ?_) (.nil _)
    rw [hput, hread.nullable hnull hd]
    rfl

theorem gathers_listMember (shape : Shape σ β) {room : Nat} (key : String)
    {read : Nat → Document → Except Fault α} (hread : ReadsBack read toJson)
    (hkey : shape.fields.contains key) (fill : Option (List α) → σ)
    (hput : ∀ d, shape.put room (fill none) key d =
      once none (d.items room read) fun as => fill (some as)) (as : List α) :
    shape.Gathers room (listMember key toJson as) (fill none) (fill (unlessEmpty as)) := by
  unfold listMember unlessEmpty
  split
  case isTrue => exact .nil _
  case isFalse => exact .member hread.items hkey fill hput as

end Members

theorem Literal.ofJson?_toJson (v : Literal) : ofJson? v.toJson = some v := by
  cases v with
  | bool b => rfl
  | int n => exact congrArg (some ∘ Literal.int) n.ofInt_toInt
  | float x => rfl

theorem Literal.toJson_ne_null (v : Literal) : v.toJson ≠ .null := by
  cases v <;> exact Json.noConfusion

theorem Ty.ofJson?_toJson (ty : Ty) : ofJson? ty.toJson = some ty := by
  induction ty with
  | named name => simp [toJson, ofJson?]
  | pointer target ih => simp [toJson, ofJson?, targetOf?, ih]

theorem Ty.toJson_ne_null (ty : Ty) : ty.toJson ≠ .null := by
  cases ty <;> exact Json.noConfusion

theorem Ty.readsBack : ReadsBack Ty.read Ty.toJson := .interpreted Ty.ofJson?_toJson

theorem Literal.readsBack :
    ReadsBack (fun room d => d.interpreted room Literal.ofJson?) Literal.toJson :=
  .interpreted Literal.ofJson?_toJson

theorem text_ne_null (s : String) : Json.text s ≠ .null := Json.noConfusion

namespace Instruction

def written (i : Instruction) : Draft where
  label := i.label.map some
  op := i.op.map some
  dest := i.dest.map some
  ty := i.ty.map some
  args := unlessEmpty i.args
  funcs := unlessEmpty i.funcs
  labels := unlessEmpty i.labels
  value := i.value.map some

theorem finish_written (i : Instruction) : i.written.finish = i := by
  simp only [written, Draft.finish, getD_unlessEmpty, join_map_some]

theorem readsBack : ReadsBack Instruction.read Instruction.toJson := by
  refine Shape.readsBack fun i =>
    ⟨_, i.written, rfl, fun room => ?_, congrArg Except.ok i.finish_written⟩
  simp only [List.append_assoc]
  -- Each member fills its slot while the slots behind it are still empty.
  refine .append (gathers_optionalMember shape "label" .string text_ne_null rfl
    (fun v => { label := v }) (fun _ => rfl) i.label) ?_
  refine .append (gathers_optionalMember shape "op" .string text_ne_null rfl
    (fun v => { label := i.written.label, op := v }) (fun _ => rfl) i.op) ?_
  refine .append (gathers_optionalMember shape "dest" .string text_ne_null rfl
    (fun v => { label := i.written.label, op := i.written.op, dest := v }) (fun _ => rfl) i.dest) ?_
  refine .append (gathers_optionalMember shape "type" Ty.readsBack Ty.toJson_ne_null rfl
    (fun v => { label := i.written.label, op := i.written.op, dest := i.written.dest, ty := v })
    (fun _ => rfl) i.ty) ?_
  refine .append (gathers_listMember shape "args" .string rfl
    (fun v => { i.written with args := v, funcs := none, labels := none, value := none })
    (fun _ => rfl) i.args) ?_
  refine .append (gathers_listMember shape "funcs" .string rfl
    (fun v => { i.written with funcs := v, labels := none, value := none })
    (fun _ => rfl) i.funcs) ?_
  refine .append (gathers_listMember shape "labels" .string rfl
    (fun v => { i.written with labels := v, value := none }) (fun _ => rfl) i.labels) ?_
  exact gathers_optionalMember shape "value" Literal.readsBack Literal.toJson_ne_null rfl
    (fun v => { i.written with value := v }) (fun _ => rfl) i.value

end Instruction

theorem Parameter.readsBack : ReadsBack Parameter.read Parameter.toJson := by
  refine Shape.readsBack fun p => ⟨_, ⟨some p.name, some p.ty⟩, rfl, fun room => ?_, rfl⟩
  have name : shape.Gathers room [("name", .text p.name)] shape.start ⟨some p.name, none⟩ :=
    .member .string rfl (fun v => (⟨v, none⟩ : Draft)) (fun _ => rfl) p.name
  exact name.append <|
    .member Ty.readsBack rfl (fun v => (⟨some p.name, v⟩ : Draft)) (fun _ => rfl) p.ty

theorem Function.readsBack : ReadsBack Function.read Function.toJson := by
  refine Shape.readsBack fun f =>
    ⟨_, ⟨some f.name, unlessEmpty f.params, f.ty.map some, some f.instrs⟩, rfl,
      fun room => ?_, ?_⟩
  · simp only [List.append_assoc]
    refine .append (.member .string rfl
      (fun v => (⟨v, none, none, none⟩ : Draft)) (fun _ => rfl) f.name) ?_
    refine .append (gathers_listMember shape "args" Parameter.readsBack rfl
      (fun v => (⟨some f.name, v, none, none⟩ : Draft)) (fun _ => rfl) f.params) ?_
    refine .append (gathers_optionalMember shape "type" Ty.readsBack Ty.toJson_ne_null rfl
      (fun v => (⟨some f.name, unlessEmpty f.params, v, none⟩ : Draft)) (fun _ => rfl) f.ty) ?_
    exact .member Instruction.readsBack.items rfl
      (fun v => (⟨some f.name, unlessEmpty f.params, f.ty.map some, v⟩ : Draft)) (fun _ => rfl)
      f.instrs
  · simp only [shape, Draft.finish, Json.required, getD_unlessEmpty, join_map_some,
      Option.getD_some, bind, Except.bind]
    rfl

theorem Program.readsBack : ReadsBack Program.read Program.toJson :=
  Shape.readsBack fun p => ⟨_, some p.functions, rfl, fun _ =>
    .member Function.readsBack.items rfl id (fun _ => rfl) p.functions, rfl⟩

theorem forall_mem_optionalMember {α : Type} {P : String × Json → Prop} {key : String}
    {toJson : α → Json} {o : Option α} (h : ∀ a ∈ o, P (key, toJson a)) :
    ∀ m ∈ optionalMember key toJson o, P m := by
  cases o with
  | none => exact List.forall_mem_nil _
  | some a => exact List.forall_mem_singleton.mpr (h a rfl)

theorem forall_mem_listMember {α : Type} {P : String × Json → Prop} {key : String}
    {toJson : α → Json} {as : List α} (h : P (key, .list (as.map toJson))) :
    ∀ m ∈ listMember key toJson as, P m := by
  unfold listMember
  split
  · exact List.forall_mem_nil _
  · exact List.forall_mem_singleton.mpr h

theorem representable_list {α : Type} {toJson : α → Json} {as : List α}
    (h : ∀ a ∈ as, (toJson a).Representable) : (Json.list (as.map toJson)).Representable :=
  .list (List.forall_mem_map.mpr h)

def Literal.isFinite : Literal → Bool
  | .float x => x.isFinite
  | _ => true

def Program.FloatsFinite (p : Program) : Prop :=
  ∀ f ∈ p.functions, ∀ i ∈ f.instrs, ∀ v ∈ i.value, v.isFinite

instance (p : Program) : Decidable p.FloatsFinite :=
  inferInstanceAs (Decidable (∀ f ∈ p.functions, ∀ i ∈ f.instrs, ∀ v ∈ i.value, v.isFinite))

theorem Literal.representable {v : Literal} (h : v.isFinite) : v.toJson.Representable := by
  cases v with
  | bool b => exact .bool b
  | int n => exact .int n.minValue_le_toInt n.toInt_le
  | float x => exact .float h

theorem Ty.representable (ty : Ty) : ty.toJson.Representable := by
  induction ty with
  | named name => exact .text name
  | pointer target ih => exact .record (List.forall_mem_singleton.mpr ih)

theorem Instruction.representable {i : Instruction} (h : ∀ v ∈ i.value, v.isFinite) :
    i.toJson.Representable := by
  refine .record ?_
  simp only [List.forall_mem_append]
  have hname (key : String) (o : Option String) :
      ∀ m ∈ optionalMember key .text o, m.2.Representable :=
    forall_mem_optionalMember fun _ _ => .text _
  have hnames (key : String) (as : List String) :
      ∀ m ∈ listMember key .text as, m.2.Representable :=
    forall_mem_listMember (representable_list fun _ _ => .text _)
  have hty : ∀ m ∈ optionalMember "type" Ty.toJson i.ty, m.2.Representable :=
    forall_mem_optionalMember fun ty _ => ty.representable
  have hvalue : ∀ m ∈ optionalMember "value" Literal.toJson i.value, m.2.Representable :=
    forall_mem_optionalMember fun v hv => Literal.representable (h v hv)
  exact ⟨⟨⟨⟨⟨⟨⟨hname _ _, hname _ _⟩, hname _ _⟩, hty⟩, hnames _ _⟩, hnames _ _⟩, hnames _ _⟩,
    hvalue⟩

theorem Parameter.representable (p : Parameter) : p.toJson.Representable :=
  .record (List.forall_mem_cons.mpr ⟨.text _, List.forall_mem_singleton.mpr p.ty.representable⟩)

theorem Function.representable {f : Function} (h : ∀ i ∈ f.instrs, ∀ v ∈ i.value, v.isFinite) :
    f.toJson.Representable := by
  refine .record ?_
  simp only [List.forall_mem_append]
  have hparams : ∀ m ∈ listMember "args" Parameter.toJson f.params, m.2.Representable :=
    forall_mem_listMember (representable_list fun p _ => p.representable)
  have hty : ∀ m ∈ optionalMember "type" Ty.toJson f.ty, m.2.Representable :=
    forall_mem_optionalMember fun ty _ => ty.representable
  have hinstrs : (Json.list (f.instrs.map Instruction.toJson)).Representable :=
    representable_list fun i hi => Instruction.representable (h i hi)
  exact ⟨⟨⟨List.forall_mem_singleton.mpr (.text _), hparams⟩, hty⟩,
    List.forall_mem_singleton.mpr hinstrs⟩

theorem Program.FloatsFinite.representable {p : Program} (h : p.FloatsFinite) :
    p.toJson.Representable :=
  .record (List.forall_mem_singleton.mpr (representable_list fun f hf =>
    Function.representable (h f hf)))

theorem Binary64.isNaN_of_isFinite {x : Binary64} (h : x.isFinite) : x.isNaN = false :=
  decide_eq_false (Nat.not_lt_of_lt (of_decide_eq_true h))

namespace Program

/-- What is written of a program reads back as the same program. -/
theorem ofText_toText (p : Program) (hfinite : p.FloatsFinite)
    (hdepth : p.toJson.depth ≤ Document.maxDepth) :
    ofText p.toText = .ok p ∧ (p == p) = true := by
  obtain ⟨d, htext, hholds⟩ := hfinite.representable.ofText_pretty
  have hread : read Document.maxDepth d = .ok p := readsBack p _ d (hholds _ hdepth)
  refine ⟨?_, ?_⟩
  · rw [ofText, toText, htext]
    simp only [hread, bind, Except.bind, Document.skipStop]
    rfl
  · exact beq_self fun f hf i hi x hx => Binary64.isNaN_of_isFinite (hfinite f hf i hi _ hx)

def literals : Program :=
  ⟨[{ name := "scale \"x\"\n", params := [⟨"p", .pointer (.pointer (.named "float"))⟩], instrs := [
      .atLabel "entry",
      .constant "tenth" (.named "float") (.float ⟨false, 0x3FB999999999999A, by decide⟩),
      .constant "zero" (.named "float") (.float (.zero true)),
      .constant "one" (.named "int") (.int 1),
      .constant "yes" (.named "bool") (.bool true), {}] }]⟩

theorem literals_roundTrip :
    literals.FloatsFinite ∧ literals.toJson.depth = 7 ∧ ofText literals.toText = .ok literals ∧
      (literals == literals) = true :=
  ⟨by decide, by decide, ofText_toText literals (by decide) (by decide)⟩

end Program

end FlowOpt
