import FlowOpt.Json.Shape
import FlowOpt.Proofs.Json.Document

/-!
# Reading a document by its value

What a reader makes of a document follows from the value of the document. A record is gathered
member by member: each one fills a slot that was empty, so the members may be taken one after
another, and an absent one leaves its slot as it was.
-/

namespace FlowOpt.Json

theorem Numeral.value?_cases {n : Numeral} {v : Json} (h : n.value? = some v) :
    (∃ i, v = .int i) ∨ ∃ x, v = .float x := by
  unfold value? at h
  extract_lets magnitude signed fits at h
  split at h
  · exact .inl ⟨_, (Option.some.inj h).symm⟩
  · obtain ⟨x, -, rfl⟩ := Option.map_eq_some_iff.mp h
    exact .inr ⟨x, rfl⟩

namespace Document

variable {room : Nat} {d : Document}

inductive Gives (room : Nat) : Document → Json → Prop
  | null : Gives room .null .null
  | bool (b : Bool) : Gives room (.bool b) (.bool b)
  | number {n : Numeral} {v : Json} (value : n.value? = some v) : Gives room (.number n) v
  | text {q : Quoted} {s : String} (read : q.read = .ok s) : Gives room (.text q) (.text s)
  | list {ds : List Document} {vs : List Json} (hroom : room ≠ 0)
    (each : valueItems (room - 1) ds = .ok vs) : Gives room (.list ds none) (.list vs)
  | record {ds : List (Quoted × Document)} {vs : List (String × Json)} (hroom : room ≠ 0)
    (each : valueMembers (room - 1) ds = .ok vs) : Gives room (.record ds none) (.record vs)

theorem gives_of_value {v : Json} (h : d.value room = .ok v) : Gives room d v := by
  cases d with
  | null => cases h; exact .null
  | bool b => cases h; exact .bool b
  | number n =>
    unfold value at h
    split at h
    case h_1 hv => exact .number (hv.trans (congrArg some (Except.ok.inj h)))
    case h_2 => cases h
  | text q =>
    cases hq : q.read with
    | error e => rw [value, hq] at h; cases h
    | ok s => rw [value, hq] at h; cases h; exact .text hq
  | list ds stop =>
    unfold value at h
    split at h
    case isTrue => cases h
    case isFalse hroom =>
      obtain ⟨vs, hvs, h⟩ := bind_eq_ok.mp h
      cases stop with
      | none => cases h; exact .list hroom hvs
      | some fault => cases h
  | record ds stop =>
    unfold value at h
    split at h
    case isTrue => cases h
    case isFalse hroom =>
      obtain ⟨vs, hvs, h⟩ := bind_eq_ok.mp h
      cases stop with
      | none => cases h; exact .record hroom hvs
      | some fault => cases h
  | broken => cases h

theorem eq_text_of_value {s : String} (h : d.value room = .ok (.text s)) :
    ∃ q, d = .text q ∧ q.read = .ok s := by
  cases gives_of_value h with
  | text read => exact ⟨_, rfl, read⟩
  | number value => simpa using Numeral.value?_cases value

theorem eq_list_of_value {vs : List Json} (h : d.value room = .ok (.list vs)) :
    ∃ ds, d = .list ds none ∧ room ≠ 0 ∧ valueItems (room - 1) ds = .ok vs := by
  cases gives_of_value h with
  | list hroom each => exact ⟨_, rfl, hroom, each⟩
  | number value => simpa using Numeral.value?_cases value

theorem eq_record_of_value {vs : List (String × Json)} (h : d.value room = .ok (.record vs)) :
    ∃ ds, d = .record ds none ∧ room ≠ 0 ∧ valueMembers (room - 1) ds = .ok vs := by
  cases gives_of_value h with
  | record hroom each => exact ⟨_, rfl, hroom, each⟩
  | number value => simpa using Numeral.value?_cases value

end Document

def ReadsBack {α : Type} (read : Nat → Document → Except Fault α) (toJson : α → Json) : Prop :=
  ∀ (a : α) (room : Nat) (d : Document), d.value room = .ok (toJson a) → read room d = .ok a

namespace ReadsBack

variable {α : Type} {read : Nat → Document → Except Fault α} {toJson : α → Json}

theorem string : ReadsBack (fun _ d => d.string) .text := by
  intro s room d h
  obtain ⟨q, rfl, hread⟩ := Document.eq_text_of_value h
  exact hread

theorem interpreted {ofJson? : Json → Option α} (h : ∀ a, ofJson? (toJson a) = some a) :
    ReadsBack (fun room d => d.interpreted room ofJson?) toJson := by
  intro a room d hvalue
  simp only [Document.interpreted, hvalue, h, bind, Except.bind]
  rfl

theorem mapM_of_valueItems (h : ReadsBack read toJson) {room : Nat} {as : List α}
    {ds : List Document} (hvalues : Document.valueItems room ds = .ok (as.map toJson)) :
    ds.mapM (read room) = .ok as := by
  induction ds generalizing as with
  | nil =>
    have has : as.map toJson = [] := (Except.ok.inj hvalues).symm
    rw [List.map_eq_nil_iff.mp has]
    rfl
  | cons d ds ih =>
    obtain ⟨v, hv, vs, hvs, hcons⟩ := Document.valueItems_cons.mp hvalues
    obtain ⟨a, as, rfl, rfl, rfl⟩ := List.map_eq_cons_iff.mp hcons.symm
    rw [List.mapM_cons, h a room d hv, ih hvs]
    rfl

theorem items (h : ReadsBack read toJson) :
    ReadsBack (fun room d => d.items room read) fun as => .list (as.map toJson) := by
  intro as room d hvalue
  obtain ⟨ds, rfl, hroom, hvalues⟩ := Document.eq_list_of_value hvalue
  simp only [Document.items, hroom, if_false, h.mapM_of_valueItems hvalues]
  rfl

theorem nullable (h : ReadsBack read toJson) (hnull : ∀ a, toJson a ≠ .null) {a : α} {room : Nat}
    {d : Document} (hvalue : d.value room = .ok (toJson a)) :
    d.nullable (read room) = .ok (some a) := by
  have hread := h a room d hvalue
  cases d with
  | null => exact absurd (Except.ok.inj hvalue).symm (hnull a)
  | _ => simp only [Document.nullable, hread, Except.map]

end ReadsBack

namespace Shape

variable {σ α β : Type} {shape : Shape σ α} {room : Nat}

/-- Whatever documents have these members as their values, they take the gathered fields from the
first state to the second. -/
def Gathers (shape : Shape σ α) (room : Nat) (members : List (String × Json)) (acc acc' : σ) :
    Prop :=
  ∀ ds, Document.valueMembers room ds = .ok members →
    ds.foldlM (shape.putMember room) acc = .ok acc'

theorem Gathers.nil (acc : σ) : shape.Gathers room [] acc acc := by
  intro ds h
  cases ds with
  | nil => rfl
  | cons d ds =>
    obtain ⟨_, -, _, -, _, -, h⟩ := Document.valueMembers_cons.mp h
    cases h

theorem Gathers.cons {key : String} {v : Json} {members : List (String × Json)}
    {acc acc' acc'' : σ} (hkey : shape.fields.contains key)
    (hput : ∀ d, d.value room = .ok v → shape.put room acc key d = .ok acc')
    (hrest : shape.Gathers room members acc' acc'') :
    shape.Gathers room ((key, v) :: members) acc acc'' := by
  intro ds h
  cases ds with
  | nil => cases h
  | cons d ds =>
    obtain ⟨s, hs, v', hv, rest, hvalues, hcons⟩ := Document.valueMembers_cons.mp h
    cases hcons
    rw [List.foldlM_cons, putMember, hs]
    simp only [bind, Except.bind, hkey, if_true, hput d.2 hv]
    exact hrest ds hvalues

theorem Gathers.append {front back : List (String × Json)} {acc acc' acc'' : σ}
    (hfront : shape.Gathers room front acc acc') (hback : shape.Gathers room back acc' acc'') :
    shape.Gathers room (front ++ back) acc acc'' := by
  intro ds h
  obtain ⟨ds₁, ds₂, rfl, h₁, h₂⟩ := Document.valueMembers_append h
  rw [List.foldlM_append, hfront ds₁ h₁]
  exact hback ds₂ h₂

theorem Gathers.member {read : Nat → Document → Except Fault β} {toJson : β → Json}
    (hread : ReadsBack read toJson) {key : String} (hkey : shape.fields.contains key)
    (fill : Option β → σ) (hput : ∀ d, shape.put room (fill none) key d =
      once none (read room d) fun b => fill (some b)) (b : β) :
    shape.Gathers room [(key, toJson b)] (fill none) (fill (some b)) := by
  refine .cons hkey (fun d hd => ?_) (.nil _)
  rw [hput, hread b room d hd]
  rfl

/-- A record reads back when what its members gather is what it was made of. -/
theorem readsBack {toJson : α → Json}
    (h : ∀ a, ∃ members acc, toJson a = .record members ∧
      (∀ room, shape.Gathers room members shape.start acc) ∧ shape.finish acc = .ok a) :
    ReadsBack shape.read toJson := by
  intro a room d hvalue
  obtain ⟨members, acc, hrecord, hgathers, hfinish⟩ := h a
  rw [hrecord] at hvalue
  obtain ⟨ds, rfl, hroom, hvalues⟩ := Document.eq_record_of_value hvalue
  simp only [read, hroom, if_false, hgathers (room - 1) ds hvalues, bind, Except.bind,
    Document.skipStop, hfinish]

end Shape

end FlowOpt.Json
