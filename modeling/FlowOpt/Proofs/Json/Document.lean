import FlowOpt.Json.Document
import FlowOpt.Proofs.Except
import FlowOpt.Proofs.Json.Numeral
import FlowOpt.Proofs.Json.Text

/-!
# What is written scans back

The document of a written value holds the value, if there is room for its lists and records. Items
and members are scanned one by one, each up to a character that no numeral goes on with.
-/

namespace FlowOpt

namespace Json

mutual

def depth : Json → Nat
  | .list items => depthItems items + 1
  | .record members => depthMembers members + 1
  | _ => 0

def depthItems : List Json → Nat
  | [] => 0
  | item :: items => max item.depth (depthItems items)

def depthMembers : List (String × Json) → Nat
  | [] => 0
  | (_, value) :: members => max value.depth (depthMembers members)

end

theorem depthItems_le {items : List Json} {room : Nat} :
    depthItems items ≤ room ↔ ∀ v ∈ items, v.depth ≤ room := by
  induction items with
  | nil => simp [depthItems]
  | cons item items ih => rw [depthItems, Nat.max_le, ih, List.forall_mem_cons]

theorem depthMembers_le {members : List (String × Json)} {room : Nat} :
    depthMembers members ≤ room ↔ ∀ m ∈ members, m.2.depth ≤ room := by
  induction members with
  | nil => simp [depthMembers]
  | cons member members ih => rw [depthMembers, Nat.max_le, ih, List.forall_mem_cons]

/-- The values whose text keeps them: no integer is too long and no number lacks a numeral. -/
inductive Representable : Json → Prop
  | null : Representable .null
  | bool (b : Bool) : Representable (.bool b)
  | int {n : Int} (low : Int64.minValue.toInt ≤ n) (high : n ≤ Int64.maxValue.toInt) :
    Representable (.int n)
  | float {x : Binary64} (finite : x.isFinite) : Representable (.float x)
  | text (s : String) : Representable (.text s)
  | list {items : List Json} (each : ∀ v ∈ items, Representable v) : Representable (.list items)
  | record {members : List (String × Json)} (each : ∀ m ∈ members, Representable m.2) :
    Representable (.record members)

structure Style.Legible (style : Style) : Prop where
  lineBreak : ∀ depth, ∀ c ∈ style.lineBreak depth, isBlank c
  colon : ∃ before after, style.colon = before ++ ':' :: after ∧
    (∀ c ∈ before, isBlank c) ∧ ∀ c ∈ after, isBlank c

theorem Style.legible_pretty : Style.pretty.Legible where
  lineBreak _ := by simp +contextual [Style.pretty, isBlank]
  colon := ⟨[], [' '], rfl, by simp, by simp [isBlank]⟩

def opensValue (c : Char) : Bool :=
  c.isDigit || ['n', 't', 'f', '-', '"', '[', '{'].contains c

theorem Spells.exists_cons {text : List Char} {v : Json} (h : Spells text v) :
    ∃ c cs, text = c :: cs ∧ opensValue c := by
  obtain ⟨s, negative, rfl, -⟩ := h
  cases negative with
  | true => exact ⟨_, _, rfl, rfl⟩
  | false =>
    obtain ⟨c, cs, hcs, hdigit⟩ := s.exists_text_eq_cons
    exact ⟨c, cs, hcs, by simp [opensValue, hdigit]⟩

theorem Representable.exists_cons {v : Json} (hv : v.Representable) (style : Style) (depth : Nat) :
    ∃ c cs, v.render style depth = c :: cs ∧ opensValue c := by
  cases hv with
  | null => exact ⟨_, _, rfl, rfl⟩
  | bool b => cases b <;> exact ⟨_, _, rfl, rfl⟩
  | int low high => exact (spells_integer low high).exists_cons
  | float finite =>
    rw [render, if_pos finite]
    exact (spells_render (by decide) finite).exists_cons
  | text s => exact ⟨_, _, rfl, rfl⟩
  | @list items each => cases items <;> exact ⟨_, _, rfl, rfl⟩
  | @record members each =>
    match members with
    | [] => exact ⟨_, _, rfl, rfl⟩
    | (_, _) :: _ => exact ⟨_, _, rfl, rfl⟩

theorem not_isBlank_of_opensValue {c : Char} (h : opensValue c) : ¬ isBlank c := by
  intro hblank
  simp only [isBlank, Bool.or_eq_true, beq_iff_eq] at hblank
  rcases hblank with ((rfl | rfl) | rfl) | rfl <;> exact absurd h (by decide)

theorem skipBlank_append {blanks : List Char} (hblanks : ∀ c ∈ blanks, isBlank c)
    {c : Char} (hc : ¬ isBlank c) (cs : List Char) : skipBlank (blanks ++ c :: cs) = c :: cs := by
  rw [skipBlank, List.dropWhile_append_of_pos hblanks, List.dropWhile_cons_of_neg hc]

theorem skipBlank_cons {c : Char} (hc : ¬ isBlank c) (cs : List Char) :
    skipBlank (c :: cs) = c :: cs :=
  skipBlank_append (List.forall_mem_nil _) hc cs

theorem endsNumeral_cons {c : Char} (hc : ¬ c.isDigit ∧ c ≠ '.' ∧ c ≠ 'e' ∧ c ≠ 'E')
    (cs : List Char) : EndsNumeral (c :: cs) := by
  rintro _ ⟨⟩
  exact hc

theorem endsNumeral_comma (cs : List Char) : EndsNumeral (',' :: cs) :=
  endsNumeral_cons (by decide) cs

theorem endsNumeral_append {blanks rest : List Char} (hblanks : ∀ c ∈ blanks, isBlank c)
    (hrest : EndsNumeral rest) : EndsNumeral (blanks ++ rest) := by
  cases blanks with
  | nil => exact hrest
  | cons b bs =>
    have hb := hblanks b List.mem_cons_self
    simp only [isBlank, Bool.or_eq_true, beq_iff_eq] at hb
    rcases hb with ((rfl | rfl) | rfl) | rfl <;> exact endsNumeral_cons (by decide) _

/-- The document gives back the value to whoever has room for it. -/
def Document.Holds (d : Document) (v : Json) : Prop :=
  ∀ room, v.depth ≤ room → d.value room = .ok v

def ScansBack (style : Style) (v : Json) : Prop :=
  ∀ (fuel depth : Nat) (blanks rest : List Char), (∀ c ∈ blanks, isBlank c) → EndsNumeral rest →
    2 * (v.render style depth).length ≤ fuel →
    ∃ d : Document, Document.scan fuel (blanks ++ (v.render style depth ++ rest)) = (d, .ok rest) ∧
      d.Holds v

namespace Document

theorem valueItems_cons {room : Nat} {d : Document} {ds : List Document} {vs : List Json} :
    valueItems room (d :: ds) = .ok vs ↔
      ∃ v, d.value room = .ok v ∧ ∃ rest, valueItems room ds = .ok rest ∧ v :: rest = vs := by
  simp only [valueItems, bind_eq_ok, pure, Except.pure, Except.ok.injEq]

theorem valueMembers_cons {room : Nat} {key : Quoted} {d : Document}
    {ds : List (Quoted × Document)} {vs : List (String × Json)} :
    valueMembers room ((key, d) :: ds) = .ok vs ↔
      ∃ s, key.read = .ok s ∧ ∃ v, d.value room = .ok v ∧
        ∃ rest, valueMembers room ds = .ok rest ∧ (s, v) :: rest = vs := by
  simp only [valueMembers, bind_eq_ok, pure, Except.pure, Except.ok.injEq]

theorem valueMembers_append {room : Nat} {ds : List (Quoted × Document)}
    {front back : List (String × Json)} (h : valueMembers room ds = .ok (front ++ back)) :
    ∃ ds₁ ds₂, ds = ds₁ ++ ds₂ ∧ valueMembers room ds₁ = .ok front ∧
      valueMembers room ds₂ = .ok back := by
  induction front generalizing ds with
  | nil => exact ⟨[], ds, rfl, rfl, h⟩
  | cons m front ih =>
    cases ds with
    | nil => cases h
    | cons d ds =>
      obtain ⟨s, hs, v, hv, rest, hrest, hcons⟩ := valueMembers_cons.mp h
      cases hcons
      obtain ⟨ds₁, ds₂, rfl, hfront, hback⟩ := ih hrest
      exact ⟨d :: ds₁, ds₂, rfl, valueMembers_cons.mpr ⟨s, hs, v, hv, front, hfront, rfl⟩, hback⟩

theorem ofNumeral_text (s : Spelling) (negative : Bool) {rest : List Char}
    (hrest : EndsNumeral rest) :
    ofNumeral negative (s.text ++ rest) = (.number (s.numeral negative), .ok rest) := by
  rw [ofNumeral, scanNumeral_text s negative hrest]

theorem scan_numeral {s : Spelling} {negative : Bool} {fuel : Nat} {blanks rest : List Char}
    (hblanks : ∀ c ∈ blanks, isBlank c) (hrest : EndsNumeral rest) :
    scan (fuel + 1) (blanks ++ ((if negative then '-' :: s.text else s.text) ++ rest)) =
      (.number (s.numeral negative), .ok rest) := by
  cases negative with
  | true =>
    rw [if_pos rfl, List.cons_append, scan, skipBlank_append hblanks (by decide)]
    exact ofNumeral_text s true hrest
  | false =>
    obtain ⟨c, cs, hcs, hdigit⟩ := s.exists_text_eq_cons
    have hopens : opensValue c := by simp [opensValue, hdigit]
    have hmarks : c ≠ 'n' ∧ c ≠ 't' ∧ c ≠ 'f' ∧ c ≠ '-' ∧ c ≠ '"' ∧ c ≠ '[' ∧ c ≠ '{' := by
      refine ⟨?_, ?_, ?_, ?_, ?_, ?_, ?_⟩ <;> rintro rfl <;> exact absurd hdigit (by decide)
    have hnumeral := ofNumeral_text s false hrest
    rw [hcs, List.cons_append] at hnumeral
    rw [if_neg Bool.false_ne_true, hcs, List.cons_append]
    simp [scan, skipBlank_append hblanks (not_isBlank_of_opensValue hopens), hmarks, hdigit,
      hnumeral]

end Document

open Document

variable {style : Style}

theorem scansBack_of_scan {v : Json} (hpos : ∀ depth, 0 < (v.render style depth).length)
    (h : ∀ (fuel depth : Nat) (blanks rest : List Char), (∀ c ∈ blanks, isBlank c) →
      EndsNumeral rest → 2 * (v.render style depth).length ≤ fuel + 1 →
      ∃ d : Document, scan (fuel + 1) (blanks ++ (v.render style depth ++ rest)) = (d, .ok rest) ∧
        d.Holds v) : ScansBack style v := by
  intro fuel depth blanks rest hblanks hrest hfuel
  have := hpos depth
  obtain ⟨fuel, rfl⟩ : ∃ less, fuel = less + 1 := ⟨fuel - 1, by omega⟩
  exact h fuel depth blanks rest hblanks hrest hfuel

theorem scansBack_null : ScansBack style .null := by
  refine scansBack_of_scan (fun _ => Nat.succ_pos _) fun fuel depth blanks rest hblanks _ _ => ?_
  refine ⟨.null, ?_, fun _ _ => rfl⟩
  simp [render, scan, skipBlank_append hblanks, isBlank, ofWord, scanWord]

theorem scansBack_bool (b : Bool) : ScansBack style (.bool b) := by
  refine scansBack_of_scan (fun _ => by cases b <;> exact Nat.succ_pos _)
    fun fuel depth blanks rest hblanks _ _ => ⟨.bool b, ?_, fun _ _ => rfl⟩
  cases b <;> simp [render, scan, skipBlank_append hblanks, isBlank, ofWord, scanWord]

theorem scansBack_of_spells {v : Json} (h : ∀ depth, Spells (v.render style depth) v) :
    ScansBack style v := by
  refine scansBack_of_scan (fun depth => ?_) fun fuel depth blanks rest hblanks hrest _ => ?_
  · obtain ⟨c, cs, hcs, -⟩ := (h depth).exists_cons
    rw [hcs]
    exact Nat.succ_pos _
  · obtain ⟨s, negative, htext, hvalue⟩ := h depth
    refine ⟨.number (s.numeral negative), htext ▸ scan_numeral hblanks hrest, fun _ _ => ?_⟩
    rw [Document.value, hvalue]

theorem scanParts_quote (s : String) (rest : List Char) :
    ∃ parts cs, quote s ++ rest = '"' :: cs ∧ scanParts cs = (parts, .ok rest) ∧
      Quoted.read ⟨parts, none⟩ = .ok s := by
  obtain ⟨parts, hscan, hread⟩ := exists_scanParts s rest
  exact ⟨parts, _, by rw [quote, List.cons_append, List.append_assoc]; rfl, hscan, hread⟩

theorem scansBack_text (s : String) : ScansBack style (.text s) := by
  refine scansBack_of_scan (fun _ => Nat.succ_pos _) fun fuel depth blanks rest hblanks _ _ => ?_
  obtain ⟨parts, cs, hquote, hscan, hread⟩ := scanParts_quote s rest
  refine ⟨.text ⟨parts, none⟩, ?_, fun _ _ => by rw [value, hread, Except.map]⟩
  rw [render, hquote]
  simp [scan, skipBlank_append hblanks, isBlank, hscan, stopOf]

theorem scanItems_renderItems (hstyle : style.Legible) {item : Json} {items : List Json}
    (each : ∀ v ∈ item :: items, ScansBack style v) (fuel depth : Nat)
    {blanks closing : List Char} (rest : List Char) (hblanks : ∀ c ∈ blanks, isBlank c)
    (hclosing : ∀ c ∈ closing, isBlank c)
    (hfuel : 2 * ((item.render style depth).length + (renderItems style depth items).length) <
      fuel) :
    ∃ ds, scanItems fuel (blanks ++ (item.render style depth ++ (renderItems style depth items ++
        (closing ++ ']' :: rest)))) = (ds, .ok rest) ∧
      ∀ room, (∀ v ∈ item :: items, v.depth ≤ room) → valueItems room ds = .ok (item :: items) := by
  induction items generalizing item fuel blanks with
  | nil =>
    obtain ⟨fuel, rfl⟩ : ∃ less, fuel = less + 1 := ⟨fuel - 1, by omega⟩
    have hends : EndsNumeral (closing ++ ']' :: rest) :=
      endsNumeral_append hclosing (endsNumeral_cons (by decide) _)
    obtain ⟨d, hscan, hholds⟩ :=
      each item List.mem_cons_self fuel depth blanks _ hblanks hends (by omega)
    refine ⟨[d], ?_, fun room hroom => ?_⟩
    · simp only [renderItems, List.nil_append, scanItems, hscan,
        skipBlank_append hclosing (show ¬ isBlank ']' by decide)]
    · exact valueItems_cons.mpr ⟨item, hholds room (hroom item List.mem_cons_self), [], rfl, rfl⟩
  | cons next items ih =>
    simp only [renderItems, List.length_cons, List.length_append] at hfuel
    obtain ⟨fuel, rfl⟩ : ∃ less, fuel = less + 1 := ⟨fuel - 1, by omega⟩
    obtain ⟨d, hscan, hholds⟩ := each item List.mem_cons_self fuel depth blanks _ hblanks
      (endsNumeral_comma (style.lineBreak depth ++ (next.render style depth ++
        (renderItems style depth items ++ (closing ++ ']' :: rest))))) (by omega)
    obtain ⟨ds, hscans, hvalues⟩ := ih (fun v hv => each v (List.mem_cons_of_mem _ hv)) fuel
      (hstyle.lineBreak depth) (by omega)
    refine ⟨d :: ds, ?_, fun room hroom => ?_⟩
    · simp only [renderItems, List.cons_append, List.append_assoc, scanItems, hscan,
        skipBlank_cons (show ¬ isBlank ',' by decide), hscans]
    · exact valueItems_cons.mpr ⟨item, hholds room (hroom item List.mem_cons_self), next :: items,
        hvalues room fun v hv => hroom v (List.mem_cons_of_mem _ hv), rfl⟩

/-- A member is scanned up to the end of its value. A comma behind it leads to the next one, and a
brace ends the record. -/
theorem scanMembers_render (hstyle : style.Legible) (key : String) {value : Json}
    (hvalue : ScansBack style value) (fuel depth : Nat) {blanks rest : List Char}
    (hblanks : ∀ c ∈ blanks, isBlank c) (hrest : EndsNumeral rest)
    (hfuel : 2 * (value.render style depth).length ≤ fuel) :
    ∃ q d, q.read = .ok key ∧ d.Holds value ∧
      (∀ cs, skipBlank rest = ',' :: cs →
        scanMembers (fuel + 1) (blanks ++ (quote key ++ (style.colon ++
          (value.render style depth ++ rest)))) =
            ((q, d) :: (scanMembers fuel cs).1, (scanMembers fuel cs).2)) ∧
      ∀ cs, skipBlank rest = '}' :: cs →
        scanMembers (fuel + 1) (blanks ++ (quote key ++ (style.colon ++
          (value.render style depth ++ rest)))) = ([(q, d)], .ok cs) := by
  obtain ⟨before, after, hcolon, hbefore, hafter⟩ := hstyle.colon
  obtain ⟨d, hscan, hholds⟩ := hvalue fuel depth after rest hafter hrest hfuel
  obtain ⟨parts, text, hquote, hparts, hread⟩ :=
    scanParts_quote key (style.colon ++ (value.render style depth ++ rest))
  have hopen := skipBlank_append hblanks (show ¬ isBlank '"' by decide) text
  have hmark := skipBlank_append hbefore (show ¬ isBlank ':' by decide)
    (after ++ (value.render style depth ++ rest))
  rw [hquote]
  rw [hcolon, List.append_assoc, List.cons_append] at hparts
  refine ⟨⟨parts, none⟩, d, hread, hholds, fun cs hcs => ?_, fun cs hcs => ?_⟩ <;>
    simp only [scanMembers, hopen, hparts, hmark, hscan, hcs, stopOf]

theorem scanMembers_renderMembers (hstyle : style.Legible) {key : String} {value : Json}
    {members : List (String × Json)} (each : ∀ m ∈ (key, value) :: members, ScansBack style m.2)
    (fuel depth : Nat) {blanks closing : List Char} (rest : List Char)
    (hblanks : ∀ c ∈ blanks, isBlank c) (hclosing : ∀ c ∈ closing, isBlank c)
    (hfuel : 2 * ((value.render style depth).length +
      (renderMembers style depth members).length) < fuel) :
    ∃ ds, scanMembers fuel (blanks ++ (quote key ++ (style.colon ++ (value.render style depth ++
        (renderMembers style depth members ++ (closing ++ '}' :: rest)))))) = (ds, .ok rest) ∧
      ∀ room, (∀ m ∈ (key, value) :: members, m.2.depth ≤ room) →
        valueMembers room ds = .ok ((key, value) :: members) := by
  induction members generalizing key value fuel blanks with
  | nil =>
    obtain ⟨fuel, rfl⟩ : ∃ less, fuel = less + 1 := ⟨fuel - 1, by omega⟩
    have hends : EndsNumeral (closing ++ '}' :: rest) :=
      endsNumeral_append hclosing (endsNumeral_cons (by decide) _)
    have hvalue : ScansBack style value := each _ List.mem_cons_self
    obtain ⟨q, d, hread, hholds, -, hscan⟩ :=
      scanMembers_render hstyle key hvalue fuel depth hblanks hends (by omega)
    refine ⟨[(q, d)], ?_, fun room hroom => ?_⟩
    · exact hscan rest (skipBlank_append hclosing (show ¬ isBlank '}' by decide) rest)
    · exact valueMembers_cons.mpr
        ⟨key, hread, value, hholds room (hroom _ List.mem_cons_self), [], rfl, rfl⟩
  | cons next members ih =>
    obtain ⟨nextKey, nextValue⟩ := next
    simp only [renderMembers, List.length_cons, List.length_append] at hfuel
    obtain ⟨fuel, rfl⟩ : ∃ less, fuel = less + 1 := ⟨fuel - 1, by omega⟩
    have hvalue : ScansBack style value := each _ List.mem_cons_self
    obtain ⟨q, d, hread, hholds, hscan, -⟩ :=
      scanMembers_render hstyle key hvalue fuel depth hblanks
        (endsNumeral_comma (style.lineBreak depth ++ (quote nextKey ++ (style.colon ++
          (nextValue.render style depth ++ (renderMembers style depth members ++
            (closing ++ '}' :: rest))))))) (by omega)
    obtain ⟨ds, hscans, hvalues⟩ := ih (fun m hm => each m (List.mem_cons_of_mem _ hm)) fuel
      (hstyle.lineBreak depth) (by omega)
    refine ⟨(q, d) :: ds, ?_, fun room hroom => ?_⟩
    · simp only [renderMembers, List.cons_append, List.append_assoc]
      rw [hscan _ (skipBlank_cons (show ¬ isBlank ',' by decide) _), hscans]
    · exact valueMembers_cons.mpr ⟨key, hread, value, hholds room (hroom _ List.mem_cons_self), _,
        hvalues room fun m hm => hroom m (List.mem_cons_of_mem _ hm), rfl⟩

theorem scansBack_list (hstyle : style.Legible) {items : List Json}
    (each : ∀ v ∈ items, v.Representable ∧ ScansBack style v) : ScansBack style (.list items) := by
  refine scansBack_of_scan (fun _ => by cases items <;> exact Nat.succ_pos _)
    fun fuel depth blanks rest hblanks hrest hfuel => ?_
  have hopen := skipBlank_append hblanks (show ¬ isBlank '[' by decide)
  cases items with
  | nil =>
    refine ⟨.list [] none, ?_, fun room hroom => ?_⟩
    · simp [render, scan, hopen, skipBlank_cons (show ¬ isBlank ']' by decide)]
    · have hpos : room ≠ 0 := Nat.ne_of_gt hroom
      simp [value, hpos, valueItems, skipStop, bind, Except.bind, pure, Except.pure]
  | cons item items =>
    obtain ⟨c, cs, hcs, hopens⟩ := (each item List.mem_cons_self).1.exists_cons style (depth + 1)
    simp only [render, List.length_cons, List.length_append] at hfuel
    have hbracket : c ≠ ']' := by rintro rfl; exact absurd hopens (by decide)
    obtain ⟨ds, hscan, hvalues⟩ := scanItems_renderItems hstyle (fun v hv => (each v hv).2) fuel
      (depth + 1) rest (List.forall_mem_nil _) (hstyle.lineBreak depth) (by omega)
    refine ⟨.list ds none, ?_, fun room hroom => ?_⟩
    · simp only [hcs, List.nil_append, List.cons_append] at hscan
      simp [render, scan, hopen, hcs, hbracket, hscan, stopOf,
        skipBlank_append (hstyle.lineBreak _) (not_isBlank_of_opensValue hopens)]
    · have hitems := hvalues (room - 1) (depthItems_le.mp (Nat.le_sub_one_of_lt hroom))
      have hpos : room ≠ 0 := Nat.ne_zero_of_lt hroom
      simp [value, hpos, hitems, skipStop, bind, Except.bind, pure, Except.pure]

theorem scansBack_record (hstyle : style.Legible) {members : List (String × Json)}
    (each : ∀ m ∈ members, ScansBack style m.2) : ScansBack style (.record members) := by
  refine scansBack_of_scan (fun _ => ?_) fun fuel depth blanks rest hblanks hrest hfuel => ?_
  · match members with
    | [] => exact Nat.succ_pos _
    | (_, _) :: _ => exact Nat.succ_pos _
  have hopen := skipBlank_append hblanks (show ¬ isBlank '{' by decide)
  match members, each, hfuel with
  | [], each, hfuel =>
    refine ⟨.record [] none, ?_, fun room hroom => ?_⟩
    · simp [render, scan, hopen, skipBlank_cons (show ¬ isBlank '}' by decide)]
    · have hpos : room ≠ 0 := Nat.ne_zero_of_lt hroom
      simp [value, hpos, valueMembers, skipStop, bind, Except.bind, pure, Except.pure]
  | (key, v) :: members, each, hfuel =>
    simp only [render, List.length_cons, List.length_append] at hfuel
    obtain ⟨ds, hscan, hvalues⟩ := scanMembers_renderMembers hstyle each fuel
      (depth + 1) rest (List.forall_mem_nil _) (hstyle.lineBreak depth) (by omega)
    refine ⟨.record ds none, ?_, fun room hroom => ?_⟩
    · simp only [quote, List.nil_append, List.cons_append, List.append_assoc] at hscan
      simp [render, quote, scan, hopen, hscan, stopOf,
        skipBlank_append (hstyle.lineBreak _) (show ¬ isBlank '"' by decide)]
    · have hmembers := hvalues (room - 1) (depthMembers_le.mp (Nat.le_sub_one_of_lt hroom))
      have hpos : room ≠ 0 := Nat.ne_zero_of_lt hroom
      simp [value, hpos, hmembers, skipStop, bind, Except.bind, pure, Except.pure]

theorem Representable.scansBack (hstyle : style.Legible) {v : Json} (hv : v.Representable) :
    ScansBack style v := by
  induction hv with
  | null => exact scansBack_null
  | bool b => exact scansBack_bool b
  | int low high => exact scansBack_of_spells fun _ => spells_integer low high
  | float finite =>
    refine scansBack_of_spells fun _ => ?_
    rw [render, if_pos finite]
    exact spells_render (by decide) finite
  | text s => exact scansBack_text s
  | list each ih => exact scansBack_list hstyle fun v hv => ⟨each v hv, ih v hv⟩
  | record each ih => exact scansBack_record hstyle ih

/-- A written value reads back, whatever blanks the style puts in. -/
theorem Representable.ofText_render (hstyle : style.Legible) {v : Json} (hv : v.Representable) :
    ∃ d, Document.ofText (String.ofList (v.render style 0)) = (d, none) ∧ d.Holds v := by
  have hend : EndsNumeral [] := by rintro _ ⟨⟩
  obtain ⟨d, hscan, hholds⟩ := hv.scansBack hstyle (2 * (v.render style 0).length + 2) 0 [] []
    (List.forall_mem_nil _) hend (Nat.le_add_right _ _)
  rw [List.nil_append, List.append_nil] at hscan
  refine ⟨d, ?_, hholds⟩
  simp [Document.ofText, hscan, skipBlank]

theorem Representable.ofText_pretty {v : Json} (hv : v.Representable) :
    ∃ d, Document.ofText v.pretty = (d, none) ∧ d.Holds v :=
  hv.ofText_render Style.legible_pretty

end Json

end FlowOpt
