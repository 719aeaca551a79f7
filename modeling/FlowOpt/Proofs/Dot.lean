import Mathlib.Algebra.Ring.Parity
import FlowOpt.Dot

/-!
# Quoted text in drawings

The replacements come to one substitution, character by character, since none of them changes what
an earlier one put in. Escaped text is made of pairs with a backslash and of characters that mean
nothing by themselves: no line ends in it, every quote stands behind an odd number of backslashes,
and it reads back as the text without its carriage returns. So the quoted texts of a drawing end
where they were closed when it was written.
-/

namespace FlowOpt.Dot

variable {cs : List Char} {c : Char}

def substitute : Char → List Char
  | '\\' => ['\\', '\\']
  | '"' => ['\\', '"']
  | '\n' => ['\\', 'n']
  | '\r' => []
  | '<' => ['\\', '<']
  | '>' => ['\\', '>']
  | c => [c]

theorem escapeChars_singleton (c : Char) : escapeChars [c] = substitute c := by
  unfold substitute
  split
  case h_7 hbackslash hquote hnewline hreturn hless hgreater =>
    rw [imp_false] at hbackslash hquote hnewline hreturn hless hgreater
    simp [escapeChars, replacements, replaceChar, hbackslash, hquote, hnewline, hreturn, hless,
      hgreater]
  all_goals decide

theorem escapeChars_append (cs rest : List Char) :
    escapeChars (cs ++ rest) = escapeChars cs ++ escapeChars rest := by
  simp [escapeChars, replacements, replaceChar]

theorem escapeChars_cons (c : Char) (cs : List Char) :
    escapeChars (c :: cs) = substitute c ++ escapeChars cs := by
  rw [← List.singleton_append, escapeChars_append, escapeChars_singleton]

theorem escapeChars_eq (cs : List Char) : escapeChars cs = cs.flatMap substitute := by
  induction cs with
  | nil => rfl
  | cons c cs ih => rw [escapeChars_cons, ih, List.flatMap_cons]

theorem toList_escape (s : String) : (escape s).toList = escapeChars s.toList :=
  String.toList_ofList

def behindBackslash (c : Char) : Char := if c = 'n' then '\n' else c

theorem substitute_cases (c : Char) : (c = '\r' ∧ substitute c = []) ∨
    (∃ d, substitute c = ['\\', d] ∧ d ≠ '\n' ∧ behindBackslash d = c ∧ c ≠ '\r') ∨
    (substitute c = [c] ∧ c ≠ '\\' ∧ c ≠ '"' ∧ c ≠ '\n' ∧ c ≠ '\r') := by
  unfold substitute
  split
  case h_4 => exact .inl ⟨rfl, rfl⟩
  case h_7 hbackslash hquote hnewline hreturn _ _ =>
    exact .inr (.inr ⟨rfl, hbackslash, hquote, hnewline, hreturn⟩)
  all_goals exact .inr (.inl ⟨_, rfl, by decide⟩)

/-- Text made of pairs with a backslash and of characters that mean nothing by themselves. -/
inductive Escaped : List Char → Prop
  | nil : Escaped []
  | pair {d : Char} {cs : List Char} (hd : d ≠ '\n') (h : Escaped cs) : Escaped ('\\' :: d :: cs)
  | char {c : Char} {cs : List Char} (hbackslash : c ≠ '\\') (hquote : c ≠ '"')
      (hnewline : c ≠ '\n') (h : Escaped cs) : Escaped (c :: cs)

theorem escaped_escapeChars (cs : List Char) : Escaped (escapeChars cs) := by
  induction cs with
  | nil => exact .nil
  | cons c cs ih =>
    rw [escapeChars_cons]
    rcases substitute_cases c with ⟨-, hc⟩ | ⟨d, hc, hd, -⟩ | ⟨hc, hbackslash, hquote, hnewline, -⟩
    · rwa [hc]
    · rw [hc]
      exact .pair hd ih
    · rw [hc]
      exact .char hbackslash hquote hnewline ih

theorem Escaped.newline_not_mem (h : Escaped cs) : '\n' ∉ cs := by
  induction h with
  | nil => exact List.not_mem_nil
  | pair hd _ ih => simp [hd.symm, ih]
  | char _ _ hnewline _ ih => simp [hnewline.symm, ih]

def backslashesAtEnd (n : Nat) (cs : List Char) : Nat :=
  cs.foldl (fun n c => if c = '\\' then n + 1 else 0) n

/-- By induction on the text: what stands before the rest of it ends with an even number. -/
theorem Escaped.quote_behind_odd (h : Escaped cs) {n : Nat} (hn : Even n) {before after : List Char}
    (hquote : cs = before ++ '"' :: after) : Odd (backslashesAtEnd n before) := by
  induction h generalizing n before with
  | nil => simp at hquote
  | @pair d cs _ _ ih =>
    match before with
    | [] => simp at hquote
    | [c] =>
      obtain ⟨rfl, -⟩ : '\\' = c ∧ _ := by simpa using hquote
      exact hn.add_one
    | c :: e :: before =>
      obtain ⟨rfl, rfl, hrest⟩ : '\\' = c ∧ d = e ∧ cs = before ++ '"' :: after := by
        simpa using hquote
      refine ih (n := if d = '\\' then n + 1 + 1 else 0) ?_ hrest
      split
      · exact hn.add_one.add_one
      · exact Even.zero
  | @char c cs hbackslash hnot _ _ ih =>
    match before with
    | [] => exact absurd (List.cons.inj hquote).1 hnot
    | e :: before =>
      obtain ⟨rfl, hrest⟩ := List.cons.inj hquote
      have hodd := ih Even.zero hrest
      rwa [backslashesAtEnd, List.foldl_cons, if_neg hbackslash]

/-- Reading escaped text from left to right. There is none that ends with half a pair. -/
def unescape : List Char → Option (List Char)
  | [] => some []
  | ['\\'] => none
  | '\\' :: d :: cs => (unescape cs).map (behindBackslash d :: ·)
  | c :: cs => (unescape cs).map (c :: ·)

theorem unescape_cons (hc : c ≠ '\\') (cs : List Char) :
    unescape (c :: cs) = (unescape cs).map (c :: ·) := by
  rw [unescape]
  · exact fun h => absurd h hc
  · exact fun _ _ h => absurd h hc

theorem unescape_escapeChars (cs : List Char) :
    unescape (escapeChars cs) = some (cs.filter (· != '\r')) := by
  induction cs with
  | nil => rfl
  | cons c cs ih =>
    rw [escapeChars_cons]
    rcases substitute_cases c with ⟨rfl, hc⟩ | ⟨d, hc, -, hd, hne⟩ | ⟨hc, hbackslash, -, -, hne⟩
    · simpa [hc] using ih
    · rw [hc, List.cons_append, List.cons_append, List.nil_append, unescape, ih, hd]
      simp [hne]
    · rw [hc, List.singleton_append, unescape_cons hbackslash, ih]
      simp [hne]

inductive Token
  | char (c : Char)
  | quoted (content : List Char)

def Token.text : Token → List Char
  | .char c => [c]
  | .quoted content => '"' :: content ++ ['"']

/-- Reading a drawing from left to right. Between quotes `content` is what was read behind the
first of them, and a backslash takes the next character with it. None if a text is not closed. -/
def tokens : Option (List Char) → List Char → Option (List Token)
  | none, [] => some []
  | some _, [] => none
  | none, '"' :: cs => tokens (some []) cs
  | none, c :: cs => (tokens none cs).map (.char c :: ·)
  | some content, '"' :: cs => (tokens none cs).map (.quoted content :: ·)
  | some content, '\\' :: d :: cs => tokens (some (content ++ ['\\', d])) cs
  | some content, c :: cs => tokens (some (content ++ [c])) cs


theorem tokens_content (h : Escaped cs) (content rest : List Char) :
    tokens (some content) (cs ++ '"' :: rest) =
      (tokens none rest).map (.quoted (content ++ cs) :: ·) := by
  induction h generalizing content with
  | nil => rw [List.nil_append, tokens, List.append_nil]
  | @pair d cs _ _ ih =>
    rw [List.cons_append, List.cons_append, tokens, ih, List.append_assoc]
    rfl
  | @char c cs hbackslash hquote _ _ ih =>
    rw [List.cons_append, tokens, ih, List.append_assoc]
    · rfl
    · exact hquote
    · exact fun _ _ h _ => hbackslash h

theorem tokens_plain (h : '"' ∉ cs) (rest : List Char) :
    tokens none (cs ++ rest) = (tokens none rest).map (cs.map .char ++ ·) := by
  induction cs with
  | nil => simp
  | cons c cs ih =>
    obtain ⟨hc, hcs⟩ : ¬ '"' = c ∧ '"' ∉ cs := by simpa using h
    rw [List.cons_append, tokens, ih hcs, Option.map_map]
    · rfl
    · exact fun h => hc h.symm

/-- Nothing is lost in reading, so the places where texts end can be told from what is read. -/
theorem flatMap_text_of_tokens {state : Option (List Char)} {read : List Token}
    (h : tokens state cs = some read) :
    read.flatMap Token.text = (state.map ('"' :: ·)).getD [] ++ cs := by
  fun_induction tokens state cs generalizing read with
  | case1 => simp_all
  | case2 => simp at h
  | case3 cs ih => simpa using ih h
  | case4 c cs _ ih =>
    obtain ⟨read, hread, rfl⟩ := Option.map_eq_some_iff.1 h
    simpa [Token.text] using ih hread
  | case5 content cs ih =>
    obtain ⟨read, hread, rfl⟩ := Option.map_eq_some_iff.1 h
    simpa [Token.text] using ih hread
  | case6 content d cs ih => simpa using ih h
  | case7 content c cs _ _ ih => simpa using ih h

inductive Piece
  | plain (text : String)
  | quoted (text : String)

def Piece.render : Piece → String
  | .plain text => text
  | .quoted text => Dot.quoted text

def Piece.tokens : Piece → List Token
  | .plain text => text.toList.map .char
  | .quoted text => [.quoted (escape text).toList]

def Line.pieces : Line → List Piece
  | .node id label =>
    [.plain "    ", .quoted id, .plain " [label=", .quoted label, .plain "];\n"]
  | .edge source target =>
    [.plain "    ", .quoted source, .plain " -> ", .quoted target, .plain ";\n"]

def piecesOf (title : String) (lines : List Line) : List Piece :=
  [.plain "digraph ", .quoted title, .plain " \x7b\n    node [shape=box, fontname=",
    .quoted "monospace", .plain "];\n"] ++ lines.flatMap Line.pieces ++ [.plain "\x7d\n"]

theorem join_render_pieces (l : Line) : String.join (l.pieces.map Piece.render) = l.render := by
  cases l <;> simp [Line.pieces, Line.render, Piece.render, String.join]

theorem join_render_piecesOf (title : String) (lines : List Line) :
    String.join ((piecesOf title lines).map Piece.render) = document title lines := by
  have hlines : String.join ((lines.flatMap Line.pieces).map Piece.render) =
      String.join (lines.map Line.render) := by
    induction lines with
    | nil => rfl
    | cons l lines ih =>
      rw [List.flatMap_cons, List.map_append, String.join_append, ih, join_render_pieces,
        List.map_cons, String.join_cons]
  have hfont : escape "monospace" = "monospace" := by decide
  rw [piecesOf, List.map_append, List.map_append, String.join_append, String.join_append, hlines]
  simp [document, Piece.render, String.join, quoted, hfont, String.append_assoc]

def Piece.QuoteFree : Piece → Prop
  | .plain text => '"' ∉ text.toList
  | .quoted _ => True

theorem Line.quoteFree_pieces (l : Line) : ∀ piece ∈ l.pieces, piece.QuoteFree := by
  cases l <;> simp [Line.pieces, Piece.QuoteFree]

theorem quoteFree_piecesOf (title : String) (lines : List Line) :
    ∀ piece ∈ piecesOf title lines, piece.QuoteFree := by
  have hlines : ∀ piece ∈ lines.flatMap Line.pieces, piece.QuoteFree := fun piece h =>
    have ⟨l, _, hl⟩ := List.mem_flatMap.1 h
    l.quoteFree_pieces piece hl
  rw [piecesOf, List.forall_mem_append, List.forall_mem_append]
  exact ⟨⟨by simp [Piece.QuoteFree], hlines⟩, by simp [Piece.QuoteFree]⟩

theorem tokens_render {pieces : List Piece} (h : ∀ piece ∈ pieces, piece.QuoteFree) :
    tokens none (String.join (pieces.map Piece.render)).toList =
      some (pieces.flatMap Piece.tokens) := by
  induction pieces with
  | nil => rfl
  | cons piece pieces ih =>
    obtain ⟨hpiece, hpieces⟩ := List.forall_mem_cons.1 h
    rw [List.map_cons, String.join_cons, String.toList_append, List.flatMap_cons]
    cases piece with
    | plain text =>
      rw [Piece.render, tokens_plain hpiece, ih hpieces, Option.map_some, Piece.tokens]
    | quoted text =>
      have hopen : (Piece.quoted text).render.toList =
          '"' :: (escapeChars text.toList ++ ['"']) := by
        simp [Piece.render, quoted, toList_escape]
      rw [hopen, List.cons_append, tokens, List.append_assoc, List.singleton_append,
        tokens_content (escaped_escapeChars _), ih hpieces, Option.map_some, Piece.tokens,
        toList_escape, List.nil_append, List.singleton_append]

/-- The replacements are one substitution. What they give has no line ends and no quote behind an
even number of backslashes, and reads back as the text without its carriage returns. A drawing reads
as it was written: each quoted text ends where it was closed. -/
theorem escape_reads_back :
    (∀ s, (escape s).toList = s.toList.flatMap substitute ∧ '\n' ∉ (escape s).toList ∧
      (∀ before after, (escape s).toList = before ++ '"' :: after →
        Odd (backslashesAtEnd 0 before)) ∧
      unescape (escape s).toList = some (s.toList.filter (· != '\r'))) ∧
    ∀ title lines, String.join ((piecesOf title lines).map Piece.render) = document title lines ∧
      tokens none (document title lines).toList =
        some ((piecesOf title lines).flatMap Piece.tokens) ∧
      ((piecesOf title lines).flatMap Piece.tokens).flatMap Token.text =
        (document title lines).toList := by
  constructor
  · intro s
    have hescaped := escaped_escapeChars s.toList
    rw [toList_escape]
    exact ⟨escapeChars_eq _, hescaped.newline_not_mem,
      fun before after h => hescaped.quote_behind_odd Even.zero h, unescape_escapeChars _⟩
  · intro title lines
    have hread : tokens none (document title lines).toList =
        some ((piecesOf title lines).flatMap Piece.tokens) := by
      rw [← join_render_piecesOf]
      exact tokens_render (quoteFree_piecesOf title lines)
    exact ⟨join_render_piecesOf title lines, hread, by simpa using flatMap_text_of_tokens hread⟩

theorem mixed_reads_back :
    (escape "\\\"\r\n>").toList = "\\\\\\".toList ++ '"' :: "\\n\\>".toList ∧
    Odd (backslashesAtEnd 0 "\\\\\\".toList) ∧
    unescape (escape "\\\"\r\n>").toList = some "\\\"\n>".toList ∧
    tokens none (document "\"" [.edge "\\" "\\\""]).toList =
      some ((piecesOf "\"" [.edge "\\" "\\\""]).flatMap Piece.tokens) := by
  obtain ⟨-, -, hquote, hback⟩ := escape_reads_back.1 "\\\"\r\n>"
  have hsplit : (escape "\\\"\r\n>").toList = "\\\\\\".toList ++ '"' :: "\\n\\>".toList := by
    decide
  exact ⟨hsplit, hquote _ _ hsplit, hback.trans (by decide), (escape_reads_back.2 _ _).2.1⟩

end FlowOpt.Dot
