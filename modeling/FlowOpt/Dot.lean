/-!
# Graph drawings

Documents of the DOT language. Text stands between quotes; what would end the quotes or mean
something in a label is escaped first.
-/

namespace FlowOpt.Dot

/-- Every `c` of a text replaced by `by`. -/
def replaceChar (c : Char) (replacement : List Char) (cs : List Char) : List Char :=
  cs.flatMap fun d => if d = c then replacement else [d]

/-- The replacements of `escape`, in their order: the backslash goes first, since the later ones
put in backslashes of their own. -/
def replacements : List (Char × List Char) :=
  [('\\', ['\\', '\\']), ('"', ['\\', '"']), ('\n', ['\\', 'n']), ('\r', []),
    ('<', ['\\', '<']), ('>', ['\\', '>'])]

def escapeChars (cs : List Char) : List Char :=
  replacements.foldl (fun cs (c, replacement) => replaceChar c replacement cs) cs

def escape (s : String) : String := String.ofList (escapeChars s.toList)

inductive Line
  | node (id label : String)
  | edge (source target : String)

def quoted (s : String) : String := "\"" ++ escape s ++ "\""

def Line.render : Line → String
  | .node id label => "    " ++ quoted id ++ " [label=" ++ quoted label ++ "];\n"
  | .edge source target => "    " ++ quoted source ++ " -> " ++ quoted target ++ ";\n"

def document (title : String) (lines : List Line) : String :=
  "digraph " ++ quoted title ++ " \x7b\n" ++
    "    node [shape=box, fontname=\"monospace\"];\n" ++
    String.join (lines.map Line.render) ++ "\x7d\n"

end FlowOpt.Dot
