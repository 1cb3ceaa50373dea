import ProcessModel.Text.Lines

/-! Lines of generated code and the blocks they form. -/

namespace ProcessModel.Code

structure Line where
  depth : Nat := 0
  text : String
  deriving DecidableEq, Repr

abbrev Lines := List Line

def Line.render (l : Line) : String := String.join (List.replicate l.depth "    ") ++ l.text ++ "\n"

def Lines.render (ls : Lines) : String := String.join (ls.map Line.render)

def plainLines (texts : List String) : Lines := texts.map fun t => { text := t }

def plainLine (text : String) : Lines := plainLines [text]

def nested (ls : Lines) : Lines := ls.map fun l => { l with depth := l.depth + 1 }

def block (head : String) (body : Lines) : Lines :=
  plainLine (head ++ " \x7b") ++ nested body ++ plainLine "\x7d"

def laterClauses : List (String × Lines) → Lines
  | [] => []
  | (test, body) :: rest =>
    plainLine ("\x7d else if (" ++ test ++ ") \x7b") ++ nested body ++ laterClauses rest

def lastClause : Option Lines → Lines
  | none => []
  | some body => plainLine "\x7d else \x7b" ++ nested body

/-- The first body whose test holds, else the last one. -/
def choice (clauses : List (String × Lines)) (otherwise : Option Lines) : Lines :=
  match clauses with
  | [] => []
  | (test, body) :: rest =>
    plainLine ("if (" ++ test ++ ") \x7b") ++ nested body ++ laterClauses rest ++
      lastClause otherwise ++ plainLine "\x7d"

def guarded (test : String) (body : Lines) : Lines := choice [(test, body)] none

structure Function where
  name : String
  comment : Option String := none
  exported : Bool := false
  result : String := "void"
  params : List String := []
  body : Lines := []
  deriving DecidableEq, Repr

namespace Function

def signature (f : Function) : String :=
  (if f.exported then "" else "static ") ++ f.result ++ " " ++ f.name ++ "(" ++
    Text.joinWith ", " f.params ++ ")"

def render (f : Function) : String :=
  Lines.render ((f.comment.toList.flatMap fun c => plainLine ("/* " ++ c ++ " */")) ++
    block f.signature f.body)

end Function

def functionName (model routine : String) : String := model ++ "_" ++ routine

def modelStructName (model : String) : String := model ++ "_Model"

def selfParam (struct : String) : String := struct ++ " *self"

def callSelf (model routine : String) : String := functionName model routine ++ "(self);"

end ProcessModel.Code
