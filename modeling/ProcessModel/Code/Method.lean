import ProcessModel.Code.Term

/-! The functions of a unit that come from methods. -/

namespace ProcessModel.Code

/-- The head of a counting loop: the counter starts at `start`; before every turn it is compared
with `stop`, upward or downward; after every turn it moves by `step`. -/
structure LoopHead where
  counter : String
  start : Term
  stop : Term
  upward : Bool
  step : Int64

namespace LoopHead

def advance (h : LoopHead) : String :=
  if h.step = 1 then h.counter ++ "++"
  else if h.step = -1 then h.counter ++ "--"
  else h.counter ++ " += " ++ toString h.step.toInt

def render (h : LoopHead) : String :=
  "for (" ++ h.counter ++ " = " ++ h.start.render ++ "; " ++ h.counter ++
    (if h.upward then " < " else " > ") ++ h.stop.render ++ "; " ++ h.advance ++ ")"

def ofCount (m : Model) (counter : String) (start stop : Expr) (step : Int64) : LoopHead where
  counter
  start := .ofExpr m start
  stop := .ofExpr m stop
  upward := 0 < step
  step

end LoopHead

mutual

def stmtLines (m : Model) : Stmt → Lines
  | .assign _ target value =>
    plainLine ((Term.ofTarget m target).render ++ " = " ++ (Term.ofExpr m value).render ++ ";")
  | .count _ counter start stop step body =>
    block (LoopHead.ofCount m counter start stop step).render (bodyLines m body)
  | .choose _ clauses otherwise =>
    choice (clauseLines m clauses)
      (if otherwise.isEmpty then none else some (bodyLines m otherwise))
  | .loop _ test body => block ("while (" ++ (Term.ofExpr m test).render ++ ")") (bodyLines m body)
  | .ret _ none => plainLine "return;"
  | .ret _ (some value) => plainLine ("return " ++ (Term.ofExpr m value).render ++ ";")
  | .pass => []
  | .call _ e => plainLine ((Term.ofExpr m e).render ++ ";")

def bodyLines (m : Model) : List Stmt → Lines
  | [] => []
  | s :: rest => stmtLines m s ++ bodyLines m rest

def clauseLines (m : Model) : List Clause → List (String × Lines)
  | [] => []
  | ⟨test, body⟩ :: rest => ((Term.ofExpr m test).render, bodyLines m body) :: clauseLines m rest

end

mutual

/-- The first loop whose counter is not an integer: its line and the counter. Generated loops count
in integers, and another counter would change the number of turns. -/
def counterFault? (b : Body) : Stmt → Option (Nat × String)
  | .count line counter _ _ _ body =>
    if b.typeOf? counter = some .int then bodyFault? b body else some (line, counter)
  | .choose _ clauses otherwise => (clauseFault? b clauses).or (bodyFault? b otherwise)
  | .loop _ _ body => bodyFault? b body
  | _ => none

def bodyFault? (b : Body) : List Stmt → Option (Nat × String)
  | [] => none
  | s :: rest => (counterFault? b s).or (bodyFault? b rest)

def clauseFault? (b : Body) : List Clause → Option (Nat × String)
  | [] => none
  | ⟨_, body⟩ :: rest => (bodyFault? b body).or (clauseFault? b rest)

end

/-- The first line of a documentation as a comment; `none` if it is blank. -/
def summary? (doc : String) : Option String := do
  let first ← (Text.lines doc.toList).head?
  if (Text.trim first).isEmpty then none
  else some (String.ofList (Text.replaceAll ['*', '/'] ['*', ' ', '/'] first))

def methodHead (model : String) (b : Body) : Function where
  name := functionName model b.name
  result := if b.returnsValue then LocalType.float.cType else "void"
  params := selfParam (modelStructName model) :: b.args.map fun a => a.type.cType ++ " " ++ a.name

def Function.ofMethod (m : Model) (f : Method) : Except Error Function :=
  match bodyFault? f.body f.body.stmts with
  | some (line, counter) => .error (.unsupported m.name f.body.name line (.loopCounter counter))
  | none => .ok { methodHead m.name f.body with
      comment := summary? f.body.doc
      body := plainLines (f.body.locals.map fun x => x.type.cType ++ " " ++ x.name ++ ";") ++
        bodyLines m f.body.stmts }

end ProcessModel.Code
