import ProcessModel.Code.Line
import ProcessModel.Variable

/-! Loops of generated code over the elements of a variable. -/

namespace ProcessModel.Code

/-- The place of an element: the indices after the variable's name, and its number in the order of
the loop. -/
structure Place where
  indices : String
  number : String
  deriving DecidableEq, Repr

/-- Nested loops around `body`, the first axis outermost. `lengths` names the member with the length
of an axis. -/
def axisLoops (lengths : Nat → String) (body : Lines) (axes : List Nat) : Lines :=
  axes.foldr (fun axis inner =>
    let length := lengths axis
    block s!"for (i{axis} = 0; i{axis} < {length}; i{axis}++)" inner) body

/-- Do something for every element of the variable `x` of a group. A variable without dimensions is
its only element; else the counters are `i0`, `i1`, `i2` and `k`. -/
def forElements (group x : String) (ndim : Nat) (body : Place → Lines) : Lines :=
  if ndim = 0 then body ⟨"", "0"⟩
  else
    let indices := String.join ((List.range ndim).map fun axis => s!"[i{axis}]")
    plainLine "k = 0;" ++
      axisLoops (fun axis => s!"{group}_{x}_length_{axis}")
        (body ⟨indices, "k"⟩ ++ plainLine "k++;") (List.range ndim)

/-- Declarations of the counters that loops over variables of these ranks use. -/
def counters (ranks : List Nat) : Lines :=
  let most := ranks.foldr max 0
  if most = 0 then []
  else plainLines ("int k;" :: (List.range most).map fun axis => s!"int i{axis};")

def countersOf (vs : List Variable) : Lines := counters (vs.map (·.ndim))

end ProcessModel.Code
