import ProcessModel.Script.Lexeme

/-! Statements of a text: lexemes up to a line end outside brackets. -/

namespace ProcessModel.Script

structure LexError where
  line : Nat
  cause : LexFault
  deriving DecidableEq, Repr

/-- The number of a line as it is recorded: a 64-bit word. -/
def lineNumber (n : Nat) : Nat := n % Nat.pow 2 64

/-- The tokens of a statement, the text after it and the number of the line that text starts on. -/
structure Reading where
  tokens : List Token
  rest : List Char
  line : Nat
  deriving DecidableEq, Repr

/-- Read on to the end of a statement, inside `depth` brackets, after the tokens `before`
(the last one first). -/
def readStatement (depth : Nat) (before : List Token) (line : Nat) :
    List Char → Except LexError Reading
  | [] => if depth > 0 then .error ⟨lineNumber line, .openBracket⟩ else .ok ⟨before.reverse, [], line⟩
  | c :: cs =>
    have := lexeme_rest_length (before.head?.any Token.endsValue) c cs
    match h : lexeme (before.head?.any Token.endsValue) c cs with
    | .blank rest => readStatement depth before line rest
    | .newline rest =>
      if depth > 0 then readStatement depth before (line + 1) rest
      else .ok ⟨before.reverse, rest, line + 1⟩
    | .join rest => readStatement depth before (line + 1) rest
    | .token t newlines rest =>
      if t.isOpening then readStatement (depth + 1) (t :: before) (line + newlines) rest
      else if t.isClosing then
        if depth > 0 then readStatement (depth - 1) (t :: before) (line + newlines) rest
        else .error ⟨lineNumber line, .unmatched t.text⟩
      else readStatement depth (t :: before) (line + newlines) rest
    | .fault newlines cause => .error ⟨lineNumber (line + newlines), cause⟩
termination_by cs => cs.length
decreasing_by all_goals simpa [h, Lexeme.rest] using this

theorem readStatement_rest_length (depth : Nat) (before : List Token) (line : Nat)
    (cs : List Char) (r : Reading) (h : readStatement depth before line cs = .ok r) :
    r.rest = [] ∨ r.rest.length < cs.length := by
  fun_induction readStatement depth before line cs with
  | case1 => cases h
  | case2 => cases h; exact .inl rfl
  | case3 depth before line c cs hl rest he ih =>
    simp only [he, Lexeme.rest] at hl
    exact (ih h).imp_right (Nat.lt_trans · hl)
  | case4 depth before line c cs hl rest he hd ih =>
    simp only [he, Lexeme.rest] at hl
    exact (ih h).imp_right (Nat.lt_trans · hl)
  | case5 depth before line c cs hl rest he hd =>
    simp only [he, Lexeme.rest] at hl
    cases h
    exact .inr hl
  | case6 depth before line c cs hl rest he ih =>
    simp only [he, Lexeme.rest] at hl
    exact (ih h).imp_right (Nat.lt_trans · hl)
  | case7 depth before line c cs hl t n rest he hd ih =>
    simp only [he, Lexeme.rest] at hl
    exact (ih h).imp_right (Nat.lt_trans · hl)
  | case8 depth before line c cs hl t n rest he hd hc hp ih =>
    simp only [he, Lexeme.rest] at hl
    exact (ih h).imp_right (Nat.lt_trans · hl)
  | case9 => cases h
  | case10 depth before line c cs hl t n rest he hd hc ih =>
    simp only [he, Lexeme.rest] at hl
    exact (ih h).imp_right (Nat.lt_trans · hl)
  | case11 => cases h

def tabWidth : Nat := 8

/-- The width of the white space at the start of a line, from column `width` on, and what follows. -/
def measureIndent (width : Nat) : List Char → Nat × List Char
  | ' ' :: cs => measureIndent (width + 1) cs
  | '\t' :: cs => measureIndent ((width / tabWidth + 1) * tabWidth) cs
  | cs => (width, cs)

theorem measureIndent_length (width : Nat) (cs : List Char) :
    (measureIndent width cs).2.length ≤ cs.length := by
  fun_induction measureIndent width cs with
  | case1 width cs ih => exact Nat.le_succ_of_le ih
  | case2 width cs ih => exact Nat.le_succ_of_le ih
  | case3 => exact Nat.le_refl _

/-- A statement, or documentation: a statement of nothing but string literals. -/
inductive Item
  | line (line : LogicalLine)
  | doc (line : Nat) (text : List Char)
  deriving DecidableEq, Repr

/-- The item that the tokens of a statement make; none without tokens. -/
def Item.ofTokens (indent line : Nat) (tokens : List Token) : Option Item :=
  if tokens.isEmpty then none
  else if tokens.all fun t => t.kind == .str then
    some (.doc (lineNumber line) (tokens.flatMap fun t => stringValue t.text.toList))
  else some (.line ⟨indent, lineNumber line, tokens⟩)

def items (line : Nat) (cs : List Char) : Except LexError (List Item) :=
  match cs with
  | [] => .ok []
  | c :: tail =>
    match h : readStatement 0 [] line (measureIndent 0 (c :: tail)).2 with
    | .error e => .error e
    | .ok r =>
      have : r.rest.length < (c :: tail).length := by
        have := measureIndent_length 0 (c :: tail)
        rcases readStatement_rest_length _ _ _ _ _ h with h | h
        · simp [h]
        · omega
      match items r.line r.rest with
      | .error e => .error e
      | .ok is => .ok ((Item.ofTokens (measureIndent 0 (c :: tail)).1 line r.tokens).toList ++ is)
termination_by cs.length
decreasing_by exact this

/-- Documentation set aside: its line, the number of statements before it, its text. -/
structure Docstring where
  line : Nat
  position : Nat
  text : List Char
  deriving DecidableEq, Repr

structure Block where
  lines : List LogicalLine
  docs : List Docstring
  deriving DecidableEq, Repr

def docsFrom (position : Nat) : List Item → List Docstring
  | [] => []
  | .line _ :: is => docsFrom (position + 1) is
  | .doc line text :: is => ⟨line, position, text⟩ :: docsFrom position is

def Block.ofItems (is : List Item) : Block where
  lines := is.filterMap fun | .line l => some l | .doc _ _ => none
  docs := docsFrom 0 is

def tokenize (text : String) (firstLine : Nat) : Except LexError Block :=
  (items firstLine text.toList).map Block.ofItems

end ProcessModel.Script
