import ProcessModel.Error
import ProcessModel.Script.Docstring
import ProcessModel.Script.Token
import ProcessModel.Text.Letter

/-! The lexeme at the start of a text: white space, a line end, or one token. -/

namespace ProcessModel.Script

/-- What was read and what is left. A token may span lines; `newlines` counts the ends in it, or,
in a fault, those before the place of the fault. -/
inductive Lexeme
  | blank (rest : List Char)
  | newline (rest : List Char)
  /-- A backslash at the end of a line. -/
  | join (rest : List Char)
  | token (token : Token) (newlines : Nat) (rest : List Char)
  | fault (newlines : Nat) (cause : LexFault)
  deriving DecidableEq, Repr

def Lexeme.rest : Lexeme → List Char
  | .blank r | .newline r | .join r | .token _ _ r => r
  | .fault _ _ => []

/-- Operators, longer ones before their beginnings. -/
def operators : List String :=
  ["**=", "//=", "**", "//", "+=", "-=", "*=", "/=", "%=", "==", "!=", "<=", ">=", "->", "+",
    "-", "*", "/", "%", "<", ">", "=", "(", ")", "[", "]", ",", ":", ".", ";"]

def isSpace (c : Char) : Bool := c == ' ' || c == '\t' || c == '\r' || c == '\x0c'

def isQuote (c : Char) : Bool := c == '\x22' || c == '\x27'

def isWordStart (c : Char) : Bool := Text.isLetter c || c == '_'

def isWordPart (c : Char) : Bool := Text.isLetterOrNumeral c || c == '_'

def isDigitPart (c : Char) : Bool := c.isDigit || c == '_'

def newlinesIn (cs : List Char) : Nat := cs.count '\n'

theorem newlinesIn_append (cs ds : List Char) :
    newlinesIn (cs ++ ds) = newlinesIn cs + newlinesIn ds := List.count_append

/-- Put `taken` in front of what was read and count its line ends. -/
def readAfter (taken : List Char) :
    Except Nat (List Char × Nat × List Char) → Except Nat (List Char × Nat × List Char)
  | .ok (text, n, rest) => .ok (taken ++ text, newlinesIn taken + n, rest)
  | .error n => .error (newlinesIn taken + n)

/-- The text up to and with the closing quotes, the line ends in it, and what follows. A backslash
takes the next character with it, and a line end closes no literal in single quotes: then, as at
the end of the text, the line ends passed are returned. -/
def closeString (q : Char) (triple : Bool) : List Char → Except Nat (List Char × Nat × List Char)
  | [] => .error 0
  | ['\\'] => .error 0
  | '\\' :: c :: cs => readAfter ['\\', c] (closeString q triple cs)
  | c :: cs =>
    if c = '\n' && !triple then .error 0
    else if c = q && !triple then .ok ([q], 0, cs)
    else if c = q && [q, q].isPrefixOf cs then .ok ([q, q, q], 0, cs.drop 2)
    else readAfter [c] (closeString q triple cs)

/-- A string literal whose letters `letters` and first quote `q` are read. -/
def stringLexeme (letters : List Char) (q : Char) (cs : List Char) : Lexeme :=
  let triple := [q, q].isPrefixOf cs
  let opening := if triple then [q, q, q] else [q]
  match closeString q triple (cs.drop (opening.length - 1)) with
  | .ok (body, n, rest) => .token ⟨.str, String.ofList (letters ++ opening ++ body)⟩ n rest
  | .error n => .fault n .openString

def signPart : List Char → List Char × List Char
  | c :: cs => if c = '+' || c = '-' then ([c], cs) else ([], c :: cs)
  | [] => ([], [])

def exponentPart : List Char → List Char × List Char
  | c :: cs =>
    if (c = 'e' || c = 'E') && (signPart cs).2.head?.any Char.isDigit then
      (c :: (signPart cs).1 ++ (signPart cs).2.takeWhile Char.isDigit,
        (signPart cs).2.dropWhile Char.isDigit)
    else ([], c :: cs)
  | [] => ([], [])

def fractionPart : List Char → List Char × List Char
  | '.' :: cs => ('.' :: cs.takeWhile isDigitPart, cs.dropWhile isDigitPart)
  | cs => ([], cs)

/-- A number; underscores between its digits are dropped. -/
def numberLexeme (cs : List Char) : Lexeme :=
  let whole := cs.takeWhile isDigitPart
  let frac := fractionPart (cs.dropWhile isDigitPart)
  let exponent := exponentPart frac.2
  .token ⟨.number, String.ofList ((whole ++ frac.1 ++ exponent.1).filter (· != '_'))⟩ 0 exponent.2

/-- A word, or a string literal if the word is the letters before one. -/
def wordLexeme (cs : List Char) : Lexeme :=
  let word := cs.takeWhile isWordPart
  let name := Lexeme.token ⟨.name, String.ofList word⟩ 0 (cs.dropWhile isWordPart)
  match cs.dropWhile isWordPart with
  | q :: rest =>
    if isQuote q && word.length ≤ 2 && word.all isLiteralLetter then stringLexeme word q rest
    else name
  | [] => name

def operatorLexeme (c : Char) (cs : List Char) : Lexeme :=
  match operators.find? fun op => op.toList.isPrefixOf (c :: cs) with
  | some op => .token (.ofOp op) 0 ((c :: cs).drop op.toList.length)
  | none => .fault 0 (.character c)

/-- The lexeme at the start of `c :: cs`. After a value, a point before a digit is an operator. -/
def lexeme (afterValue : Bool) (c : Char) (cs : List Char) : Lexeme :=
  if c = '\n' then .newline cs
  else if isSpace c then .blank cs
  else if c = '#' then .blank (cs.dropWhile (· != '\n'))
  else if c = '\\' then
    match cs.dropWhile (· == '\r') with
    | '\n' :: rest => .join rest
    | _ => .fault 0 .strayBackslash
  else if isQuote c then stringLexeme [] c cs
  else if c.isDigit || (c = '.' && (cs.head?.any Char.isDigit) && !afterValue) then
    numberLexeme (c :: cs)
  else if isWordStart c then wordLexeme (c :: cs)
  else operatorLexeme c cs

theorem length_dropWhile_le {α : Type} (p : α → Bool) (l : List α) :
    (l.dropWhile p).length ≤ l.length := (List.dropWhile_sublist p).length_le

theorem readAfter_eq_ok {taken : List Char} {r : Except Nat (List Char × Nat × List Char)}
    {text rest : List Char} {n : Nat} (h : readAfter taken r = .ok (text, n, rest)) :
    ∃ body k, r = .ok (body, k, rest) ∧ text = taken ++ body := by
  cases r with
  | error n => cases h
  | ok p =>
    simp only [readAfter, Except.ok.injEq, Prod.mk.injEq] at h
    exact ⟨p.1, p.2.1, by rw [← h.2.2], h.1.symm⟩

theorem closeString_length (q : Char) (triple : Bool) (cs text : List Char) (n : Nat)
    (rest : List Char) (h : closeString q triple cs = .ok (text, n, rest)) :
    rest.length < cs.length := by
  fun_induction closeString q triple cs generalizing text n rest with
  | case1 => cases h
  | case2 => cases h
  | case3 c cs ih =>
    obtain ⟨body, k, hb, -⟩ := readAfter_eq_ok h
    have := ih body k rest hb
    simp only [List.length_cons]
    omega
  | case4 c cs => cases h
  | case5 c cs =>
    simp only [Except.ok.injEq, Prod.mk.injEq] at h
    simp [← h.2.2]
  | case6 c cs =>
    simp only [Except.ok.injEq, Prod.mk.injEq] at h
    simp only [List.length_cons, ← h.2.2, List.length_drop]
    omega
  | case7 c cs _ _ _ _ _ ih =>
    obtain ⟨body, k, hb, -⟩ := readAfter_eq_ok h
    have := ih body k rest hb
    simp only [List.length_cons]
    omega

theorem length_dropWhile_lt {α : Type} (p : α → Bool) (c : α) (cs : List α) (h : p c = true) :
    ((c :: cs).dropWhile p).length < (c :: cs).length := by
  have := length_dropWhile_le p cs
  simp only [List.dropWhile_cons, h, if_true, List.length_cons]
  omega

theorem stringLexeme_rest_length (letters : List Char) (q : Char) (cs : List Char) :
    (stringLexeme letters q cs).rest.length ≤ cs.length := by
  simp only [stringLexeme]
  split
  · rename_i body n rest h
    have := closeString_length _ _ _ _ _ _ h
    simp only [List.length_drop] at this
    simp only [Lexeme.rest]
    omega
  · simp [Lexeme.rest]

theorem signPart_length (cs : List Char) : (signPart cs).2.length ≤ cs.length := by
  unfold signPart
  split
  · split <;> simp
  · simp

theorem fractionPart_length (cs : List Char) : (fractionPart cs).2.length ≤ cs.length := by
  unfold fractionPart
  split
  · exact Nat.le_succ_of_le (length_dropWhile_le _ _)
  · exact Nat.le_refl _

theorem exponentPart_length (cs : List Char) : (exponentPart cs).2.length ≤ cs.length := by
  unfold exponentPart
  split
  · rename_i c cs
    split
    · exact Nat.le_succ_of_le (Nat.le_trans (length_dropWhile_le _ _) (signPart_length cs))
    · exact Nat.le_refl _
  · exact Nat.le_refl _

theorem numberLexeme_rest_length (c : Char) (cs : List Char) (h : isDigitPart c = true ∨ c = '.') :
    (numberLexeme (c :: cs)).rest.length < (c :: cs).length := by
  simp only [numberLexeme, Lexeme.rest]
  refine Nat.lt_of_le_of_lt (exponentPart_length _) ?_
  cases hd : isDigitPart c with
  | true => exact Nat.lt_of_le_of_lt (fractionPart_length _) (length_dropWhile_lt _ c cs hd)
  | false =>
    obtain rfl : c = '.' := by simpa [hd] using h
    simp only [List.dropWhile_cons, hd, Bool.false_eq_true, if_false, fractionPart,
      List.length_cons]
    exact Nat.lt_succ_of_le (length_dropWhile_le _ _)

theorem wordLexeme_rest_length (c : Char) (cs : List Char) (h : isWordPart c = true) :
    (wordLexeme (c :: cs)).rest.length < (c :: cs).length := by
  have hw := length_dropWhile_lt isWordPart c cs h
  simp only [wordLexeme]
  split
  · rename_i q rest hr
    rw [hr] at hw
    split
    · have := stringLexeme_rest_length ((c :: cs).takeWhile isWordPart) q rest
      simp only [List.length_cons] at hw ⊢
      omega
    · simpa [Lexeme.rest, hr] using hw
  · simpa [Lexeme.rest] using hw

theorem operatorLexeme_rest_length (c : Char) (cs : List Char) :
    (operatorLexeme c cs).rest.length < (c :: cs).length := by
  unfold operatorLexeme
  split
  · rename_i op h
    have pos : ∀ op ∈ operators, 0 < op.toList.length := by decide
    have := pos op (List.mem_of_find?_eq_some h)
    simp only [Lexeme.rest, List.length_drop, List.length_cons]
    omega
  · simp [Lexeme.rest]

theorem lexeme_rest_length (afterValue : Bool) (c : Char) (cs : List Char) :
    (lexeme afterValue c cs).rest.length < (c :: cs).length := by
  unfold lexeme
  split
  · simp [Lexeme.rest]
  split
  · simp [Lexeme.rest]
  split
  · exact Nat.lt_succ_of_le (length_dropWhile_le _ _)
  split
  · split
    · rename_i rest h
      have := length_dropWhile_le (· == '\r') cs
      simp only [h, List.length_cons, Lexeme.rest] at this ⊢
      omega
    · simp [Lexeme.rest]
  split
  · exact Nat.lt_succ_of_le (stringLexeme_rest_length _ _ _)
  split
  · rename_i h
    refine numberLexeme_rest_length c cs ?_
    simp only [isDigitPart]
    grind
  split
  · rename_i h
    refine wordLexeme_rest_length c cs ?_
    simp only [isWordStart, isWordPart, Text.isLetterOrNumeral] at h ⊢
    grind
  · exact operatorLexeme_rest_length c cs

end ProcessModel.Script
