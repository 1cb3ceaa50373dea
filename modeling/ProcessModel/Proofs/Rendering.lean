import ProcessModel.Proofs.Grammar
import ProcessModel.Proofs.Lexemes

/-! Statements as text.

The tokens of a statement that is read have the form of their kinds, with brackets that match. If in
addition every point stands between names, the text that the tokens are written as is read as the
same tokens. -/

namespace ProcessModel

open Script

/-- The depth of brackets behind a token; a closing bracket needs an opening one. -/
def Token.nest (depth : Nat) (t : Token) : Option Nat :=
  if t.isOpening then some (depth + 1)
  else if t.isClosing then if depth > 0 then some (depth - 1) else none
  else some depth

def nesting (depth : Nat) (ts : List Token) : Option Nat := ts.foldlM Token.nest depth

@[simp] theorem nesting_nil (depth : Nat) : nesting depth [] = some depth := rfl

@[simp] theorem nesting_cons (depth : Nat) (t : Token) (ts : List Token) :
    nesting depth (t :: ts) = (t.nest depth).bind fun d => nesting d ts := rfl

theorem nesting_append (depth : Nat) (ts us : List Token) :
    nesting depth (ts ++ us) = (nesting depth ts).bind fun d => nesting d us :=
  List.foldlM_append

/-- The tokens of a statement as reading leaves them. -/
structure Written (ts : List Token) : Prop where
  lexemes : ∀ t ∈ ts, t.IsLexeme
  allowed : ts.IsChain Token.Allows
  balanced : nesting 0 ts = some 0

namespace Script

section Steps

variable {depth depth' line n : Nat} {before : List Token} {c : Char} {cs rest : List Char}
  {t : Token} {r : Reading}

theorem readStatement_token
    (h : lexeme (before.head?.any Token.endsValue) c cs = .token t n rest)
    (hnest : t.nest depth = some depth') :
    readStatement depth before line (c :: cs) =
      readStatement depth' (t :: before) (line + n) rest := by
  rw [readStatement]
  unfold Token.nest at hnest
  split <;> rename_i h' <;> cases h.symm.trans h'
  split_ifs at hnest ⊢ <;> cases hnest <;> rfl

theorem readStatement_blank (h : lexeme (before.head?.any Token.endsValue) c cs = .blank rest) :
    readStatement depth before line (c :: cs) = readStatement depth before line rest := by
  rw [readStatement]
  split <;> rename_i h' <;> cases h.symm.trans h'
  rfl

theorem readStatement_join (h : lexeme (before.head?.any Token.endsValue) c cs = .join rest) :
    readStatement depth before line (c :: cs) = readStatement depth before (line + 1) rest := by
  rw [readStatement]
  split <;> rename_i h' <;> cases h.symm.trans h'
  rfl

theorem readStatement_newline (h : lexeme (before.head?.any Token.endsValue) c cs = .newline rest) :
    readStatement 0 before line (c :: cs) = .ok ⟨before.reverse, rest, line + 1⟩ := by
  rw [readStatement]
  split <;> rename_i h' <;> cases h.symm.trans h'
  rfl

theorem readStatement_inside (h : lexeme (before.head?.any Token.endsValue) c cs = .newline rest)
    (hdepth : depth ≠ 0) :
    readStatement depth before line (c :: cs) = readStatement depth before (line + 1) rest := by
  rw [readStatement]
  split <;> rename_i h' <;> cases h.symm.trans h'
  rw [if_pos (Nat.pos_of_ne_zero hdepth)]

theorem nest_opening (h : t.isOpening = true) : t.nest depth = some (depth + 1) := if_pos h

theorem nest_closing (h : ¬t.isOpening = true) (hc : t.isClosing = true) (hd : depth > 0) :
    t.nest depth = some (depth - 1) := by
  rw [Token.nest, if_neg h, if_pos hc, if_pos hd]

theorem nest_unmatched (h : ¬t.isOpening = true) (hc : t.isClosing = true) (hd : ¬depth > 0) :
    t.nest depth = none := by
  rw [Token.nest, if_neg h, if_pos hc, if_neg hd]

theorem nest_plain (h : ¬t.isOpening = true) (hc : ¬t.isClosing = true) :
    t.nest depth = some depth := by
  rw [Token.nest, if_neg h, if_neg hc]

/-- The lexemes of a statement that is read to its end. -/
inductive Reads : Nat → List Token → Nat → List Char → Reading → Prop
  | eof (before : List Token) (line : Nat) : Reads 0 before line [] ⟨before.reverse, [], line⟩
  | ended {before : List Token} {line : Nat} {c : Char} {cs rest : List Char}
      (h : lexeme (before.head?.any Token.endsValue) c cs = .newline rest) :
      Reads 0 before line (c :: cs) ⟨before.reverse, rest, line + 1⟩
  | blank {depth : Nat} {before : List Token} {line : Nat} {c : Char} {cs rest : List Char}
      {r : Reading} (h : lexeme (before.head?.any Token.endsValue) c cs = .blank rest)
      (hrest : Reads depth before line rest r) : Reads depth before line (c :: cs) r
  | newline {depth : Nat} {before : List Token} {line : Nat} {c : Char} {cs rest : List Char}
      {r : Reading} (h : lexeme (before.head?.any Token.endsValue) c cs = .newline rest)
      (hdepth : depth ≠ 0) (hrest : Reads depth before (line + 1) rest r) :
      Reads depth before line (c :: cs) r
  | join {depth : Nat} {before : List Token} {line : Nat} {c : Char} {cs rest : List Char}
      {r : Reading} (h : lexeme (before.head?.any Token.endsValue) c cs = .join rest)
      (hrest : Reads depth before (line + 1) rest r) : Reads depth before line (c :: cs) r
  | token {depth depth' : Nat} {before : List Token} {line : Nat} {c : Char} {cs rest : List Char}
      {r : Reading} {t : Token} {n : Nat}
      (h : lexeme (before.head?.any Token.endsValue) c cs = .token t n rest)
      (hnest : t.nest depth = some depth')
      (hrest : Reads depth' (t :: before) (line + n) rest r) : Reads depth before line (c :: cs) r

theorem reads_of_readStatement (h : readStatement depth before line cs = .ok r) :
    Reads depth before line cs r := by
  fun_induction readStatement depth before line cs with
  | case1 => cases h
  | case2 depth before line hd =>
    obtain rfl : depth = 0 := by omega
    cases h
    exact .eof before line
  | case3 depth before line c cs hl rest he ih => exact .blank he (ih h)
  | case4 depth before line c cs hl rest he hd ih =>
    exact .newline he (Nat.ne_of_gt hd) (ih h)
  | case5 depth before line c cs hl rest he hd =>
    obtain rfl : depth = 0 := by omega
    cases h
    exact .ended he
  | case6 depth before line c cs hl rest he ih => exact .join he (ih h)
  | case7 depth before line c cs hl t n rest he ho ih => exact .token he (nest_opening ho) (ih h)
  | case8 depth before line c cs hl t n rest he ho hc hd ih =>
    exact .token he (nest_closing ho hc hd) (ih h)
  | case9 => cases h
  | case10 depth before line c cs hl t n rest he ho hc ih =>
    exact .token he (nest_plain ho hc) (ih h)
  | case11 => cases h

/-- The tokens of the start of a statement, the last one first, inside `depth` brackets. -/
structure Begun (depth : Nat) (before : List Token) : Prop where
  lexemes : ∀ t ∈ before, t.IsLexeme
  allowed : before.IsChain fun next t => t.Allows next
  nesting : nesting 0 before.reverse = some depth

theorem begun_nil : Begun 0 [] := ⟨by simp, by simp, rfl⟩

theorem Begun.cons (h : Begun depth before)
    (ht : lexeme (before.head?.any Token.endsValue) c cs = .token t n rest)
    (hnest : t.nest depth = some depth') : Begun depth' (t :: before) := by
  obtain ⟨hform, hpoint⟩ := lexeme_eq_token ht
  refine ⟨List.forall_mem_cons.2 ⟨hform, h.lexemes⟩, List.isChain_cons.2 ⟨?_, h.allowed⟩, ?_⟩
  · intro u hu hvalue
    apply hpoint
    rw [Option.mem_def.1 hu]
    exact hvalue
  · rw [List.reverse_cons, nesting_append, h.nesting]
    simp [hnest]

theorem Begun.written (h : Begun 0 before) : Written before.reverse :=
  ⟨by simpa using h.lexemes, List.isChain_reverse.2 h.allowed, h.nesting⟩

theorem Reads.written (h : Reads depth before line cs r) (hbegun : Begun depth before) :
    Written r.tokens := by
  induction h with
  | eof before line => exact hbegun.written
  | ended h => exact hbegun.written
  | blank h hrest ih => exact ih hbegun
  | newline h hdepth hrest ih => exact ih hbegun
  | join h hrest ih => exact ih hbegun
  | token h hnest hrest ih => exact ih (hbegun.cons h hnest)

end Steps

section Items

variable {line : Nat} {cs : List Char} {is : List Item}

theorem items_eq (hne : cs ≠ []) {r : Reading}
    (h : readStatement 0 [] line (measureIndent 0 cs).2 = .ok r) :
    items line cs = (items r.line r.rest).map
      ((Item.ofTokens (measureIndent 0 cs).1 line r.tokens).toList ++ ·) := by
  obtain ⟨c, tail, rfl⟩ := List.exists_cons_of_ne_nil hne
  rw [items]
  split
  · rename_i e h'
    rw [h] at h'
    cases h'
  · rename_i r' h'
    rw [h] at h'
    cases h'
    split <;> rename_i hrest <;> rw [hrest] <;> rfl

theorem written_of_ofTokens {indent : Nat} {ts : List Token} (hts : Written ts) {l : LogicalLine}
    (h : .line l ∈ (Item.ofTokens indent line ts).toList) : Written l.tokens ∧ l.tokens ≠ [] := by
  unfold Item.ofTokens at h
  split_ifs at h with hempty hdoc
  · cases h
  · cases List.mem_singleton.1 h
  · cases List.mem_singleton.1 h
    exact ⟨hts, by simpa using hempty⟩

theorem written_of_items (h : items line cs = .ok is) :
    ∀ l, .line l ∈ is → Written l.tokens ∧ l.tokens ≠ [] := by
  fun_induction items line cs generalizing is with
  | case1 line =>
    cases h
    simp
  | case2 line c tail e hread => cases h
  | case3 line c tail r hread _ e hrest ih => cases h
  | case4 line c tail r hread _ rest hrest ih =>
    cases h
    intro l hl
    rcases List.mem_append.1 hl with hl | hl
    · exact written_of_ofTokens ((reads_of_readStatement hread).written begun_nil) hl
    · exact ih hrest l hl

/-- Every statement that is read has tokens, as reading leaves them. -/
theorem written_of_tokenize {text : String} {n : Nat} {block : Block}
    (h : tokenize text n = .ok block) : ∀ l ∈ block.lines, Written l.tokens ∧ l.tokens ≠ [] := by
  obtain ⟨is, his, rfl⟩ := map_eq_ok h
  intro l hl
  obtain ⟨item, hitem, hline⟩ := List.mem_filterMap.1 hl
  cases item with
  | line l' =>
    cases hline
    exact written_of_items his l hitem
  | doc m doc => cases hline

end Items

end Script

/-- A point stands between names. -/
def Token.Points (t next : Token) : Prop :=
  (next = .ofOp "." → t.kind = .name) ∧ (t = .ofOp "." → next.kind = .name)

/-- Tokens whose text can be read back. -/
structure Legible (ts : List Token) : Prop extends Written ts where
  nonempty : ts ≠ []
  literal : ∀ t ∈ ts, t.kind ≠ .str
  points : ts.IsChain Token.Points

namespace Token

def separators : List Char := [' ', '\n', '(', ')', '[', ']', ',', ':']

theorem endsBefore_separator (t : Token) {c : Char} (hc : c ∈ separators) : t.EndsBefore c := by
  have hall : (separators.all fun c => (!isWordPart c && !isQuote c) && !continuesNumber c &&
      !operatorParts.contains c && !c.isDigit) = true := by decide
  have hc := List.all_eq_true.1 hall c hc
  simp only [Bool.and_eq_true, Bool.not_eq_true', List.contains_eq_mem,
    decide_eq_false_iff_not] at hc
  obtain ⟨⟨⟨hname, hnumber⟩, hop⟩, hdigit⟩ := hc
  obtain ⟨kind, text⟩ := t
  cases kind with
  | name => exact hname
  | number => exact hnumber
  | op => exact .inr ⟨hop, fun _ => hdigit⟩
  | str => trivial

theorem endsBefore_of_not_spaced {t next : Token} (hnext : next.IsLexeme) (hpoints : t.Points next)
    (hspaced : t.spaced next = false) {c : Char} (hc : c ∈ next.text.toList.head?) :
    t.EndsBefore c := by
  have hmark : ∀ s : String, s.toList.head?.all separators.contains = true → next = .ofOp s →
      t.EndsBefore c := by
    rintro s hs rfl
    rw [show s.toList.head? = some c from hc] at hs
    exact t.endsBefore_separator (List.contains_iff_mem.1 hs)
  unfold spaced at hspaced
  split_ifs at hspaced with hbehind hbefore
  · simp only [isClosing, Bool.or_eq_true, isOp_iff] at hbehind
    rcases hbehind with ((hpoint | hcomma) | hround | hsquare) | hcolon
    · subst hpoint
      obtain rfl : '.' = c := by simpa [ofOp] using hc
      obtain ⟨kind, text⟩ := t
      obtain rfl : kind = .name := hpoints.1 rfl
      exact ⟨by decide, by decide⟩
    · exact hmark "," (by decide) hcomma
    · exact hmark ")" (by decide) hround
    · exact hmark "]" (by decide) hsquare
    · exact hmark ":" (by decide) hcolon
  · rw [Bool.or_eq_true, isOp_iff] at hbefore
    rcases hbefore with rfl | hopening
    · obtain ⟨kind, text⟩ := next
      obtain rfl : kind = .name := hpoints.2 rfl
      have hstart : isWordStart c = true := by
        have hword : IsWord text.toList := hnext
        have hhead := hword.1
        rw [Option.mem_def.1 hc] at hhead
        exact hhead
      have hother : (operatorParts.all fun d => !isWordStart d) = true := by decide
      refine .inr ⟨fun hmem => ?_, fun _ => isDigit_of_isWordStart hstart⟩
      simpa [hstart] using List.all_eq_true.1 hother c hmem
    · have hkind : t.kind = .op := by
        simp only [isOpening, isOp, Bool.or_eq_true, Bool.and_eq_true, beq_iff_eq] at hopening
        exact hopening.elim And.left And.left
      simp [EndsBefore, hkind, hopening]
  · simp only [Bool.not_eq_false', Bool.and_eq_true] at hspaced
    have hopening := hspaced.2
    simp only [isOpening, Bool.or_eq_true, isOp_iff] at hopening
    rcases hopening with hround | hsquare
    · exact hmark "(" (by decide) hround
    · exact hmark "[" (by decide) hsquare

end Token

section Back

variable {depth line : Nat} {before : List Token} {rest : List Char}

theorem readStatement_text {t : Token} {depth' : Nat} (ht : t.IsLexeme) (hkind : t.kind ≠ .str)
    (hafter : ∀ u ∈ before.head?, u.Allows t) (hnest : t.nest depth = some depth')
    (hrest : ∀ c ∈ rest.head?, t.EndsBefore c) :
    readStatement depth before line (t.text.toList ++ rest) =
      readStatement depth' (t :: before) line rest := by
  have hpoint : before.head?.any Token.endsValue = true → t.startsWithPoint = false := by
    intro hvalue
    obtain ⟨u, hu, hvalue⟩ := (Option.any_eq_true _ _).1 hvalue
    exact hafter u hu hvalue
  obtain ⟨c, cs, htext, hread⟩ := lexeme_of_isLexeme ht hkind hpoint hrest
  rw [htext, List.cons_append, readStatement_token hread hnest, Nat.add_zero]

theorem render_cons (t : Token) (ts : List Token) :
    ∃ tail, (Token.render (t :: ts)).toList = t.text.toList ++ tail := by
  cases ts with
  | nil => exact ⟨[], by simp [Token.render]⟩
  | cons next ts => exact ⟨_, by rw [Token.render, String.toList_append, String.toList_append,
      List.append_assoc]⟩

theorem exists_head_text {t : Token} (ht : t.IsLexeme) (hkind : t.kind ≠ .str) :
    ∃ c cs, t.text.toList = c :: cs ∧ c ≠ ' ' ∧ c ≠ '\t' := by
  have hread : ∃ c cs, t.text.toList = c :: cs ∧ lexeme false c (cs ++ []) = .token t 0 [] :=
    lexeme_of_isLexeme ht hkind (by simp) (by simp)
  obtain ⟨c, cs, htext, hread⟩ := hread
  refine ⟨c, cs, htext, ?_, ?_⟩ <;> rintro rfl <;> cases hread

theorem readStatement_render {ts : List Token} (hlexemes : ∀ t ∈ ts, t.IsLexeme)
    (hliteral : ∀ t ∈ ts, t.kind ≠ .str) (hallowed : ts.IsChain Token.Allows)
    (hpoints : ts.IsChain Token.Points) (hafter : ∀ u ∈ before.head?, ∀ t ∈ ts.head?, u.Allows t)
    (hnesting : nesting depth ts = some 0) :
    readStatement depth before line ((Token.render ts).toList ++ '\n' :: rest) =
      .ok ⟨before.reverse ++ ts, rest, line + 1⟩ := by
  have hspace : ∀ t : Token, t.EndsBefore ' ' := fun t => t.endsBefore_separator (by decide)
  have hend : ∀ t : Token, t.EndsBefore '\n' := fun t => t.endsBefore_separator (by decide)
  fun_induction Token.render ts generalizing depth before with
  | case1 =>
    cases hnesting
    simpa using readStatement_newline rfl
  | case2 t =>
    rw [nesting_cons, Option.bind_eq_some_iff] at hnesting
    obtain ⟨depth', hnest, hnesting⟩ := hnesting
    cases hnesting
    have htext : readStatement depth before line (t.text.toList ++ '\n' :: rest) =
        readStatement 0 (t :: before) line ('\n' :: rest) :=
      readStatement_text (hlexemes t List.mem_cons_self) (hliteral t List.mem_cons_self)
        (fun u hu => hafter u hu t rfl) hnest (by simpa using hend t)
    rw [htext, readStatement_newline rfl, List.reverse_cons]
  | case3 t next ts ih =>
    rw [nesting_cons, Option.bind_eq_some_iff] at hnesting
    obtain ⟨depth', hnest, hnesting⟩ := hnesting
    rw [List.isChain_cons_cons] at hallowed hpoints
    rw [List.forall_mem_cons] at hlexemes hliteral
    have hbehind : ∀ u ∈ (t :: before).head?, ∀ v ∈ (next :: ts).head?, u.Allows v := by
      simpa using hallowed.1
    have hback := ih hlexemes.2 hliteral.2 hallowed.2 hpoints.2 hbehind hnesting
    have htext : ∀ tail : List Char, (∀ c ∈ tail.head?, t.EndsBefore c) →
        readStatement depth before line (t.text.toList ++ tail) =
          readStatement depth' (t :: before) line tail :=
      fun tail => readStatement_text hlexemes.1 hliteral.1 (fun u hu => hafter u hu t rfl) hnest
    rw [List.reverse_cons, List.append_assoc, List.singleton_append] at hback
    rw [String.toList_append, String.toList_append, List.append_assoc, List.append_assoc]
    by_cases hspaced : t.spaced next = true
    · have hblank : lexeme ((t :: before).head?.any Token.endsValue) ' '
          ((Token.render (next :: ts)).toList ++ '\n' :: rest) =
            .blank ((Token.render (next :: ts)).toList ++ '\n' :: rest) := rfl
      rw [if_pos hspaced, htext _ (by simpa using hspace t)]
      exact (readStatement_blank hblank).trans hback
    · have hnext : next.IsLexeme := hlexemes.2 next List.mem_cons_self
      obtain ⟨c, cs, hc, -⟩ := exists_head_text hnext (hliteral.2 next List.mem_cons_self)
      obtain ⟨tail, htail⟩ := render_cons next ts
      rw [if_neg hspaced, String.toList_empty, List.nil_append, htext _ ?_, hback]
      intro d hd
      obtain rfl : c = d := by simpa [htail, hc] using hd
      rw [Bool.not_eq_true] at hspaced
      exact Token.endsBefore_of_not_spaced hnext hpoints.1 hspaced (by simp [hc])

end Back

section Lines

theorem measureIndent_spaces (width n : Nat) {cs : List Char}
    (hcs : ∀ c ∈ cs.head?, c ≠ ' ' ∧ c ≠ '\t') :
    measureIndent width (List.replicate n ' ' ++ cs) = (width + n, cs) := by
  induction n generalizing width with
  | zero =>
    cases cs with
    | nil => rfl
    | cons c cs =>
      obtain ⟨hspace, htab⟩ := hcs c rfl
      rw [List.replicate_zero, List.nil_append, measureIndent]
      · rfl
      · rintro cs' heq
        exact hspace (List.cons.inj heq).1
      · rintro cs' heq
        exact htab (List.cons.inj heq).1
  | succ n ih =>
    rw [List.replicate_succ, List.cons_append, measureIndent, ih, Nat.add_assoc, Nat.add_comm 1]

/-- Lines with the numbers that they have one below the other, the first being `n`. -/
def renumbered (n : Nat) : List LogicalLine → List LogicalLine
  | [] => []
  | l :: ls => { l with line := lineNumber n } :: renumbered (n + 1) ls

theorem ofTokens_of_legible {ts : List Token} (h : Legible ts) (indent line : Nat) :
    Item.ofTokens indent line ts = some (.line ⟨indent, lineNumber line, ts⟩) := by
  have hempty : ¬ts.isEmpty = true := by simpa using h.nonempty
  have hdoc : ¬(ts.all fun t => t.kind == .str) = true := by
    obtain ⟨t, ts, rfl⟩ := List.exists_cons_of_ne_nil h.nonempty
    simp [h.literal t List.mem_cons_self]
  rw [Item.ofTokens, if_neg hempty, if_neg hdoc]

theorem items_text {l : LogicalLine} (h : Legible l.tokens) (n : Nat) (rest : List Char) :
    items n (l.text.toList ++ rest) =
      (items (n + 1) rest).map (.line { l with line := lineNumber n } :: ·) := by
  have htext : l.text.toList ++ rest =
      List.replicate l.indent ' ' ++ (l.render.toList ++ '\n' :: rest) := by
    simp [LogicalLine.text]
  obtain ⟨t, ts, hts⟩ := List.exists_cons_of_ne_nil h.nonempty
  have hmem : t ∈ l.tokens := by simp [hts]
  obtain ⟨c, cs, hc, hspace, htab⟩ := exists_head_text (h.lexemes t hmem) (h.literal t hmem)
  obtain ⟨tail, htail⟩ := render_cons t ts
  have hrender : l.render.toList = c :: (cs ++ tail) := by
    rw [LogicalLine.render, hts, htail, hc, List.cons_append]
  have hfirst : ∀ d ∈ (l.render.toList ++ '\n' :: rest).head?, d ≠ ' ' ∧ d ≠ '\t' := by
    simpa [hrender] using ⟨hspace, htab⟩
  have hindent := measureIndent_spaces 0 l.indent hfirst
  rw [Nat.zero_add] at hindent
  have hread : readStatement 0 [] n (l.render.toList ++ '\n' :: rest) =
      .ok ⟨[].reverse ++ l.tokens, rest, n + 1⟩ :=
    readStatement_render h.lexemes h.literal h.allowed h.points (by simp) h.balanced
  rw [htext, items_eq (by simp) (by rw [hindent]; exact hread), hindent]
  dsimp only
  rw [List.reverse_nil, List.nil_append, ofTokens_of_legible h]
  rfl

/-- The text of legible lines is read as these lines. -/
theorem items_linesText {ls : List LogicalLine} (h : ∀ l ∈ ls, Legible l.tokens) (n : Nat) :
    items n (linesText ls).toList = .ok ((renumbered n ls).map .line) := by
  induction ls generalizing n with
  | nil =>
    simp [linesText, items]
    rfl
  | cons l ls ih =>
    rw [List.forall_mem_cons] at h
    have hjoin : (linesText (l :: ls)).toList = l.text.toList ++ (linesText ls).toList := by
      simp [linesText, String.toList_join]
    rw [hjoin, items_text h.1, ih h.2]
    rfl

theorem docsFrom_lines (position : Nat) (ls : List LogicalLine) :
    docsFrom position (ls.map .line) = [] := by
  induction ls generalizing position with
  | nil => rfl
  | cons l ls ih => exact ih (position + 1)

theorem ofItems_lines (ls : List LogicalLine) : Block.ofItems (ls.map .line) = ⟨ls, []⟩ := by
  have hlines : (Block.ofItems (ls.map .line)).lines = ls := by
    induction ls with
    | nil => rfl
    | cons l ls ih => exact congrArg (l :: ·) ih
  have hdocs : (Block.ofItems (ls.map .line)).docs = [] := docsFrom_lines 0 ls
  calc Block.ofItems (ls.map .line)
      = ⟨(Block.ofItems (ls.map .line)).lines, (Block.ofItems (ls.map .line)).docs⟩ := rfl
    _ = ⟨ls, []⟩ := by rw [hlines, hdocs]

theorem tokenize_linesText {ls : List LogicalLine} (h : ∀ l ∈ ls, Legible l.tokens) (n : Nat) :
    tokenize (linesText ls) n = .ok ⟨renumbered n ls, []⟩ := by
  rw [tokenize, items_linesText h, ← ofItems_lines]
  rfl

end Lines

end ProcessModel
