import ProcessModel.Proofs.LineNumbers

/-! Texts that stand one behind the other.

No lexeme goes on behind the end of its line, except for string literals and for the backslash that
joins two lines. So where a text can be read by itself and ends with a line end that no backslash
takes away, reading more text behind it comes between two statements when it gets there. -/

namespace ProcessModel.Script

def Ended (cs : List Char) : Prop := cs.getLast? = some '\n'

/-- A text that ends with a line end, and whose last line does not end with a backslash; carriage
returns do not count. -/
structure EndsLine (cs : List Char) : Prop where
  ended : Ended cs
  unjoined : (cs.dropLast.filter (· != '\r')).getLast? ≠ some '\\'

/-- What a lexeme becomes when `more` follows the text. Only a line end can leave nothing of the
text. -/
inductive Lexeme.Extended (more : List Char) : Lexeme → Lexeme → Prop
  | blank {rest : List Char} (h : Ended rest) : Extended more (.blank rest) (.blank (rest ++ more))
  | newline (rest : List Char) : Extended more (.newline rest) (.newline (rest ++ more))
  | join (rest : List Char) : Extended more (.join rest) (.join (rest ++ more))
  | token {rest : List Char} (t : Token) (n : Nat) (h : Ended rest) :
      Extended more (.token t n rest) (.token t n (rest ++ more))

section Ended

variable {cs taken rest : List Char} {c : Char} {p : Char → Bool}

theorem Ended.ne_nil (h : Ended cs) : cs ≠ [] := by
  rintro rfl
  cases h

theorem Ended.of_append (h : Ended (taken ++ rest)) (hne : rest ≠ []) : Ended rest := by
  unfold Ended at h
  rwa [List.getLast?_append_of_ne_nil _ hne] at h

theorem Ended.tail (h : Ended (c :: cs)) (hc : c ≠ '\n') : Ended cs := by
  have hcons : Ended ([c] ++ cs) := h
  refine hcons.of_append ?_
  rintro rfl
  exact hc (Option.some.inj h)

theorem Ended.inline (h : Ended cs) (hpasses : Passes cs 0 rest) : Ended rest := by
  obtain ⟨taken, rfl, htaken⟩ := hpasses
  refine h.of_append ?_
  rintro rfl
  rw [List.append_nil] at h
  exact List.count_eq_zero.1 htaken (List.mem_of_getLast? h)

theorem EndsLine.behind {n : Nat} (h : EndsLine cs) (hpasses : Passes cs n rest) (hne : rest ≠ []) :
    EndsLine rest := by
  obtain ⟨taken, rfl, -⟩ := hpasses
  refine ⟨h.ended.of_append hne, fun hslash => h.unjoined ?_⟩
  rw [List.dropLast_append_of_ne_nil hne, List.filter_append, List.getLast?_append, hslash]
  rfl

theorem Ended.dropWhile_append (h : Ended cs) (hp : p '\n' = false) (more : List Char) :
    (cs ++ more).dropWhile p = cs.dropWhile p ++ more := by
  have hne := (h.inline (passes_dropWhile hp cs)).ne_nil
  rw [List.dropWhile_append, if_neg (by simpa using hne)]

end Ended

/-- What is left of a text that ends with a line end, without and with more text behind it. -/
def Continued (more cs ds : List Char) : Prop := Ended cs ∧ ds = cs ++ more

theorem abreast_continued (more : List Char) : Abreast (Continued more) := by
  rintro cs _ ⟨h, rfl⟩
  obtain ⟨c, cs, rfl⟩ := List.exists_cons_of_ne_nil h.ne_nil
  by_cases hc : c = '\n'
  · subst hc
    exact .inr ⟨.newline _, .newline _⟩
  · exact .inl ⟨c, cs, cs ++ more, rfl, rfl, h.tail hc, rfl⟩

theorem Lexeme.Matches.extended {more : List Char} {l l' : Lexeme}
    (h : l.Matches (Continued more) l') : l.Extended more l' := by
  obtain ⟨t, rest, _, -, rfl, rfl, hrest, rfl⟩ := h
  exact .token t 0 hrest

section Strings

variable {q : Char} {triple : Bool} {cs text rest : List Char}

theorem Closes.append (hq : isQuote q = true) (h : Closes q triple cs text rest) (hcs : Ended cs)
    (more : List Char) : Ended rest ∧ Closes q triple (cs ++ more) text (rest ++ more) := by
  have hquotes := inline_of_isQuote hq
  obtain ⟨-, hnewline, -⟩ := ne_of_isQuote hq
  induction h with
  | @escape c cs text rest h ih =>
    have hcs : Ended (['\\', c] ++ cs) := hcs
    obtain ⟨hrest, hclose⟩ := ih (hcs.of_append h.ne_nil)
    exact ⟨hrest, .escape c hclose⟩
  | single htriple rest => exact ⟨hcs.tail hnewline, .single htriple _⟩
  | three htriple rest =>
    exact ⟨((hcs.tail hnewline).tail hnewline).tail hnewline, .three htriple _⟩
  | @char c cs text rest hc hline hopen h ih =>
    have hcs : Ended ([c] ++ cs) := hcs
    have hcs := hcs.of_append h.ne_nil
    have hopen' : c = q → triple = true ∧ ¬[q, q] <+: cs ++ more := by
      rwa [← List.isPrefixOf_iff_prefix,
        (abreast_continued more).isPrefixOf hquotes ⟨hcs, rfl⟩, List.isPrefixOf_iff_prefix]
    obtain ⟨hrest, hclose⟩ := ih hcs
    exact ⟨hrest, .char hc hline hopen' hclose⟩

theorem stringLexeme_extended {letters : List Char} (hq : isQuote q = true) (h : Ended cs)
    (hread : ∀ n e, stringLexeme letters q cs ≠ .fault n e) (more : List Char) :
    (stringLexeme letters q cs).Extended more (stringLexeme letters q (cs ++ more)) := by
  have hquotes := inline_of_isQuote hq
  have hopening : Continued more
      (cs.drop ((if [q, q].isPrefixOf cs then [q, q, q] else [q]).length - 1))
      ((cs ++ more).drop ((if [q, q].isPrefixOf cs then [q, q, q] else [q]).length - 1)) := by
    split_ifs with hpre
    · exact (abreast_continued more).drop hquotes ⟨h, rfl⟩ hpre
    · exact ⟨h, rfl⟩
  unfold stringLexeme at hread ⊢
  dsimp only at hread ⊢
  rw [(abreast_continued more).isPrefixOf hquotes ⟨h, rfl⟩, hopening.2]
  cases hclose : closeString q ([q, q].isPrefixOf cs)
      (cs.drop ((if [q, q].isPrefixOf cs then [q, q, q] else [q]).length - 1)) with
  | error n =>
    rw [hclose] at hread
    exact absurd rfl (hread n .openString)
  | ok p =>
    obtain ⟨body, n, rest⟩ := p
    obtain rfl := newlinesIn_of_closeString hq hclose
    obtain ⟨hrest, hclosed⟩ := (closes_of_closeString hclose).append hq hopening.1 more
    rw [hclosed.closeString hq]
    exact .token _ _ hrest

end Strings

section Lexemes

variable {cs : List Char} {c : Char} {after : Bool}

theorem lexeme_extended {l : Lexeme} (h : Ended (c :: cs)) (hlexeme : lexeme after c cs = l)
    (hread : ∀ n e, l ≠ .fault n e) (more : List Char) :
    l.Extended more (lexeme after c (cs ++ more)) := by
  subst hlexeme
  by_cases hnewline : c = '\n'
  · subst hnewline
    exact .newline cs
  have hcs := h.tail hnewline
  unfold lexeme at hread ⊢
  simp only [if_neg hnewline, List.head?_append_of_ne_nil _ hcs.ne_nil] at hread ⊢
  split_ifs at hread ⊢ with hspace hcomment hjoin hquote hnumber hword
  · exact .blank hcs
  · rw [hcs.dropWhile_append (by decide)]
    exact .blank (hcs.inline (passes_dropWhile (by decide) cs))
  · rw [hcs.dropWhile_append (by decide)]
    split at hread
    · rename_i rest hrest
      rw [hrest]
      exact .join rest
    · exact absurd rfl (hread 0 .strayBackslash)
  · exact stringLexeme_extended hquote hcs hread more
  · exact (numberLexeme_abreast (abreast_continued more) ⟨h, rfl⟩).extended
  · rcases wordLexeme_abreast (abreast_continued more) ⟨h, rfl⟩ with
      hname | ⟨letters, q, rest, _, hq, -, ⟨hrest, rfl⟩, hword, hword'⟩
    · exact hname.extended
    · rw [hword] at hread ⊢
      rw [← List.cons_append, hword']
      exact stringLexeme_extended hq hrest hread more
  · exact (operatorLexeme_abreast (abreast_continued more) ⟨h, rfl⟩ hread).extended

end Lexemes

section Statements

variable {depth line : Nat} {before : List Token} {cs more : List Char} {r : Reading}

theorem Reads.ne_nil (h : Reads depth before line cs r) (hdepth : depth ≠ 0) : cs ≠ [] := by
  rintro rfl
  cases h
  exact hdepth rfl

theorem EndsLine.of_join {c : Char} {after : Bool} {rest : List Char} (h : EndsLine (c :: cs))
    (hjoin : lexeme after c cs = .join rest) : rest ≠ [] := by
  rintro rfl
  rcases lexeme_cases after c cs with ⟨-, heq⟩ | ⟨-, heq⟩ | ⟨-, heq⟩ | ⟨rfl, rest, hrest, heq⟩ |
    ⟨t, n, rest, heq⟩ | ⟨n, e, heq⟩ <;> cases heq.symm.trans hjoin
  have hreturns : (cs.takeWhile (· == '\r')).filter (· != '\r') = [] := by
    rw [List.filter_eq_nil_iff]
    intro c hc
    simpa using List.mem_takeWhile_imp hc
  apply h.unjoined
  rw [← List.takeWhile_append_dropWhile (p := (· == '\r')) (l := cs), hrest, ← List.cons_append,
    List.dropLast_concat, List.filter_cons_of_pos (by decide), hreturns]
  rfl

theorem Reads.extended (h : Reads depth before line cs r) (hend : EndsLine cs) (more : List Char) :
    readStatement depth before line (cs ++ more) = .ok ⟨r.tokens, r.rest ++ more, r.line⟩ := by
  induction h with
  | eof before line => exact absurd rfl hend.ended.ne_nil
  | @ended before line c cs rest h =>
    have hext := lexeme_extended hend.ended h (by simp) more
    generalize hnext : lexeme _ c (cs ++ more) = next at hext
    cases hext with
    | newline => exact readStatement_newline hnext
  | @blank depth before line c cs rest r h hrest ih =>
    have hext := lexeme_extended hend.ended h (by simp) more
    generalize hnext : lexeme _ c (cs ++ more) = next at hext
    cases hext with
    | blank hended =>
      rw [List.cons_append, readStatement_blank hnext,
        ih (hend.behind (passes_blank h) hended.ne_nil)]
  | @newline depth before line c cs rest r h hdepth hrest ih =>
    have hext := lexeme_extended hend.ended h (by simp) more
    generalize hnext : lexeme _ c (cs ++ more) = next at hext
    cases hext with
    | newline =>
      have hpasses : Passes (c :: cs) 1 rest := ⟨['\n'], eq_of_newline h, rfl⟩
      rw [List.cons_append, readStatement_inside hnext hdepth,
        ih (hend.behind hpasses (hrest.ne_nil hdepth))]
  | @join depth before line c cs rest r h hrest ih =>
    have hext := lexeme_extended hend.ended h (by simp) more
    generalize hnext : lexeme _ c (cs ++ more) = next at hext
    cases hext with
    | join =>
      rw [List.cons_append, readStatement_join hnext,
        ih (hend.behind (passes_join h) (hend.of_join h))]
  | @token depth depth' before line c cs rest r t n h hnest hrest ih =>
    have hext := lexeme_extended hend.ended h (by simp) more
    generalize hnext : lexeme _ c (cs ++ more) = next at hext
    cases hext with
    | token t n hended =>
      rw [List.cons_append, readStatement_token hnext hnest,
        ih (hend.behind (passes_token h) hended.ne_nil)]

theorem items_append {ss : List Statement} (h : Statements cs ss) (hend : cs = [] ∨ EndsLine cs)
    (line : Nat) (more : List Char) :
    items line (cs ++ more) =
      (items (line + newlinesIn cs) more).map (numbered line ss ++ ·) := by
  induction h generalizing line with
  | none =>
    show items line more = (items line more).map ([] ++ ·)
    cases items line more <;> rfl
  | @next s rest ss n hne hread hrest ih =>
    have hfollowed := followed_of_read hread
    have hnonempty : s.text ++ rest ≠ [] := by simp [hne]
    have hend := hend.resolve_left hnonempty
    obtain ⟨hwidth, hended, hindent⟩ :=
      measureIndent_abreast (abreast_continued more) 0 ⟨hend.ended, rfl⟩
    have hbehind := hend.behind (passes_measureIndent 0 _) hended.ne_nil
    have hstatement : readStatement 0 [] line (measureIndent 0 (s.text ++ rest ++ more)).2 =
        .ok ⟨s.tokens, rest ++ more, line + newlinesIn s.text⟩ := by
      rw [hindent]
      exact (reads_of_readStatement (hfollowed.read line)).extended hbehind more
    have hrest_end : rest = [] ∨ EndsLine rest := by
      by_cases hnil : rest = []
      · exact .inl hnil
      · exact .inr (hend.behind ⟨s.text, rfl, rfl⟩ hnil)
    have hcount : newlinesIn (s.text ++ rest) = newlinesIn s.text + newlinesIn rest :=
      List.count_append
    rw [items_eq (by simp [hne]) hstatement, ih hrest_end, hwidth, numbered, Statement.item?,
      measureIndent_closed hfollowed.closed, hcount, Nat.add_assoc]
    cases items (line + (newlinesIn s.text + newlinesIn rest)) more with
    | error e => rfl
    | ok is => simp [Except.map]

end Statements

/-! ### Blocks -/

def Docstring.behind (k : Nat) (d : Docstring) : Docstring := ⟨d.line, d.position + k, d.text⟩

/-- The statements and the documentation of two texts, one behind the other. -/
def Block.followedBy (first second : Block) : Block :=
  ⟨first.lines ++ second.lines, first.docs ++ second.docs.map (Docstring.behind first.lines.length)⟩

section Blocks

theorem docsFrom_add (position k : Nat) (is : List Item) :
    docsFrom (position + k) is = (docsFrom position is).map (Docstring.behind k) := by
  induction is generalizing position with
  | nil => rfl
  | cons i is ih =>
    cases i with
    | line l => rw [docsFrom, docsFrom, ← ih, Nat.add_right_comm]
    | doc n text => exact congrArg (_ :: ·) (ih position)

theorem docsFrom_append (position : Nat) (is js : List Item) :
    docsFrom position (is ++ js) =
      docsFrom position is ++ docsFrom (position + (Block.ofItems is).lines.length) js := by
  induction is generalizing position with
  | nil => rfl
  | cons i is ih =>
    cases i with
    | line l =>
      have hcount : (Block.ofItems (.line l :: is)).lines.length =
          (Block.ofItems is).lines.length + 1 := rfl
      rw [List.cons_append, docsFrom, docsFrom, ih, hcount, Nat.add_right_comm, Nat.add_assoc]
    | doc n text => exact congrArg (_ :: ·) (ih position)

theorem ofItems_append (is js : List Item) :
    Block.ofItems (is ++ js) = (Block.ofItems is).followedBy (Block.ofItems js) := by
  have hlines : (Block.ofItems (is ++ js)).lines =
      (Block.ofItems is).lines ++ (Block.ofItems js).lines := List.filterMap_append
  have hdocs : (Block.ofItems (is ++ js)).docs = docsFrom 0 is ++
      (docsFrom 0 js).map (Docstring.behind (Block.ofItems is).lines.length) :=
    (docsFrom_append 0 is js).trans (congrArg (_ ++ ·) (docsFrom_add 0 _ js))
  exact congrArg₂ Block.mk hlines hdocs

/-- Only the last 64 bits of the number of the first line are recorded. -/
theorem tokenize_lineNumber (text : String) (n : Nat) :
    tokenize text (lineNumber n) = tokenize text n := by
  have hadd : ∀ a, lineNumber (a + lineNumber n) = lineNumber (a + n) := fun a => by
    rw [Nat.add_comm, lineNumber_add, Nat.add_comm]
  have hline : LogicalLine.shift (lineNumber n) = LogicalLine.shift n :=
    funext fun l => by rw [LogicalLine.shift, LogicalLine.shift, hadd]
  have hdoc : Docstring.shift (lineNumber n) = Docstring.shift n :=
    funext fun d => by rw [Docstring.shift, Docstring.shift, hadd]
  have hfault : LexError.shift (lineNumber n) = LexError.shift n :=
    funext fun e => by rw [LexError.shift, LexError.shift, hadd]
  have hblock : Block.shift (lineNumber n) = Block.shift n :=
    funext fun b => by rw [Block.shift, Block.shift, hline, hdoc]
  calc tokenize text (lineNumber n)
      = shifted (Block.shift (lineNumber n)) (lineNumber n) (tokenize text 0) := by
        rw [← tokenize_shift, Nat.zero_add]
    _ = shifted (Block.shift n) n (tokenize text 0) := by
        rw [shifted, shifted, hblock, hfault]
    _ = tokenize text n := by rw [← tokenize_shift, Nat.zero_add]

end Blocks

/-- A text that is read and ends with a line of its own can be read by itself: reading it with any
text behind gives its statements and documentation followed by those of that text, read from the
line on which it starts, and fails exactly if that text cannot be read, with the same fault. -/
theorem tokenize_append {a : String} {n : Nat} {block : Block} (hend : EndsLine a.toList)
    (hread : tokenize a n = .ok block) (b : String) :
    tokenize (a ++ b) n = (tokenize b (n + newlinesIn a.toList)).map block.followedBy ∧
      tokenize b (n + newlinesIn a.toList) = tokenize b (lineNumber (n + newlinesIn a.toList)) := by
  refine ⟨?_, (tokenize_lineNumber b _).symm⟩
  obtain ⟨is, his, rfl⟩ := map_eq_ok hread
  obtain ⟨ss, hss⟩ := exists_statements his
  cases his.symm.trans (items_of_statements hss n)
  unfold tokenize
  rw [String.toList_append, items_append hss (.inr hend)]
  cases items (n + newlinesIn a.toList) b.toList with
  | error e => rfl
  | ok js => exact congrArg Except.ok (ofItems_append _ js)

def upperText : String := "x = (1,\r\n2) # sum\n\x27\x27\x27upper\nreach\x27\x27\x27\n"

def lowerText : String := "\x27lower\x27\ny = x\n"

/-- Behind the four lines of the first text the second one starts on line 9, and its documentation
has one statement before it. -/
theorem upper_lower_read :
    ∃ upper lower, EndsLine upperText.toList ∧ tokenize upperText 5 = .ok upper ∧
      tokenize lowerText 9 = .ok lower ∧
      tokenize (upperText ++ lowerText) 5 = .ok (upper.followedBy lower) ∧
      (upper.followedBy lower).docs.map (fun d => (d.line, d.position)) = [(7, 1), (9, 1)] := by
  have hend : EndsLine upperText.toList := ⟨by unfold Ended; decide +kernel, by decide +kernel⟩
  have hrun : ((tokenize upperText 5).toOption.any fun upper =>
      (tokenize lowerText 9).toOption.any fun lower => (upper.followedBy lower).docs.map
        (fun d => (d.line, d.position)) = [(7, 1), (9, 1)]) := by
    decide +kernel
  obtain ⟨upper, hupper, hrun⟩ := exists_ok_of_any hrun
  obtain ⟨lower, hlower, hdocs⟩ := exists_ok_of_any hrun
  have happend := (tokenize_append hend hupper lowerText).1
  have hline : 5 + newlinesIn upperText.toList = 9 := by decide +kernel
  rw [hline, hlower] at happend
  exact ⟨upper, lower, hend, hupper, hlower, happend, of_decide_eq_true hdocs⟩

end ProcessModel.Script
