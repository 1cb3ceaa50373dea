import ProcessModel.Proofs.LineCounts
import ProcessModel.Script.Method

/-! Statements of a text that is cut behind one of its lines.

Reading the excerpt follows the reading of the text statement by statement. It leaves off between
two statements, behind a backslash that joins the next line to the last statement, or inside a
bracket or a string literal. -/

namespace ProcessModel

/-- A statement with single line ends in its literals. -/
def LogicalLine.lineFeeds (l : LogicalLine) : LogicalLine :=
  { l with tokens := l.tokens.map Token.lineFeeds }

namespace Script

/-- Where reading leaves off at the end of a text. -/
inductive Ending
  | closed (line : Nat)
  /-- Inside a statement with the tokens `before`, behind a backslash at the end of its line. -/
  | joined (before : List Token) (line : Nat)
  /-- Inside a bracket or a literal, or at a fault. -/
  | torn
  deriving DecidableEq, Repr

/-- Read on to the end of a statement as `readStatement` does, but not over the end of the text. -/
def reach (depth : Nat) (before : List Token) (line : Nat) : List Char → Except Ending Reading
  | [] => .error (if depth = 0 then .joined before line else .torn)
  | c :: cs =>
    have := lexeme_rest_length (before.head?.any Token.endsValue) c cs
    match h : lexeme (before.head?.any Token.endsValue) c cs with
    | .blank rest => reach depth before line rest
    | .newline rest =>
      if depth = 0 then .ok ⟨before.reverse, rest, line + 1⟩ else reach depth before (line + 1) rest
    | .join rest => reach depth before (line + 1) rest
    | .token t newlines rest =>
      match t.nest depth with
      | some depth' => reach depth' (t :: before) (line + newlines) rest
      | none => .error .torn
    | .fault _ _ => .error .torn
termination_by cs => cs.length
decreasing_by all_goals simpa [h, Lexeme.rest] using this

section Steps

variable {depth depth' line n : Nat} {before : List Token} {c : Char} {cs rest : List Char}
  {t : Token} {r : Reading}

theorem reach_blank (h : lexeme (before.head?.any Token.endsValue) c cs = .blank rest) :
    reach depth before line (c :: cs) = reach depth before line rest := by
  rw [reach]
  split <;> rename_i h' <;> cases h.symm.trans h'
  rfl

theorem reach_newline (h : lexeme (before.head?.any Token.endsValue) c cs = .newline rest) :
    reach depth before line (c :: cs) =
      if depth = 0 then .ok ⟨before.reverse, rest, line + 1⟩
      else reach depth before (line + 1) rest := by
  rw [reach]
  split <;> rename_i h' <;> cases h.symm.trans h'
  rfl

theorem reach_join (h : lexeme (before.head?.any Token.endsValue) c cs = .join rest) :
    reach depth before line (c :: cs) = reach depth before (line + 1) rest := by
  rw [reach]
  split <;> rename_i h' <;> cases h.symm.trans h'
  rfl

theorem reach_token (h : lexeme (before.head?.any Token.endsValue) c cs = .token t n rest)
    (hnest : t.nest depth = some depth') :
    reach depth before line (c :: cs) = reach depth' (t :: before) (line + n) rest := by
  rw [reach]
  split <;> rename_i h' <;> cases h.symm.trans h'
  rw [hnest]

theorem reach_unmatched (h : lexeme (before.head?.any Token.endsValue) c cs = .token t n rest)
    (hnest : t.nest depth = none) : reach depth before line (c :: cs) = .error .torn := by
  rw [reach]
  split <;> rename_i h' <;> cases h.symm.trans h'
  rw [hnest]

theorem reach_fault {e : LexFault}
    (h : lexeme (before.head?.any Token.endsValue) c cs = .fault n e) :
    reach depth before line (c :: cs) = .error .torn := by
  rw [reach]
  split <;> rename_i h' <;> cases h.symm.trans h'
  rfl

theorem readStatement_eq_ok_iff : readStatement depth before line cs = .ok r ↔
    reach depth before line cs = .ok r ∨
      ∃ before' line', reach depth before line cs = .error (.joined before' line') ∧
        r = ⟨before'.reverse, [], line'⟩ := by
  fun_induction readStatement depth before line cs with
  | case1 depth before line hd => simp [reach, Nat.ne_of_gt hd]
  | case2 depth before line hd =>
    obtain rfl : depth = 0 := by omega
    simp [reach, eq_comm]
  | case3 depth before line c cs hl rest he ih => rw [reach_blank he, ih]
  | case4 depth before line c cs hl rest he hd ih =>
    rw [reach_newline he, if_neg (Nat.ne_of_gt hd), ih]
  | case5 depth before line c cs hl rest he hd =>
    obtain rfl : depth = 0 := by omega
    simp [reach_newline he]
  | case6 depth before line c cs hl rest he ih => rw [reach_join he, ih]
  | case7 depth before line c cs hl t n rest he ho ih => rw [reach_token he (nest_opening ho), ih]
  | case8 depth before line c cs hl t n rest he ho hc hd ih =>
    rw [reach_token he (nest_closing ho hc hd), ih]
  | case9 depth before line c cs hl t n rest he ho hc hd =>
    simp [reach_unmatched he (nest_unmatched ho hc hd)]
  | case10 depth before line c cs hl t n rest he ho hc ih =>
    rw [reach_token he (nest_plain ho hc), ih]
  | case11 depth before line c cs hl n e he => simp [reach_fault he]

end Steps

section Statements

variable {tail cs bs : List Char} {depth line : Nat} {before : List Token} {r : Reading}

/-- What comes of a statement of the text in an excerpt. -/
inductive Followed (tail : List Char) (r : Reading) : Except Ending Reading → Prop
  | whole {rest : List Char} {line : Nat} (hrest : Excerpt tail r.rest rest)
      (hline : rest ≠ [] ∨ tail ≠ [] → line = r.line) :
      Followed tail r (.ok ⟨r.tokens.map Token.lineFeeds, rest, line⟩)
  | joined {before : List Token} {line : Nat} (h : Reads 0 before line tail r) :
      Followed tail r (.error (.joined (before.map Token.lineFeeds) line))
  | torn : Followed tail r (.error .torn)

theorem any_endsValue_map (before : List Token) :
    (before.map Token.lineFeeds).head?.any Token.endsValue =
      before.head?.any Token.endsValue := by
  cases before <;> simp

theorem nest_lineFeeds (t : Token) : t.lineFeeds.nest depth = t.nest depth := by
  simp [Token.nest]

theorem Reads.followed_of_within (h : Reads depth before line cs r) (hex : Excerpt tail cs bs)
    (hwithin : Within tail cs bs →
      Followed tail r (reach depth (before.map Token.lineFeeds) line bs)) :
    Followed tail r (reach depth (before.map Token.lineFeeds) line bs) := by
  by_cases hbs : bs = []
  · subst hbs
    obtain rfl := hex.eq_tail
    rw [reach]
    split_ifs with hdepth
    · subst hdepth
      exact .joined h
    · exact .torn
  · exact hwithin ⟨hex, hbs⟩

/-- An excerpt has the next lexeme of the statement, unless the cut goes through it. -/
theorem reach_excerpt {l : Lexeme} {c : Char} (hwithin : Within tail (c :: cs) bs)
    (h : lexeme (before.head?.any Token.endsValue) c cs = l) (hread : ∀ n e, l ≠ .fault n e) :
    (∃ b bs', bs = b :: bs' ∧ l.Excerpted tail
      (lexeme ((before.map Token.lineFeeds).head?.any Token.endsValue) b bs')) ∨
      l = .blank cs ∧ Within tail cs bs := by
  subst h
  rw [any_endsValue_map]
  exact lexeme_excerpt hwithin hread

theorem Reads.followed (h : Reads depth before line cs r) (hwithin : Within tail cs bs) :
    Followed tail r (reach depth (before.map Token.lineFeeds) line bs) := by
  induction h generalizing bs with
  | eof before line =>
    obtain ⟨hex, hbs⟩ := hwithin
    cases hex with
    | nil => exact absurd rfl hbs
    | last htail =>
      subst htail
      have hnext : lexeme ((before.map Token.lineFeeds).head?.any Token.endsValue) '\n' [] =
          .newline [] := rfl
      rw [reach_newline hnext, if_pos rfl, ← List.map_reverse]
      exact .whole .nil (by simp)
  | @ended before line c cs rest h =>
    obtain ⟨b, bs', rfl, hex⟩ := (reach_excerpt hwithin h (by simp)).resolve_right (by simp)
    generalize hnext : lexeme _ b bs' = next at hex
    cases hex with
    | newline hex =>
      rw [reach_newline hnext, if_pos rfl, ← List.map_reverse]
      exact .whole hex fun _ => rfl
  | @blank depth before line c cs rest r h hrest ih =>
    rcases reach_excerpt hwithin h (by simp) with ⟨b, bs', rfl, hex⟩ | ⟨heq, hex⟩
    · generalize hnext : lexeme _ b bs' = next at hex
      cases hex with
      | blank hex =>
        rw [reach_blank hnext]
        exact hrest.followed_of_within hex ih
    · cases heq
      exact ih hex
  | @newline depth before line c cs rest r h hdepth hrest ih =>
    obtain ⟨b, bs', rfl, hex⟩ := (reach_excerpt hwithin h (by simp)).resolve_right (by simp)
    generalize hnext : lexeme _ b bs' = next at hex
    cases hex with
    | newline hex =>
      rw [reach_newline hnext, if_neg hdepth]
      exact hrest.followed_of_within hex ih
  | @join depth before line c cs rest r h hrest ih =>
    obtain ⟨b, bs', rfl, hex⟩ := (reach_excerpt hwithin h (by simp)).resolve_right (by simp)
    generalize hnext : lexeme _ b bs' = next at hex
    cases hex with
    | join hex =>
      rw [reach_join hnext]
      exact hrest.followed_of_within hex ih
  | @token depth depth' before line c cs rest r t n h hnest hrest ih =>
    obtain ⟨b, bs', rfl, hex⟩ := (reach_excerpt hwithin h (by simp)).resolve_right (by simp)
    generalize hnext : lexeme _ b bs' = next at hex
    cases hex with
    | token t n hex =>
      rw [reach_token hnext ((nest_lineFeeds t).trans hnest)]
      exact hrest.followed_of_within hex ih
    | torn t n m cs =>
      rw [reach_fault hnext]
      exact .torn

end Statements

section Blanks

variable {c : Char} {cs l : List Char} {line : Nat}

def blankCodes : List Nat :=
  [9, 10, 11, 12, 13, 0x20, 0x85, 0xa0, 0x1680, 0x2000, 0x2001, 0x2002, 0x2003, 0x2004, 0x2005,
    0x2006, 0x2007, 0x2008, 0x2009, 0x200a, 0x2028, 0x2029, 0x202f, 0x205f, 0x3000]

theorem toNat_mem_blankCodes (h : Text.isBlank c = true) : c.toNat ∈ blankCodes := by
  simp only [Text.isBlank, Bool.or_eq_true, Bool.and_eq_true, decide_eq_true_eq, beq_iff_eq] at h
  simp only [blankCodes, List.mem_cons, List.not_mem_nil, or_false]
  omega

/-- White space is no part of a token: it is skipped or refused. -/
theorem lexeme_of_isBlank (h : Text.isBlank c = true) (hc : c ≠ '\n') (after : Bool) :
    lexeme after c cs = .blank cs ∨ ∃ n e, lexeme after c cs = .fault n e := by
  have hall : (blankCodes.all fun n => isSpace (Char.ofNat n) || Char.ofNat n == '\n' ||
      !otherStarts.contains (Char.ofNat n) && !(Char.ofNat n).isDigit && Char.ofNat n != '.' &&
      !isWordStart (Char.ofNat n) &&
      operators.all fun op => op.toList.head? != some (Char.ofNat n)) = true := by
    decide +kernel
  have hcode := List.all_eq_true.1 hall _ (toNat_mem_blankCodes h)
  rw [Char.ofNat_toNat] at hcode
  simp only [Bool.or_eq_true, Bool.and_eq_true, Bool.not_eq_true', beq_iff_eq, bne_iff_ne,
    List.contains_eq_mem, decide_eq_false_iff_not, List.all_eq_true] at hcode
  rcases hcode with (hspace | hline) | ⟨⟨⟨⟨hother, hdigit⟩, hpoint⟩, hword⟩, hops⟩
  · exact .inl (by rw [lexeme, if_neg hc, if_pos hspace])
  · exact absurd hline hc
  · have hnumber : ¬opensNumber after (c :: cs) = true := by simp [opensNumber, hdigit, hpoint]
    have hnone : (operators.find? fun op => op.toList.isPrefixOf (c :: cs)) = none := by
      rw [List.find?_eq_none]
      intro op hop hpre
      obtain ⟨rest, hrest⟩ := List.isPrefixOf_iff_prefix.1 hpre
      have hne : ∀ op ∈ operators, op.toList ≠ [] := by decide
      obtain ⟨d, ds, hd⟩ := List.exists_cons_of_ne_nil (hne op hop)
      rw [hd, List.cons_append] at hrest
      apply hops op hop
      rw [hd, (List.cons.inj hrest).1]
      rfl
    refine .inr ⟨0, .character c, ?_⟩
    rw [lexeme_of_notMem hother, if_neg hnumber, if_neg (by simp [hword]), operatorLexeme, hnone]

theorem reach_of_allBlank (h : Text.allBlank l = true) (hl : '\n' ∉ l) (rest : List Char) :
    reach 0 [] line (l ++ '\n' :: rest) = .ok ⟨[], rest, line + 1⟩ ∨
      reach 0 [] line (l ++ '\n' :: rest) = .error .torn := by
  induction l with
  | nil => exact .inl (reach_newline rfl)
  | cons c l ih =>
    rw [List.mem_cons, not_or] at hl
    simp only [Text.allBlank, List.all_cons, Bool.and_eq_true] at h
    rw [List.cons_append]
    have hnext := @lexeme_of_isBlank c (l ++ '\n' :: rest) h.1 (Ne.symm hl.1)
      (([] : List Token).head?.any Token.endsValue)
    rcases hnext with hblank | ⟨n, e, hfault⟩
    · rw [reach_blank hblank]
      exact ih h.2 hl.2
    · exact .inr (reach_fault hfault)

theorem measureIndent_line (width : Nat) (hl : '\n' ∉ l) (rest : List Char) :
    measureIndent width (l ++ '\n' :: rest) =
      ((measureIndent width l).1, (measureIndent width l).2 ++ '\n' :: rest) := by
  fun_induction measureIndent width l with
  | case1 width l ih =>
    rw [List.cons_append, measureIndent]
    exact ih fun hmem => hl (List.mem_cons_of_mem _ hmem)
  | case2 width l ih =>
    rw [List.cons_append, measureIndent]
    exact ih fun hmem => hl (List.mem_cons_of_mem _ hmem)
  | case3 width l hspace htab =>
    cases l with
    | nil => rfl
    | cons c l =>
      rw [List.cons_append, measureIndent]
      · exact fun cs heq => hspace l (by rw [(List.cons.inj heq).1])
      · exact fun cs heq => htab l (by rw [(List.cons.inj heq).1])

theorem measureIndent_suffix (width : Nat) (cs : List Char) :
    (measureIndent width cs).2 <:+ cs := by
  obtain ⟨taken, heq, -⟩ := passes_measureIndent width cs
  exact ⟨taken, heq.symm⟩

/-- A text of lines that are blank or go deeper than `width`. -/
inductive Indented (width : Nat) : List Char → Prop
  | nil : Indented width []
  | cons {l cs : List Char} (hl : '\n' ∉ l)
      (hdeep : Text.allBlank l = true ∨ width < leadingWidth l) (h : Indented width cs) :
      Indented width (l ++ '\n' :: cs)

theorem Indented.statement {width : Nat} (h : Indented width cs) (hne : cs ≠ []) (line : Nat) :
    width < (measureIndent 0 cs).1 ∨
      reach 0 [] line (measureIndent 0 cs).2 = .error .torn ∨
      ∃ rest, reach 0 [] line (measureIndent 0 cs).2 = .ok ⟨[], rest, line + 1⟩ := by
  cases h with
  | nil => exact absurd rfl hne
  | @cons l cs hl hdeep h =>
    rw [measureIndent_line 0 hl]
    rcases hdeep with hblank | hdeep
    · have hsuffix := measureIndent_suffix 0 l
      have hrest : Text.allBlank (measureIndent 0 l).2 = true := by
        rw [Text.allBlank, List.all_eq_true] at hblank ⊢
        exact fun c hc => hblank c (hsuffix.subset hc)
      rcases reach_of_allBlank hrest (fun hmem => hl (hsuffix.subset hmem)) cs with heq | heq
      · exact .inr (.inr ⟨cs, heq⟩)
      · exact .inr (.inl heq)
    · exact .inl hdeep

theorem line_end_cases {taken rest : List Char} (hl : '\n' ∉ l)
    (h : taken ++ '\n' :: rest = l ++ '\n' :: cs) :
    rest = cs ∨ ∃ taken', cs = taken' ++ '\n' :: rest := by
  rcases List.append_eq_append_iff.1 h with ⟨mid, hmid, hrest⟩ | ⟨mid, hmid, hrest⟩
  · cases mid with
    | nil => exact .inl (List.cons.inj hrest).2
    | cons c mid =>
      obtain rfl : '\n' = c := (List.cons.inj hrest).1
      exact absurd (hmid ▸ List.mem_append_right taken List.mem_cons_self) hl
  · cases mid with
    | nil => exact .inl (List.cons.inj hrest).2.symm
    | cons c mid => exact .inr ⟨mid, (List.cons.inj hrest).2⟩

theorem Indented.of_append {width : Nat} {taken rest : List Char}
    (h : Indented width (taken ++ '\n' :: rest)) : Indented width rest := by
  generalize hcs : taken ++ '\n' :: rest = cs at h
  induction h generalizing taken with
  | nil => simp at hcs
  | @cons l cs hl hdeep h ih =>
    rcases line_end_cases hl hcs with rfl | ⟨taken', htaken⟩
    · exact h
    · exact ih htaken.symm

end Blanks

section Lines

variable {tail cs bs : List Char} {line width : Nat} {r : Reading}

theorem readStatement_of_reach {depth : Nat} {before : List Token}
    (h : reach depth before line cs = .ok r) : readStatement depth before line cs = .ok r :=
  readStatement_eq_ok_iff.2 (.inl h)

def ending (line : Nat) (cs : List Char) : Ending :=
  match cs with
  | [] => .closed line
  | c :: tail =>
    match h : reach 0 [] line (measureIndent 0 (c :: tail)).2 with
    | .error e => e
    | .ok r =>
      have : r.rest.length < (c :: tail).length :=
        rest_length_lt (List.cons_ne_nil c tail) (readStatement_of_reach h)
      ending r.line r.rest
termination_by cs.length
decreasing_by exact this

theorem ending_of_ok (hne : cs ≠ []) (h : reach 0 [] line (measureIndent 0 cs).2 = .ok r) :
    ending line cs = ending r.line r.rest := by
  obtain ⟨c, tail, rfl⟩ := List.exists_cons_of_ne_nil hne
  rw [ending]
  split <;> rename_i h' <;> cases h.symm.trans h'
  rfl

theorem ending_of_error {e : Ending} (hne : cs ≠ [])
    (h : reach 0 [] line (measureIndent 0 cs).2 = .error e) : ending line cs = e := by
  obtain ⟨c, tail, rfl⟩ := List.exists_cons_of_ne_nil hne
  rw [ending]
  split <;> rename_i h' <;> cases h.symm.trans h'
  rfl

/-- What comes of the statements of a text in an excerpt whose lines go deeper than `width`: where
reading leaves off, and what is read. -/
inductive Cut (tail : List Char) (width : Nat) :
    List LogicalLine → Ending → Except LexError (List LogicalLine) → Prop
  | closed {js ks : List LogicalLine} {line : Nat} (hdeep : ∀ l ∈ js, width < l.indent)
      (hks : linesFrom line tail = .ok ks) :
      Cut tail width (js ++ ks) (.closed line) (.ok (js.map LogicalLine.lineFeeds))
  | joined {js ks : List LogicalLine} {before new : List Token} {rest : List Char}
      {line line' indent start : Nat} (hdeep : ∀ l ∈ js, width < l.indent)
      (hindent : width < indent)
      (hread : readStatement 0 (before.map Token.lineFeeds) line tail =
        .ok ⟨(before.map Token.lineFeeds).reverse ++ new, rest, line'⟩)
      (hks : linesFrom line' rest = .ok ks) :
      Cut tail width (js ++ ((statement? indent start (before.reverse ++ new)).toList ++ ks))
        (.joined (before.map Token.lineFeeds) line)
        (.ok (js.map LogicalLine.lineFeeds ++
          (statement? indent start (before.map Token.lineFeeds).reverse).toList))
  | torn {ls : List LogicalLine} (e : LexError) : Cut tail width ls .torn (.error e)

theorem statement?_map (indent start : Nat) (tokens : List Token) :
    statement? indent start (tokens.map Token.lineFeeds) =
      (statement? indent start tokens).map LogicalLine.lineFeeds := by
  unfold statement?
  rw [List.all_map]
  simp only [Function.comp_def, Token.kind_lineFeeds]
  split_ifs <;> rfl

theorem statement?_eq_some {indent start : Nat} {tokens : List Token} {l : LogicalLine}
    (h : statement? indent start tokens = some l) :
    l = ⟨indent, lineNumber start, tokens⟩ ∧ ¬∀ t ∈ tokens, t.kind = .str := by
  unfold statement? at h
  split_ifs at h with hstr
  cases h
  exact ⟨rfl, by simpa using hstr⟩

variable {ls : List LogicalLine}

theorem Cut.append {e : Ending} {x : Except LexError (List LogicalLine)} {s : Option LogicalLine}
    (h : Cut tail width ls e x) (hs : ∀ l ∈ s, width < l.indent) :
    Cut tail width (s.toList ++ ls) e (x.map ((s.map LogicalLine.lineFeeds).toList ++ ·)) := by
  have hcons : ∀ js : List LogicalLine, (∀ l ∈ js, width < l.indent) →
      ∀ l ∈ s.toList ++ js, width < l.indent := by
    intro js hjs l hl
    rcases List.mem_append.1 hl with hl | hl
    · exact hs l (Option.mem_toList.1 hl)
    · exact hjs l hl
  have hmap : ∀ js : List LogicalLine, (s.map LogicalLine.lineFeeds).toList ++
      js.map LogicalLine.lineFeeds = (s.toList ++ js).map LogicalLine.lineFeeds := by
    intro js
    cases s <;> rfl
  cases h with
  | @closed js ks line hdeep hks =>
    show Cut tail width _ _ (.ok (_ ++ js.map LogicalLine.lineFeeds))
    rw [hmap, ← List.append_assoc]
    exact .closed (hcons js hdeep) hks
  | @joined js ks before new rest line line' indent start hdeep hindent hread hks =>
    show Cut tail width _ _ (.ok (_ ++ (js.map LogicalLine.lineFeeds ++ _)))
    rw [← List.append_assoc s.toList js, ← List.append_assoc (s.map LogicalLine.lineFeeds).toList,
      hmap]
    exact .joined (hcons js hdeep) hindent hread hks
  | torn e => exact .torn e

theorem cut_nil (h : linesFrom line tail = .ok ls) : Cut tail width ls (.closed line) (.ok []) := by
  have hnone : ∀ l ∈ ([] : List LogicalLine), width < l.indent := by simp
  exact .closed hnone h

theorem Indented.rest (h : Indented width cs)
    (hread : readStatement 0 [] line (measureIndent 0 cs).2 = .ok r) : Indented width r.rest := by
  rcases (reads_of_readStatement hread).line_end with hrest | ⟨taken, hrest, -⟩
  · rw [hrest]
    exact .nil
  · rw [hrest] at h
    exact h.of_append

theorem cut_behind {rest : List Char} {line' : Nat} (hls : linesFrom r.line r.rest = .ok ls)
    (hrest : Excerpt tail r.rest rest) (hline : rest ≠ [] ∨ tail ≠ [] → line' = r.line)
    (hcut : Cut tail width ls (ending r.line rest) (linesFrom r.line rest)) :
    Cut tail width ls (ending line' rest) (linesFrom line' rest) := by
  by_cases htext : rest ≠ [] ∨ tail ≠ []
  · rw [hline htext]
    exact hcut
  · rw [not_or, not_not, not_not] at htext
    obtain ⟨rfl, rfl⟩ := htext
    rw [hrest.eq_tail, linesFrom_nil] at hls
    cases hls
    rw [ending, linesFrom_nil]
    exact cut_nil (linesFrom_nil line')

/-- An excerpt has the statements of the text up to the place where reading leaves off. -/
theorem cut_of_linesFrom (h : linesFrom line cs = .ok ls) (hex : Excerpt tail cs bs)
    (hdeep : Indented width bs) : Cut tail width ls (ending line bs) (linesFrom line bs) := by
  -- On the excerpt: the end of the text may stand for a last line of the excerpt, and takes nothing.
  induction hn : bs.length using Nat.strong_induction_on generalizing cs bs line ls with
  | h n ih =>
    by_cases hbs : bs = []
    · subst hbs
      obtain rfl := hex.eq_tail
      rw [ending, linesFrom_nil]
      exact cut_nil h
    · obtain ⟨r, ls', hread, hls', rfl⟩ := linesFrom_eq_ok h
      obtain ⟨hindent, hwithin⟩ := measureIndent_abreast (abreast_within _) 0 ⟨hex, hbs⟩
      have hfollowed := (reads_of_readStatement hread).followed hwithin
      have hstatement := hdeep.statement hbs line
      generalize hreach : reach 0 _ line (measureIndent 0 bs).2 = x at hfollowed
      cases hfollowed with
      | @whole rest line' hrest hline =>
        have hblock := readStatement_of_reach hreach
        have hwidth : ∀ l ∈ statement? (measureIndent 0 cs).1 line r.tokens, width < l.indent := by
          intro l hl
          obtain ⟨rfl, hstr⟩ := statement?_eq_some hl
          rcases hstatement with hwidth | heq | ⟨rest', heq⟩
          · exact hindent ▸ hwidth
          · cases hreach.symm.trans heq
          · have hempty : r.tokens.map Token.lineFeeds = [] :=
              congrArg Reading.tokens (Except.ok.inj (hreach.symm.trans heq))
            simp [List.map_eq_nil_iff.1 hempty] at hstr
        have hbehind := ih _ (hn ▸ rest_length_lt hbs hblock) hls' hrest (hdeep.rest hblock) rfl
        rw [ending_of_ok hbs hreach, linesFrom_eq hbs hblock, hindent, statement?_map]
        exact (cut_behind hls' hrest hline hbehind).append hwidth
      | @joined before line' hjoin =>
        obtain ⟨new, htokens, hresume⟩ := hjoin.resume
        have hblock : readStatement 0 [] line (measureIndent 0 bs).2 =
            .ok ⟨(before.map Token.lineFeeds).reverse, [], line'⟩ :=
          readStatement_eq_ok_iff.2 (.inr ⟨_, _, hreach, rfl⟩)
        have hwidth : width < (measureIndent 0 cs).1 := by
          rcases hstatement with hwidth | heq | ⟨rest', heq⟩
          · exact hindent ▸ hwidth
          · cases hreach.symm.trans heq
          · cases hreach.symm.trans heq
        have hnone : ∀ l ∈ ([] : List LogicalLine), width < l.indent := by simp
        rw [ending_of_error hbs hreach, linesFrom_eq hbs hblock, linesFrom_nil, htokens, hindent]
        show Cut tail width _ _ (.ok (_ ++ []))
        rw [List.append_nil]
        exact Cut.joined hnone hwidth (hresume _ (any_endsValue_map before)) hls'
      | torn =>
        cases hblock : readStatement 0 [] line (measureIndent 0 bs).2 with
        | error e =>
          rw [ending_of_error hbs hreach, linesFrom_of_error hbs hblock]
          exact .torn e
        | ok r' =>
          rcases readStatement_eq_ok_iff.1 hblock with heq | ⟨before, line', heq, -⟩ <;>
            cases hreach.symm.trans heq

end Lines

end Script

end ProcessModel
