import ProcessModel.Proofs.LineCounts

/-! The numbers of lines.

A text is cut into statements, each up to the line end that ends it. The number recorded for a
statement is that of the first line plus the line ends of the statements before it, as a word of 64
bits. -/

namespace ProcessModel

/-! ### Moving the first line -/

def LogicalLine.shift (k : Nat) (l : LogicalLine) : LogicalLine :=
  ⟨l.indent, Script.lineNumber (l.line + k), l.tokens⟩

namespace Script

theorem lineNumber_add (a k : Nat) : lineNumber (lineNumber a + k) = lineNumber (a + k) := by
  unfold lineNumber
  rw [Nat.mod_add_mod]

theorem lineNumber_of_lt {a : Nat} (h : a < Nat.pow 2 64) : lineNumber a = a := Nat.mod_eq_of_lt h

def LexError.shift (k : Nat) (e : LexError) : LexError := ⟨lineNumber (e.line + k), e.cause⟩

def Reading.shift (k : Nat) (r : Reading) : Reading := ⟨r.tokens, r.rest, r.line + k⟩

def Docstring.shift (k : Nat) (d : Docstring) : Docstring :=
  ⟨lineNumber (d.line + k), d.position, d.text⟩

def Block.shift (k : Nat) (b : Block) : Block :=
  ⟨b.lines.map (LogicalLine.shift k), b.docs.map (Docstring.shift k)⟩

def Item.shift (k : Nat) : Item → Item
  | .line l => .line (l.shift k)
  | .doc n text => .doc (lineNumber (n + k)) text

def Item.number : Item → Nat
  | .line l => l.line
  | .doc n _ => n

def shifted {α : Type} (f : α → α) (k : Nat) (x : Except LexError α) : Except LexError α :=
  (x.map f).mapError (LexError.shift k)

section Shift

variable {depth line : Nat} {before : List Token} {cs : List Char} {e : LexError}

theorem readStatement_shift (depth : Nat) (before : List Token) (line k : Nat) (cs : List Char) :
    readStatement depth before (line + k) cs =
      shifted (Reading.shift k) k (readStatement depth before line cs) := by
  fun_induction readStatement depth before line cs with
  | case1 depth before line hd =>
    rw [readStatement, if_pos hd]
    simp [shifted, Except.map, Except.mapError, LexError.shift, lineNumber_add]
  | case2 depth before line hd =>
    rw [readStatement, if_neg hd]
    rfl
  | case3 depth before line c cs hl rest he ih => rw [readStatement_blank he, ih]
  | case4 depth before line c cs hl rest he hd ih =>
    rw [readStatement_inside he (Nat.ne_of_gt hd), ← ih, Nat.add_right_comm]
  | case5 depth before line c cs hl rest he hd =>
    obtain rfl : depth = 0 := by omega
    rw [readStatement_newline he, Nat.add_right_comm]
    rfl
  | case6 depth before line c cs hl rest he ih =>
    rw [readStatement_join he, ← ih, Nat.add_right_comm]
  | case7 depth before line c cs hl t n rest he ho ih =>
    rw [readStatement_token he (nest_opening ho), ← ih, Nat.add_right_comm]
  | case8 depth before line c cs hl t n rest he ho hc hd ih =>
    rw [readStatement_token he (nest_closing ho hc hd), ← ih, Nat.add_right_comm]
  | case9 depth before line c cs hl t n rest he ho hc hd =>
    rw [readStatement]
    split <;> rename_i h' <;> cases he.symm.trans h'
    rw [if_neg ho, if_pos hc, if_neg hd]
    simp [shifted, Except.map, Except.mapError, LexError.shift, lineNumber_add]
  | case10 depth before line c cs hl t n rest he ho hc ih =>
    rw [readStatement_token he (nest_plain ho hc), ← ih, Nat.add_right_comm]
  | case11 depth before line c cs hl n cause he =>
    rw [readStatement]
    split <;> rename_i h' <;> cases he.symm.trans h'
    simp [shifted, Except.map, Except.mapError, LexError.shift, lineNumber_add, Nat.add_right_comm]

theorem items_of_error (hne : cs ≠ [])
    (h : readStatement 0 [] line (measureIndent 0 cs).2 = .error e) : items line cs = .error e := by
  obtain ⟨c, tail, rfl⟩ := List.exists_cons_of_ne_nil hne
  rw [items]
  split <;> rename_i h' <;> cases h.symm.trans h'
  rfl

theorem ofTokens_shift (indent line k : Nat) (tokens : List Token) :
    Item.ofTokens indent (line + k) tokens =
      (Item.ofTokens indent line tokens).map (Item.shift k) := by
  unfold Item.ofTokens
  split_ifs
  · rfl
  · simp [Item.shift, lineNumber_add]
  · simp [Item.shift, LogicalLine.shift, lineNumber_add]

theorem items_shift (line k : Nat) (cs : List Char) :
    items (line + k) cs = shifted (List.map (Item.shift k)) k (items line cs) := by
  induction hn : cs.length using Nat.strong_induction_on generalizing cs line with
  | h n ih =>
    by_cases hne : cs = []
    · subst hne
      rw [items, items]
      rfl
    have hshift := readStatement_shift 0 [] line k (measureIndent 0 cs).2
    cases hread : readStatement 0 [] line (measureIndent 0 cs).2 with
    | error e =>
      rw [hread] at hshift
      rw [items_of_error hne hread, items_of_error hne hshift]
      rfl
    | ok r =>
      rw [hread] at hshift
      have hrest := ih _ (hn ▸ rest_length_lt hne hread) r.line r.rest rfl
      rw [items_eq hne hread, items_eq hne hshift, Reading.shift, hrest, ofTokens_shift]
      cases items r.line r.rest with
      | error e => rfl
      | ok is => simp [shifted, Except.map, Except.mapError, Option.toList_map]

theorem docsFrom_shift (position k : Nat) (is : List Item) :
    docsFrom position (is.map (Item.shift k)) = (docsFrom position is).map (Docstring.shift k) := by
  induction is generalizing position with
  | nil => rfl
  | cons i is ih =>
    cases i with
    | line l => exact ih _
    | doc n text => exact congrArg (_ :: ·) (ih _)

theorem ofItems_shift (k : Nat) (is : List Item) :
    Block.ofItems (is.map (Item.shift k)) = (Block.ofItems is).shift k := by
  have hlines : (Block.ofItems (is.map (Item.shift k))).lines =
      (Block.ofItems is).lines.map (LogicalLine.shift k) := by
    unfold Block.ofItems
    rw [List.filterMap_map, List.map_filterMap]
    refine List.filterMap_congr fun i _ => ?_
    cases i <;> rfl
  have hdocs : (Block.ofItems (is.map (Item.shift k))).docs =
      (Block.ofItems is).docs.map (Docstring.shift k) := docsFrom_shift 0 k is
  rw [Block.shift, ← hlines, ← hdocs]

theorem tokenize_shift (text : String) (n k : Nat) :
    tokenize text (n + k) = shifted (Block.shift k) k (tokenize text n) := by
  unfold tokenize
  rw [items_shift]
  cases items n text.toList with
  | error e => rfl
  | ok is => exact congrArg Except.ok (ofItems_shift k is)

end Shift

/-! ### Statements and their lines -/

/-- A statement with the lines it is written on. -/
structure Statement where
  text : List Char
  tokens : List Token

def Statement.item? (s : Statement) (line : Nat) : Option Item :=
  Item.ofTokens (measureIndent 0 s.text).1 line s.tokens

/-- The statements of a text, one behind the other: each takes what is read up to its end. -/
inductive Statements : List Char → List Statement → Prop
  | none : Statements [] []
  | next {s : Statement} {rest : List Char} {ss : List Statement} {line : Nat} (hne : s.text ≠ [])
      (hread : readStatement 0 [] 0 (measureIndent 0 (s.text ++ rest)).2 =
        .ok ⟨s.tokens, rest, line⟩)
      (hrest : Statements rest ss) : Statements (s.text ++ rest) (s :: ss)

def written (ss : List Statement) : List Char := ss.flatMap (·.text)

/-- The items of statements, each numbered with the line it starts on: that of the first one plus
the line ends in those before. -/
def numbered (line : Nat) : List Statement → List Item
  | [] => []
  | s :: ss => (s.item? line).toList ++ numbered (line + newlinesIn s.text) ss

/-- Whether the first line of a text has more than white space and a comment on it. -/
def Begins (cs : List Char) : Prop :=
  ∃ c, (cs.dropWhile isSpace).head? = some c ∧ c ≠ '\n' ∧ c ≠ '#'

section Lines

variable {depth line : Nat} {before : List Token} {cs rest : List Char} {r : Reading}

theorem readStatement_at_zero (h : readStatement 0 [] line cs = .ok r) :
    ∃ n, readStatement 0 [] 0 cs = .ok ⟨r.tokens, r.rest, n⟩ := by
  have hshift := readStatement_shift 0 [] 0 line cs
  rw [Nat.zero_add, h] at hshift
  obtain ⟨r₀, hr₀, rfl⟩ := map_eq_ok (mapError_eq_ok hshift.symm)
  exact ⟨r₀.line, hr₀⟩

theorem exists_statements {is : List Item} (h : items line cs = .ok is) :
    ∃ ss, Statements cs ss := by
  induction hn : cs.length using Nat.strong_induction_on generalizing cs line is with
  | h n ih =>
    by_cases hne : cs = []
    · exact ⟨[], hne ▸ .none⟩
    cases hread : readStatement 0 [] line (measureIndent 0 cs).2 with
    | error e => cases (items_of_error hne hread).symm.trans h
    | ok r =>
      rw [items_eq hne hread] at h
      obtain ⟨is', his', -⟩ := map_eq_ok h
      have hlt := rest_length_lt hne hread
      obtain ⟨ss, hss⟩ := ih _ (hn ▸ hlt) his' rfl
      obtain ⟨text, hcs, -⟩ := (reads_of_readStatement hread).counted_line
      obtain ⟨line₀, hzero⟩ := readStatement_at_zero hread
      have hnonempty : text ≠ [] := by
        rintro rfl
        rw [hcs] at hlt
        exact Nat.lt_irrefl _ hlt
      rw [hcs] at hzero ⊢
      exact ⟨_, .next (s := ⟨text, r.tokens⟩) hnonempty hzero hss⟩

variable {text : List Char}

theorem measureIndent_closed (h : Closed text rest) (width : Nat) :
    (measureIndent width (text ++ rest)).1 = (measureIndent width text).1 := by
  rcases h with rfl | ⟨body, rfl⟩
  · rw [List.append_nil]
  rw [List.append_assoc, List.singleton_append]
  induction body generalizing width with
  | nil => rfl
  | cons c body ih =>
    by_cases hblank : c = ' '
    · subst hblank
      exact ih _
    by_cases htab : c = '\t'
    · subst htab
      exact ih _
    · rw [List.cons_append, List.cons_append, measureIndent, measureIndent] <;> simp [hblank, htab]

/-- What follows the statement `s` and how it ends. -/
structure Statement.Followed (s : Statement) (rest : List Char) : Prop where
  closed : Closed s.text rest
  read : ∀ line, readStatement 0 [] line (measureIndent 0 (s.text ++ rest)).2 =
    .ok ⟨s.tokens, rest, line + newlinesIn s.text⟩

variable {s : Statement}

theorem followed_of_read {n : Nat}
    (h : readStatement 0 [] 0 (measureIndent 0 (s.text ++ rest)).2 = .ok ⟨s.tokens, rest, n⟩) :
    s.Followed rest := by
  obtain ⟨text, htext, hline, hclosed⟩ := (reads_of_readStatement h).counted_line
  obtain rfl : s.text = text := List.append_cancel_right htext
  refine ⟨hclosed, fun line => ?_⟩
  have hshift := readStatement_shift 0 [] 0 line (measureIndent 0 (s.text ++ rest)).2
  rw [Nat.zero_add, h] at hshift
  rw [hshift, Nat.add_comm line]
  simp only [Nat.zero_add] at hline
  rw [← hline]
  rfl

variable {ss : List Statement}

theorem items_of_statements (h : Statements cs ss) (line : Nat) :
    items line cs = .ok (numbered line ss) := by
  induction h generalizing line with
  | none =>
    rw [items]
    rfl
  | next hne hread hrest ih =>
    have hfollowed := followed_of_read hread
    have hitems := items_eq (by simp [hne]) (hfollowed.read line)
    rw [hitems, ih, numbered, Statement.item?, measureIndent_closed hfollowed.closed]
    rfl

theorem statements_written (h : Statements cs ss) : written ss = cs := by
  induction h with
  | none => rfl
  | next hne hread hrest ih => rw [written, List.flatMap_cons, ← written, ih]

theorem Statements.eq_nil (h : Statements cs ss) (hcs : cs = []) : ss = [] := by
  cases h with
  | none => rfl
  | next hne hread hrest => exact absurd (List.append_eq_nil_iff.1 hcs).1 hne

/-! ### Where a statement begins -/

theorem lexeme_of_isSpace {c : Char} (h : isSpace c = true) (after : Bool) (cs : List Char) :
    lexeme after c cs = .blank cs := by
  have hc : c ≠ '\n' := by
    rintro rfl
    exact absurd h (by decide)
  rw [lexeme, if_neg hc, if_pos h]

theorem readStatement_dropWhile (line : Nat) (cs : List Char) :
    readStatement 0 [] line (cs.dropWhile isSpace) = readStatement 0 [] line cs := by
  induction cs with
  | nil => rfl
  | cons c cs ih =>
    cases hc : isSpace c with
    | true => rw [List.dropWhile_cons_of_pos hc, ih, readStatement_blank (lexeme_of_isSpace hc _ _)]
    | false => rw [List.dropWhile_cons_of_neg (by simp [hc])]

theorem dropWhile_measureIndent (width : Nat) (cs : List Char) :
    (measureIndent width cs).2.dropWhile isSpace = cs.dropWhile isSpace := by
  fun_induction measureIndent width cs with
  | case1 width cs ih => rw [ih, List.dropWhile_cons_of_pos (by decide)]
  | case2 width cs ih => rw [ih, List.dropWhile_cons_of_pos (by decide)]
  | case3 width cs => rfl

theorem tokens_of_newline (hhead : ∀ c, cs.head? = some c → c = '\n')
    (h : readStatement 0 [] line cs = .ok r) : r.tokens = [] := by
  cases cs with
  | nil =>
    rw [readStatement, if_neg (Nat.lt_irrefl 0)] at h
    cases h
    rfl
  | cons c cs =>
    obtain rfl := hhead c rfl
    have hend : readStatement 0 [] line ('\n' :: cs) = .ok ⟨[], cs, line + 1⟩ :=
      readStatement_newline rfl
    rw [hend] at h
    cases h
    rfl

theorem begins_of_tokens (h : readStatement 0 [] line (measureIndent 0 cs).2 = .ok r)
    (hne : r.tokens ≠ []) : Begins cs := by
  rw [← readStatement_dropWhile, dropWhile_measureIndent] at h
  unfold Begins
  cases hcs : cs.dropWhile isSpace with
  | nil => exact absurd (tokens_of_newline (by simp [hcs]) h) hne
  | cons c ds =>
    refine ⟨c, rfl, ?_, ?_⟩
    · rintro rfl
      exact hne (tokens_of_newline (by simp [hcs]) h)
    · rintro rfl
      have hcomment : lexeme (([] : List Token).head?.any Token.endsValue) '#' ds =
          .blank (ds.dropWhile (· != '\n')) := rfl
      rw [hcs, readStatement_blank hcomment] at h
      refine hne (tokens_of_newline (fun c hc => ?_) h)
      have hnot := List.head?_dropWhile_not (· != '\n') ds
      rw [hc] at hnot
      simpa using hnot

theorem Begins.of_closed (h : Begins (text ++ rest)) (hclosed : Closed text rest) :
    Begins text := by
  rcases hclosed with rfl | ⟨body, rfl⟩
  · rwa [List.append_nil] at h
  obtain ⟨c, hc, hline⟩ := h
  refine ⟨c, ?_, hline⟩
  have hstop : ((body ++ ['\n']).dropWhile isSpace) ≠ [] := by
    intro hnil
    have hall := List.dropWhile_eq_nil_iff.1 hnil '\n' (by simp)
    exact absurd hall (by decide)
  rw [List.dropWhile_append, if_neg (by simpa using hstop),
    List.head?_append_of_ne_nil _ hstop] at hc
  exact hc

theorem Statements.followed {before after : List Statement}
    (h : Statements cs (before ++ s :: after)) : s.Followed (written after) := by
  induction before generalizing cs with
  | nil =>
    cases h with
    | next hne hread hrest => exact statements_written hrest ▸ followed_of_read hread
  | cons _ before ih =>
    cases h with
    | next hne hread hrest => exact ih hrest

theorem Statement.Followed.begins (h : s.Followed rest) (hne : s.tokens ≠ []) : Begins s.text :=
  (begins_of_tokens (h.read 0) hne).of_closed h.closed

/-! ### The order of the numbers -/

theorem numbered_append (line : Nat) (before after : List Statement) :
    numbered line (before ++ after) =
      numbered line before ++ numbered (line + newlinesIn (written before)) after := by
  induction before generalizing line with
  | nil => rfl
  | cons s before ih =>
    have hcount : newlinesIn (written (s :: before)) =
        newlinesIn s.text + newlinesIn (written before) := List.count_append
    rw [List.cons_append, numbered, numbered, ih, List.append_assoc, hcount, Nat.add_assoc]

theorem number_of_item? {i : Item} (h : s.item? line = some i) : i.number = lineNumber line := by
  unfold Statement.item? Item.ofTokens at h
  split_ifs at h <;> cases h <;> rfl

theorem number_of_mem {i : Item} (h : i ∈ numbered line ss) :
    ∃ k, i.number = lineNumber k ∧ line ≤ k ∧ k ≤ line + newlinesIn (written ss) := by
  induction ss generalizing line with
  | nil => cases h
  | cons s ss ih =>
    have hcount : newlinesIn (written (s :: ss)) = newlinesIn s.text + newlinesIn (written ss) :=
      List.count_append
    rcases List.mem_append.1 h with hhere | hrest
    · exact ⟨line, number_of_item? (Option.mem_toList.1 hhere), Nat.le_refl _, Nat.le_add_right _ _⟩
    · obtain ⟨k, hk, hle, hbound⟩ := ih hrest
      exact ⟨k, hk, by omega, by omega⟩

theorem newlinesIn_of_closed (h : Closed text rest) (hne : rest ≠ []) : 0 < newlinesIn text := by
  obtain ⟨body, rfl⟩ := h.resolve_left hne
  exact List.count_pos_iff.2 (by simp)

/-- As long as they are words, the numbers increase from statement to statement. -/
theorem numbers_increase (h : Statements cs ss) (hbound : line + newlinesIn cs < Nat.pow 2 64) :
    ((numbered line ss).map Item.number).Pairwise (· < ·) := by
  induction h generalizing line with
  | none => exact .nil
  | @next s rest ss n hne hread hrest ih =>
    have hclosed := (followed_of_read hread).closed
    have hcount : newlinesIn (s.text ++ rest) = newlinesIn s.text + newlinesIn rest :=
      List.count_append
    have hwritten := statements_written hrest
    rw [numbered, List.map_append, List.pairwise_append]
    refine ⟨?_, ih (by omega), ?_⟩
    · cases s.item? line <;> simp
    · intro a ha b hb
      obtain ⟨i, hi, rfl⟩ := List.mem_map.1 ha
      obtain ⟨j, hj, rfl⟩ := List.mem_map.1 hb
      obtain ⟨k, hk, hle, hlast⟩ := number_of_mem hj
      have hrest_ne : rest ≠ [] := by
        intro hnil
        rw [hrest.eq_nil hnil] at hj
        cases hj
      have hpos := newlinesIn_of_closed hclosed hrest_ne
      rw [hwritten] at hlast
      rw [number_of_item? (Option.mem_toList.1 hi), hk, lineNumber_of_lt (by omega),
        lineNumber_of_lt (by omega)]
      omega

end Lines

/-- Reading a text cuts it into statements, and records for each that has tokens, be it a logical line
or documentation, the number of the line it begins on: that of the first line plus the line ends in the
text before the statement, which is made of whole lines. The number is a word of 64 bits; as long as no
line of the text has a greater one, the numbers recorded are these sums and increase from item to item.
A text that stands `k` lines further down is read alike, with numbers, that of a fault included, that
are greater by `k`, as words. -/
theorem tokenize_numbers_lines (text : String) (n : Nat) :
    (∀ b, tokenize text n = .ok b → ∃ ss, Statements text.toList ss ∧
      b = Block.ofItems (numbered n ss) ∧
      (∀ before s after, ss = before ++ s :: after →
        numbered n ss = numbered n before ++ (s.item? (n + newlinesIn (written before))).toList ++
          numbered (n + newlinesIn (written (before ++ [s]))) after ∧
        (∀ i, s.item? (n + newlinesIn (written before)) = some i →
          i.number = (n + newlinesIn (written before)) % Nat.pow 2 64) ∧
        Closed s.text (written after) ∧ (s.tokens ≠ [] → Begins s.text)) ∧
      (n + newlinesIn text.toList < Nat.pow 2 64 →
        ((numbered n ss).map Item.number).Pairwise (· < ·) ∧
        ∀ before s after i, ss = before ++ s :: after →
          s.item? (n + newlinesIn (written before)) = some i →
            i.number = n + newlinesIn (written before))) ∧
    ∀ k, tokenize text (n + k) = shifted (Block.shift k) k (tokenize text n) := by
  refine ⟨fun b hb => ?_, tokenize_shift text n⟩
  obtain ⟨is, his, rfl⟩ := map_eq_ok hb
  obtain ⟨ss, hss⟩ := exists_statements his
  cases his.symm.trans (items_of_statements hss n)
  refine ⟨ss, hss, rfl, ?_, fun hbound => ⟨numbers_increase hss hbound, ?_⟩⟩
  · rintro before s after rfl
    refine ⟨?_, fun i => number_of_item?, hss.followed.closed, hss.followed.begins⟩
    rw [List.append_cons, numbered_append, numbered_append]
    simp [numbered]
  · rintro before s after i rfl hi
    have hcount : newlinesIn (written (before ++ s :: after)) =
        newlinesIn (written before) + newlinesIn (written (s :: after)) := by
      rw [written, List.flatMap_append]
      exact List.count_append
    rw [statements_written hss] at hcount
    rw [number_of_item? hi, lineNumber_of_lt (by omega)]

def foldedText : String :=
  "\x27\x27\x27gauge\nof\x27\x27\x27\n# note\n\\\nx = (1,\n2)\ny = \x27a\\\nb\x27\n"

/-- Read from line 5 on, the documentation starts on line 5, the statements on lines 8 and 11. -/
theorem folded_numbers :
    ∃ b, tokenize foldedText 5 = .ok b ∧ b.docs.map (·.line) = [5] ∧
      b.lines.map (·.line) = [8, 11] ∧
      5 + newlinesIn foldedText.toList < Nat.pow 2 64 ∧
      ∃ ss, Statements foldedText.toList ss ∧ b = Block.ofItems (numbered 5 ss) ∧
        ((numbered 5 ss).map Item.number).Pairwise (· < ·) := by
  have hrun : ((tokenize foldedText 5).toOption.any fun b =>
      b.docs.map (·.line) = [5] ∧ b.lines.map (·.line) = [8, 11]) := by
    decide +kernel
  obtain ⟨b, hb, hlines⟩ := exists_ok_of_any hrun
  have hbound : 5 + newlinesIn foldedText.toList < Nat.pow 2 64 := by decide +kernel
  obtain ⟨hread, -⟩ := tokenize_numbers_lines foldedText 5
  obtain ⟨ss, hss, hblock, -, hincrease⟩ := hread b hb
  have hlines := of_decide_eq_true hlines
  exact ⟨b, hb, hlines.1, hlines.2, hbound, ss, hss, hblock, (hincrease hbound).1⟩

/-- Behind the greatest word the numbers start again, so that the second of two lines has the lesser
number. -/
theorem numbers_wrap :
    ∃ b, tokenize "a\nb\n" (Nat.pow 2 64 - 1) = .ok b ∧
      b.lines.map (·.line) = [Nat.pow 2 64 - 1, 0] ∧
      ¬(b.lines.map (·.line)).Pairwise (· < ·) := by
  have hrun : ((tokenize "a\nb\n" (Nat.pow 2 64 - 1)).toOption.any fun b =>
      b.lines.map (·.line) = [Nat.pow 2 64 - 1, 0]) := by
    decide +kernel
  obtain ⟨b, hb, hlines⟩ := exists_ok_of_any hrun
  have hlines := of_decide_eq_true hlines
  refine ⟨b, hb, hlines, ?_⟩
  rw [hlines]
  decide +kernel

end Script

end ProcessModel
