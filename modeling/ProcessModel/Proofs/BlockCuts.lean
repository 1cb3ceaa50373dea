import ProcessModel.Proofs.Cuts

/-! The block of a method, cut out of its source.

A block is cut on physical lines: it ends before the first line that is neither blank nor deeper
than the header. Comments, documentation and the further lines of a statement may stand there, so
the cut may lie before the end of the method. -/

namespace ProcessModel

def Text.withEnds (ls : List (List Char)) : List Char := ls.flatMap (· ++ ['\n'])

namespace Script

/-- Where reading goes on behind the cut: at line `line`, with `rest`. A statement that the cut goes
through gets no more tokens, unless it is documentation. -/
inductive Ending.Resumes (tail : List Char) : Ending → Nat → List Char → Prop
  | closed (line : Nat) : Resumes tail (.closed line) line tail
  | joined {before : List Token} {line : Nat} {r : Reading}
      (h : readStatement 0 before line tail = .ok r)
      (hsame : r.tokens = before.reverse ∨ ∀ t ∈ r.tokens, t.kind = .str) :
      Resumes tail (.joined before line) r.line r.rest

/-- Whether the first statement behind the cut is none that goes deeper than `width`. -/
def Ending.Settles (tail : List Char) (width : Nat) (e : Ending) : Prop :=
  ∃ line rest below, e.Resumes tail line rest ∧ tokenize (String.ofList rest) line = .ok below ∧
    ∀ l ∈ below.lines.head?, l.indent ≤ width

def behind (text : String) (n : Nat) (block : String) : List Char :=
  Text.afterLines (n - 1 + newlinesIn block.toList) text.toList

end Script

section Lines

theorem Text.withEnds_cons (l : List Char) (ls : List (List Char)) :
    withEnds (l :: ls) = l ++ '\n' :: withEnds ls := by
  simp [withEnds]

theorem Text.unlines_append (l : List Char) (ls : List (List Char)) :
    unlines (l :: ls) ++ ['\n'] = withEnds (l :: ls) := by
  induction ls generalizing l with
  | nil => simp [unlines, withEnds]
  | cons l' ls ih =>
    rw [withEnds_cons, ← ih l']
    simp [unlines, List.intercalate]

theorem Text.newline_notMem_lines (cs : List Char) : ∀ l ∈ lines cs, '\n' ∉ l := by
  fun_induction lines cs with
  | case1 => simp
  | case2 cs ih => simpa using ih
  | case3 cs ih => simpa using ih
  | case4 c cs hnewline hreturn ih =>
    have hc : '\n' ≠ c := fun h => hnewline h.symm
    cases hlines : lines cs with
    | nil => simpa [consFirst] using hc
    | cons l ls =>
      rw [hlines] at ih
      simpa [consFirst, hc] using ih

theorem Text.lines_afterLines (k : Nat) (cs : List Char) :
    lines (afterLines k cs) = (lines cs).drop k := by
  fun_induction lines cs generalizing k with
  | case1 => simp [lines]
  | case2 cs ih =>
    cases k with
    | zero => rw [afterLines, lines]; rfl
    | succ k => rw [afterLines, ih, List.drop_succ_cons]
  | case3 cs ih =>
    cases k with
    | zero => rw [afterLines, lines]; rfl
    | succ k => rw [afterLines_cons (by decide), afterLines, ih, List.drop_succ_cons]
  | case4 c cs hnewline hreturn ih =>
    cases k with
    | zero =>
      rw [afterLines, lines]
      · rfl
      · exact hnewline
      · exact hreturn
    | succ k =>
      rw [afterLines_cons hnewline, ih]
      cases lines cs with
      | nil => simp [consFirst]
      | cons l ls => rfl

theorem Script.newlinesIn_withEnds {ls : List (List Char)} (h : ∀ l ∈ ls, '\n' ∉ l) :
    newlinesIn (Text.withEnds ls) = ls.length := by
  induction ls with
  | nil => rfl
  | cons l ls ih =>
    rw [List.forall_mem_cons] at h
    have hl : l.count '\n' = 0 := List.count_eq_zero.2 h.1
    have hls : (Text.withEnds ls).count '\n' = ls.length := ih h.2
    rw [newlinesIn, Text.withEnds_cons, List.count_append, List.count_cons_self, hl, hls]
    simp

theorem Text.lines_eq_nil {cs : List Char} (h : lines cs = []) : cs = [] := by
  fun_cases lines cs with
  | case1 => rfl
  | case2 cs => simp [lines] at h
  | case3 cs => simp [lines] at h
  | case4 c cs hnewline hreturn =>
    rw [lines] at h
    · cases hlines : lines cs <;> simp [hlines, consFirst] at h
    · exact hnewline
    · exact hreturn

theorem Script.excerpt_zero (cs : List Char) (ls : List (List Char)) :
    Excerpt (Text.afterLines 0 cs) cs (Text.withEnds (ls.take 0)) := by
  rw [Text.afterLines_zero]
  exact .nil

theorem Script.excerpt_lines {k : Nat} {cs : List Char} (hk : k ≤ (Text.lines cs).length) :
    Excerpt (Text.afterLines k cs) cs (Text.withEnds ((Text.lines cs).take k)) := by
  fun_induction Text.lines cs generalizing k with
  | case1 =>
    obtain rfl : k = 0 := by simpa using hk
    exact .nil
  | case2 cs ih =>
    cases k with
    | zero => exact excerpt_zero _ _
    | succ k =>
      rw [Text.afterLines, List.take_succ_cons, Text.withEnds_cons]
      exact .newline (ih (Nat.le_of_succ_le_succ hk))
  | case3 cs ih =>
    cases k with
    | zero => exact excerpt_zero _ _
    | succ k =>
      rw [Text.afterLines_cons (by decide), Text.afterLines, List.take_succ_cons,
        Text.withEnds_cons]
      exact .crlf (ih (Nat.le_of_succ_le_succ hk))
  | case4 c cs hnewline hreturn ih =>
    cases k with
    | zero => exact excerpt_zero _ _
    | succ k =>
      have hr : c = '\r' → cs.head? ≠ some '\n' := by
        rintro rfl hhead
        obtain ⟨rest, rfl⟩ := List.head?_eq_some_iff.1 hhead
        exact hreturn rest rfl rfl
      rw [Text.afterLines_cons hnewline]
      cases hlines : Text.lines cs with
      | nil =>
        obtain rfl := Text.lines_eq_nil hlines
        obtain rfl : k = 0 := by simpa [hlines, Text.consFirst] using hk
        exact .char hnewline hr (by simp) (.last rfl)
      | cons l ls =>
        rw [hlines] at ih hk
        have hrest := ih hk
        rw [List.take_succ_cons, Text.withEnds_cons] at hrest
        rw [Text.consFirst, List.take_succ_cons, Text.withEnds_cons, List.cons_append]
        exact .char hnewline hr (by simp) hrest

end Lines

namespace Script

section Blocks

variable {name text block : String} {n : Nat}

theorem blockBody_eq_take (header : List Char) (ls : List (List Char)) :
    ∃ k ≤ ls.length, blockBody header ls = ls.take k ∧
      ∀ l ∈ ls.take k, Text.allBlank l = true ∨ leadingWidth header < leadingWidth l := by
  have hpre : blockBody header ls <+: ls.takeWhile fun l =>
      Text.allBlank l || leadingWidth header < leadingWidth l := by
    unfold blockBody
    rw [← List.reverse_suffix, List.reverse_reverse]
    exact List.dropWhile_suffix _
  have hbody := hpre.trans <| List.takeWhile_prefix _
  have heq := List.prefix_iff_eq_take.1 hbody
  refine ⟨(blockBody header ls).length, hbody.length_le, heq, fun l hl => ?_⟩
  rw [← heq] at hl
  simpa using List.mem_takeWhile_imp (hpre.subset hl)

theorem blockFrom?_eq_some {line : Nat} {ls : List (List Char)}
    (h : blockFrom? name line ls = some (n, block)) :
    ∃ before header rest, ls = before ++ header :: rest ∧ n = line + before.length ∧
      block.toList = Text.withEnds (header :: blockBody header rest) := by
  fun_induction blockFrom? name line ls with
  | case1 => cases h
  | case2 line l rest hheader =>
    cases h
    exact ⟨[], l, rest, rfl, rfl, by rw [String.toList_ofList, Text.unlines_append]⟩
  | case3 line l rest hheader ih =>
    obtain ⟨before, header, rest', rfl, rfl, hblock⟩ := ih h
    refine ⟨l :: before, header, rest', rfl, ?_, hblock⟩
    simp only [List.length_cons]
    omega

theorem indented_withEnds {width : Nat} {ls : List (List Char)} (hls : ∀ l ∈ ls, '\n' ∉ l)
    (hdeep : ∀ l ∈ ls, Text.allBlank l = true ∨ width < leadingWidth l) :
    Indented width (Text.withEnds ls) := by
  induction ls with
  | nil => exact .nil
  | cons l ls ih =>
    rw [List.forall_mem_cons] at hls hdeep
    rw [Text.withEnds_cons]
    exact .cons hls.1 hdeep.1 (ih hls.2 hdeep.2)

theorem excerpt_of_findBlock? (h : findBlock? name text = some (n, block)) :
    Excerpt (behind text n block) (Text.afterLines (n - 1) text.toList) block.toList ∧
      ∃ header body, '\n' ∉ header ∧ block.toList = header ++ '\n' :: body ∧
        Indented (leadingWidth header) body := by
  obtain ⟨before, header, rest, hlines, rfl, hblock⟩ := blockFrom?_eq_some h
  obtain ⟨k, hk, hbody, hdeep⟩ := blockBody_eq_take header rest
  have hfrom : Text.lines (Text.afterLines before.length text.toList) = header :: rest := by
    rw [Text.lines_afterLines, hlines, List.drop_left]
  have hends := Text.newline_notMem_lines (Text.afterLines before.length text.toList)
  rw [hfrom, List.forall_mem_cons] at hends
  have hrest : ∀ l ∈ rest.take k, '\n' ∉ l := fun l hl => hends.2 l (List.mem_of_mem_take hl)
  have hcount : newlinesIn block.toList = k + 1 := by
    rw [hblock, hbody, newlinesIn_withEnds (List.forall_mem_cons.2 ⟨hends.1, hrest⟩)]
    simpa using hk
  have hbound : k + 1 ≤ (Text.lines (Text.afterLines before.length text.toList)).length := by
    rw [hfrom]
    simpa using hk
  have hexcerpt := excerpt_lines hbound
  rw [hfrom, List.take_succ_cons, ← hbody, ← hblock] at hexcerpt
  refine ⟨?_, header, Text.withEnds (rest.take k), hends.1, ?_, ?_⟩
  · rw [behind, hcount, Nat.add_sub_cancel_left, Text.afterLines_add]
    exact hexcerpt
  · rw [hblock, hbody, Text.withEnds_cons]
  · exact indented_withEnds hrest hdeep

end Blocks

section Settling

variable {tail rest : List Char} {width line line' : Nat} {ks : List LogicalLine}
  {before new : List Token}

theorem head_shallow_iff : (∀ l ∈ ks.head?, l.indent ≤ width) ↔
    (ks.takeWhile fun l => width < l.indent) = [] := by
  cases ks with
  | nil => simp
  | cons l ks => simp [List.takeWhile_cons]

theorem settles_closed_iff (hks : linesFrom line tail = .ok ks) :
    (Ending.closed line).Settles tail width ↔
      (ks.takeWhile fun l => width < l.indent) = [] := by
  rw [← head_shallow_iff]
  have htail : (String.ofList tail).toList = tail := String.toList_ofList
  constructor
  · rintro ⟨_, _, below, hresumes, hbelow, hhead⟩
    cases hresumes
    have hlines := linesFrom_toList.2 ⟨below, hbelow, rfl⟩
    rw [htail, hks] at hlines
    cases hlines
    exact hhead
  · intro hhead
    rw [← htail] at hks
    obtain ⟨below, hbelow, rfl⟩ := linesFrom_toList.1 hks
    exact ⟨line, tail, below, .closed line, hbelow, hhead⟩

theorem settles_joined_iff
    (hread : readStatement 0 before line tail = .ok ⟨before.reverse ++ new, rest, line'⟩)
    (hks : linesFrom line' rest = .ok ks) :
    (Ending.joined before line).Settles tail width ↔
      (new = [] ∨ ∀ t ∈ before.reverse ++ new, t.kind = .str) ∧
        (ks.takeWhile fun l => width < l.indent) = [] := by
  rw [← settles_closed_iff hks]
  constructor
  · rintro ⟨_, _, below, hresumes, hbelow, hhead⟩
    cases hresumes with
    | joined h hsame =>
      cases hread.symm.trans h
      exact ⟨hsame.imp_left List.append_right_eq_self.1, _, _, below, .closed _, hbelow, hhead⟩
  · rintro ⟨hsame, _, _, below, hresumes, hbelow, hhead⟩
    cases hresumes
    exact ⟨_, _, below, .joined hread (hsame.imp_left List.append_right_eq_self.2), hbelow, hhead⟩

theorem not_settles_torn : ¬Ending.torn.Settles tail width := by
  rintro ⟨_, _, below, hresumes, -⟩
  cases hresumes

theorem statement?_of_str {indent start : Nat} {tokens : List Token}
    (h : ∀ t ∈ tokens, t.kind = .str) : statement? indent start tokens = none :=
  if_pos (by simpa using h)

theorem statement?_of_not_str {indent start : Nat} {tokens : List Token}
    (h : ¬∀ t ∈ tokens, t.kind = .str) :
    statement? indent start tokens = some ⟨indent, lineNumber start, tokens⟩ :=
  if_neg (by simpa using h)

theorem statement_whole_iff (indent start : Nat) (more : List LogicalLine) :
    (statement? indent start (before.map Token.lineFeeds).reverse).toList =
        ((statement? indent start (before.reverse ++ new)).toList ++ more).map
          LogicalLine.lineFeeds ↔
      (new = [] ∨ ∀ t ∈ (before.map Token.lineFeeds).reverse ++ new, t.kind = .str) ∧
        more = [] := by
  have hkinds : (∀ t ∈ (before.map Token.lineFeeds).reverse ++ new, t.kind = .str) ↔
      ∀ t ∈ before.reverse ++ new, t.kind = .str := by
    simp [or_imp, forall_and]
  rw [hkinds, ← List.map_reverse, statement?_map]
  by_cases hall : ∀ t ∈ before.reverse ++ new, t.kind = .str
  · have hbefore : ∀ t ∈ before.reverse, t.kind = .str :=
      fun t ht => hall t (List.mem_append_left new ht)
    rw [statement?_of_str hall, statement?_of_str hbefore, and_iff_right (.inr hall)]
    simp [eq_comm]
  · by_cases hbefore : ∀ t ∈ before.reverse, t.kind = .str
    · have hnew : new ≠ [] := by
        rintro rfl
        exact hall (by simpa using hbefore)
      rw [statement?_of_not_str hall, statement?_of_str hbefore, or_iff_left hall]
      simp [hnew]
    · rw [statement?_of_not_str hall, statement?_of_not_str hbefore, or_iff_left hall]
      simp [LogicalLine.lineFeeds, eq_comm]

variable {ls : List LogicalLine} {e : Ending} {x : Except LexError (List LogicalLine)}

/-- Exactly the deeper statements are read from an excerpt whose ending settles. -/
theorem Cut.settles_iff (h : Cut tail width ls e x) :
    x = .ok ((ls.takeWhile fun l => width < l.indent).map LogicalLine.lineFeeds) ↔
      e.Settles tail width := by
  cases h with
  | @closed js ks line hdeep hks =>
    have htake : ((js ++ ks).takeWhile fun l => width < l.indent) =
        js ++ ks.takeWhile fun l => width < l.indent :=
      List.takeWhile_append_of_pos (by simpa using hdeep)
    rw [settles_closed_iff hks, htake, Except.ok.injEq, List.map_append, List.self_eq_append_right,
      List.map_eq_nil_iff]
  | @joined js ks before new rest line line' indent start hdeep hindent hread hks =>
    have hwhole : ∀ l ∈ (statement? indent start (before.reverse ++ new)).toList,
        width < l.indent := by
      intro l hl
      obtain ⟨rfl, -⟩ := statement?_eq_some (Option.mem_toList.1 hl)
      exact hindent
    have htake :
        ((js ++ ((statement? indent start (before.reverse ++ new)).toList ++ ks)).takeWhile
          fun l => width < l.indent) =
        js ++ ((statement? indent start (before.reverse ++ new)).toList ++
          ks.takeWhile fun l => width < l.indent) := by
      rw [List.takeWhile_append_of_pos (by simpa using hdeep),
        List.takeWhile_append_of_pos (by simpa using hwhole)]
    rw [settles_joined_iff hread hks, htake, Except.ok.injEq, List.map_append,
      List.append_cancel_left_eq, statement_whole_iff]
  | torn e => exact iff_of_false (fun h => nomatch h) not_settles_torn

theorem Starts.settles_iff {n : Nat} {cs bs : List Char} {header : LogicalLine}
    (h : Starts n cs header ls) (hex : Excerpt tail cs bs) (hbs : bs ≠ [])
    (hdeep : ∀ r, readStatement 0 [] n (measureIndent 0 bs).2 = .ok r →
      Indented header.indent r.rest) :
    linesFrom n bs = .ok ((header :: ls.takeWhile fun l => header.indent < l.indent).map
        LogicalLine.lineFeeds) ↔ (ending n bs).Settles tail header.indent := by
  obtain @⟨r, -, hread, hl, hls⟩ := h
  obtain ⟨hindent, hwithin⟩ := measureIndent_abreast (abreast_within _) 0 ⟨hex, hbs⟩
  have hfollowed := (reads_of_readStatement hread).followed hwithin
  generalize hreach : reach 0 _ n (measureIndent 0 bs).2 = x at hfollowed
  cases hfollowed with
  | @whole rest line' hrest hline =>
    have hblock := readStatement_of_reach hreach
    have hcut := cut_behind hls hrest hline (cut_of_linesFrom hls hrest (hdeep _ hblock))
    rw [ending_of_ok hbs hreach, linesFrom_eq hbs hblock, hindent, statement?_map, hl,
      ← hcut.settles_iff]
    cases linesFrom line' rest with
    | error e => exact iff_of_false (fun h => nomatch h) fun h => nomatch h
    | ok xs =>
      show Except.ok (header.lineFeeds :: xs) = .ok (header.lineFeeds :: _) ↔ _
      simp
  | @joined before line' hjoin =>
    obtain ⟨new, htokens, hresume⟩ := hjoin.resume
    have hblock : readStatement 0 [] n (measureIndent 0 bs).2 =
        .ok ⟨(before.map Token.lineFeeds).reverse, [], line'⟩ :=
      readStatement_eq_ok_iff.2 (.inr ⟨_, _, hreach, rfl⟩)
    have hheader : header :: (ls.takeWhile fun l => header.indent < l.indent) =
        (statement? (measureIndent 0 cs).1 n (before.reverse ++ new)).toList ++
          ls.takeWhile fun l => header.indent < l.indent := by
      rw [← htokens, hl]
      rfl
    rw [ending_of_error hbs hreach, linesFrom_eq hbs hblock, linesFrom_nil, hheader, hindent,
      settles_joined_iff (hresume _ (any_endsValue_map before)) hls,
      ← statement_whole_iff (measureIndent 0 cs).1 n]
    show Except.ok (_ ++ []) = _ ↔ _
    rw [List.append_nil, Except.ok.injEq]
  | torn =>
    refine iff_of_false (fun h => ?_) ?_
    · obtain ⟨r', ls', hblock, -⟩ := linesFrom_eq_ok h
      rcases readStatement_eq_ok_iff.1 hblock with heq | ⟨before, line', heq, -⟩ <;>
        cases hreach.symm.trans heq
    · rw [ending_of_error hbs hreach]
      exact not_settles_torn

end Settling

section Lossless

variable {name text block : String} {n : Nat} {whole : Block} {before after : List LogicalLine}
  {header : LogicalLine}

theorem lt_length_lines {k : Nat} {cs : List Char} (h : Text.afterLines k cs ≠ []) :
    k < (Text.lines cs).length := by
  rw [← Nat.not_le]
  intro hle
  apply h
  apply Text.lines_eq_nil
  rw [Text.lines_afterLines, List.drop_eq_nil_of_le hle]

theorem starts_at_line (hsize : (Text.lines text.toList).length < Nat.pow 2 64)
    (hlines : linesFrom 1 text.toList = .ok (before ++ header :: after)) (hn : header.line = n) :
    Starts n (Text.afterLines (n - 1) text.toList) header after := by
  obtain ⟨k, hstarts⟩ := starts_of_linesFrom hlines
  have hk : 1 + k = n := by
    obtain @⟨r, hne, -, hl, -⟩ := hstarts
    obtain ⟨rfl, -⟩ := statement?_eq_some hl
    have hbound := lt_length_lines hne
    rw [← hn, lineNumber, Nat.mod_eq_of_lt (by omega)]
  rwa [hk, show k = n - 1 by omega] at hstarts

theorem Starts.indent_eq {cs : List Char} {l : LogicalLine} {ls : List LogicalLine}
    (h : Starts n cs l ls) : l.indent = (measureIndent 0 cs).1 := by
  obtain @⟨r, -, -, hl, -⟩ := h
  obtain ⟨rfl, -⟩ := statement?_eq_some hl
  rfl

/-- The block that is cut out for a method can be read and has exactly the statements of the text
from the header up to the next one that is not deeper, if and only if the text behind the block
settles: the last statement of the block is whole, and the next one behind it is not deeper. -/
theorem block_lossless_iff (hsize : (Text.lines text.toList).length < Nat.pow 2 64)
    (hwhole : tokenize text 1 = .ok whole) (hfind : findBlock? name text = some (n, block))
    (hlines : whole.lines = before ++ header :: after) (hstart : header.line = n) :
    (∃ b, tokenize block n = .ok b ∧
      b.lines = (header :: after.takeWhile fun l => header.indent < l.indent).map
        LogicalLine.lineFeeds) ↔
      (ending n block.toList).Settles (behind text n block) header.indent := by
  obtain ⟨hex, first, body, hfirst, hblock, hdeep⟩ := excerpt_of_findBlock? hfind
  have hne : block.toList ≠ [] := by simp [hblock]
  have hstarts := starts_at_line hsize (linesFrom_toList.2 ⟨whole, hwhole, hlines⟩) hstart
  have hindent : header.indent = leadingWidth first := by
    rw [hstarts.indent_eq, ← (measureIndent_abreast (abreast_within _) 0 ⟨hex, hne⟩).1, hblock,
      measureIndent_line 0 hfirst]
    rfl
  rw [← linesFrom_toList]
  refine hstarts.settles_iff hex hne fun r hread => ?_
  rw [hindent]
  rcases (reads_of_readStatement hread).line_end with hrest | ⟨taken, htaken, -⟩
  · rw [hrest]
    exact .nil
  · rcases line_end_cases hfirst (htaken.symm.trans hblock) with hrest | ⟨taken', hbody⟩
    · rw [hrest]
      exact hdeep
    · rw [hbody] at hdeep
      exact hdeep.of_append

def headerAt (line : Nat) (name : String) : LogicalLine :=
  ⟨0, line, [.ofName "def", .ofName name, .ofOp "(", .ofName "model", .ofOp ")", .ofOp ":"]⟩

def pairText : String :=
  "def calc(model):\r\n    x = \x27\x27\x27a\r\n  b\x27\x27\x27\r\n\r\n" ++
    "def get(model):\r\n    return x\r\n"

def pairBlock : String := "def calc(model):\n    x = \x27\x27\x27a\n  b\x27\x27\x27\n"

theorem pair_block_lossless :
    findBlock? "calc" pairText = some (1, pairBlock) ∧
      ∃ b, tokenize pairBlock 1 = .ok b ∧ b.lines = [headerAt 1 "calc",
        ⟨4, 2, [.ofName "x", .ofOp "=", ⟨.str, "\x27\x27\x27a\n  b\x27\x27\x27"⟩]⟩] := by
  have hfind : findBlock? "calc" pairText = some (1, pairBlock) := by decide +kernel
  have hwhole : tokenize pairText 1 = .ok ⟨[] ++ headerAt 1 "calc" ::
      [⟨4, 2, [.ofName "x", .ofOp "=", ⟨.str, "\x27\x27\x27a\r\n  b\x27\x27\x27"⟩]⟩,
        headerAt 5 "get", ⟨4, 6, [.ofName "return", .ofName "x"]⟩], []⟩ :=
    toOption_eq_some (by decide +kernel)
  have hending : ending 1 pairBlock.toList = .closed 4 := by decide +kernel
  have hbelow : tokenize (String.ofList (behind pairText 1 pairBlock)) 4 =
      .ok ⟨[headerAt 5 "get", ⟨4, 6, [.ofName "return", .ofName "x"]⟩], []⟩ :=
    toOption_eq_some (by decide +kernel)
  have hsettles : (ending 1 pairBlock.toList).Settles (behind pairText 1 pairBlock)
      (headerAt 1 "calc").indent := by
    rw [hending]
    refine ⟨4, _, _, .closed 4, hbelow, fun l hl => ?_⟩
    obtain rfl : headerAt 5 "get" = l := by simpa using hl
    exact Nat.le_refl 0
  obtain ⟨b, hread, hlines⟩ :=
    (block_lossless_iff (by decide +kernel) hwhole hfind rfl rfl).2 hsettles
  refine ⟨hfind, b, hread, ?_⟩
  rw [hlines]
  decide +kernel

def notedText : String := "def calc(model):\n    flu.q = 1.0\n# note\n    flu.q = 2.0\n"

def setsFlux (line : Nat) (value : String) : LogicalLine :=
  ⟨4, line, [.ofName "flu", .ofOp ".", .ofName "q", .ofOp "=", ⟨.number, value⟩]⟩

/-- The block ends before the comment, and the statement behind it is lost. -/
theorem comment_ends_block :
    tokenize notedText 1 =
        .ok ⟨[headerAt 1 "calc", setsFlux 2 "1.0", setsFlux 4 "2.0"], []⟩ ∧
      ∃ block, findBlock? "calc" notedText = some (1, block) ∧
        tokenize block 1 = .ok ⟨[headerAt 1 "calc", setsFlux 2 "1.0"], []⟩ := by
  refine ⟨toOption_eq_some (by decide +kernel), "def calc(model):\n    flu.q = 1.0\n",
    by decide +kernel, toOption_eq_some (by decide +kernel)⟩

end Lossless

end Script

end ProcessModel
