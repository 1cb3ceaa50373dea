import ProcessModel.Proofs.Excerpts
import ProcessModel.Proofs.Rendering

/-! Where the statements of a text stand.

Reading counts every line end that it passes, and a statement ends with its line. So a statement at
line `n` is read from what follows the line ends before it. -/

namespace ProcessModel

def Text.afterLines : Nat → List Char → List Char
  | 0, cs => cs
  | _ + 1, [] => []
  | k + 1, '\n' :: cs => afterLines k cs
  | k + 1, _ :: cs => afterLines (k + 1) cs

section AfterLines

@[simp] theorem Text.afterLines_zero (cs : List Char) : afterLines 0 cs = cs := by
  rw [afterLines]

@[simp] theorem Text.afterLines_nil (k : Nat) : afterLines k [] = [] := by
  cases k <;> rfl

theorem Text.afterLines_cons {c : Char} (hc : c ≠ '\n') (k : Nat) (cs : List Char) :
    afterLines (k + 1) (c :: cs) = afterLines (k + 1) cs := by
  rw [afterLines]
  exact fun h => absurd h hc

theorem Text.afterLines_add (j k : Nat) (cs : List Char) :
    afterLines (j + k) cs = afterLines k (afterLines j cs) := by
  fun_induction afterLines j cs with
  | case1 cs => rw [Nat.zero_add]
  | case2 j => simp
  | case3 j cs ih => rw [Nat.succ_add, afterLines, ih]
  | case4 j c cs hc ih => rw [← ih, Nat.succ_add, afterLines_cons hc]

theorem Text.afterLines_append (taken rest : List Char) :
    afterLines (Script.newlinesIn taken + 1) (taken ++ '\n' :: rest) = rest := by
  unfold Script.newlinesIn
  induction taken with
  | nil => rw [List.count_nil, List.nil_append, afterLines, afterLines]
  | cons c taken ih =>
    by_cases hc : c = '\n'
    · subst hc
      rw [List.count_cons_self, List.cons_append, afterLines, ih]
    · rw [List.count_cons_of_ne hc, List.cons_append, afterLines_cons hc, ih]

end AfterLines

namespace Script

section Statements

variable {depth depth' line n : Nat} {before : List Token} {c : Char} {cs rest : List Char}
  {t : Token} {r : Reading}

theorem Reads.resume (h : Reads depth before line cs r) :
    ∃ new, r.tokens = before.reverse ++ new ∧ ∀ before' : List Token,
      before'.head?.any Token.endsValue = before.head?.any Token.endsValue →
      readStatement depth before' line cs = .ok ⟨before'.reverse ++ new, r.rest, r.line⟩ := by
  induction h with
  | eof before line =>
    refine ⟨[], (List.append_nil _).symm, fun before' _ => ?_⟩
    rw [readStatement, if_neg (Nat.lt_irrefl 0), List.append_nil]
  | ended h =>
    refine ⟨[], (List.append_nil _).symm, fun before' hvalue => ?_⟩
    rw [readStatement_newline (hvalue ▸ h), List.append_nil]
  | blank h hrest ih =>
    obtain ⟨new, htokens, hread⟩ := ih
    refine ⟨new, htokens, fun before' hvalue => ?_⟩
    rw [readStatement_blank (hvalue ▸ h), hread before' hvalue]
  | newline h hdepth hrest ih =>
    obtain ⟨new, htokens, hread⟩ := ih
    refine ⟨new, htokens, fun before' hvalue => ?_⟩
    rw [readStatement_inside (hvalue ▸ h) hdepth, hread before' hvalue]
  | join h hrest ih =>
    obtain ⟨new, htokens, hread⟩ := ih
    refine ⟨new, htokens, fun before' hvalue => ?_⟩
    rw [readStatement_join (hvalue ▸ h), hread before' hvalue]
  | @token depth depth' before line c cs rest r t n h hnest hrest ih =>
    obtain ⟨new, htokens, hread⟩ := ih
    refine ⟨t :: new, by simpa using htokens, fun before' hvalue => ?_⟩
    rw [readStatement_token (hvalue ▸ h) hnest, hread (t :: before') rfl]
    simp

end Statements

section Passes

/-- `rest` is left of `cs` behind `n` line ends. -/
def Passes (cs : List Char) (n : Nat) (rest : List Char) : Prop :=
  ∃ taken, cs = taken ++ rest ∧ newlinesIn taken = n

variable {cs mid rest : List Char} {m n : Nat} {p : Char → Bool}

theorem passes_refl (cs : List Char) : Passes cs 0 cs := ⟨[], rfl, rfl⟩

theorem Passes.trans (h : Passes cs m mid) (h' : Passes mid n rest) : Passes cs (m + n) rest := by
  obtain ⟨taken, rfl, rfl⟩ := h
  obtain ⟨taken', rfl, rfl⟩ := h'
  exact ⟨taken ++ taken', (List.append_assoc _ _ _).symm, List.count_append⟩

theorem passes_of_inline {taken : List Char} (h : '\n' ∉ taken) (rest : List Char) :
    Passes (taken ++ rest) 0 rest := ⟨taken, rfl, List.count_eq_zero.2 h⟩

theorem passes_cons {c : Char} (hc : c ≠ '\n') (h : Passes cs n rest) :
    Passes (c :: cs) n rest := by
  obtain ⟨taken, rfl, rfl⟩ := h
  exact ⟨c :: taken, rfl, List.count_cons_of_ne hc⟩

theorem passes_dropWhile (hp : p '\n' = false) (cs : List Char) :
    Passes cs 0 (cs.dropWhile p) := by
  have htaken : '\n' ∉ cs.takeWhile p := by
    intro hmem
    rw [List.mem_takeWhile_imp hmem] at hp
    cases hp
  have h := passes_of_inline htaken (cs.dropWhile p)
  rwa [List.takeWhile_append_dropWhile] at h

theorem passes_drop {w : List Char} (hw : '\n' ∉ w) (h : w.isPrefixOf cs = true) :
    Passes cs 0 (cs.drop w.length) := by
  obtain ⟨rest, rfl⟩ := List.isPrefixOf_iff_prefix.1 h
  rw [List.drop_left]
  exact passes_of_inline hw rest

theorem abreast_passes (whole : List Char) :
    Abreast fun cs ds => Passes whole 0 cs ∧ cs = ds := by
  rintro cs _ ⟨⟨taken, hwhole, htaken⟩, rfl⟩
  cases cs with
  | nil => exact .inr ⟨.nil, .nil⟩
  | cons c cs =>
    by_cases hc : c = '\n'
    · subst hc
      exact .inr ⟨.newline _, .newline _⟩
    · have hstep : Passes (c :: cs) 0 cs := ⟨[c], rfl, List.count_cons_of_ne hc⟩
      exact .inl ⟨c, cs, cs, rfl, rfl, (Passes.trans ⟨taken, hwhole, htaken⟩ hstep), rfl⟩

end Passes

section Lexemes

variable {q c : Char} {triple after : Bool} {letters cs text rest : List Char} {t : Token} {n : Nat}

theorem passes_stringLexeme (hq : isQuote q = true)
    (h : stringLexeme letters q cs = .token t n rest) : Passes cs n rest := by
  have hquotes : '\n' ∉ [q, q] := fun hmem => (inline_of_isQuote hq _ hmem).1 rfl
  have hopening : Passes cs 0
      (cs.drop ((if [q, q].isPrefixOf cs then [q, q, q] else [q]).length - 1)) := by
    split_ifs with htriple
    · exact passes_drop hquotes htriple
    · exact passes_refl cs
  unfold stringLexeme at h
  dsimp only at h
  split at h
  · rename_i body k rest' hbody
    cases h
    have hclose : Passes _ n rest :=
      ⟨body, (closes_of_closeString hbody).eq, (newlinesIn_of_closeString hq hbody).symm⟩
    simpa using hopening.trans hclose
  · cases h

theorem passes_of_matches {l : Lexeme} {whole : List Char}
    (hl : l.Matches (fun cs ds => Passes whole 0 cs ∧ cs = ds) l) (h : l = .token t n rest) :
    Passes whole n rest := by
  obtain ⟨t', rest', -, -, heq, -, hpasses, -⟩ := hl
  cases heq.symm.trans h
  exact hpasses

theorem passes_token (h : lexeme after c cs = .token t n rest) : Passes (c :: cs) n rest := by
  unfold lexeme at h
  split_ifs at h with hnewline hspace hcomment hjoin hquote hnumber hword
  · split at h <;> cases h
  · exact passes_cons hnewline (passes_stringLexeme hquote h)
  · exact passes_of_matches (numberLexeme_abreast (abreast_passes _) ⟨passes_refl _, rfl⟩) h
  · rcases wordLexeme_abreast (abreast_passes _) ⟨passes_refl _, rfl⟩ with
      hname | ⟨letters, q, rest', _, hq, -, ⟨hpasses, -⟩, hstring, -⟩
    · exact passes_of_matches hname h
    · simpa using hpasses.trans (passes_stringLexeme hq (hstring ▸ h))
  · exact passes_of_matches
      (operatorLexeme_abreast (abreast_passes _) ⟨passes_refl _, rfl⟩ (by simp [h])) h

theorem stringLexeme_cases (letters : List Char) (q : Char) (cs : List Char) :
    (∃ t n rest, stringLexeme letters q cs = .token t n rest) ∨
      ∃ n e, stringLexeme letters q cs = .fault n e := by
  unfold stringLexeme
  dsimp only
  split
  · exact .inl ⟨_, _, _, rfl⟩
  · exact .inr ⟨_, _, rfl⟩

theorem wordLexeme_cases (cs : List Char) :
    (∃ t n rest, wordLexeme cs = .token t n rest) ∨ ∃ n e, wordLexeme cs = .fault n e := by
  unfold wordLexeme
  dsimp only
  split
  · split_ifs
    · exact stringLexeme_cases _ _ _
    · exact .inl ⟨_, _, _, rfl⟩
  · exact .inl ⟨_, _, _, rfl⟩

theorem operatorLexeme_cases (c : Char) (cs : List Char) :
    (∃ t n rest, operatorLexeme c cs = .token t n rest) ∨
      ∃ n e, operatorLexeme c cs = .fault n e := by
  unfold operatorLexeme
  split
  · exact .inl ⟨_, _, _, rfl⟩
  · exact .inr ⟨_, _, rfl⟩

/-- What is no token and no fault: a line end, white space, a comment, a backslash at a line end. -/
theorem lexeme_cases (after : Bool) (c : Char) (cs : List Char) :
    (c = '\n' ∧ lexeme after c cs = .newline cs) ∨
      (isSpace c = true ∧ lexeme after c cs = .blank cs) ∨
      (c = '#' ∧ lexeme after c cs = .blank (cs.dropWhile (· != '\n'))) ∨
      (c = '\\' ∧ ∃ rest, cs.dropWhile (· == '\r') = '\n' :: rest ∧
        lexeme after c cs = .join rest) ∨
      (∃ t n rest, lexeme after c cs = .token t n rest) ∨
      ∃ n e, lexeme after c cs = .fault n e := by
  unfold lexeme
  split_ifs with hnewline hspace hcomment hjoin hquote hnumber hword
  · exact .inl ⟨hnewline, rfl⟩
  · exact .inr (.inl ⟨hspace, rfl⟩)
  · exact .inr (.inr (.inl ⟨hcomment, rfl⟩))
  · split
    · rename_i rest hrest
      exact .inr (.inr (.inr (.inl ⟨hjoin, rest, hrest, rfl⟩)))
    · exact .inr (.inr (.inr (.inr (.inr ⟨_, _, rfl⟩))))
  · exact .inr (.inr (.inr (.inr (stringLexeme_cases _ _ _))))
  · exact .inr (.inr (.inr (.inr (.inl ⟨_, _, _, rfl⟩))))
  · exact .inr (.inr (.inr (.inr (wordLexeme_cases _))))
  · exact .inr (.inr (.inr (.inr (operatorLexeme_cases _ _))))

theorem eq_of_newline (h : lexeme after c cs = .newline rest) : c :: cs = '\n' :: rest := by
  rcases lexeme_cases after c cs with ⟨rfl, heq⟩ | ⟨-, heq⟩ | ⟨-, heq⟩ | ⟨-, rest', -, heq⟩ |
    ⟨t, n, rest', heq⟩ | ⟨n, e, heq⟩ <;> cases heq.symm.trans h
  rfl

theorem passes_blank (h : lexeme after c cs = .blank rest) : Passes (c :: cs) 0 rest := by
  rcases lexeme_cases after c cs with ⟨-, heq⟩ | ⟨hspace, heq⟩ | ⟨rfl, heq⟩ | ⟨-, rest', -, heq⟩ |
    ⟨t, n, rest', heq⟩ | ⟨n, e, heq⟩ <;> cases heq.symm.trans h
  · have hc : c ≠ '\n' := by
      rintro rfl
      exact absurd hspace (by decide)
    exact passes_cons hc (passes_refl cs)
  · exact passes_cons (by decide) (passes_dropWhile (by decide) cs)

theorem passes_join (h : lexeme after c cs = .join rest) : Passes (c :: cs) 1 rest := by
  rcases lexeme_cases after c cs with ⟨-, heq⟩ | ⟨-, heq⟩ | ⟨-, heq⟩ | ⟨rfl, rest', hrest, heq⟩ |
    ⟨t, n, rest', heq⟩ | ⟨n, e, heq⟩ <;> cases heq.symm.trans h
  have hreturns : Passes cs 0 (cs.dropWhile (· == '\r')) := passes_dropWhile (by decide) cs
  rw [hrest] at hreturns
  exact passes_cons (by decide) (hreturns.trans ⟨['\n'], rfl, rfl⟩)

end Lexemes

section Lines

variable {depth line : Nat} {before : List Token} {cs : List Char} {r : Reading}

def Closed (text rest : List Char) : Prop := rest = [] ∨ ∃ body, text = body ++ ['\n']

/-- A reading has come to the end of a line, or of the text, and has counted the lines since `line`. -/
def Counted (line : Nat) (cs : List Char) (r : Reading) : Prop :=
  ∃ text, cs = text ++ r.rest ∧ r.line = line + newlinesIn text ∧ Closed text r.rest

theorem Counted.of_passes {rest : List Char} {n : Nat} (hpasses : Passes cs n rest)
    (h : Counted (line + n) rest r) : Counted line cs r := by
  obtain ⟨passed, rfl, rfl⟩ := hpasses
  obtain ⟨text, rfl, hline, hclosed⟩ := h
  have hcount : newlinesIn (passed ++ text) = newlinesIn passed + newlinesIn text :=
    List.count_append
  refine ⟨passed ++ text, (List.append_assoc _ _ _).symm, by omega, hclosed.imp_right ?_⟩
  rintro ⟨body, rfl⟩
  exact ⟨passed ++ body, (List.append_assoc _ _ _).symm⟩

theorem Reads.counted (h : Reads depth before line cs r) : Counted line cs r := by
  induction h with
  | eof before line => exact ⟨[], rfl, rfl, .inl rfl⟩
  | ended h => exact ⟨['\n'], eq_of_newline h, rfl, .inr ⟨[], rfl⟩⟩
  | blank h hrest ih => exact .of_passes (passes_blank h) ih
  | newline h hdepth hrest ih => exact .of_passes ⟨['\n'], eq_of_newline h, rfl⟩ ih
  | join h hrest ih => exact .of_passes (passes_join h) ih
  | token h hnest hrest ih => exact .of_passes (passes_token h) ih

theorem passes_measureIndent (width : Nat) (cs : List Char) :
    Passes cs 0 (measureIndent width cs).2 := by
  fun_induction measureIndent width cs with
  | case1 width cs ih => exact passes_cons (by decide) ih
  | case2 width cs ih => exact passes_cons (by decide) ih
  | case3 width cs => exact passes_refl cs

/-- A statement takes whole lines, and their ends are counted. -/
theorem Reads.counted_line (h : Reads 0 before line (measureIndent 0 cs).2 r) :
    Counted line cs r :=
  .of_passes (passes_measureIndent 0 cs) h.counted

theorem Reads.line_end (h : Reads 0 before line (measureIndent 0 cs).2 r) :
    r.rest = [] ∨ ∃ taken, cs = taken ++ '\n' :: r.rest ∧
      r.line = line + newlinesIn taken + 1 := by
  obtain ⟨text, hcs, hline, hclosed⟩ := h.counted_line
  refine hclosed.imp_right ?_
  rintro ⟨taken, rfl⟩
  have hcount : newlinesIn (taken ++ ['\n']) = newlinesIn taken + 1 := List.count_append
  exact ⟨taken, by rw [hcs, List.append_assoc]; rfl, by omega⟩

def statement? (indent line : Nat) (tokens : List Token) : Option LogicalLine :=
  if tokens.all fun t => t.kind == .str then none else some ⟨indent, lineNumber line, tokens⟩

def linesFrom (line : Nat) (cs : List Char) : Except LexError (List LogicalLine) :=
  (items line cs).map fun is => (Block.ofItems is).lines

theorem linesFrom_nil (line : Nat) : linesFrom line [] = .ok [] := by
  rw [linesFrom, items]
  rfl

variable {ls : List LogicalLine}

theorem linesFrom_toList {text : String} {n : Nat} :
    linesFrom n text.toList = .ok ls ↔ ∃ b, tokenize text n = .ok b ∧ b.lines = ls := by
  unfold linesFrom tokenize
  constructor
  · intro h
    obtain ⟨is, his, rfl⟩ := map_eq_ok h
    exact ⟨Block.ofItems is, by rw [his]; rfl, rfl⟩
  · rintro ⟨b, hb, rfl⟩
    obtain ⟨is, his, rfl⟩ := map_eq_ok hb
    rw [his]
    rfl

theorem lines_ofTokens (indent line : Nat) (tokens : List Token) (is : List Item) :
    (Block.ofItems ((Item.ofTokens indent line tokens).toList ++ is)).lines =
      (statement? indent line tokens).toList ++ (Block.ofItems is).lines := by
  unfold Block.ofItems Item.ofTokens statement?
  rw [List.filterMap_append]
  cases tokens with
  | nil => rfl
  | cons t ts =>
    dsimp only
    rw [if_neg (by simp)]
    split_ifs <;> rfl

theorem linesFrom_eq (hne : cs ≠ [])
    (h : readStatement 0 [] line (measureIndent 0 cs).2 = .ok r) :
    linesFrom line cs = (linesFrom r.line r.rest).map
      ((statement? (measureIndent 0 cs).1 line r.tokens).toList ++ ·) := by
  unfold linesFrom
  rw [items_eq hne h]
  cases items r.line r.rest with
  | error e => rfl
  | ok is => exact congrArg Except.ok (lines_ofTokens _ _ _ _)

theorem linesFrom_of_error (hne : cs ≠ []) {e : LexError}
    (h : readStatement 0 [] line (measureIndent 0 cs).2 = .error e) :
    linesFrom line cs = .error e := by
  obtain ⟨c, tail, rfl⟩ := List.exists_cons_of_ne_nil hne
  unfold linesFrom
  rw [items]
  split <;> rename_i h' <;> cases h.symm.trans h'
  rfl

theorem linesFrom_eq_ok (h : linesFrom line cs = .ok ls) :
    ∃ r ls', readStatement 0 [] line (measureIndent 0 cs).2 = .ok r ∧
      linesFrom r.line r.rest = .ok ls' ∧
      ls = (statement? (measureIndent 0 cs).1 line r.tokens).toList ++ ls' := by
  by_cases hne : cs = []
  · subst hne
    cases (linesFrom_nil line).symm.trans h
    have hread : readStatement 0 [] line [] = .ok ⟨[], [], line⟩ := by
      rw [readStatement]
      rfl
    exact ⟨⟨[], [], line⟩, [], hread, linesFrom_nil line, rfl⟩
  cases hread : readStatement 0 [] line (measureIndent 0 cs).2 with
  | error e =>
    rw [linesFrom_of_error hne hread] at h
    cases h
  | ok r =>
    rw [linesFrom_eq hne hread] at h
    obtain ⟨ls', hrest, rfl⟩ := map_eq_ok h
    exact ⟨r, ls', rfl, hrest, rfl⟩

theorem rest_length_lt (hne : cs ≠ [])
    (h : readStatement 0 [] line (measureIndent 0 cs).2 = .ok r) : r.rest.length < cs.length := by
  have hindent := measureIndent_length 0 cs
  have hpos := List.length_pos_of_ne_nil hne
  rcases readStatement_rest_length _ _ _ _ _ h with hrest | hrest
  · simpa [hrest] using hpos
  · omega

/-- The text starts with statement `l`, and `ls` follow. -/
inductive Starts (line : Nat) (cs : List Char) (l : LogicalLine) (ls : List LogicalLine) : Prop
  | intro {r : Reading} (hne : cs ≠ [])
      (hread : readStatement 0 [] line (measureIndent 0 cs).2 = .ok r)
      (hl : statement? (measureIndent 0 cs).1 line r.tokens = some l)
      (hls : linesFrom r.line r.rest = .ok ls)

theorem starts_of_linesFrom {l : LogicalLine} {ls' : List LogicalLine}
    (h : linesFrom line cs = .ok (ls ++ l :: ls')) :
    ∃ k, Starts (line + k) (Text.afterLines k cs) l ls' := by
  induction hn : cs.length using Nat.strong_induction_on generalizing cs line ls with
  | h n ih =>
    have hne : cs ≠ [] := by
      rintro rfl
      rw [linesFrom_nil] at h
      simp at h
    obtain ⟨r, all, hread, hall, heq⟩ := linesFrom_eq_ok h
    have hlater : ∀ ls, all = ls ++ l :: ls' →
        ∃ k, Starts (line + k) (Text.afterLines k cs) l ls' := by
      rintro ls rfl
      obtain ⟨k, hstarts⟩ := ih _ (hn ▸ rest_length_lt hne hread) hall rfl
      have hrest : r.rest ≠ [] := by
        intro hrest
        rw [hrest, Text.afterLines_nil] at hstarts
        cases hstarts with
        | intro hne => exact hne rfl
      obtain ⟨taken, hcs, hline⟩ := (reads_of_readStatement hread).line_end.resolve_left hrest
      refine ⟨newlinesIn taken + 1 + k, ?_⟩
      rw [Text.afterLines_add, hcs, Text.afterLines_append, ← Nat.add_assoc, ← Nat.add_assoc,
        ← hline]
      exact hstarts
    cases hs : statement? (measureIndent 0 cs).1 line r.tokens with
    | none =>
      rw [hs] at heq
      exact hlater ls heq.symm
    | some first =>
      rw [hs] at heq
      cases ls with
      | nil =>
        cases heq
        refine ⟨0, ?_⟩
        rw [Text.afterLines_zero]
        exact .intro hne hread hs hall
      | cons first' ls =>
        cases heq
        exact hlater ls rfl

end Lines

end Script

end ProcessModel
