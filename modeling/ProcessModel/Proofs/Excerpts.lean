import Mathlib.Data.List.Find
import ProcessModel.Proofs.Lexemes

/-! Lexemes at the start of a text that is cut behind one of its lines.

An excerpt of a text holds its first lines, each with a single `\n` at its end. A lexeme of the text
is a lexeme of the excerpt, unless it is a string literal that goes on behind the cut. -/

namespace ProcessModel

/-- A text with `\n` in place of every `\r\n`. -/
def Text.lineFeeds : List Char → List Char
  | [] => []
  | '\r' :: '\n' :: cs => '\n' :: lineFeeds cs
  | c :: cs => c :: lineFeeds cs

def Token.lineFeeds (t : Token) : Token :=
  if t.kind = .str then { t with text := String.ofList (Text.lineFeeds t.text.toList) } else t

namespace Script

/-- `bs` holds the lines of `cs` before `tail`, each with `\n` at its end. -/
inductive Excerpt (tail : List Char) : List Char → List Char → Prop
  | nil : Excerpt tail tail []
  /-- The last line of a text may have no end. -/
  | last (htail : tail = []) : Excerpt tail [] ['\n']
  | newline {cs bs : List Char} (h : Excerpt tail cs bs) : Excerpt tail ('\n' :: cs) ('\n' :: bs)
  | crlf {cs bs : List Char} (h : Excerpt tail cs bs) :
      Excerpt tail ('\r' :: '\n' :: cs) ('\n' :: bs)
  | char {c : Char} {cs bs : List Char} (hc : c ≠ '\n') (hr : c = '\r' → cs.head? ≠ some '\n')
      (hbs : bs ≠ []) (h : Excerpt tail cs bs) : Excerpt tail (c :: cs) (c :: bs)

/-- An excerpt that is not read to its end. -/
structure Within (tail cs bs : List Char) : Prop where
  excerpt : Excerpt tail cs bs
  unread : bs ≠ []

/-- A property of characters that no line end has. -/
def Inline (p : Char → Bool) : Prop := p '\n' = false ∧ p '\r' = false

inductive AtLineEnd : List Char → Prop
  | nil : AtLineEnd []
  | newline (cs : List Char) : AtLineEnd ('\n' :: cs)
  | carriage (cs : List Char) : AtLineEnd ('\r' :: cs)

/-- What stands in an excerpt for a lexeme of the text. -/
inductive Lexeme.Excerpted (tail : List Char) : Lexeme → Lexeme → Prop
  | blank {cs bs : List Char} (h : Excerpt tail cs bs) : Excerpted tail (.blank cs) (.blank bs)
  | newline {cs bs : List Char} (h : Excerpt tail cs bs) :
      Excerpted tail (.newline cs) (.newline bs)
  | join {cs bs : List Char} (h : Excerpt tail cs bs) : Excerpted tail (.join cs) (.join bs)
  | token {cs bs : List Char} (t : Token) (n : Nat) (h : Excerpt tail cs bs) :
      Excerpted tail (.token t n cs) (.token t.lineFeeds n bs)
  /-- A string literal that goes on behind the cut. -/
  | torn (t : Token) (n m : Nat) (cs : List Char) :
      Excerpted tail (.token t n cs) (.fault m .openString)

end Script

section LineFeeds

variable {cs : List Char}

theorem Text.lineFeeds_cons {c : Char} (h : c = '\r' → cs.head? ≠ some '\n') :
    lineFeeds (c :: cs) = c :: lineFeeds cs := by
  rw [lineFeeds]
  intro cs' hc hcs
  exact h hc (by rw [hcs]; rfl)

theorem Text.lineFeeds_return (h : cs.head? = some '\n') :
    lineFeeds ('\r' :: cs) = lineFeeds cs := by
  obtain ⟨cs', rfl⟩ := List.head?_eq_some_iff.1 h
  rw [lineFeeds, lineFeeds_cons fun h => absurd h (by decide)]

theorem Text.lineFeeds_append (h : '\r' ∉ cs) (ds : List Char) :
    lineFeeds (cs ++ ds) = cs ++ lineFeeds ds := by
  induction cs with
  | nil => rfl
  | cons c cs ih =>
    rw [List.mem_cons, not_or] at h
    rw [List.cons_append, lineFeeds_cons fun hc => absurd hc.symm h.1, ih h.2, List.cons_append]

theorem Text.newlinesIn_lineFeeds (cs : List Char) :
    Script.newlinesIn (lineFeeds cs) = Script.newlinesIn cs := by
  unfold Script.newlinesIn
  fun_induction lineFeeds cs with
  | case1 => rfl
  | case2 cs ih => simp [ih]
  | case3 c cs h ih => simp [List.count_cons, ih]

@[simp] theorem Token.kind_lineFeeds (t : Token) : t.lineFeeds.kind = t.kind := by
  unfold lineFeeds
  split_ifs <;> rfl

theorem Token.lineFeeds_of_kind {t : Token} (h : t.kind ≠ .str) : t.lineFeeds = t := if_neg h

@[simp] theorem Token.isOp_lineFeeds (t : Token) (s : String) : t.lineFeeds.isOp s = t.isOp s := by
  by_cases h : t.kind = .str
  · have hne : (TokenKind.str == TokenKind.op) = false := by decide
    simp [isOp, h, hne]
  · rw [lineFeeds_of_kind h]

@[simp] theorem Token.isOpening_lineFeeds (t : Token) : t.lineFeeds.isOpening = t.isOpening := by
  simp [isOpening]

@[simp] theorem Token.isClosing_lineFeeds (t : Token) : t.lineFeeds.isClosing = t.isClosing := by
  simp [isClosing]

@[simp] theorem Token.endsValue_lineFeeds (t : Token) : t.lineFeeds.endsValue = t.endsValue := by
  simp [endsValue]

end LineFeeds

namespace Script

variable {tail cs bs : List Char}

theorem Excerpt.eq_tail (h : Excerpt tail cs []) : cs = tail := by
  cases h with
  | nil => rfl

/-! ### Texts that are the same up to a line end -/

section Abreast

/-- Pairs of texts with the same next character and such texts behind it, unless both texts are at
the end of a line. -/
def Abreast (S : List Char → List Char → Prop) : Prop :=
  ∀ cs ds, S cs ds → (∃ c cs' ds', cs = c :: cs' ∧ ds = c :: ds' ∧ S cs' ds') ∨
    AtLineEnd cs ∧ AtLineEnd ds

/-- Both lexemes are one token, which is no string literal, and are followed by such texts. -/
def Lexeme.Matches (S : List Char → List Char → Prop) (l l' : Lexeme) : Prop :=
  ∃ t rest rest', t.kind ≠ .str ∧ l = .token t 0 rest ∧ l' = .token t 0 rest' ∧ S rest rest'

section LineEnd

variable {p : Char → Bool} (h : AtLineEnd cs) (hp : Inline p)
include h hp

theorem AtLineEnd.any_head : cs.head?.any p = false := by
  cases h <;> simp [hp.1, hp.2]

theorem AtLineEnd.takeWhile : cs.takeWhile p = [] := by
  cases h <;> simp [hp.1, hp.2]

theorem AtLineEnd.dropWhile : cs.dropWhile p = cs := by
  cases h <;> simp [hp.1, hp.2]

end LineEnd

theorem AtLineEnd.isPrefixOf_cons {a : Char} (h : AtLineEnd cs) (ha : a ≠ '\n' ∧ a ≠ '\r')
    (w : List Char) : (a :: w).isPrefixOf cs = false := by
  cases h with
  | nil => rfl
  | newline cs => rw [List.isPrefixOf_cons_cons, beq_eq_false_iff_ne.2 ha.1, Bool.false_and]
  | carriage cs => rw [List.isPrefixOf_cons_cons, beq_eq_false_iff_ne.2 ha.2, Bool.false_and]

theorem inline_isDigit : Inline Char.isDigit := ⟨by decide, by decide⟩

theorem inline_isDigitPart : Inline isDigitPart := ⟨by decide, by decide⟩

theorem inline_isWordPart : Inline isWordPart := ⟨by decide, by decide⟩

variable {S : List Char → List Char → Prop} (hS : Abreast S) {ds : List Char}
include hS

theorem Abreast.induction {motive : (cs ds : List Char) → S cs ds → Prop}
    (stop : ∀ {cs ds : List Char} (h : S cs ds), AtLineEnd cs → AtLineEnd ds → motive cs ds h)
    (char : ∀ {c : Char} {cs ds : List Char} (h : S (c :: cs) (c :: ds)) (h' : S cs ds),
      motive cs ds h' → motive (c :: cs) (c :: ds) h)
    {cs ds : List Char} (h : S cs ds) : motive cs ds h := by
  induction cs generalizing ds with
  | nil =>
    rcases hS _ _ h with ⟨c, cs', ds', hcs, -⟩ | ⟨hcs, hds⟩
    · cases hcs
    · exact stop h hcs hds
  | cons c cs ih =>
    rcases hS _ _ h with ⟨c, cs', ds', hcs, rfl, h'⟩ | ⟨hcs, hds⟩
    · cases hcs
      exact char h h' (ih h')
    · exact stop h hcs hds

section Inline

variable {p : Char → Bool} (h : S cs ds) (hp : Inline p)
include h hp

theorem Abreast.any_head : ds.head?.any p = cs.head?.any p := by
  induction h using hS.induction with
  | stop h hcs hds => rw [hcs.any_head hp, hds.any_head hp]
  | char h h' ih => rfl

theorem Abreast.takeWhile : ds.takeWhile p = cs.takeWhile p := by
  induction h using hS.induction with
  | stop h hcs hds => rw [hcs.takeWhile hp, hds.takeWhile hp]
  | char h h' ih => rw [List.takeWhile_cons, List.takeWhile_cons, ih]

theorem Abreast.dropWhile : S (cs.dropWhile p) (ds.dropWhile p) := by
  induction h using hS.induction with
  | stop h hcs hds => rwa [hcs.dropWhile hp, hds.dropWhile hp]
  | @char c cs ds h h' ih =>
    rw [List.dropWhile_cons, List.dropWhile_cons]
    split_ifs
    · exact ih
    · exact h

end Inline

section Word

variable {w : List Char} (hw : ∀ c ∈ w, c ≠ '\n' ∧ c ≠ '\r') (h : S cs ds)
include hw h

theorem Abreast.isPrefixOf : w.isPrefixOf ds = w.isPrefixOf cs := by
  induction w generalizing cs ds with
  | nil => rfl
  | cons a w ih =>
    obtain ⟨ha, hw⟩ := List.forall_mem_cons.1 hw
    rcases hS _ _ h with ⟨c, cs, ds, rfl, rfl, h'⟩ | ⟨hcs, hds⟩
    · rw [List.isPrefixOf_cons_cons, List.isPrefixOf_cons_cons, ih hw h']
    · rw [hcs.isPrefixOf_cons ha, hds.isPrefixOf_cons ha]

theorem Abreast.drop (hpre : w.isPrefixOf cs = true) : S (cs.drop w.length) (ds.drop w.length) := by
  induction w generalizing cs ds with
  | nil => exact h
  | cons a w ih =>
    obtain ⟨ha, hw⟩ := List.forall_mem_cons.1 hw
    rcases hS _ _ h with ⟨c, cs, ds, rfl, rfl, h'⟩ | ⟨hcs, hds⟩
    · rw [List.isPrefixOf_cons_cons, Bool.and_eq_true] at hpre
      exact ih hw h' hpre.2
    · rw [hcs.isPrefixOf_cons ha] at hpre
      cases hpre

end Word

theorem signPart_abreast (h : S cs ds) :
    (signPart ds).1 = (signPart cs).1 ∧ S (signPart cs).2 (signPart ds).2 := by
  induction h using hS.induction with
  | stop h hcs hds => cases hcs <;> cases hds <;> exact ⟨rfl, h⟩
  | char h h' ih =>
    simp only [signPart]
    split_ifs
    · exact ⟨rfl, h'⟩
    · exact ⟨rfl, h⟩

theorem exponentPart_abreast (h : S cs ds) :
    (exponentPart ds).1 = (exponentPart cs).1 ∧ S (exponentPart cs).2 (exponentPart ds).2 := by
  induction h using hS.induction with
  | stop h hcs hds => cases hcs <;> cases hds <;> exact ⟨rfl, h⟩
  | char h h' ih =>
    obtain ⟨hsign, hdigits⟩ := signPart_abreast hS h'
    simp only [exponentPart, hsign, hS.any_head hdigits inline_isDigit,
      hS.takeWhile hdigits inline_isDigit]
    split_ifs
    · exact ⟨rfl, hS.dropWhile hdigits inline_isDigit⟩
    · exact ⟨rfl, h⟩

theorem fractionPart_abreast (h : S cs ds) :
    (fractionPart ds).1 = (fractionPart cs).1 ∧ S (fractionPart cs).2 (fractionPart ds).2 := by
  induction h using hS.induction with
  | stop h hcs hds => cases hcs <;> cases hds <;> exact ⟨rfl, h⟩
  | @char c cs ds h h' ih =>
    by_cases hpoint : c = '.'
    · subst hpoint
      simp only [fractionPart, hS.takeWhile h' inline_isDigitPart]
      exact ⟨trivial, hS.dropWhile h' inline_isDigitPart⟩
    · have hnone : ∀ ds, fractionPart (c :: ds) = ([], c :: ds) := by
        intro ds
        rw [fractionPart]
        exact fun _ heq => hpoint (List.cons.inj heq).1
      rw [hnone, hnone]
      exact ⟨rfl, h⟩

theorem numberLexeme_abreast (h : S cs ds) : (numberLexeme cs).Matches S (numberLexeme ds) := by
  obtain ⟨hfrac, hmid⟩ := fractionPart_abreast hS (hS.dropWhile h inline_isDigitPart)
  obtain ⟨hexponent, hrest⟩ := exponentPart_abreast hS hmid
  simp only [numberLexeme, hS.takeWhile h inline_isDigitPart, hfrac, hexponent]
  exact ⟨_, _, _, by simp, rfl, rfl, hrest⟩

theorem operatorLexeme_abreast {c : Char} (h : S (c :: cs) (c :: ds))
    (hread : ∀ n e, operatorLexeme c cs ≠ .fault n e) :
    (operatorLexeme c cs).Matches S (operatorLexeme c ds) := by
  have hall : (operators.all fun op => op.toList.all fun d => d != '\n' && d != '\r') = true := by
    decide
  have hops : ∀ op ∈ operators, ∀ d ∈ op.toList, d ≠ '\n' ∧ d ≠ '\r' := by
    intro op hop d hd
    simpa using List.all_eq_true.1 (List.all_eq_true.1 hall op hop) d hd
  have hfind : (operators.find? fun op => op.toList.isPrefixOf (c :: ds)) =
      operators.find? fun op => op.toList.isPrefixOf (c :: cs) :=
    List.find?_congr fun op hop => hS.isPrefixOf (hops op hop) h
  unfold operatorLexeme at hread ⊢
  rw [hfind]
  split at hread
  · rename_i op hop
    have hpre : op.toList.isPrefixOf (c :: cs) = true := by simpa using List.find?_some hop
    exact ⟨.ofOp op, _, _, by simp [Token.ofOp], rfl, rfl,
      hS.drop (hops op (List.mem_of_find?_eq_some hop)) h hpre⟩
  · exact absurd rfl (hread _ _)

theorem wordLexeme_abreast (h : S cs ds) :
    (wordLexeme cs).Matches S (wordLexeme ds) ∨
      ∃ letters q rest rest', isQuote q = true ∧ '\r' ∉ letters ∧ S rest rest' ∧
        wordLexeme cs = stringLexeme letters q rest ∧
        wordLexeme ds = stringLexeme letters q rest' := by
  have hrest := hS.dropWhile h inline_isWordPart
  have hletters : '\r' ∉ cs.takeWhile isWordPart := by
    intro hmem
    exact absurd (List.mem_takeWhile_imp hmem) (by decide)
  have hname : Lexeme.Matches S
      (.token ⟨.name, String.ofList (cs.takeWhile isWordPart)⟩ 0 (cs.dropWhile isWordPart))
      (.token ⟨.name, String.ofList (cs.takeWhile isWordPart)⟩ 0 (ds.dropWhile isWordPart)) :=
    ⟨_, _, _, by simp, rfl, rfl, hrest⟩
  unfold wordLexeme
  dsimp only
  rw [hS.takeWhile h inline_isWordPart]
  generalize cs.dropWhile isWordPart = rest at hname hrest ⊢
  generalize ds.dropWhile isWordPart = rest' at hname hrest ⊢
  rcases hS _ _ hrest with ⟨q, rest, rest', rfl, rfl, hbehind⟩ | ⟨hend, hend'⟩
  · dsimp only
    split_ifs with hstring
    · simp only [Bool.and_eq_true] at hstring
      exact .inr ⟨_, q, rest, rest', hstring.1.1, hletters, hbehind, rfl, rfl⟩
    · exact .inl hname
  · have hquote : isQuote '\n' = false ∧ isQuote '\r' = false := by decide
    left
    cases hend <;> cases hend' <;> simpa [hquote] using hname

theorem measureIndent_abreast (width : Nat) (h : S cs ds) :
    (measureIndent width ds).1 = (measureIndent width cs).1 ∧
      S (measureIndent width cs).2 (measureIndent width ds).2 := by
  induction h using hS.induction generalizing width with
  | stop h hcs hds => cases hcs <;> cases hds <;> exact ⟨rfl, h⟩
  | @char c cs ds h h' ih =>
    by_cases hspace : c = ' '
    · subst hspace
      exact ih _
    · by_cases htab : c = '\t'
      · subst htab
        exact ih _
      · have hstop : ∀ ds, measureIndent width (c :: ds) = (width, c :: ds) := by
          intro ds
          rw [measureIndent]
          · exact fun _ heq => hspace (List.cons.inj heq).1
          · exact fun _ heq => htab (List.cons.inj heq).1
        rw [hstop, hstop]
        exact ⟨rfl, h⟩

end Abreast

/-! ### Lexemes of an excerpt -/

theorem abreast_within (tail : List Char) : Abreast (Within tail) := by
  rintro cs bs ⟨h, hbs⟩
  cases h with
  | nil => exact absurd rfl hbs
  | last htail => exact .inr ⟨.nil, .newline _⟩
  | newline h => exact .inr ⟨.newline _, .newline _⟩
  | crlf h => exact .inr ⟨.carriage _, .newline _⟩
  | @char c cs bs hc hr hne h => exact .inl ⟨c, cs, bs, rfl, rfl, h, hne⟩

theorem Lexeme.Matches.excerpted {l l' : Lexeme} (h : l.Matches (Within tail) l') :
    l.Excerpted tail l' := by
  obtain ⟨t, rest, rest', hkind, rfl, rfl, hrest⟩ := h
  have htoken := Lexeme.Excerpted.token t 0 hrest.excerpt
  rwa [Token.lineFeeds_of_kind hkind] at htoken

namespace Within

theorem comment (h : Within tail cs bs) :
    Excerpt tail (cs.dropWhile (· != '\n')) (bs.dropWhile (· != '\n')) := by
  obtain ⟨h, hbs⟩ := h
  induction h with
  | nil => exact absurd rfl hbs
  | last htail => exact .last htail
  | newline h ih => exact .newline h
  | crlf h ih => exact .newline h
  | char hc hr hne h ih => simpa [hc] using ih hne

theorem join (h : Within tail cs bs) {rest : List Char}
    (hrest : cs.dropWhile (· == '\r') = '\n' :: rest) :
    ∃ rest', bs.dropWhile (· == '\r') = '\n' :: rest' ∧ Excerpt tail rest rest' := by
  obtain ⟨h, hbs⟩ := h
  induction h with
  | nil => exact absurd rfl hbs
  | last htail => cases hrest
  | @newline cs bs h ih =>
    obtain rfl : cs = rest := by simpa using hrest
    exact ⟨bs, rfl, h⟩
  | @crlf cs bs h ih =>
    obtain rfl : cs = rest := by simpa using hrest
    exact ⟨bs, rfl, h⟩
  | @char c cs bs hc hr hne h ih =>
    by_cases hreturn : c = '\r'
    · subst hreturn
      simpa using ih (by simpa using hrest) hne
    · rw [List.dropWhile_cons_of_neg (by simpa using hreturn)] at hrest
      exact absurd (List.cons.inj hrest).1 hc

end Within

section Strings

variable {q : Char} {triple : Bool} {text rest : List Char}

theorem ne_of_isQuote (hq : isQuote q = true) : q ≠ '\\' ∧ q ≠ '\n' ∧ q ≠ '\r' := by
  refine ⟨?_, ?_, ?_⟩ <;> · rintro rfl; exact absurd hq (by decide)

theorem inline_of_isQuote (hq : isQuote q = true) : ∀ c ∈ [q, q], c ≠ '\n' ∧ c ≠ '\r' := by
  simpa using (ne_of_isQuote hq).2

variable {c : Char}

theorem closeString_cons (hc : c ≠ '\\') (cs : List Char) :
    closeString q triple (c :: cs) =
      if c = '\n' && !triple then .error 0
      else if c = q && !triple then .ok ([q], 0, cs)
      else if c = q && [q, q].isPrefixOf cs then .ok ([q, q, q], 0, cs.drop 2)
      else readAfter [c] (closeString q triple cs) := by
  rw [closeString]
  · exact fun h => absurd h hc
  · exact fun _ _ h => absurd h hc

/-- How a literal is read up to its closing quotes: from a text, what is read of it, and the rest. -/
inductive Closes (q : Char) (triple : Bool) : List Char → List Char → List Char → Prop
  | escape (c : Char) {cs text rest : List Char} (h : Closes q triple cs text rest) :
      Closes q triple ('\\' :: c :: cs) ('\\' :: c :: text) rest
  | single (htriple : triple = false) (rest : List Char) : Closes q triple (q :: rest) [q] rest
  | three (htriple : triple = true) (rest : List Char) :
      Closes q triple (q :: q :: q :: rest) [q, q, q] rest
  | char {c : Char} {cs text rest : List Char} (hc : c ≠ '\\') (hline : triple = false → c ≠ '\n')
      (hopen : c = q → triple = true ∧ ¬[q, q] <+: cs) (h : Closes q triple cs text rest) :
      Closes q triple (c :: cs) (c :: text) rest

theorem closes_of_closeString {n : Nat} (h : closeString q triple cs = .ok (text, n, rest)) :
    Closes q triple cs text rest := by
  fun_induction closeString q triple cs generalizing text n rest with
  | case1 => cases h
  | case2 => cases h
  | case3 c cs ih =>
    obtain ⟨body, k, hbody, rfl⟩ := readAfter_eq_ok h
    exact .escape c (ih hbody)
  | case4 => cases h
  | case5 c cs hescape hescape' hline hclose =>
    simp only [Bool.and_eq_true, decide_eq_true_eq, Bool.not_eq_true'] at hclose
    cases h
    rw [hclose.1]
    exact .single hclose.2 cs
  | case6 c cs hescape hescape' hline hclose hclose' =>
    simp only [Bool.and_eq_true, decide_eq_true_eq] at hclose'
    obtain ⟨rest, rfl⟩ := List.isPrefixOf_iff_prefix.1 hclose'.2
    cases h
    rw [hclose'.1]
    exact .three (by simpa [hclose'.1] using hclose) rest
  | case7 c cs hescape hescape' hline hclose hclose' ih =>
    obtain ⟨body, k, hbody, rfl⟩ := readAfter_eq_ok h
    have hc : c ≠ '\\' := by
      rintro rfl
      cases cs with
      | nil => exact hescape rfl rfl
      | cons d ds => exact hescape' d ds rfl rfl
    refine .char hc (by rintro rfl; simpa using hline) (fun hcq => ⟨by simpa [hcq] using hclose, ?_⟩)
      (ih hbody)
    rw [← List.isPrefixOf_iff_prefix]
    simpa [hcq] using hclose'

theorem Closes.closeString (hq : isQuote q = true) (h : Closes q triple cs text rest) :
    closeString q triple cs = .ok (text, newlinesIn text, rest) := by
  obtain ⟨hslash, hnewline, -⟩ := ne_of_isQuote hq
  induction h with
  | escape c h ih =>
    rw [Script.closeString, ih, Script.readAfter, ← newlinesIn_append]
    rfl
  | single htriple rest => simp [closeString_cons hslash, hnewline, htriple, newlinesIn]
  | three htriple rest =>
    simp [closeString_cons hslash, hnewline, htriple, newlinesIn, List.isPrefixOf]
  | @char c cs text rest hc hline hopen h ih =>
    have hquotes : ¬(c = q && [q, q].isPrefixOf cs) = true := by
      simpa using fun hcq => (hopen hcq).2
    rw [closeString_cons hc, if_neg, if_neg, if_neg hquotes, ih, Script.readAfter,
      ← newlinesIn_append]
    · rfl
    · simpa using fun hcq => (hopen hcq).1
    · cases triple <;> simp_all

theorem newlinesIn_of_closeString (hq : isQuote q = true) {n : Nat}
    (h : closeString q triple cs = .ok (text, n, rest)) : n = newlinesIn text := by
  rw [(closes_of_closeString h).closeString hq] at h
  cases h
  rfl

theorem Closes.eq (h : Closes q triple cs text rest) : cs = text ++ rest := by
  induction h with
  | escape c h ih => rw [ih]; rfl
  | single => rfl
  | three => rfl
  | char hc hline hopen h ih => rw [ih]; rfl

theorem Closes.head (h : Closes q triple cs text rest) : text.head? = cs.head? := by
  cases h <;> rfl

theorem Closes.ne_nil (h : Closes q triple cs text rest) : cs ≠ [] := by
  cases h <;> exact List.cons_ne_nil _ _

theorem Closes.of_newline (hq : isQuote q = true) (h : Closes q triple ('\n' :: cs) text rest) :
    triple = true ∧ ∃ body, text = '\n' :: body ∧ Closes q triple cs body rest := by
  obtain ⟨-, hnewline, -⟩ := ne_of_isQuote hq
  generalize hds : '\n' :: cs = ds at h
  cases h with
  | escape => exact absurd (List.cons.inj hds).1 (by decide)
  | single | three => exact absurd (List.cons.inj hds).1.symm hnewline
  | char hc hline hopen h =>
    obtain ⟨rfl, rfl⟩ := List.cons.inj hds
    refine ⟨?_, _, rfl, h⟩
    cases triple with
    | false => exact absurd rfl (hline rfl)
    | true => rfl

theorem closeString_newline (hq : isQuote q = true) (htriple : triple = true) (bs : List Char) :
    closeString q triple ('\n' :: bs) = readAfter ['\n'] (closeString q triple bs) := by
  rw [closeString_cons (by decide)]
  simp [htriple, (ne_of_isQuote hq).2.1.symm]

/-- The text and the rest are read with single line ends, or the end of the literal is missing. -/
def Recovers (tail text rest : List Char) (r : Except Nat (List Char × Nat × List Char)) : Prop :=
  (∃ rest', r = .ok (Text.lineFeeds text, newlinesIn (Text.lineFeeds text), rest') ∧
    Excerpt tail rest rest') ∨ ∃ n, r = .error n

theorem Recovers.readAfter {taken body : List Char} {r : Except Nat (List Char × Nat × List Char)}
    (h : Recovers tail body rest r) (htext : Text.lineFeeds text = taken ++ Text.lineFeeds body) :
    Recovers tail text rest (readAfter taken r) := by
  rcases h with ⟨rest', rfl, hrest⟩ | ⟨n, rfl⟩
  · exact .inl ⟨rest', by rw [Script.readAfter, htext, newlinesIn_append], hrest⟩
  · exact .inr ⟨_, rfl⟩

theorem Recovers.of_readAfter {body : List Char} {r : Except Nat (List Char × Nat × List Char)}
    (h : Recovers tail text rest (Script.readAfter [c] r))
    (htext : Text.lineFeeds text = c :: Text.lineFeeds body) : Recovers tail body rest r := by
  cases r with
  | error n => exact .inr ⟨n, rfl⟩
  | ok p =>
    rcases h with ⟨rest', hr, hrest⟩ | ⟨n, hr⟩
    · simp only [Script.readAfter, htext, Except.ok.injEq, Prod.mk.injEq, List.cons_append,
        List.nil_append, List.cons.injEq, true_and] at hr
      obtain ⟨hbody, hcount, rfl⟩ := hr
      have hcount : p.2.1 = newlinesIn (Text.lineFeeds body) :=
        Nat.add_left_cancel (hcount.trans (newlinesIn_append [c] (Text.lineFeeds body)))
      exact .inl ⟨p.2.2, by rw [← hcount, ← hbody], hrest⟩
    · cases hr

theorem recovers_nil : Recovers tail text rest (closeString q triple []) := .inr ⟨0, rfl⟩

/-- Of a `\r\n` behind it the backslash takes the return only, and the line end is read next. -/
theorem Closes.recovers_escape (hq : isQuote q = true) (h : Closes q triple cs text rest)
    (ih : ∀ {bs}, Excerpt tail cs bs → Recovers tail text rest (Script.closeString q triple bs))
    (hx : Excerpt tail (c :: cs) bs) (hbs : bs ≠ []) :
    Recovers tail ('\\' :: c :: text) rest (Script.closeString q triple ('\\' :: bs)) := by
  have hfeeds : ∀ {c : Char} (ds), c ≠ '\r' → Text.lineFeeds (c :: ds) = c :: Text.lineFeeds ds :=
    fun ds hc => Text.lineFeeds_cons fun h => absurd h hc
  cases hx with
  | nil => exact absurd rfl hbs
  | newline hx =>
    rw [Script.closeString]
    exact (ih hx).readAfter (by rw [hfeeds _ (by decide), hfeeds _ (by decide)]; rfl)
  | @crlf cs bs hx =>
    obtain ⟨htriple, body, rfl, -⟩ := h.of_newline hq
    have hnext := ih (.newline hx)
    rw [closeString_newline hq htriple] at hnext
    rw [Script.closeString]
    refine (hnext.of_readAfter (hfeeds body (by decide))).readAfter ?_
    rw [hfeeds _ (by decide), Text.lineFeeds]
    rfl
  | char hc hr _ hx =>
    rw [Script.closeString]
    exact (ih hx).readAfter (by rw [hfeeds _ (by decide), Text.lineFeeds_cons (h.head ▸ hr)]; rfl)

theorem Closes.recovers_char (hq : isQuote q = true) (hc : c ≠ '\\')
    (hline : triple = false → c ≠ '\n') (hopen : c = q → triple = true ∧ ¬[q, q] <+: cs)
    (h : Closes q triple cs text rest)
    (ih : ∀ {bs}, Excerpt tail cs bs → Recovers tail text rest (Script.closeString q triple bs))
    (hx : Excerpt tail (c :: cs) bs) :
    Recovers tail (c :: text) rest (Script.closeString q triple bs) := by
  cases hx with
  | nil => exact recovers_nil
  | newline hx =>
    have htriple : triple = true := by simpa using mt hline (by decide)
    rw [closeString_newline hq htriple]
    exact (ih hx).readAfter (Text.lineFeeds_cons fun h => absurd h (by decide))
  | crlf hx =>
    have hnext := ih (.newline hx)
    unfold Recovers at hnext ⊢
    rw [Text.lineFeeds_return h.head]
    exact hnext
  | @char c cs bs hc' hr hne hx =>
    have hpre := (abreast_within tail).isPrefixOf (inline_of_isQuote hq) ⟨hx, hne⟩
    have hclose : ¬(c = q && [q, q].isPrefixOf bs) = true := by
      simpa [hpre] using fun hcq => (hopen hcq).2
    rw [closeString_cons hc, if_neg (by simp [hc']), if_neg (by simpa using fun hcq => (hopen hcq).1),
      if_neg hclose]
    exact (ih hx).readAfter (Text.lineFeeds_cons (h.head ▸ hr))

theorem Within.of_quote (hq : isQuote q = true) (h : Within tail (q :: cs) bs) :
    ∃ bs', bs = q :: bs' ∧ Within tail cs bs' := by
  obtain ⟨-, hnewline, hreturn⟩ := ne_of_isQuote hq
  rcases abreast_within tail _ _ h with ⟨c, cs', bs', hcs, rfl, h'⟩ | ⟨hcs, -⟩
  · obtain ⟨rfl, rfl⟩ := List.cons.inj hcs
    exact ⟨bs', rfl, h'⟩
  · cases hcs with
    | newline => exact absurd rfl hnewline
    | carriage => exact absurd rfl hreturn

theorem Closes.excerpt (hq : isQuote q = true) (h : Closes q triple cs text rest)
    (hx : Excerpt tail cs bs) : Recovers tail text rest (Script.closeString q triple bs) := by
  have hfeeds : ∀ ds, Text.lineFeeds (q :: ds) = q :: Text.lineFeeds ds := fun ds =>
    Text.lineFeeds_cons fun h => absurd h (ne_of_isQuote hq).2.2
  induction h generalizing bs with
  | escape c h ih =>
    cases hx with
    | nil => exact recovers_nil
    | char _ _ hbs hx => exact h.recovers_escape hq ih hx hbs
  | single htriple rest =>
    rcases eq_or_ne bs [] with rfl | hbs
    · exact recovers_nil
    · obtain ⟨bs, rfl, hwithin⟩ := Within.of_quote hq ⟨hx, hbs⟩
      refine .inl ⟨bs, ?_, hwithin.excerpt⟩
      rw [hfeeds]
      exact (Closes.single htriple bs).closeString hq
  | three htriple rest =>
    rcases eq_or_ne bs [] with rfl | hbs
    · exact recovers_nil
    · obtain ⟨bs₁, rfl, h₁⟩ := Within.of_quote hq ⟨hx, hbs⟩
      obtain ⟨bs₂, rfl, h₂⟩ := h₁.of_quote hq
      obtain ⟨bs, rfl, hwithin⟩ := h₂.of_quote hq
      refine .inl ⟨bs, ?_, hwithin.excerpt⟩
      rw [hfeeds, hfeeds, hfeeds]
      exact (Closes.three htriple bs).closeString hq
  | char hc hline hopen h ih => exact h.recovers_char hq hc hline hopen ih hx

theorem stringLexeme_within {letters : List Char} (hq : isQuote q = true)
    (hletters : '\r' ∉ letters) (h : Within tail cs bs)
    (hread : ∀ n e, stringLexeme letters q cs ≠ .fault n e) :
    (stringLexeme letters q cs).Excerpted tail (stringLexeme letters q bs) := by
  have hquote := inline_of_isQuote hq
  have hreturn : '\r' ≠ q := (ne_of_isQuote hq).2.2.symm
  have hopening : ∀ triple : Bool, '\r' ∉ letters ++ if triple then [q, q, q] else [q] := by
    intro triple
    cases triple <;> simp [hletters, hreturn]
  have hdrop : Excerpt tail
      (cs.drop ((if [q, q].isPrefixOf cs then [q, q, q] else [q]).length - 1))
      (bs.drop ((if [q, q].isPrefixOf cs then [q, q, q] else [q]).length - 1)) := by
    split_ifs with hquotes
    · exact ((abreast_within tail).drop hquote h hquotes).excerpt
    · exact h.excerpt
  unfold stringLexeme at hread ⊢
  dsimp only at hread ⊢
  rw [(abreast_within tail).isPrefixOf hquote h]
  cases hclose : closeString q ([q, q].isPrefixOf cs)
      (cs.drop ((if [q, q].isPrefixOf cs then [q, q, q] else [q]).length - 1)) with
  | error n =>
    rw [hclose] at hread
    exact absurd rfl (hread n .openString)
  | ok p =>
    obtain ⟨body, n, rest⟩ := p
    obtain rfl := newlinesIn_of_closeString hq hclose
    dsimp only
    rcases (closes_of_closeString hclose).excerpt hq hdrop with ⟨rest', heq, hrest⟩ | ⟨n, heq⟩
    · rw [heq]
      dsimp only
      have htoken := Lexeme.Excerpted.token ⟨.str, String.ofList ((letters ++
        if [q, q].isPrefixOf cs then [q, q, q] else [q]) ++ body)⟩ (newlinesIn body) hrest
      rw [Token.lineFeeds, if_pos rfl, String.toList_ofList,
        Text.lineFeeds_append (hopening _)] at htoken
      rw [Text.newlinesIn_lineFeeds]
      exact htoken
    · rw [heq]
      exact .torn _ _ _ _

end Strings

section Lexemes

theorem lexeme_within {after : Bool} {c : Char} (hc : c ≠ '\n')
    (hr : c = '\r' → cs.head? ≠ some '\n') (h : Within tail cs bs)
    (hread : ∀ n e, lexeme after c cs ≠ .fault n e) :
    (lexeme after c cs).Excerpted tail (lexeme after c bs) := by
  have hline : Within tail (c :: cs) (c :: bs) := ⟨.char hc hr h.unread h.excerpt, by simp⟩
  unfold lexeme at hread ⊢
  simp only [if_neg hc, (abreast_within tail).any_head h inline_isDigit] at hread ⊢
  split_ifs at hread ⊢ with hspace hcomment hjoin hquote hnumber hword
  · exact .blank h.excerpt
  · exact .blank h.comment
  · split at hread
    · rename_i rest hdrop
      obtain ⟨rest', hdrop', hrest⟩ := h.join hdrop
      rw [hdrop']
      exact .join hrest
    · exact absurd rfl (hread 0 .strayBackslash)
  · exact stringLexeme_within hquote (by simp) h hread
  · exact (numberLexeme_abreast (abreast_within tail) hline).excerpted
  · rcases wordLexeme_abreast (abreast_within tail) hline with
      hname | ⟨letters, q, rest, rest', hq, hletters, hrest, hcs, hbs⟩
    · exact hname.excerpted
    · rw [hcs] at hread ⊢
      rw [hbs]
      exact stringLexeme_within hq hletters hrest hread
  · exact (operatorLexeme_abreast (abreast_within tail) hline hread).excerpted

/-- The excerpt has the same lexeme next, but for the `\r` of a line end, which is blank. -/
theorem lexeme_excerpt {after : Bool} {c : Char} (h : Within tail (c :: cs) bs)
    (hread : ∀ n e, lexeme after c cs ≠ .fault n e) :
    (∃ b bs', bs = b :: bs' ∧ (lexeme after c cs).Excerpted tail (lexeme after b bs')) ∨
      lexeme after c cs = .blank cs ∧ Within tail cs bs := by
  obtain ⟨h, hbs⟩ := h
  cases h with
  | nil => exact absurd rfl hbs
  | @newline cs bs h => exact .inl ⟨'\n', bs, rfl, .newline h⟩
  | crlf h => exact .inr ⟨rfl, .newline h, hbs⟩
  | @char c cs bs hc hr hne h => exact .inl ⟨c, bs, rfl, lexeme_within hc hr ⟨h, hne⟩ hread⟩

end Lexemes

end Script

end ProcessModel
