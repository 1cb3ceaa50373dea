import Mathlib.Data.List.Chain
import Mathlib.Data.List.TakeWhile
import ProcessModel.Script.Statement

/-! Which texts are tokens.

Every token that is read has the form of its kind. Conversely a text of such a form, with nothing
behind it that would go on with it, is read as that token. -/

namespace ProcessModel

namespace Script

def IsWord (cs : List Char) : Prop :=
  cs.head?.any isWordStart = true ∧ ∀ c ∈ cs, isWordPart c = true

/-- The point and the digits behind it, or nothing. -/
inductive IsFraction : List Char → Prop
  | none : IsFraction []
  | digits {ds : List Char} (hds : ∀ c ∈ ds, c.isDigit = true) : IsFraction ('.' :: ds)

/-- A letter, a sign or none, and digits; or nothing. -/
inductive IsExponent : List Char → Prop
  | none : IsExponent []
  | digits {e : Char} {sign ds : List Char} (he : e = 'e' ∨ e = 'E')
      (hsign : sign = [] ∨ sign = ['+'] ∨ sign = ['-']) (hne : ds ≠ [])
      (hds : ∀ c ∈ ds, c.isDigit = true) : IsExponent (e :: (sign ++ ds))

/-- Whether a text starts with a digit or, unless behind a value, with a point and a digit. -/
def opensNumber (after : Bool) : List Char → Bool
  | [] => false
  | c :: cs => c.isDigit || (c = '.' && (cs.head?.any Char.isDigit) && !after)

inductive IsNumber : List Char → Prop
  | intro {whole frac exponent : List Char} (hwhole : ∀ c ∈ whole, c.isDigit = true)
      (hfrac : IsFraction frac) (hexponent : IsExponent exponent)
      (hopens : opensNumber false (whole ++ (frac ++ exponent)) = true) :
      IsNumber (whole ++ (frac ++ exponent))

section Span

variable {p : Char → Bool} {l rest : List Char}

theorem takeWhile_stop (hl : ∀ c ∈ l, p c = true) (hrest : ∀ c ∈ rest.head?, p c = false) :
    (l ++ rest).takeWhile p = l := by
  rw [List.takeWhile_append_of_pos hl]
  cases rest with
  | nil => simp
  | cons c rest => simp [hrest c rfl]

theorem dropWhile_stop (hl : ∀ c ∈ l, p c = true) (hrest : ∀ c ∈ rest.head?, p c = false) :
    (l ++ rest).dropWhile p = rest := by
  rw [List.dropWhile_append_of_pos hl]
  cases rest with
  | nil => simp
  | cons c rest => simp [hrest c rfl]

end Span

section Number

variable {c : Char}

theorem isDigitPart_of_isDigit (h : c.isDigit = true) : isDigitPart c = true := by
  simp [isDigitPart, h]

theorem isDigit_of_isDigitPart (h : isDigitPart c = true) (hne : (c != '_') = true) :
    c.isDigit = true := by
  simpa [isDigitPart, bne_iff_ne.1 hne] using h

theorem ne_underscore_of_isDigit (h : c.isDigit = true) : c ≠ '_' := by
  rintro rfl
  exact absurd h (by decide)

variable {rest : List Char}

theorem signPart_append {sign : List Char} (hsign : sign = [] ∨ sign = ['+'] ∨ sign = ['-'])
    (hrest : ∀ c ∈ rest.head?, c.isDigit = true) : signPart (sign ++ rest) = (sign, rest) := by
  rcases hsign with rfl | rfl | rfl
  · cases rest with
    | nil => rfl
    | cons c rest =>
      have hc : c.isDigit = true := hrest c rfl
      have hplus : c ≠ '+' := by
        rintro rfl
        exact absurd hc (by decide)
      have hminus : c ≠ '-' := by
        rintro rfl
        exact absurd hc (by decide)
      simp [signPart, hplus, hminus]
  · rfl
  · rfl

theorem exponentPart_append {exponent : List Char} (h : IsExponent exponent)
    (hrest : ∀ c ∈ rest.head?, c.isDigit = false ∧ c ≠ 'e' ∧ c ≠ 'E') :
    exponentPart (exponent ++ rest) = (exponent, rest) := by
  cases h with
  | none =>
    cases rest with
    | nil => rfl
    | cons c rest =>
      obtain ⟨-, he, hE⟩ := hrest c rfl
      simp [exponentPart, he, hE]
  | @digits e sign ds he hsign hne hds =>
    obtain ⟨d, ds, rfl⟩ := List.exists_cons_of_ne_nil hne
    have hd : d.isDigit = true := hds d List.mem_cons_self
    have hstop : ∀ c ∈ rest.head?, c.isDigit = false := fun c hc => (hrest c hc).1
    have hsigned : signPart (sign ++ (d :: ds ++ rest)) = (sign, d :: ds ++ rest) :=
      signPart_append hsign (by simpa using hd)
    have htake := takeWhile_stop hds hstop
    have hdrop := dropWhile_stop hds hstop
    rw [List.cons_append, List.append_assoc, exponentPart, hsigned, htake, hdrop]
    simp [he, hd]

theorem isExponent_exponentPart (cs : List Char) : IsExponent (exponentPart cs).1 := by
  cases cs with
  | nil => exact .none
  | cons c cs =>
    rw [exponentPart]
    split_ifs with h
    · rw [Bool.and_eq_true, Bool.or_eq_true, decide_eq_true_eq, decide_eq_true_eq] at h
      obtain ⟨he, hdigit⟩ := h
      have hsign : (signPart cs).1 = [] ∨ (signPart cs).1 = ['+'] ∨ (signPart cs).1 = ['-'] := by
        unfold signPart
        split
        · split_ifs with hs
          · simpa using hs
          · exact .inl rfl
        · exact .inl rfl
      refine .digits he hsign ?_ fun d hd => List.mem_takeWhile_imp hd
      cases hrest : (signPart cs).2 with
      | nil => simp [hrest] at hdigit
      | cons d rest =>
        have hd : d.isDigit = true := by simpa [hrest] using hdigit
        simp [hd]
    · exact .none

theorem fractionPart_append {frac : List Char} (h : IsFraction frac)
    (hrest : ∀ c ∈ rest.head?, isDigitPart c = false ∧ c ≠ '.') :
    fractionPart (frac ++ rest) = (frac, rest) := by
  cases h with
  | none =>
    cases rest with
    | nil => rfl
    | cons c rest =>
      unfold fractionPart
      split
      · rename_i cs heq
        exact absurd (List.cons.inj heq).1 (hrest c rfl).2
      · rfl
  | digits hds =>
    have hstop : ∀ c ∈ rest.head?, isDigitPart c = false := fun c hc => (hrest c hc).1
    have hparts := fun c hc => isDigitPart_of_isDigit (hds c hc)
    rw [List.cons_append, fractionPart, takeWhile_stop hparts hstop, dropWhile_stop hparts hstop]

theorem isDigit_of_mem_filter {l : List Char} (hl : ∀ c ∈ l, isDigitPart c = true) :
    ∀ c ∈ l.filter (· != '_'), c.isDigit = true := by
  intro c hc
  obtain ⟨hmem, hne⟩ := List.mem_filter.1 hc
  exact isDigit_of_isDigitPart (hl c hmem) hne

theorem isFraction_fractionPart (cs : List Char) :
    IsFraction ((fractionPart cs).1.filter (· != '_')) := by
  unfold fractionPart
  split
  · exact .digits (isDigit_of_mem_filter fun c hc => List.mem_takeWhile_imp hc)
  · exact .none

variable {cs : List Char}

theorem IsFraction.no_underscore (h : IsFraction cs) : '_' ∉ cs := by
  cases h with
  | none => simp
  | digits hds =>
    rw [List.mem_cons, not_or]
    exact ⟨by decide, fun hmem => absurd (hds _ hmem) (by decide)⟩

theorem IsExponent.no_underscore (h : IsExponent cs) : '_' ∉ cs := by
  cases h with
  | none => simp
  | digits he hsign hne hds =>
    rw [List.mem_cons, List.mem_append, not_or, not_or]
    refine ⟨?_, ?_, fun hmem => absurd (hds _ hmem) (by decide)⟩
    · rintro rfl
      exact absurd he (by decide)
    · rcases hsign with rfl | rfl | rfl <;> decide

def continuesNumber (c : Char) : Bool := isDigitPart c || c == '.' || c == 'e' || c == 'E'

theorem numberLexeme_append (h : IsNumber cs) (hrest : ∀ c ∈ rest.head?, continuesNumber c = false)
    : numberLexeme (cs ++ rest) = .token ⟨.number, String.ofList cs⟩ 0 rest := by
  obtain @⟨whole, frac, exponent, hwhole, hfrac, hexponent, -⟩ := h
  have hbehind : ∀ c ∈ rest.head?, (isDigitPart c = false ∧ c ≠ '.') ∧
      c.isDigit = false ∧ c ≠ 'e' ∧ c ≠ 'E' := by
    intro c hc
    have hstop := hrest c hc
    simp only [continuesNumber, Bool.or_eq_false_iff, beq_eq_false_iff_ne] at hstop
    obtain ⟨⟨⟨hdigit, hpoint⟩, he⟩, hE⟩ := hstop
    have hplain : c.isDigit = false := by
      simp only [isDigitPart, Bool.or_eq_false_iff] at hdigit
      exact hdigit.1
    exact ⟨⟨hdigit, hpoint⟩, hplain, he, hE⟩
  have hexp : ∀ c ∈ (exponent ++ rest).head?, isDigitPart c = false ∧ c ≠ '.' := by
    cases hexponent with
    | none => exact fun c hc => (hbehind c hc).1
    | @digits e sign ds he hsign hne hds =>
      intro c hc
      obtain rfl : e = c := by simpa using hc
      rcases he with rfl | rfl <;> decide
  have hpoint : ∀ c ∈ (frac ++ (exponent ++ rest)).head?, isDigitPart c = false := by
    cases hfrac with
    | none => exact fun c hc => (hexp c hc).1
    | digits hds =>
      intro c hc
      obtain rfl : '.' = c := by simpa using hc
      decide
  have hdigits := fun c hc => isDigitPart_of_isDigit (hwhole c hc)
  have hplain : (whole ++ (frac ++ exponent)).filter (· != '_') = whole ++ (frac ++ exponent) := by
    rw [List.filter_eq_self]
    intro c hc
    rw [bne_iff_ne]
    rintro rfl
    rcases List.mem_append.1 hc with hc | hc
    · exact ne_underscore_of_isDigit (hwhole _ hc) rfl
    · rcases List.mem_append.1 hc with hc | hc
      · exact hfrac.no_underscore hc
      · exact hexponent.no_underscore hc
  rw [List.append_assoc, List.append_assoc]
  unfold numberLexeme
  rw [takeWhile_stop hdigits hpoint, dropWhile_stop hdigits hpoint]
  dsimp only
  rw [fractionPart_append hfrac hexp]
  dsimp only
  rw [exponentPart_append hexponent fun c hc => (hbehind c hc).2, List.append_assoc, hplain]

theorem numberLexeme_eq_token (h : opensNumber false cs = true) :
    ∃ text rest, numberLexeme cs = .token ⟨.number, String.ofList text⟩ 0 rest ∧ IsNumber text ∧
      text.head? = cs.head? := by
  have hwhole : ∀ c ∈ (cs.takeWhile isDigitPart).filter (· != '_'), c.isDigit = true :=
    isDigit_of_mem_filter fun c hc => List.mem_takeWhile_imp hc
  have hfrac := isFraction_fractionPart (cs.dropWhile isDigitPart)
  have hexponent := isExponent_exponentPart (fractionPart (cs.dropWhile isDigitPart)).2
  have hplain : (exponentPart (fractionPart (cs.dropWhile isDigitPart)).2).1.filter (· != '_') =
      (exponentPart (fractionPart (cs.dropWhile isDigitPart)).2).1 := by
    rw [List.filter_eq_self]
    intro c hc
    rw [bne_iff_ne]
    rintro rfl
    exact hexponent.no_underscore hc
  have hopens : ∀ tail text, text = (cs.takeWhile isDigitPart).filter (· != '_') ++
      ((fractionPart (cs.dropWhile isDigitPart)).1.filter (· != '_') ++ tail) →
      opensNumber false text = true ∧ text.head? = cs.head? := by
    rintro tail text rfl
    cases cs with
    | nil => cases h
    | cons c cs =>
      by_cases hdigit : c.isDigit = true
      · have hne := ne_underscore_of_isDigit hdigit
        simp [isDigitPart_of_isDigit hdigit, hne, opensNumber, hdigit]
      · obtain ⟨rfl, hhead⟩ : c = '.' ∧ cs.head?.any Char.isDigit = true := by
          simpa [opensNumber, hdigit] using h
        have hpoint : isDigitPart '.' = false := by decide
        cases cs with
        | nil => cases hhead
        | cons d cs =>
          have hd : d.isDigit = true := hhead
          have hne := ne_underscore_of_isDigit hd
          simp [hpoint, fractionPart, isDigitPart_of_isDigit hd, hne, opensNumber, hd]
  refine ⟨_, (exponentPart (fractionPart (cs.dropWhile isDigitPart)).2).2, ?_,
    .intro hwhole hfrac hexponent (hopens _ _ rfl).1, (hopens _ _ rfl).2⟩
  unfold numberLexeme
  dsimp only
  rw [List.filter_append, List.filter_append, List.append_assoc, hplain]

end Number

section Characters

variable {c : Char}

theorem toNat_bounds_of_isAlpha (h : c.isAlpha = true) : 65 ≤ c.toNat ∧ c.toNat ≤ 122 := by
  replace h : (decide (c.val ≥ 65 ∧ c.val ≤ 90) ||
      decide (c.val ≥ 97) && decide (c.val ≤ 122)) = true := h
  simp only [Bool.or_eq_true, Bool.and_eq_true, decide_eq_true_eq, ge_iff_le,
    UInt32.le_iff_toNat_le, UInt32.reduceToNat] at h
  have hval : c.toNat = c.val.toNat := rfl
  constructor <;> omega

variable (h : isWordStart c = true)
include h

theorem toNat_of_isWordStart : 65 ≤ c.toNat := by
  simp only [isWordStart, Bool.or_eq_true, beq_iff_eq] at h
  rcases h with h | rfl
  · unfold Text.isLetter at h
    split_ifs at h with hascii
    · exact (toNat_bounds_of_isAlpha h).1
    · omega
  · decide

theorem isWordStart_ne {d : Char} (hd : isWordStart d = false) : c ≠ d := by
  rintro rfl
  rw [h] at hd
  cases hd

theorem isDigit_of_isWordStart : c.isDigit = false := by
  have hbound := toNat_of_isWordStart h
  have hval : c.toNat = c.val.toNat := rfl
  rw [← Bool.not_eq_true]
  intro hdigit
  simp only [Char.isDigit, Bool.and_eq_true, decide_eq_true_eq, ge_iff_le,
    UInt32.le_iff_toNat_le] at hdigit
  simp at hdigit
  omega

theorem isWordPart_of_isWordStart : isWordPart c = true := by
  simp only [isWordStart, isWordPart, Text.isLetterOrNumeral, Bool.or_eq_true] at h ⊢
  exact h.imp_left .inl

end Characters

/-- The characters that go on with an operator. -/
def operatorParts : List Char := ['*', '/', '=', '>']

end Script

namespace Token

open Script

def IsLexeme (t : Token) : Prop :=
  match t.kind with
  | .name => IsWord t.text.toList
  | .number => IsNumber t.text.toList
  | .op => t.text ∈ operators
  | .str => True

/-- Whether a text that starts with `c` does not go on with the token before it. -/
def EndsBefore (t : Token) (c : Char) : Prop :=
  match t.kind with
  | .name => isWordPart c = false ∧ isQuote c = false
  | .number => continuesNumber c = false
  | .op => t.isOpening = true ∨ c ∉ operatorParts ∧ (t.text = "." → c.isDigit = false)
  | .str => True

def startsWithPoint (t : Token) : Bool := t.kind == .number && t.text.toList.head? == some '.'

/-- Behind a value, a point is an operator. -/
def Allows (t next : Token) : Prop := t.endsValue = true → next.startsWithPoint = false

end Token

namespace Script

section Reading

variable {after : Bool} {c : Char} {cs rest : List Char} {t : Token} {n : Nat}

theorem stringLexeme_eq_token {letters : List Char}
    (h : stringLexeme letters c cs = .token t n rest) : t.kind = .str := by
  unfold stringLexeme at h
  dsimp only at h
  split at h
  · cases h
    rfl
  · cases h

theorem wordLexeme_eq_token (hc : isWordStart c = true)
    (h : wordLexeme (c :: cs) = .token t n rest) :
    t.kind = .str ∨ t.kind = .name ∧ IsWord t.text.toList := by
  have hword : IsWord ((c :: cs).takeWhile isWordPart) := by
    refine ⟨?_, fun d hd => List.mem_takeWhile_imp hd⟩
    simp [isWordPart_of_isWordStart hc, hc]
  unfold wordLexeme at h
  dsimp only at h
  split at h
  · split_ifs at h
    · exact .inl (stringLexeme_eq_token h)
    · cases h
      exact .inr ⟨rfl, by simpa using hword⟩
  · cases h
    exact .inr ⟨rfl, by simpa using hword⟩

theorem operatorLexeme_eq_token (h : operatorLexeme c cs = .token t n rest) :
    t.kind = .op ∧ t.text ∈ operators := by
  unfold operatorLexeme at h
  split at h
  · rename_i op hop
    cases h
    exact ⟨rfl, List.mem_of_find?_eq_some hop⟩
  · cases h

/-- Every token that is read has the form of its kind, and starts with a point only where no value
stands before it. -/
theorem lexeme_eq_token (h : lexeme after c cs = .token t n rest) :
    t.IsLexeme ∧ (after = true → t.startsWithPoint = false) := by
  have hstr : t.kind = .str → t.IsLexeme ∧ (after = true → t.startsWithPoint = false) := by
    intro hkind
    simp [Token.IsLexeme, Token.startsWithPoint, hkind]
  unfold lexeme at h
  split_ifs at h with hnewline hspace hcomment hjoin hquote hnumber hword
  · split at h <;> cases h
  · exact hstr (stringLexeme_eq_token h)
  · have hopens : opensNumber false (c :: cs) = true := by
      simp only [opensNumber, Bool.or_eq_true, Bool.and_eq_true] at hnumber ⊢
      exact hnumber.imp_right fun h => ⟨h.1, rfl⟩
    obtain ⟨text, rest', hread, htext, hhead⟩ := numberLexeme_eq_token hopens
    rw [hread] at h
    cases h
    refine ⟨by simpa [Token.IsLexeme] using htext, fun hafter => ?_⟩
    have hdigit : c.isDigit = true := by simpa [hafter] using hnumber
    have hc : c ≠ '.' := by
      rintro rfl
      exact absurd hdigit (by decide)
    simp [Token.startsWithPoint, hhead, hc]
  · rcases wordLexeme_eq_token hword h with hkind | ⟨hkind, hform⟩
    · exact hstr hkind
    · simp [Token.IsLexeme, Token.startsWithPoint, hkind, hform]
  · obtain ⟨hkind, hform⟩ := operatorLexeme_eq_token h
    simp [Token.IsLexeme, Token.startsWithPoint, hkind, hform]

end Reading

section Writing

variable {after : Bool} {rest : List Char}

/-- The characters that start no word, number or operator. -/
def otherStarts : List Char := ['\n', ' ', '\t', '\r', '\x0c', '#', '\\', '\x22', '\x27']

variable {c : Char} {cs : List Char}

theorem lexeme_of_notMem (h : c ∉ otherStarts) :
    lexeme after c cs =
      if opensNumber after (c :: cs) then numberLexeme (c :: cs)
      else if isWordStart c then wordLexeme (c :: cs) else operatorLexeme c cs := by
  simp only [otherStarts, List.mem_cons, List.not_mem_nil, or_false, not_or] at h
  obtain ⟨hnewline, hspace, htab, hreturn, hfeed, hcomment, hjoin, hdouble, hsingle⟩ := h
  have hblank : isSpace c = false := by simp [isSpace, hspace, htab, hreturn, hfeed]
  have hquote : isQuote c = false := by simp [isQuote, hdouble, hsingle]
  simp only [lexeme, hnewline, hblank, hcomment, hjoin, hquote, if_false, Bool.false_eq_true]
  rfl

theorem lexeme_word (h : IsWord (c :: cs))
    (hrest : ∀ d ∈ rest.head?, isWordPart d = false ∧ isQuote d = false) :
    lexeme after c (cs ++ rest) = .token ⟨.name, String.ofList (c :: cs)⟩ 0 rest := by
  obtain ⟨hstart, hparts⟩ := h
  have hstop : ∀ d ∈ rest.head?, isWordPart d = false := fun d hd => (hrest d hd).1
  have htake := takeWhile_stop hparts hstop
  have hdrop := dropWhile_stop hparts hstop
  rw [List.cons_append] at htake hdrop
  replace hstart : isWordStart c = true := hstart
  have hnumber : ¬opensNumber after (c :: (cs ++ rest)) = true := by
    simp [opensNumber, isDigit_of_isWordStart hstart, isWordStart_ne hstart (d := '.') (by decide)]
  have hother : c ∉ otherStarts := by
    have hall : (otherStarts.all fun d => !isWordStart d) = true := by decide
    intro hmem
    simpa [hstart] using List.all_eq_true.1 hall c hmem
  rw [lexeme_of_notMem hother, if_neg hnumber, if_pos hstart]
  unfold wordLexeme
  rw [htake, hdrop]
  dsimp only
  cases rest with
  | nil => rfl
  | cons d rest =>
    dsimp only
    rw [if_neg (by simp [(hrest d rfl).2])]

theorem lexeme_number (h : IsNumber (c :: cs)) (hafter : after = true → c ≠ '.')
    (hrest : ∀ d ∈ rest.head?, continuesNumber d = false) :
    lexeme after c (cs ++ rest) = .token ⟨.number, String.ofList (c :: cs)⟩ 0 rest := by
  have hopens : opensNumber false (c :: cs) = true := by
    generalize hcs : c :: cs = text at h
    cases h with
    | intro hwhole hfrac hexponent hopens => exact hopens
  have hother : c ∉ otherStarts := by
    have hall : (otherStarts.all fun d => !d.isDigit && d != '.') = true := by decide
    intro hmem
    have hc : c.isDigit = false ∧ c ≠ '.' := by simpa using List.all_eq_true.1 hall c hmem
    simp [opensNumber, hc] at hopens
  have hnumber : opensNumber after (c :: (cs ++ rest)) = true := by
    by_cases hdigit : c.isDigit = true
    · simp [opensNumber, hdigit]
    · obtain ⟨rfl, hhead⟩ : c = '.' ∧ cs.head?.any Char.isDigit = true := by
        simpa [opensNumber, hdigit] using hopens
      have hvalue : after = false := by
        rw [← Bool.not_eq_true]
        exact fun h => hafter h rfl
      cases cs with
      | nil => cases hhead
      | cons d cs => simpa [opensNumber, hvalue] using hhead
  rw [lexeme_of_notMem hother, if_pos hnumber]
  exact numberLexeme_append h hrest

variable {op : String}

theorem operators_head (hop : op ∈ operators) (hc : op.toList.head? = some c) :
    c ∉ otherStarts ∧ c.isDigit = false ∧ isWordStart c = false ∧ (c = '.' → op = ".") := by
  have hall : ∀ op ∈ operators, (op.toList.head?.all fun c => !otherStarts.contains c &&
      !c.isDigit && !isWordStart c && (c != '.' || op == ".")) = true := by decide
  have hop := hall op hop
  simp only [hc, Option.all_some, Bool.and_eq_true, Bool.not_eq_true', Bool.or_eq_true,
    bne_iff_ne, beq_iff_eq, List.contains_eq_mem, decide_eq_false_iff_not] at hop
  obtain ⟨⟨⟨hother, hdigit⟩, hword⟩, hpoint⟩ := hop
  exact ⟨hother, hdigit, hword, fun h => hpoint.resolve_left fun hne => hne h⟩

/-- An operator comes before its beginnings in the list, and goes on with one of four characters. -/
theorem operators_order : operators.Pairwise fun long short =>
    ¬long.toList <+: short.toList ∧
      (short.toList <+: long.toList → (Token.ofOp short).isOpening = false ∧
        (long.toList.drop short.toList.length).head?.all operatorParts.contains = true) := by
  decide

theorem operatorLexeme_append (hop : op ∈ operators) (htext : op.toList = c :: cs)
    (hrest : (Token.ofOp op).isOpening = true ∨ ∀ d ∈ rest.head?, d ∉ operatorParts) :
    operatorLexeme c (cs ++ rest) = .token (.ofOp op) 0 rest := by
  have hfind : (operators.find? fun op => op.toList.isPrefixOf (c :: (cs ++ rest))) = some op := by
    rw [← List.cons_append, ← htext, List.find?_eq_some_iff_append]
    refine ⟨by simp, ?_⟩
    obtain ⟨as, bs, hsplit⟩ := List.append_of_mem hop
    refine ⟨as, bs, hsplit, fun long hlong => ?_⟩
    have horder := operators_order
    rw [hsplit, List.pairwise_append] at horder
    obtain ⟨hnot, hlonger⟩ := horder.2.2 long hlong op List.mem_cons_self
    rw [Bool.not_eq_true', ← Bool.not_eq_true, List.isPrefixOf_iff_prefix]
    intro hprefix
    rcases Nat.le_total long.toList.length op.toList.length with hle | hle
    · exact hnot (List.prefix_of_prefix_length_le hprefix (List.prefix_append _ _) hle)
    · have hshort := List.prefix_of_prefix_length_le (List.prefix_append _ _) hprefix hle
      obtain ⟨hclosed, hnext⟩ := hlonger hshort
      obtain ⟨tail, htail⟩ := hshort
      rw [← htail, List.drop_left] at hnext
      rw [← htail, List.prefix_append_right_inj] at hprefix
      cases tail with
      | nil =>
        rw [List.append_nil] at htail
        exact hnot (htail ▸ List.prefix_rfl)
      | cons d tail =>
        obtain ⟨behind, rfl⟩ := hprefix
        rw [hclosed] at hrest
        exact hrest.resolve_left Bool.false_ne_true d rfl (List.contains_iff_mem.1 hnext)
  unfold operatorLexeme
  rw [hfind]
  dsimp only
  rw [← List.cons_append, ← htext, List.drop_left]

theorem lexeme_operator (hop : op ∈ operators) (htext : op.toList = c :: cs)
    (hrest : ∀ d ∈ rest.head?, (Token.ofOp op).EndsBefore d) :
    lexeme after c (cs ++ rest) = .token (.ofOp op) 0 rest := by
  obtain ⟨hother, hdigit, hword, hpoint⟩ := operators_head hop (by rw [htext]; rfl)
  have hclosed : (Token.ofOp op).isOpening = true ∨ ∀ d ∈ rest.head?, d ∉ operatorParts := by
    by_cases hopening : (Token.ofOp op).isOpening = true
    · exact .inl hopening
    · exact .inr fun d hd => ((hrest d hd).resolve_left hopening).1
  have hnumber : ¬opensNumber after (c :: (cs ++ rest)) = true := by
    rw [opensNumber, hdigit, Bool.false_or, Bool.and_eq_true, Bool.and_eq_true, decide_eq_true_eq]
    rintro ⟨⟨rfl, hnext⟩, -⟩
    obtain rfl := hpoint rfl
    obtain rfl : cs = [] := (List.cons.inj htext).2.symm
    obtain ⟨d, hd, hdigit⟩ := (Option.any_eq_true _ _).1 hnext
    have hends := (hrest d hd).resolve_left (by decide)
    rw [hends.2 rfl] at hdigit
    cases hdigit
  rw [lexeme_of_notMem hother, if_neg hnumber, if_neg (by simp [hword])]
  exact operatorLexeme_append hop htext hclosed

/-- A token of the form of its kind is read from its text, as far as no value before it or character
behind it makes it another. -/
theorem lexeme_of_isLexeme {t : Token} (ht : t.IsLexeme) (hkind : t.kind ≠ .str)
    (hafter : after = true → t.startsWithPoint = false)
    (hrest : ∀ d ∈ rest.head?, t.EndsBefore d) :
    ∃ c cs, t.text.toList = c :: cs ∧ lexeme after c (cs ++ rest) = .token t 0 rest := by
  obtain ⟨kind, text⟩ := t
  cases htext : text.toList with
  | nil =>
    exfalso
    cases kind with
    | name => simp [Token.IsLexeme, htext, IsWord] at ht
    | number =>
      simp only [Token.IsLexeme, htext] at ht
      generalize hcs : ([] : List Char) = cs at ht
      cases ht with
      | intro hwhole hfrac hexponent hopens =>
        rw [← hcs] at hopens
        cases hopens
    | op =>
      have hne : ∀ op ∈ operators, op.toList ≠ [] := by decide
      exact hne text ht htext
    | str => exact hkind rfl
  | cons c cs =>
    refine ⟨c, cs, rfl, ?_⟩
    have hback : text = String.ofList (c :: cs) := by rw [← htext, String.ofList_toList]
    cases kind with
    | name =>
      have hword : IsWord (c :: cs) := htext ▸ ht
      rw [lexeme_word hword hrest, hback]
    | number =>
      have hnumber : IsNumber (c :: cs) := htext ▸ ht
      have hpoint : after = true → c ≠ '.' := by
        intro h
        simpa [Token.startsWithPoint, htext] using hafter h
      rw [lexeme_number hnumber hpoint hrest, hback]
    | op => exact lexeme_operator ht htext hrest
    | str => exact absurd rfl hkind

end Writing

end Script

end ProcessModel
