import Mathlib.Data.Set.List
import ProcessModel.Proofs.LineNumbers

/-! String literals.

The scanner passes an escaped character together with its backslash. Said of the content as it
stands: a character is escaped if an odd number of backslashes stands directly before it, and the
quotes that close are the first behind the opening ones that are not escaped. Taking off letters and
quotes by trial gives the content back, since no content in single quotes makes them look like
three. -/

namespace ProcessModel.Script

/-- What stands behind `before` is escaped: directly before it is an odd number of backslashes. -/
def Escaped (before : List Char) : Prop :=
  (before.reverse.takeWhile (· == '\\')).length % 2 = 1

def delimiter (q : Char) (triple : Bool) : List Char := if triple then [q, q, q] else [q]

/-- What may stand between the quotes of a literal. -/
structure IsContent (q : Char) (triple : Bool) (content : List Char) : Prop where
  /-- Behind the opening quotes, the closing ones are the first that are not escaped. -/
  closes : ∀ before, before ++ delimiter q triple <+: content ++ delimiter q triple →
    (¬Escaped before ↔ before = content)
  /-- Between single quotes every line end is escaped. -/
  inline : triple = false → ∀ before, before ++ ['\n'] <+: content → Escaped before

/-- A string literal in its parts. -/
@[ext]
structure Literal where
  letters : List Char
  quote : Char
  triple : Bool
  content : List Char
  letters_length : letters.length ≤ 2
  letters_mem : ∀ c ∈ letters, c ∈ ['r', 'R', 'u', 'U', 'b', 'B']
  quote_mem : quote ∈ ['\x22', '\x27']
  isContent : IsContent quote triple content

namespace Literal

def quotes (l : Literal) : List Char := delimiter l.quote l.triple

def quoted (l : Literal) : List Char := l.quotes ++ l.content ++ l.quotes

def text (l : Literal) : List Char := l.letters ++ l.quoted

def token (l : Literal) : Token := ⟨.str, String.ofList l.text⟩

end Literal

/-! ### Escapes -/

section Escapes

variable {c : Char}

theorem not_escaped_nil : ¬Escaped [] := by
  unfold Escaped
  decide

theorem escaped_backslash : Escaped ['\\'] := by
  unfold Escaped
  decide

theorem escaped_cons (hc : c ≠ '\\') (before : List Char) :
    Escaped (c :: before) ↔ Escaped before := by
  unfold Escaped
  rw [List.reverse_cons, List.takeWhile_append]
  split_ifs with hall
  · simp [hc, hall]
  · rfl

theorem escaped_pair (c : Char) (before : List Char) :
    Escaped ('\\' :: c :: before) ↔ Escaped before := by
  unfold Escaped
  rw [List.reverse_cons, List.reverse_cons, List.append_assoc, List.takeWhile_append]
  split_ifs with hall
  · by_cases hc : c = '\\' <;> simp [hc, hall]
  · rfl

end Escapes

section Contents

variable {q c : Char} {triple : Bool} {content : List Char}

theorem delimiter_inj {q' : Char} {triple' : Bool} :
    delimiter q triple = delimiter q' triple' ↔ q = q' ∧ triple = triple' := by
  cases triple <;> cases triple' <;> simp [delimiter]

theorem delimiter_prefix_cons_iff {cs : List Char} :
    delimiter q triple <+: c :: cs ↔ q = c ∧ (triple = true → [q, q] <+: cs) := by
  cases triple <;> simp [delimiter, List.cons_prefix_cons]

theorem isContent_nil (q : Char) (triple : Bool) : IsContent q triple [] := by
  refine ⟨fun before h => ?_, fun _ before h => ?_⟩
  · have hlength := h.length_le
    rw [List.length_append, List.nil_append] at hlength
    obtain rfl : before = [] := List.eq_nil_of_length_eq_zero (by omega)
    simp [not_escaped_nil]
  · simp at h

theorem IsContent.escape (h : IsContent q triple content) (hq : q ≠ '\\') (c : Char) :
    IsContent q triple ('\\' :: c :: content) := by
  -- Before the backslash stand neither quotes nor a line end, and behind it both are escaped.
  refine ⟨fun before hbefore => ?_, fun htriple before hbefore => ?_⟩ <;>
    rcases before with _ | ⟨d, _ | ⟨e, before⟩⟩ <;>
    simp only [List.cons_append, List.nil_append, List.cons_prefix_cons] at hbefore
  · exact absurd (delimiter_prefix_cons_iff.1 hbefore).1 hq
  · obtain ⟨rfl, -⟩ := hbefore
    simp [escaped_backslash]
  · obtain ⟨rfl, rfl, hbefore⟩ := hbefore
    simpa [escaped_pair] using h.closes before hbefore
  · simp at hbefore
  · exact hbefore.1 ▸ escaped_backslash
  · obtain ⟨rfl, rfl, hbefore⟩ := hbefore
    exact (escaped_pair _ _).2 (h.inline htriple before hbefore)

theorem IsContent.cons (h : IsContent q triple content) (hc : c ≠ '\\')
    (hopen : ¬delimiter q triple <+: c :: content ++ delimiter q triple)
    (hline : triple = false → c ≠ '\n') : IsContent q triple (c :: content) := by
  refine ⟨fun before hbefore => ?_, fun htriple before hbefore => ?_⟩ <;>
    rcases before with _ | ⟨d, before⟩ <;>
    simp only [List.cons_append, List.nil_append, List.cons_prefix_cons] at hbefore
  · exact absurd hbefore hopen
  · obtain ⟨rfl, hbefore⟩ := hbefore
    simpa [escaped_cons hc] using h.closes before hbefore
  · exact absurd hbefore.1.symm (hline htriple)
  · obtain ⟨rfl, hbefore⟩ := hbefore
    exact (escaped_cons hc before).2 (h.inline htriple before hbefore)

theorem IsContent.escaped (h : IsContent q triple content) {before after : List Char}
    (hcontent : content = before ++ delimiter q triple ++ after) : Escaped before := by
  by_contra hplain
  have hbefore : before ++ delimiter q triple <+: content ++ delimiter q triple := by
    rw [hcontent]
    exact (List.prefix_append _ _).trans (List.prefix_append _ _)
  have heq := (h.closes before hbefore).1 hplain
  have hlength := congrArg List.length (heq ▸ hcontent)
  cases triple <;> simp [delimiter] at hlength

end Contents

/-! ### The scanner -/

section Scanner

variable {q c : Char} {triple : Bool} {cs text rest content : List Char}

theorem Closes.isContent (hq : isQuote q = true) (h : Closes q triple cs text rest) :
    ∃ content, IsContent q triple content ∧ text = content ++ delimiter q triple := by
  induction h with
  | escape c h ih =>
    obtain ⟨content, hcontent, rfl⟩ := ih
    exact ⟨_, hcontent.escape (ne_of_isQuote hq).1 c, rfl⟩
  | single htriple => exact ⟨[], isContent_nil q triple, by simp [delimiter, htriple]⟩
  | three htriple => exact ⟨[], isContent_nil q triple, by simp [delimiter, htriple]⟩
  | @char c cs text rest hc hline hopen h ih =>
    obtain ⟨content, hcontent, rfl⟩ := ih
    refine ⟨_, hcontent.cons hc (fun hstart => ?_) hline, rfl⟩
    have hcs : delimiter q triple <+: c :: cs := by
      rw [h.eq]
      exact hstart.trans (List.prefix_append _ _)
    obtain ⟨rfl, htwo⟩ := delimiter_prefix_cons_iff.1 hcs
    exact (hopen rfl).2 (htwo (hopen rfl).1)

theorem cons_eq_delimiter_append (q : Char) (cs : List Char) :
    q :: cs = delimiter q ([q, q].isPrefixOf cs) ++
      cs.drop ((delimiter q ([q, q].isPrefixOf cs)).length - 1) := by
  cases hpre : [q, q].isPrefixOf cs with
  | false => rfl
  | true =>
    obtain ⟨rest, rfl⟩ := List.isPrefixOf_iff_prefix.1 hpre
    rfl

end Scanner

/-! ### Literals at the start of a text -/

section Leading

variable {q c : Char} {after : Bool} {cs rest letters : List Char} {t : Token} {n : Nat}

theorem isQuote_iff : isQuote q = true ↔ q ∈ ['\x22', '\x27'] := by simp [isQuote]

theorem isLiteralLetter_iff : isLiteralLetter c = true ↔ c ∈ ['r', 'R', 'u', 'U', 'b', 'B'] :=
  List.contains_iff_mem

theorem Literal.exists_quoted_eq (l : Literal) : ∃ tail, l.quoted = l.quote :: tail := by
  unfold quoted quotes delimiter
  split_ifs <;> exact ⟨_, rfl⟩

theorem exists_literal_of_stringLexeme (hq : isQuote q = true) (hlength : letters.length ≤ 2)
    (hletters : letters.all isLiteralLetter = true)
    (h : stringLexeme letters q cs = .token t n rest) :
    ∃ l : Literal, letters ++ q :: cs = l.text ++ rest ∧ t = l.token := by
  unfold stringLexeme at h
  dsimp only at h
  split at h
  · rename_i body k rest' hbody
    cases h
    replace hbody := closes_of_closeString hbody
    obtain ⟨content, hcontent, rfl⟩ := hbody.isContent hq
    have hcs : q :: cs = delimiter q ([q, q].isPrefixOf cs) ++
        (content ++ delimiter q ([q, q].isPrefixOf cs) ++ rest) := by
      rw [← hbody.eq]
      exact cons_eq_delimiter_append q cs
    refine ⟨⟨letters, q, [q, q].isPrefixOf cs, content, hlength, fun c hc =>
      isLiteralLetter_iff.1 (List.all_eq_true.1 hletters c hc), isQuote_iff.1 hq, hcontent⟩,
      ?_, ?_⟩
    · rw [hcs]
      simp [Literal.text, Literal.quoted, Literal.quotes]
    · simp [Literal.token, Literal.text, Literal.quoted, Literal.quotes, delimiter]
  · cases h

theorem exists_literal_of_lexeme (h : lexeme after c cs = .token t n rest) (hkind : t.kind = .str) :
    ∃ l : Literal, c :: cs = l.text ++ rest ∧ t = l.token := by
  unfold lexeme at h
  split_ifs at h with hnewline hspace hcomment hjoin hquote hnumber hword
  · split at h <;> cases h
  · exact exists_literal_of_stringLexeme hquote (by simp) rfl h
  · unfold numberLexeme at h
    cases h
    cases hkind
  · unfold wordLexeme at h
    dsimp only at h
    split at h
    · rename_i q rest' hrest
      split_ifs at h with hstring
      · simp only [Bool.and_eq_true, decide_eq_true_eq] at hstring
        obtain ⟨⟨hquote, hlength⟩, hletters⟩ := hstring
        have hliteral := exists_literal_of_stringLexeme hquote hlength hletters h
        rwa [← hrest, List.takeWhile_append_dropWhile] at hliteral
      · cases h
        cases hkind
    · cases h
      cases hkind
  · rw [(operatorLexeme_eq_token h).1] at hkind
    cases hkind

end Leading

/-! ### The value of a literal -/

namespace Literal

variable (l : Literal)

theorem dropWhile_text : l.text.dropWhile isLiteralLetter = l.quoted := by
  obtain ⟨tail, htail⟩ := l.exists_quoted_eq
  have hquotes : (['\x22', '\x27'].all fun c => !isLiteralLetter c) = true := by decide
  have hstop : ∀ c ∈ l.quoted.head?, isLiteralLetter c = false := by
    rw [htail]
    rintro c ⟨⟩
    simpa using List.all_eq_true.1 hquotes _ l.quote_mem
  exact dropWhile_stop (fun c hc => isLiteralLetter_iff.2 (l.letters_mem c hc)) hstop

/-- Three quotes at the start are those of a literal in three: a content in single quotes does not
start with one. -/
theorem isPrefixOf_quoted : [l.quote, l.quote, l.quote].isPrefixOf l.quoted = l.triple := by
  cases htriple : l.triple with
  | true => simp [quoted, quotes, delimiter, htriple]
  | false =>
    rw [Bool.eq_false_iff, Ne, List.isPrefixOf_iff_prefix]
    intro hthree
    have hcloses := l.isContent.closes []
    simp only [quoted, quotes, delimiter, htriple, Bool.false_eq_true, if_false, List.cons_append,
      List.nil_append, List.cons_prefix_cons, true_and] at hthree hcloses
    have hempty := (hcloses ((List.prefix_append [l.quote] [l.quote]).trans hthree)).1 not_escaped_nil
    simp [← hempty] at hthree

/-- No form that is tried before that of the literal stands at its start: it has the other quote, or
three where the literal has one. -/
theorem exists_forms_eq : ∃ before after, quoteForms = before ++ l.quotes :: after ∧
    ∀ q ∈ before, q.isPrefixOf l.quoted = false := by
  obtain ⟨tail, htail⟩ := l.exists_quoted_eq
  have hother : ∀ d ds, d ≠ l.quote → (d :: ds).isPrefixOf l.quoted = false := by
    intro d ds hd
    rw [htail, List.isPrefixOf_cons_cons, beq_eq_false_iff_ne.2 hd, Bool.false_and]
  have hthree := l.isPrefixOf_quoted
  have hquote : l.quote = '\x22' ∨ l.quote = '\x27' := by simpa using l.quote_mem
  rcases hquote with hquote | hquote <;> cases htriple : l.triple <;>
    simp only [quotes, delimiter, quoteForms, hquote, htriple] at hother hthree ⊢
  · exact ⟨[_, _], _, rfl, by simp [hthree, hother]⟩
  · exact ⟨[], _, rfl, by simp⟩
  · exact ⟨[_, _, _], _, rfl, by simp [hthree, hother]⟩
  · exact ⟨[_], _, rfl, by simp [hother]⟩

theorem find_quotes : (quoteForms.find? fun q => 2 * q.length ≤ l.quoted.length &&
    q.isPrefixOf l.quoted && q.isSuffixOf l.quoted) = some l.quotes := by
  obtain ⟨before, after, hforms, hbefore⟩ := l.exists_forms_eq
  have hlength : 2 * l.quotes.length ≤ l.quoted.length := by
    simp only [quoted, List.length_append]
    omega
  have hstart : l.quotes.isPrefixOf l.quoted = true := by simp [quoted]
  have hend : l.quotes.isSuffixOf l.quoted = true := by
    rw [List.isSuffixOf_iff_suffix]
    exact List.suffix_append _ _
  rw [List.find?_eq_some_iff_append]
  exact ⟨by simp [hlength, hstart, hend], before, after, hforms, fun q hq => by simp [hbefore q hq]⟩

theorem stringValue_text : stringValue l.text = l.content := by
  have hlength : l.quoted.length - 2 * l.quotes.length = l.content.length := by
    simp only [quoted, List.length_append]
    omega
  unfold stringValue
  dsimp only
  rw [dropWhile_text, find_quotes]
  dsimp only
  rw [hlength, quoted, List.append_assoc, List.drop_left, List.take_left]

theorem token_injective : Function.Injective token := by
  intro l l' h
  have htext : l.text = l'.text := by simpa [token] using congrArg (·.text.toList) h
  have hcontent : l.content = l'.content := by rw [← stringValue_text, htext, stringValue_text]
  have hquoted : l.quoted = l'.quoted := by rw [← dropWhile_text, htext, dropWhile_text]
  have hletters : l.letters = l'.letters := by
    rw [text, text, hquoted] at htext
    exact List.append_cancel_right htext
  have hquotes : l.quotes = l'.quotes := by
    rw [← Option.some.injEq, ← find_quotes, hquoted, find_quotes]
  obtain ⟨hquote, htriple⟩ := delimiter_inj.1 hquotes
  exact Literal.ext hletters hquote htriple hcontent

end Literal

/-! ### Literals of a text -/

/-- The token is that of a literal which stands in `cs`, before `rest`. -/
def StandsIn (t : Token) (cs rest : List Char) : Prop :=
  ∃ l : Literal, t = l.token ∧ ∃ back, l.text ++ back ++ rest <:+ cs

section Texts

variable {depth line n : Nat} {before : List Token} {cs mid rest text : List Char} {r : Reading}
  {t : Token} {ss : List Statement} {s : Statement} {i : Item}

theorem Passes.suffix (h : Passes cs n rest) : rest <:+ cs := by
  obtain ⟨taken, rfl, -⟩ := h
  exact List.suffix_append _ _

theorem StandsIn.mono (h : StandsIn t mid rest) (hmid : mid <:+ cs) : StandsIn t cs rest := by
  obtain ⟨l, rfl, back, hback⟩ := h
  exact ⟨l, rfl, back, hback.trans hmid⟩

theorem Reads.standsIn (h : Reads depth before line cs r) (ht : t ∈ r.tokens)
    (hkind : t.kind = .str) : t ∈ before ∨ StandsIn t cs r.rest := by
  induction h with
  | eof before line => exact .inl (List.mem_reverse.1 ht)
  | ended h => exact .inl (List.mem_reverse.1 ht)
  | blank h hrest ih => exact (ih ht).imp_right (·.mono (passes_blank h).suffix)
  | newline h hdepth hrest ih =>
    exact (ih ht).imp_right (·.mono ⟨['\n'], (eq_of_newline h).symm⟩)
  | join h hrest ih => exact (ih ht).imp_right (·.mono (passes_join h).suffix)
  | token h hnest hrest ih =>
    rcases ih ht with hmem | hlater
    · rcases List.mem_cons.1 hmem with rfl | hbefore
      · obtain ⟨l, hsplit, rfl⟩ := exists_literal_of_lexeme h hkind
        obtain ⟨back, hback, -⟩ := hrest.counted
        refine .inr ⟨l, rfl, back, [], ?_⟩
        rw [hsplit, hback, List.nil_append, List.append_assoc]
      · exact .inl hbefore
    · exact .inr (hlater.mono (passes_token h).suffix)

theorem Statements.exists_literal (h : Statements cs ss) (hs : s ∈ ss) (ht : t ∈ s.tokens)
    (hkind : t.kind = .str) : ∃ l : Literal, t = l.token ∧ l.text <:+: s.text := by
  obtain ⟨earlier, later, rfl⟩ := List.append_of_mem hs
  have hreads := reads_of_readStatement (h.followed.read 0)
  obtain ⟨l, rfl, back, hback⟩ :=
    (hreads.standsIn ht hkind).resolve_left List.not_mem_nil
  obtain ⟨front, hfront⟩ := hback.trans (passes_measureIndent 0 _).suffix
  rw [← List.append_assoc] at hfront
  have htext := List.append_cancel_right hfront
  exact ⟨l, rfl, front, back, by rw [← htext, List.append_assoc]⟩

theorem exists_statement_of_mem (h : i ∈ numbered line ss) : ∃ earlier s later,
    ss = earlier ++ s :: later ∧ s.item? (line + newlinesIn (written earlier)) = some i := by
  induction ss generalizing line with
  | nil => cases h
  | cons s ss ih =>
    rcases List.mem_append.1 h with hhere | hlater
    · exact ⟨[], s, ss, rfl, Option.mem_toList.1 hhere⟩
    · obtain ⟨earlier, s', later, rfl, hitem⟩ := ih hlater
      refine ⟨s :: earlier, s', later, rfl, ?_⟩
      have hcount : newlinesIn (written (s :: earlier)) =
          newlinesIn s.text + newlinesIn (written earlier) := List.count_append
      rw [hcount, ← Nat.add_assoc, hitem]

theorem tokens_of_item? {l : LogicalLine} (h : s.item? line = some (.line l)) :
    l.tokens = s.tokens := by
  unfold Statement.item? Item.ofTokens at h
  split_ifs at h <;> cases h
  rfl

theorem mem_of_mem_docsFrom {is : List Item} {d : Docstring} {position : Nat}
    (h : d ∈ docsFrom position is) : .doc d.line d.text ∈ is := by
  induction is generalizing position with
  | nil => cases h
  | cons i is ih =>
    cases i with
    | line l => exact List.mem_cons_of_mem _ (ih h)
    | doc k text =>
      rcases List.mem_cons.1 h with rfl | hlater
      · exact List.mem_cons_self
      · exact List.mem_cons_of_mem _ (ih hlater)

/-- A statement of literals is documentation: their contents, one behind the other. -/
theorem ofTokens_literals (indent line : Nat) {ls : List Literal} (hne : ls ≠ []) :
    Item.ofTokens indent line (ls.map Literal.token) =
      some (.doc (lineNumber line) (ls.flatMap Literal.content)) := by
  have hall : ((ls.map Literal.token).all fun t => t.kind == .str) = true := by
    simp [Literal.token]
  have htext : (ls.map Literal.token).flatMap (fun t => stringValue t.text.toList) =
      ls.flatMap Literal.content := by
    simp [List.flatMap_map, Literal.token, Literal.stringValue_text]
  rw [Item.ofTokens, if_neg (by simpa using hne), if_pos hall, htext]

theorem Statements.exists_literals (h : Statements cs ss) (hs : s ∈ ss)
    (hitem : s.item? line = some (.doc n text)) :
    n = lineNumber line ∧ ∃ ls : List Literal, s.tokens = ls.map Literal.token ∧
      text = ls.flatMap Literal.content := by
  have hkinds : s.tokens ≠ [] ∧ ∀ t ∈ s.tokens, t.kind = .str := by
    unfold Statement.item? Item.ofTokens at hitem
    split_ifs at hitem with hempty hall
    · exact ⟨by simpa using hempty, by simpa using hall⟩
    · cases hitem
  have hrange : s.tokens ∈ Set.range (List.map Literal.token) := by
    rw [Set.range_list_map]
    intro t ht
    obtain ⟨l, rfl, -⟩ := h.exists_literal hs ht (hkinds.2 t ht)
    exact ⟨l, rfl⟩
  obtain ⟨ls, hls⟩ := hrange
  have hne : ls ≠ [] := by
    rintro rfl
    exact hkinds.1 hls.symm
  rw [Statement.item?, ← hls, ofTokens_literals _ _ hne] at hitem
  cases hitem
  exact ⟨rfl, ls, hls.symm, rfl⟩

end Texts

/-- Every string token that is read from a text is that of exactly one literal, and this stands in the
text: at most two letters, one quote or three, a content in which these quotes, and between single
quotes line ends, stand only escaped, and the same quotes again. The value of the token is that
content, and the text of documentation is made of the contents of the literals of its statement. -/
theorem tokenize_delimits_literals {text : String} {n : Nat} {block : Block}
    (hblock : tokenize text n = .ok block) :
    ∃ ss, Statements text.toList ss ∧
      (∀ line ∈ block.lines, ∃ s ∈ ss, line.tokens = s.tokens) ∧
      (∀ s ∈ ss, ∀ t ∈ s.tokens, t.kind = .str → ∃ l : Literal,
        (∀ l' : Literal, t = l'.token ↔ l' = l) ∧ l.text <:+: s.text ∧
        (∀ before after, l.content = before ++ l.quotes ++ after → Escaped before) ∧
        (l.triple = false →
          ∀ before after, l.content = before ++ ['\n'] ++ after → Escaped before) ∧
        stringValue t.text.toList = l.content) ∧
      ∀ d ∈ block.docs, ∃ earlier s later, ss = earlier ++ s :: later ∧
        d.line = lineNumber (n + newlinesIn (written earlier)) ∧
        ∃ ls : List Literal, s.tokens = ls.map Literal.token ∧
          d.text = ls.flatMap Literal.content := by
  obtain ⟨is, his, rfl⟩ := map_eq_ok hblock
  obtain ⟨ss, hss⟩ := exists_statements his
  cases his.symm.trans (items_of_statements hss n)
  refine ⟨ss, hss, fun line hline => ?_, fun s hs t ht hkind => ?_, fun d hd => ?_⟩
  · obtain ⟨item, hitem, hline⟩ := List.mem_filterMap.1 hline
    cases item with
    | line l =>
      cases hline
      obtain ⟨earlier, s, later, rfl, hstatement⟩ := exists_statement_of_mem hitem
      exact ⟨s, by simp, tokens_of_item? hstatement⟩
    | doc k text => cases hline
  · obtain ⟨l, rfl, hstands⟩ := hss.exists_literal hs ht hkind
    refine ⟨l, fun l' => ⟨fun h => (Literal.token_injective h).symm, fun h => h ▸ rfl⟩, hstands,
      fun before after => l.isContent.escaped, fun htriple before after hcontent => ?_, ?_⟩
    · exact l.isContent.inline htriple before ⟨after, hcontent.symm⟩
    · rw [Literal.token, String.toList_ofList, Literal.stringValue_text]
  · obtain ⟨earlier, s, later, rfl, hitem⟩ := exists_statement_of_mem (mem_of_mem_docsFrom hd)
    exact ⟨earlier, s, later, rfl, hss.exists_literals (by simp) hitem⟩

def staffText : String :=
  "r\x27a\\\x27b\x27 \x22\x22 \x22\x22\x22x\x22y\\\x22\x22\x22\x22\nz = bR\x27\x27\n"

theorem staff_literals :
    ∃ block, tokenize staffText 1 = .ok block ∧
      block.docs.map (·.text) = [['a', '\\', '\x27', 'b', 'x', '\x22', 'y', '\\', '\x22']] ∧
      block.lines.map (fun l => l.tokens.map (·.text)) = [["z", "=", "bR\x27\x27"]] ∧
      ∃ ss, Statements staffText.toList ss ∧
        (∀ s ∈ ss, ∀ t ∈ s.tokens, t.kind = .str → ∃ l : Literal,
          (∀ l' : Literal, t = l'.token ↔ l' = l) ∧ stringValue t.text.toList = l.content) ∧
        ∀ d ∈ block.docs, ∃ s ∈ ss, ∃ ls : List Literal, s.tokens = ls.map Literal.token ∧
          d.text = ls.flatMap Literal.content := by
  have hrun : ((tokenize staffText 1).toOption.any fun block =>
      block.docs.map (·.text) = [['a', '\\', '\x27', 'b', 'x', '\x22', 'y', '\\', '\x22']] ∧
      block.lines.map (fun l => l.tokens.map (·.text)) = [["z", "=", "bR\x27\x27"]]) := by
    decide +kernel
  obtain ⟨block, hblock, hparts⟩ := exists_ok_of_any hrun
  obtain ⟨hdocs, hlines⟩ := of_decide_eq_true hparts
  obtain ⟨ss, hss, -, hliterals, hnotes⟩ := tokenize_delimits_literals hblock
  refine ⟨block, hblock, hdocs, hlines, ss, hss, fun s hs t ht hkind => ?_, fun d hd => ?_⟩
  · obtain ⟨l, hl, -, -, -, hvalue⟩ := hliterals s hs t ht hkind
    exact ⟨l, hl, hvalue⟩
  · obtain ⟨earlier, s, later, rfl, -, hls⟩ := hnotes d hd
    exact ⟨s, by simp, hls⟩

end ProcessModel.Script
