import ProcessModel.Proofs.Keys
import ProcessModel.Proofs.Points
import ProcessModel.Proofs.Renumbering

/-! Reading a method back from the text of its normal form.

Resolution puts names and points in place of names and points, and the expansion of an assignment
adds operators and a pair of brackets. Neither makes a token that could not be read. -/

namespace ProcessModel

open Script

def IsWordName (x : String) : Prop := IsWord x.toList

theorem isWordName_of_isIdentifier {x : String} (h : isIdentifier x = true) : IsWordName x := by
  have hletter : ∀ c : Char, c.isAlpha = true → Text.isLetter c = true := by
    intro c hc
    have hascii : c.toNat < 0x80 := by
      have hbound := (toNat_bounds_of_isAlpha hc).2
      omega
    rw [Text.isLetter, if_pos hascii, hc]
  have hdigit : ∀ c : Char, c.isDigit = true → Text.isLetterOrNumeral c = true := by
    intro c hc
    have hascii : c.toNat < 0x80 := by
      simp only [Char.isDigit, Bool.and_eq_true, decide_eq_true_eq, UInt32.le_iff_toNat_le] at hc
      have hval : c.toNat = c.val.toNat := rfl
      simp at hc
      omega
    simp [Text.isLetterOrNumeral, hascii, hc]
  unfold isIdentifier at h
  unfold IsWordName
  split at h
  · cases h
  · rename_i c cs htext
    rw [Bool.and_eq_true, List.all_eq_true] at h
    obtain ⟨hfirst, hrest⟩ := h
    have hstart : isWordStart c = true := by
      simp only [isWordStart, Bool.or_eq_true] at hfirst ⊢
      exact hfirst.imp_left (hletter c)
    rw [htext]
    refine ⟨hstart, List.forall_mem_cons.2 ⟨isWordPart_of_isWordStart hstart, fun d hd => ?_⟩⟩
    have hpart := hrest d hd
    simp only [Char.isAlphanum, isWordPart, Bool.or_eq_true] at hpart ⊢
    rcases hpart with (halpha | hnumeral) | hunderscore
    · exact .inl (by simp [Text.isLetterOrNumeral, hletter d halpha])
    · exact .inl (hdigit d hnumeral)
    · exact .inr hunderscore

theorem Definition.Built.admits_words {d : Definition} (h : d.Built) :
    Scope.Admits IsWordName d := by
  intro owner d' name hd hsub hplain
  obtain ⟨⟨hbuild, -⟩, -⟩ := h.descend? hd
  obtain ⟨sub, hsub⟩ := Option.isSome_iff_exists.1 hsub
  exact isWordName_of_isIdentifier (submodels_of_build hbuild _ (submodel?_mem hsub)).1

def named (x : String) (xs : List String) : List Token := .ofName x :: dotted xs

namespace Scope

variable {s : Scope} {call : Bool}

theorem isWordName_fixed :
    IsWordName "self" ∧ (∀ f : Family, IsWordName f.name) ∧ ∀ g : GroupRef, IsWordName g.name := by
  refine ⟨isWordName_of_isIdentifier (by decide), fun f => ?_, fun g => ?_⟩
  · cases f <;> exact isWordName_of_isIdentifier (by decide)
  · cases g with
    | kind k => cases k <;> exact isWordName_of_isIdentifier (by decide)
    | oldStates => exact isWordName_of_isIdentifier (by decide)

theorem use_words (hA : Admits IsWordName s.definition) (hs : s.Sound IsWordName) {x : String}
    {xs : List String} {found : Option (List Token)} (h : s.use (x :: xs) call = .ok found) :
    ∃ y ys, found.getD [.ofName x] = named y ys ∧
      ((∀ z ∈ x :: xs, IsWordName z) → ∀ z ∈ y :: ys, IsWordName z) := by
  obtain ⟨hself, hfamily, hgroup⟩ := isWordName_fixed
  cases uses_of_use h with
  | single => exact ⟨x, [], rfl, id⟩
  | @helper y => exact ⟨y, [], rfl, fun hwords => by simpa using hwords y (by simp)⟩
  | @var _ _ _ path hnone hstart hwalk hpermits =>
    refine ⟨"self", path.segments, rfl, fun hwords z hz => ?_⟩
    simp only [VarPath.segments, List.mem_cons, List.mem_append, List.not_mem_nil, or_false] at hz
    rcases hz with rfl | hz | rfl | rfl | rfl
    · exact hself
    · exact walk_owner hA hs hstart hwalk z hz
    · exact hfamily _
    · exact hgroup _
    · exact hwords _ (walk_var hs hstart hwalk).1
  | @method _ _ owner _ name hnone hstart hwalk =>
    refine ⟨"self", owner ++ [name], rfl, fun hwords z hz => ?_⟩
    simp only [List.mem_cons, List.mem_append, List.not_mem_nil, or_false] at hz
    rcases hz with rfl | hz | rfl
    · exact hself
    · exact walk_owner hA hs hstart hwalk z hz
    · exact hwords _ (walk_method hs hstart hwalk).1

end Scope

section Names

theorem nesting_of_plain {ts : List Token}
    (h : ∀ t ∈ ts, t.isOpening = false ∧ t.isClosing = false) (depth : Nat) :
    nesting depth ts = some depth := by
  induction ts with
  | nil => rfl
  | cons t ts ih =>
    rw [List.forall_mem_cons] at h
    simp [Token.nest, h.1.1, h.1.2, ih h.2]

variable {x : String} {xs : List String} {t : Token}

theorem mem_named (h : t ∈ named x xs) : t = .ofOp "." ∨ ∃ y ∈ x :: xs, t = .ofName y := by
  rcases List.mem_cons.1 h with rfl | h
  · exact .inr ⟨x, List.mem_cons_self, rfl⟩
  · obtain ⟨y, hy, ht⟩ := List.mem_flatMap.1 h
    rcases List.mem_pair.1 ht with rfl | rfl
    · exact .inl rfl
    · exact .inr ⟨y, List.mem_cons_of_mem _ hy, rfl⟩

theorem lexemes_named_iff : (∀ t ∈ named x xs, t.IsLexeme) ↔ ∀ y ∈ x :: xs, IsWordName y := by
  have hpoint : (Token.ofOp ".").IsLexeme := by
    show "." ∈ operators
    decide
  constructor
  · intro h y hy
    have hmem : Token.ofName y ∈ named x xs := by
      rcases List.mem_cons.1 hy with rfl | hy
      · exact List.mem_cons_self
      · exact List.mem_cons_of_mem _ (List.mem_flatMap.2 ⟨y, hy, by simp⟩)
    exact h _ hmem
  · intro h t ht
    rcases mem_named ht with rfl | ⟨y, hy, rfl⟩
    · exact hpoint
    · exact h y hy

theorem nesting_named (depth : Nat) (x : String) (xs : List String) :
    nesting depth (named x xs) = some depth := by
  refine nesting_of_plain (fun t ht => ?_) depth
  rcases mem_named ht with rfl | ⟨y, -, rfl⟩
  · decide
  · exact ⟨rfl, rfl⟩

theorem startsWithPoint_named (h : t ∈ named x xs) : t.startsWithPoint = false := by
  rcases mem_named h with rfl | ⟨y, -, rfl⟩ <;> rfl

theorem endsValue_getLast_named (h : t ∈ (named x xs).getLast?) : t.endsValue = true := by
  have hne := (Pointed.path x xs).last
  rcases mem_named (List.mem_of_mem_getLast? h) with rfl | ⟨y, -, rfl⟩
  · exact absurd h hne
  · rfl

end Names

/-- What resolution does to the tokens of a statement. -/
structure Renamed (ts out : List Token) : Prop where
  lexemes : (∀ t ∈ ts, t.IsLexeme) → ∀ t ∈ out, t.IsLexeme
  nesting : ∀ depth, nesting depth out = nesting depth ts
  allowed : ts.IsChain Token.Allows → out.IsChain Token.Allows
  nonempty : ts ≠ [] → out ≠ []
  /-- A number at the start was there before. -/
  first : ∀ t ∈ out.head?, t.startsWithPoint = true → ts.head? = some t

namespace Renamed

variable {ts out : List Token}

theorem nil : Renamed [] [] := ⟨id, fun _ => rfl, id, id, by simp⟩

theorem cons (t : Token) (h : Renamed ts out) : Renamed (t :: ts) (t :: out) := by
  refine ⟨?_, fun depth => ?_, ?_, by simp, by simp⟩
  · rw [List.forall_mem_cons, List.forall_mem_cons]
    exact And.imp_right h.lexemes
  · rw [nesting_cons, nesting_cons]
    congr 1
    funext d
    exact h.nesting d
  · rw [List.isChain_cons, List.isChain_cons]
    rintro ⟨hfirst, hchain⟩
    refine ⟨fun u hu hvalue => ?_, h.allowed hchain⟩
    rw [← Bool.not_eq_true]
    intro hpoint
    have hkept := hfirst u (h.first u hu hpoint) hvalue
    rw [hpoint] at hkept
    cases hkept

theorem chain {x y : String} {xs ys : List String}
    (hwords : (∀ z ∈ x :: xs, IsWordName z) → ∀ z ∈ y :: ys, IsWordName z) (h : Renamed ts out) :
    Renamed (named x xs ++ ts) (named y ys ++ out) := by
  refine ⟨?_, fun depth => ?_, ?_, ?_, ?_⟩
  · rw [List.forall_mem_append, List.forall_mem_append, lexemes_named_iff, lexemes_named_iff]
    exact And.imp hwords h.lexemes
  · rw [nesting_append, nesting_append, nesting_named, nesting_named]
    exact h.nesting depth
  · rw [List.isChain_append, List.isChain_append]
    rintro ⟨-, hchain, hborder⟩
    refine ⟨?_, h.allowed hchain, fun t ht u hu hvalue => ?_⟩
    · have hall : (named y ys).IsChain fun _ next => next.startsWithPoint = false := by
        rw [List.isChain_iff_getElem]
        intro i hi
        exact startsWithPoint_named (List.getElem_mem _)
      exact hall.imp fun _ _ hnext _ => hnext
    · -- A number behind the new chain stood behind the old one, whose last name is a value too.
      rw [← Bool.not_eq_true]
      intro hpoint
      cases hlast : (named x xs).getLast? with
      | none => simp [named] at hlast
      | some v =>
        have hkept := hborder v hlast u (h.first u hu hpoint) (endsValue_getLast_named hlast)
        rw [hpoint] at hkept
        cases hkept
  · simp [named]
  · intro t ht hpoint
    obtain rfl : Token.ofName y = t := by simpa [named] using ht
    cases hpoint

end Renamed

theorem Scope.ofName_cons_eq (x : String) (ts : List Token) :
    Token.ofName x :: ts = named x (chainRest ts).1 ++ (chainRest ts).2 := by
  rw [named, List.cons_append, ← chainRest_eq]

theorem Scope.renamed_of_tokens {s : Scope} (hA : Admits IsWordName s.definition)
    (hs : s.Sound IsWordName) {after : Bool} {ts out : List Token}
    (h : s.tokens after ts = .ok out) : Renamed ts out := by
  replace h := rewritten_of_tokens h
  induction h with
  | nil => exact .nil
  | keep hkeep h ih => exact ih.cons _
  | chain hself hfound h ih =>
    obtain ⟨y, ys, htokens, hwords⟩ := use_words hA hs hfound
    rw [ofName_cons_eq, htokens]
    exact ih.chain hwords

theorem Written.of_renamed {ts out : List Token} (hts : Written ts) (h : Renamed ts out) :
    Written out :=
  ⟨h.lexemes hts.lexemes, h.allowed hts.allowed, (h.nesting 0).trans hts.balanced⟩

section Expansion

theorem nest_add {t : Token} {depth depth' : Nat} (h : t.nest depth = some depth') (k : Nat) :
    t.nest (depth + k) = some (depth' + k) := by
  unfold Token.nest at h ⊢
  split_ifs at h ⊢ with hopening hclosing hpos hpos'
  · cases h
    congr 1
    omega
  · cases h
    congr 1
    omega
  · omega
  · cases h
    rfl

variable {ts : List Token}

theorem nesting_add {depth depth' : Nat} (h : nesting depth ts = some depth') (k : Nat) :
    nesting (depth + k) ts = some (depth' + k) := by
  induction ts generalizing depth with
  | nil =>
    cases h
    rfl
  | cons t ts ih =>
    obtain ⟨next, hnext, h⟩ := Option.bind_eq_some_iff.1 h
    rw [nesting_cons, nest_add hnext, Option.bind_some, ih h]

section Counts

variable {ts : List Token} {depth depth' : Nat}

/-- Where brackets nest, the count of the open ones is exact. -/
theorem counted_of_nesting (h : nesting depth ts = some depth') : Token.counted depth ts = depth' := by
  induction ts generalizing depth with
  | nil => exact Option.some.inj h
  | cons t ts ih =>
    obtain ⟨next, hnext, h⟩ := Option.bind_eq_some_iff.1 h
    have hrecount : Token.recount depth t = next := by
      unfold Token.nest at hnext
      unfold Token.recount
      split_ifs at hnext ⊢ <;> exact Option.some.inj hnext
    rw [Token.counted, List.foldl_cons, hrecount]
    exact ih h

theorem exists_nesting {before : List Token} (h : nesting depth ts = some depth')
    (hbefore : before <+: ts) : ∃ d, nesting depth before = some d := by
  obtain ⟨after, rfl⟩ := hbefore
  rw [nesting_append] at h
  obtain ⟨d, hd, -⟩ := Option.bind_eq_some_iff.1 h
  exact ⟨d, hd⟩

end Counts

theorem topLevel?_nesting {q : Token → Bool} {i : Nat} (h : topLevel? q ts = some i)
    (hts : nesting 0 ts = some 0) :
    nesting 0 (ts.take i) = some 0 ∧ nesting 0 (ts.drop (i + 1)) = some 0 := by
  obtain ⟨t, hat, -, hopening, hclosing, hzero⟩ := (Token.go_eq_some_iff.1 h).1
  obtain ⟨u, -, hat', hcut⟩ := topLevel?_eq_some h
  cases hat.symm.trans hat'
  rw [hcut, nesting_append] at hts
  obtain ⟨d, hd, hafter⟩ := Option.bind_eq_some_iff.1 hts
  obtain rfl : d = 0 := (counted_of_nesting hd).symm.trans hzero
  exact ⟨hd, by simpa [Token.nest, hopening, hclosing] using hafter⟩

theorem allowed_around {us : List Token} {t : Token} (hts : ts.IsChain Token.Allows)
    (hus : us.IsChain Token.Allows) (hkind : t.kind = .op) (hends : t.endsValue = false ∨ us = []) :
    (ts ++ t :: us).IsChain Token.Allows := by
  refine List.isChain_append.2 ⟨hts, List.isChain_cons.2 ⟨fun u hu hvalue => ?_, hus⟩, ?_⟩
  · rcases hends with hends | rfl
    · rw [hends] at hvalue
      cases hvalue
    · cases hu
  · intro u hu v hv _
    obtain rfl : t = v := by simpa using hv
    simp [Token.startsWithPoint, hkind]

theorem augmented_sign : ∀ text ∈ NormalBody.augmented,
    String.ofList (text.toList.filter (· != '=')) ∈ operators ∧
      (Token.ofOp (String.ofList (text.toList.filter (· != '=')))).isOpening = false ∧
      (Token.ofOp (String.ofList (text.toList.filter (· != '=')))).isClosing = false := by
  decide

theorem written_expandTokens (h : Written ts) : Written (NormalBody.expandTokens ts) := by
  unfold NormalBody.expandTokens
  split
  · exact h
  · rename_i i hi
    obtain ⟨t, ht, hat, hts⟩ := topLevel?_eq_some hi
    obtain ⟨-, haugmented⟩ : t.kind = .op ∧ t.text ∈ NormalBody.augmented := by simpa using ht
    obtain ⟨htarget, hvalue⟩ := topLevel?_nesting hi h.balanced
    have hsign := augmented_sign t.text haugmented
    simp only [hat, Option.map_some, Option.getD_some]
    generalize String.ofList (t.text.toList.filter (· != '=')) = sign at hsign ⊢
    obtain ⟨hform, hopening, hclosing⟩ := hsign
    have hchains := h.allowed
    rw [hts, List.isChain_append] at hchains
    have hfirst : (ts.take i).IsChain Token.Allows := hchains.1
    have hsecond : (ts.drop (i + 1)).IsChain Token.Allows := (List.isChain_cons.1 hchains.2.1).2
    simp only [List.append_assoc, List.cons_append, List.nil_append]
    refine ⟨fun u hu => ?_, ?_, ?_⟩
    · have hoperators : "=" ∈ operators ∧ "(" ∈ operators ∧ ")" ∈ operators := by decide
      simp only [List.mem_append, List.mem_cons, List.not_mem_nil, or_false] at hu
      rcases hu with hu | rfl | hu | rfl | rfl | hu | rfl
      · exact h.lexemes u (List.mem_of_mem_take hu)
      · exact hoperators.1
      · exact h.lexemes u (List.mem_of_mem_take hu)
      · exact hform
      · exact hoperators.2.1
      · exact h.lexemes u (List.mem_of_mem_drop hu)
      · exact hoperators.2.2
    · have hends : (Token.ofOp sign).endsValue = false := by
        rw [Token.endsValue, hclosing]
        rfl
      have hbracket : (ts.drop (i + 1) ++ [Token.ofOp ")"]).IsChain Token.Allows :=
        allowed_around hsecond .nil rfl (.inr rfl)
      have hinner := allowed_around .nil hbracket (t := .ofOp "(") rfl (.inl (by decide))
      have hright := allowed_around hfirst hinner (t := .ofOp sign) rfl (.inl hends)
      exact allowed_around hfirst hright rfl (.inl (by decide))
    · have hinside : nesting 1 (ts.drop (i + 1)) = some 1 := nesting_add hvalue 1
      have hequals : (Token.ofOp "=").nest 0 = some 0 := by decide
      have hplain : (Token.ofOp sign).nest 0 = some 0 := by simp [Token.nest, hopening, hclosing]
      have hopen : (Token.ofOp "(").nest 0 = some 1 := by decide
      have hclose : (Token.ofOp ")").nest 1 = some 0 := by decide
      simp [nesting_append, htarget, hinside, hequals, hplain, hopen, hclose]

theorem expandTokens_ne_nil (h : ts ≠ []) : NormalBody.expandTokens ts ≠ [] := by
  unfold NormalBody.expandTokens
  split
  · exact h
  · simp

end Expansion

section Lines

variable {names : List Local}

theorem literal_of_nameFault? {method : String} {after : Bool} {ts : List Token}
    (h : NormalBody.nameFault? method names after ts = none) : ∀ t ∈ ts, t.kind ≠ .str := by
  induction ts generalizing after with
  | nil => simp
  | cons t ts ih =>
    unfold NormalBody.nameFault? at h
    split_ifs at h with hstr hname
    exact List.forall_mem_cons.2 ⟨hstr, ih h⟩

theorem NormalBody.normalLines_literal {dialect : Dialect} {method : String}
    {ls out : List LogicalLine} (h : normalLines dialect method names ls = .ok out) :
    ∀ l ∈ out, ∀ t ∈ l.tokens, t.kind ≠ .str := by
  induction ls generalizing out with
  | nil =>
    cases h
    simp
  | cons l ls ih =>
    unfold normalLines at h
    split_ifs at h with hmarker
    · exact ih h
    · dsimp only at h
      split at h
      · cases h
      · rename_i hfault
        obtain ⟨out', hout', h⟩ := bind_eq_ok h
        cases h
        exact List.forall_mem_cons.2 ⟨literal_of_nameFault? hfault, ih hout'⟩

theorem NormalBody.written_of_normalLines {s s' : Scope} (hA : Scope.Admits IsWordName s.definition)
    (hs : s.Sound IsWordName) {ls out normal : List LogicalLine} {name : String}
    (hls : ∀ l ∈ ls, Written l.tokens ∧ l.tokens ≠ []) (hlines : s.lines ls = .ok (out, s'))
    (hnormal : normalLines s.dialect name names out = .ok normal) :
    ∀ l ∈ normal, Written l.tokens ∧ l.tokens ≠ [] := by
  obtain ⟨hmap, rs, hrs, hout⟩ := Scope.reads_lines hA hs hlines
  rw [normalLines_eq_ok hnormal, hout]
  intro l hl
  obtain ⟨l', hl', rfl⟩ := List.mem_map.1 hl
  obtain ⟨r, hr, hresolves⟩ := exists_of_forall₂ hrs.flip (List.mem_filter.1 hl').1
  have hsource : r.2 ∈ ls := by
    have hmem : r.2 ∈ (s.reads ls).map (·.2) := List.mem_map_of_mem hr
    rw [hmap] at hmem
    exact (List.mem_filter.1 hmem).1
  obtain ⟨hwritten, hne⟩ := hls r.2 hsource
  have hrenamed := Scope.renamed_of_tokens (hresolves.renames.definition ▸ hA) hresolves.sound
    hresolves.tokens
  unfold expand
  split_ifs
  · exact ⟨hwritten.of_renamed hrenamed, hrenamed.nonempty hne⟩
  · exact ⟨written_expandTokens (hwritten.of_renamed hrenamed),
      expandTokens_ne_nil (hrenamed.nonempty hne)⟩

theorem renumbered_unnumbered (n : Nat) (ls : List LogicalLine) :
    (renumbered n ls).map LogicalLine.unnumbered = ls.map LogicalLine.unnumbered := by
  induction ls generalizing n with
  | nil => rfl
  | cons l ls ih =>
    rw [renumbered, List.map_cons, List.map_cons, ih]
    rfl

end Lines

theorem Script.tokensOf_eq_ok {text : String} {n : Nat} {block : Block}
    (h : tokensOf text n = .ok block) : tokenize text n = .ok block := by
  unfold tokensOf at h
  split at h
  · rename_i block' hblock
    cases h
    exact hblock
  · cases h

namespace NormalBody

variable {d : Definition} {dialect : Dialect} {source : MethodSource} {resolved : ResolvedBody}
  {normal : NormalBody} {body : Body} {name doc : String} {kind : MethodKind}
  {args locals : List String}

/-- The text of a normal form that is read as a body is read as its own lines, one below the other
from any line on and without documentation, and these make the same body up to line numbers. -/
theorem tokenize_text (hd : d.Built)
    (hresolved : ResolvedBody.ofMethod d dialect source = .ok resolved)
    (hnormal : ofLines dialect name args locals resolved.lines = .ok normal)
    (hbody : Body.ofNormal d name kind doc normal = .ok body) (n : Nat) :
    Script.tokenize normal.text n = .ok ⟨renumbered n normal.lines, []⟩ ∧
      ∃ body', Body.ofNormal d name kind doc { normal with lines := renumbered n normal.lines } =
          .ok body' ∧ body'.unnumbered = body.unnumbered := by
  obtain ⟨scope, hscope, hresolved⟩ := bind_eq_ok hresolved
  obtain ⟨block, hblock, hresolved⟩ := bind_eq_ok hresolved
  obtain ⟨⟨lines, scope'⟩, hlines, hresolved⟩ := bind_eq_ok hresolved
  cases hresolved
  obtain ⟨out, hout, hnormal⟩ := bind_eq_ok hnormal
  cases hnormal
  obtain ⟨stmts, hstmts, -⟩ := bind_eq_ok hbody
  replace hscope := Scope.onLine_eq_ok hscope
  have hA := hd.admits_words
  obtain ⟨hsound, hdefinition, hdialect⟩ := Scope.ofMethod_eq_ok hA hscope
  have hsource : ∀ l ∈ block.lines.drop 1, Written l.tokens ∧ l.tokens ≠ [] := by
    intro l hl
    exact written_of_tokenize (tokensOf_eq_ok hblock) l (List.mem_of_mem_drop hl)
  have hwritten := written_of_normalLines (hdefinition ▸ hA) hsound hsource hlines (hdialect ▸ hout)
  have hpointed := (Stmt.ofLines_follows hstmts).pointed
  have hliteral := normalLines_literal hout
  have hlegible : ∀ l ∈ out, Legible l.tokens := by
    intro l hl
    obtain ⟨hl', hne⟩ := hwritten l hl
    exact ⟨hl', hne, hliteral l hl, (hpointed l hl).chain⟩
  exact ⟨tokenize_linesText hlegible n,
    Body.exists_ofNormal_of_unnumbered hbody (renumbered_unnumbered n out)⟩

def sluice : Definition where
  name := "sluice"
  sources := [⟨"sluice.mdl", "def calc(model):\n  flu.q += 1_0.5e1*(.5 -con . k)\n"⟩]
  groups := [{ kind := .control, vars := [{ name := "k" }] },
    { kind := .fluxes, vars := [{ name := "q" }] }]
  methods := { run := ["calc"] }

theorem sluice_tokenize_text :
    ∃ source resolved normal body,
      sluice.Built ∧
      MethodSource.find sluice ({} : Dialect).fastMarker "calc" .run = .ok source ∧
      ResolvedBody.ofMethod sluice {} source = .ok resolved ∧
      ofLines {} "calc" source.args source.locals resolved.lines = .ok normal ∧
      Body.ofNormal sluice "calc" .run "" normal = .ok body ∧
      normal.text = "  self.sequences.fluxes.q = self.sequences.fluxes.q + " ++
        "(10.5e1 * (.5 - self.parameters.control.k))\n" ∧
      Script.tokenize normal.text 7 = .ok ⟨renumbered 7 normal.lines, []⟩ ∧
      ∃ body', Body.ofNormal sluice "calc" .run ""
          { normal with lines := renumbered 7 normal.lines } = .ok body' ∧
        body'.unnumbered = body.unnumbered := by
  have hbuilt : sluice.Built := .of_canonical (by decide) (by decide) (by decide) (by simp [sluice])
  have hrun : ((MethodSource.find sluice ({} : Dialect).fastMarker "calc" .run).toOption.any
      fun source => (ResolvedBody.ofMethod sluice {} source).toOption.any
        fun resolved => (ofLines {} "calc" source.args source.locals resolved.lines).toOption.any
          fun normal => (Body.ofNormal sluice "calc" .run "" normal).toOption.any
            fun _ => normal.text = "  self.sequences.fluxes.q = self.sequences.fluxes.q + " ++
              "(10.5e1 * (.5 - self.parameters.control.k))\n") := by
    decide +kernel
  obtain ⟨source, hsource, h⟩ := exists_ok_of_any hrun
  obtain ⟨resolved, hresolved, h⟩ := exists_ok_of_any h
  obtain ⟨normal, hnormal, h⟩ := exists_ok_of_any h
  obtain ⟨body, hbody, htext⟩ := exists_ok_of_any h
  exact ⟨source, resolved, normal, body, hbuilt, hsource, hresolved, hnormal,
    hbody, of_decide_eq_true htext, tokenize_text hbuilt hresolved hnormal hbody 7⟩

end NormalBody

end ProcessModel
