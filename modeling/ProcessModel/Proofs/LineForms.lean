import Mathlib.Data.Nat.Find
import ProcessModel.Proofs.Grammar
import ProcessModel.Proofs.Nodes

/-! Lines of a body.

What the readers of statements accept of a line: each of them is taken apart once, into the tokens of
the line and the expressions that are read from parts of it. -/

namespace ProcessModel

open Script

namespace Token

theorem exists_ofName {t : Token} (h : t.kind = .name) : ∃ x, t = .ofName x :=
  ⟨t.text, by rw [ofName, ← h]⟩

@[simp] theorem ofName_inj {x y : String} : Token.ofName x = .ofName y ↔ x = y := by simp [ofName]

@[simp] theorem ofName_ne_ofOp {x y : String} : Token.ofName x ≠ .ofOp y := by simp [ofName, ofOp]

@[simp] theorem text_ofName (x : String) : (Token.ofName x).text = x := rfl

end Token

namespace LogicalLine

def StartsWith (l : LogicalLine) (word : String) : Prop := l.tokens.head? = some (.ofName word)

theorem startsWith_of_any {l : LogicalLine} {word : String}
    (h : (l.tokens.head?.any fun t => t.isName word) = true) : l.StartsWith word := by
  obtain ⟨t, ht, hname⟩ := (Option.any_eq_true _ _).1 h
  rw [StartsWith, ht, Token.isName_iff.1 hname]

end LogicalLine

/-! ### The first token outside all brackets -/

theorem topLevel?.go_eq_map (q : Token → Bool) (depth at_ : Nat) (ts : List Token) :
    go q depth at_ ts = (go q depth 0 ts).map (at_ + ·) := by
  induction ts generalizing depth at_ with
  | nil => rfl
  | cons t ts ih =>
    have hnext : ∀ next, go q next (at_ + 1) ts = (go q next (0 + 1) ts).map (at_ + ·) := by
      intro next
      rw [ih next (at_ + 1), ih next (0 + 1), Option.map_map]
      congr 1
      funext i
      simp only [Function.comp_apply]
      omega
    unfold go
    split_ifs
    · exact hnext _
    · exact hnext _
    · rfl
    · exact hnext _

namespace Token

theorem bracket_cases (t : Token) : (t.isOpening = true ∧ t.isClosing = false) ∨
    (t.isOpening = false ∧ t.isClosing = true) ∨ (t.isOpening = false ∧ t.isClosing = false) := by
  cases ho : t.isOpening with
  | false => cases t.isClosing <;> simp
  | true =>
    simp only [isOpening, Bool.or_eq_true, isOp_iff] at ho
    rcases ho with rfl | rfl <;> decide

/-- The count of open brackets behind a token, as a search keeps it: no less than zero. -/
def recount (depth : Nat) (t : Token) : Nat :=
  if t.isOpening then depth + 1 else if t.isClosing then depth - 1 else depth

def counted (depth : Nat) (ts : List Token) : Nat := ts.foldl recount depth

variable {q : Token → Bool} {t : Token} {ts : List Token} {depth i : Nat}

/-- The token at `i` has a property, is no bracket, and the count before it is zero. -/
def Met (q : Token → Bool) (depth : Nat) (ts : List Token) (i : Nat) : Prop :=
  ∃ t, ts[i]? = some t ∧ q t = true ∧ t.isOpening = false ∧ t.isClosing = false ∧
    counted depth (ts.take i) = 0

theorem not_met_nil : ¬Met q depth [] i := by
  rintro ⟨t, ht, -⟩
  simp at ht

theorem met_zero_iff : Met q depth (t :: ts) 0 ↔
    q t = true ∧ t.isOpening = false ∧ t.isClosing = false ∧ depth = 0 := by
  simp [Met, counted]

theorem met_succ_iff : Met q depth (t :: ts) (i + 1) ↔ Met q (recount depth t) ts i := by
  simp [Met, counted]

theorem go_cons_eq (q : Token → Bool) (depth : Nat) (t : Token) (ts : List Token) :
    (Met q depth (t :: ts) 0 ∧ topLevel?.go q depth 0 (t :: ts) = some 0) ∨
      (¬Met q depth (t :: ts) 0 ∧ topLevel?.go q depth 0 (t :: ts) =
        (topLevel?.go q (recount depth t) 0 ts).map (1 + ·)) := by
  rw [met_zero_iff, ← topLevel?.go_eq_map, topLevel?.go, recount]
  rcases t.bracket_cases with ⟨ho, hc⟩ | ⟨ho, hc⟩ | ⟨ho, hc⟩
  · exact .inr (by simp [ho])
  · exact .inr (by simp [ho, hc])
  · by_cases hhere : depth = 0 ∧ q t = true
    · exact .inl (by simp [ho, hc, hhere])
    · exact .inr (by simpa [ho, hc, hhere] using fun hq hdepth => hhere ⟨hdepth, hq⟩)

theorem go_eq_some_iff : topLevel?.go q depth 0 ts = some i ↔
    Met q depth ts i ∧ ∀ j < i, ¬Met q depth ts j := by
  induction ts generalizing depth i with
  | nil => exact iff_of_false (by simp [topLevel?.go]) fun h => not_met_nil h.1
  | cons t ts ih =>
    rcases go_cons_eq q depth t ts with ⟨hmet, heq⟩ | ⟨hmet, heq⟩ <;> rw [heq]
    · cases i with
      | zero => simpa using hmet
      | succ i => exact iff_of_false (by simp) fun h => h.2 0 (Nat.succ_pos i) hmet
    · cases i with
      | zero => exact iff_of_false (by simp) fun h => hmet h.1
      | succ i =>
        have hbehind : (topLevel?.go q (recount depth t) 0 ts).map (1 + ·) = some (i + 1) ↔
            topLevel?.go q (recount depth t) 0 ts = some i := by
          simp [Option.map_eq_some_iff, Nat.add_comm 1]
        rw [hbehind, ih, met_succ_iff, Nat.forall_lt_succ_left]
        simp only [met_succ_iff, hmet, not_false_eq_true, true_and]

theorem go_eq_none_iff : topLevel?.go q depth 0 ts = none ↔ ∀ i, ¬Met q depth ts i := by
  constructor
  · classical
    intro hnone i hmet
    have hexists : ∃ i, Met q depth ts i := ⟨i, hmet⟩
    have hfirst := go_eq_some_iff.2 ⟨Nat.find_spec hexists, fun _ => Nat.find_min hexists⟩
    cases hnone.symm.trans hfirst
  · intro h
    cases hgo : topLevel?.go q depth 0 ts with
    | none => rfl
    | some i => exact absurd (go_eq_some_iff.1 hgo).1 (h i)

end Token

section Cut

variable {q : Token → Bool} {ts : List Token} {i : Nat}

theorem topLevel?.go_append (q : Token → Bool) (depth at_ : Nat) (ts us : List Token) :
    go q depth at_ (ts ++ us) =
      (go q depth at_ ts).or (go q (Token.counted depth ts) (at_ + ts.length) us) := by
  induction ts generalizing depth at_ with
  | nil => rfl
  | cons t ts ih =>
    have hlater : ∀ next, go q next (at_ + 1) (ts ++ us) = (go q next (at_ + 1) ts).or
        (go q (Token.counted next ts) (at_ + (t :: ts).length) us) := by
      intro next
      rw [ih, List.length_cons, Nat.add_assoc, Nat.add_comm 1]
    simp only [List.cons_append, go, Token.counted, List.foldl_cons, Token.recount]
    split_ifs
    · exact hlater _
    · exact hlater _
    · rfl
    · exact hlater _

theorem topLevel?_append_of_some (h : topLevel? q ts = some i) (us : List Token) :
    topLevel? q (ts ++ us) = some i := by
  rw [topLevel?, topLevel?.go_append, ← topLevel?, h, Option.some_or]

theorem topLevel?_eq_some (h : topLevel? q ts = some i) :
    ∃ t, q t = true ∧ ts[i]? = some t ∧ ts = ts.take i ++ t :: ts.drop (i + 1) := by
  obtain ⟨t, hat, ht, -⟩ := (Token.go_eq_some_iff.1 h).1
  obtain ⟨hlt, rfl⟩ := List.getElem?_eq_some_iff.1 hat
  refine ⟨_, ht, hat, ?_⟩
  rw [← List.drop_eq_getElem_cons hlt, List.take_append_drop]

end Cut

/-- Whether tokens stand among others, and not behind a point. -/
inductive Amid (part : List Token) : List Token → Prop
  | refl : Amid part part
  | append {ts : List Token} (h : Amid part ts) (us : List Token) : Amid part (ts ++ us)
  | behind {t : Token} {ts : List Token} (h : Amid part ts) (ht : t.isOp "." = false)
      (before : List Token) : Amid part (before ++ t :: ts)

theorem amid_of_splitArgs {n : Nat} {ts part : List Token} (h : part ∈ splitArgs n ts) :
    Amid part ts := by
  induction n generalizing ts with
  | zero => cases h
  | succ n ih =>
    unfold splitArgs at h
    split at h
    · rename_i i hi
      obtain ⟨t, ht, -, hts⟩ := topLevel?_eq_some hi
      obtain rfl := Token.isOp_iff.1 ht
      rw [hts]
      rcases List.mem_cons.1 h with rfl | h
      · exact Amid.refl.append _
      · exact (ih h).behind rfl _
    · split_ifs at h
      · cases h
      · obtain rfl := List.mem_singleton.1 h
        exact .refl

namespace Stmt

variable {names : Names}

theorem test_eq_ok {l : LogicalLine} {word : String} {e : Expr} (hword : l.StartsWith word)
    (h : test names l = .ok e) :
    ∃ ts, l.tokens = .ofName word :: (ts ++ [.ofOp ":"]) ∧ Expr.ofTokens names ts = .ok e := by
  unfold test at h
  split_ifs at h with hform
  obtain ⟨rest, hrest⟩ := List.head?_eq_some_iff.1 hword
  obtain ⟨hheader, -⟩ := Bool.and_eq_true_iff.1 hform
  rw [hrest, List.drop_one, List.tail_cons] at h
  obtain ⟨t, ht, hcolon⟩ := (Option.any_eq_true _ _).1 hheader
  obtain rfl := Token.isOp_iff.1 hcolon
  have hlast : rest.getLast? = some (.ofOp ":") := by
    rw [hrest, List.getLast?_cons] at ht
    cases hrest' : rest.getLast? with
    | none => exact absurd ht (by simp [hrest'])
    | some u => simpa [hrest'] using ht
  exact ⟨rest.dropLast, by rw [hrest, List.dropLast_append_getLast? _ hlast], h⟩

variable {ts : List Token}

theorem countTokens?_eq_some {inner : List Token} {x : String}
    (h : countTokens? names ts = some (x, inner)) :
    names.isLocal x ∧ ∃ f, ts = f :: .ofName x :: .ofName "in" :: .ofName "range" :: .ofOp "(" ::
      (inner ++ [.ofOp ")", .ofOp ":"]) := by
  unfold countTokens? at h
  split at h
  · rename_i f y i r o rest colon c behind hreverse
    split_ifs at h with hform
    cases h
    simp only [Bool.and_eq_true, decide_eq_true_eq, beq_iff_eq, Token.isName_iff,
      Token.isOp_iff] at hform
    obtain ⟨⟨⟨⟨⟨⟨⟨hlength, hy⟩, rfl⟩, rfl⟩, rfl⟩, rfl⟩, rfl⟩, hlocal⟩ := hform
    obtain ⟨y, rfl⟩ := Token.exists_ofName hy
    refine ⟨hlocal, f, ?_⟩
    have hbehind : [f, .ofName y, .ofName "in", .ofName "range", .ofOp "("] ++
        rest.take (rest.length - 2) ++ rest.drop (rest.length - 2) =
          behind.reverse ++ [.ofOp ")", .ofOp ":"] := by
      rw [List.append_assoc, List.take_append_drop]
      simpa using congrArg List.reverse hreverse
    have hlast : rest.drop (rest.length - 2) = [.ofOp ")", .ofOp ":"] := by
      refine List.append_inj_right' hbehind ?_
      simp only [List.length_cons, List.length_nil, List.length_drop] at hlength ⊢
      omega
    rw [← hlast, List.take_append_drop]
    rfl
  · cases h

/-- The head of a loop: every part between its commas is read. -/
theorem countHead_eq_ok {head : CountHead} (h : countHead names ts = .ok head) :
    names.isLocal head.counter ∧ ∃ f inner,
      ts = f :: .ofName head.counter :: .ofName "in" :: .ofName "range" :: .ofOp "(" ::
        (inner ++ [.ofOp ")", .ofOp ":"]) ∧
      (∀ part ∈ splitArgs (inner.length + 1) inner,
        (∃ e, Expr.ofTokens names part = .ok e) ∨ ∃ n, literalStep? part = some n) ∧
      (head.start = .int 0 ∨ ∃ part ∈ splitArgs (inner.length + 1) inner,
        Expr.ofTokens names part = .ok head.start) ∧
      ∃ part ∈ splitArgs (inner.length + 1) inner, Expr.ofTokens names part = .ok head.stop := by
  unfold countHead at h
  split at h
  · cases h
  · rename_i x inner hinner
    obtain ⟨hlocal, f, hts⟩ := countTokens?_eq_some hinner
    split at h
    · rename_i stop hsplit
      obtain ⟨e, he, h⟩ := bind_eq_ok h
      cases h
      exact ⟨hlocal, f, inner, hts, by simp [hsplit, he], .inl rfl, by simp [hsplit, he]⟩
    · rename_i start stop hsplit
      obtain ⟨first, hfirst, h⟩ := bind_eq_ok h
      obtain ⟨last, hlast, h⟩ := bind_eq_ok h
      cases h
      exact ⟨hlocal, f, inner, hts, by simp [hsplit, hfirst, hlast], .inr (by simp [hsplit, hfirst]),
        by simp [hsplit, hlast]⟩
    · rename_i start stop step hsplit
      obtain ⟨first, hfirst, h⟩ := bind_eq_ok h
      obtain ⟨last, hlast, h⟩ := bind_eq_ok h
      split at h
      · rename_i n hstep
        cases h
        exact ⟨hlocal, f, inner, hts, by simp [hsplit, hfirst, hlast, hstep],
          .inr (by simp [hsplit, hfirst]), by simp [hsplit, hlast]⟩
      · cases h
    · cases h

theorem target_eq_ok {t : Target} (h : target names ts = .ok t) :
    (∃ x, ts = [.ofName x] ∧ names.isLocal x ∧ t = .loc x) ∨
      ∃ path indices, Expr.ofTokens names ts = .ok (.var path indices) ∧ t = .var path indices := by
  unfold target at h
  dsimp only at h
  split at h <;> [split_ifs at h with hlocal; skip]
  · rename_i u
    obtain ⟨hname, hlocal⟩ := Bool.and_eq_true_iff.1 hlocal
    obtain ⟨x, rfl⟩ := Token.exists_ofName (of_decide_eq_true hname)
    cases h
    exact .inl ⟨x, rfl, hlocal, rfl⟩
  all_goals
    obtain ⟨e, he, h⟩ := bind_eq_ok h
    split at h
    · cases h
      exact .inr ⟨_, _, he, rfl⟩
    · cases h

theorem simple_eq_ok {l : LogicalLine} {s : Stmt} (h : simple names l = .ok s) :
    (∃ ts e, l.tokens = .ofName "return" :: ts ∧ Expr.ofTokens names ts = .ok e ∧
        s = .ret l.line (some e)) ∨
      (l.tokens = [.ofName "return"] ∧ s = .ret l.line none) ∨
      (l.tokens = [.ofName "pass"] ∧ s = .pass) ∨
      (∃ ts us t e, l.tokens = ts ++ .ofOp "=" :: us ∧ target names ts = .ok t ∧
        Expr.ofTokens names us = .ok e ∧ s = .assign l.line t e) ∨
      ∃ e, Expr.ofTokens names l.tokens = .ok e ∧ s = .call l.line e := by
  have halone : ∀ {word}, (l.tokens.head?.any fun t => t.isName word) = true →
      l.tokens.length ≤ 1 → l.tokens = [.ofName word] := by
    intro word hword hlength
    obtain ⟨rest, hrest⟩ := List.head?_eq_some_iff.1 (LogicalLine.startsWith_of_any hword)
    obtain rfl : rest = [] := by simpa [hrest] using hlength
    exact hrest
  unfold simple at h
  dsimp only at h
  split_ifs at h with hreturn hlong hpass hheader
  · obtain ⟨e, he, h⟩ := bind_eq_ok h
    cases h
    obtain ⟨rest, hrest⟩ := List.head?_eq_some_iff.1 (LogicalLine.startsWith_of_any hreturn)
    rw [hrest, List.drop_one, List.tail_cons] at he
    exact .inl ⟨rest, e, hrest, he, rfl⟩
  · cases h
    exact .inr (.inl ⟨halone hreturn (Nat.not_lt.1 hlong), rfl⟩)
  · cases h
    obtain ⟨hword, hlength⟩ := Bool.and_eq_true_iff.1 hpass
    exact .inr (.inr (.inl ⟨halone hword (of_decide_eq_true hlength).le, rfl⟩))
  · split at h
    · rename_i i hi
      obtain ⟨t, ht, -, hts⟩ := topLevel?_eq_some hi
      obtain rfl := Token.isOp_iff.1 ht
      obtain ⟨target, htarget, h⟩ := bind_eq_ok h
      obtain ⟨e, he, h⟩ := bind_eq_ok h
      cases h
      exact .inr (.inr (.inr (.inl ⟨_, _, target, e, hts, htarget, he, rfl⟩)))
    · obtain ⟨e, he, h⟩ := bind_eq_ok h
      split_ifs at h
      cases h
      exact .inr (.inr (.inr (.inr ⟨e, he, rfl⟩)))

end Stmt

end ProcessModel
