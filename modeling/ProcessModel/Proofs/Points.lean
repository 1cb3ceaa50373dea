import ProcessModel.Proofs.References
import ProcessModel.Proofs.Rendering

/-! Points in the lines of a body.

A point that is read behind a number, or before one, would be written as part of the number. The
grammar puts a point between names only. -/

namespace ProcessModel

open Script

/-- Tokens whose points all stand between names. -/
structure Pointed (ts : List Token) : Prop where
  chain : ts.IsChain Token.Points
  first : ts.head? ≠ some (.ofOp ".")
  last : ts.getLast? ≠ some (.ofOp ".")

namespace Pointed

variable {ts us : List Token} {t : Token}

theorem nil : Pointed [] := ⟨.nil, by simp, by simp⟩

theorem append (h : Pointed ts) (h' : Pointed us) : Pointed (ts ++ us) := by
  refine ⟨List.isChain_append.2 ⟨h.chain, h'.chain, fun x hx y hy => ⟨?_, ?_⟩⟩, ?_, ?_⟩
  · rintro rfl
    exact absurd hy h'.first
  · rintro rfl
    exact absurd hx h.last
  · cases ts with
    | nil => exact h'.first
    | cons t ts => exact h.first
  · rw [List.getLast?_append]
    cases hlast : us.getLast? with
    | none => simpa using h.last
    | some u =>
      intro hu
      exact h'.last (hlast.trans hu)

theorem singleton (ht : t ≠ .ofOp ".") : Pointed [t] :=
  ⟨.singleton t, by simpa using ht, by simpa using ht⟩

theorem cons (ht : t ≠ .ofOp ".") (h : Pointed ts) : Pointed (t :: ts) := (singleton ht).append h

theorem path (x : String) (chain : List String) : Pointed (.ofName x :: dotted chain) := by
  have hnames : (Token.ofName x :: dotted chain).IsChain Token.Points ∧
      ∃ y, (Token.ofName x :: dotted chain).getLast? = some (.ofName y) := by
    induction chain generalizing x with
    | nil => exact ⟨.singleton _, x, rfl⟩
    | cons z chain ih =>
      obtain ⟨hchain, y, hlast⟩ := ih z
      rw [dotted_cons]
      refine ⟨.cons_cons ⟨fun _ => rfl, by simp⟩ (.cons_cons ⟨by simp, fun _ => rfl⟩ hchain), y, ?_⟩
      rw [List.getLast?_cons_cons, List.getLast?_cons_cons, hlast]
  obtain ⟨hchain, y, hlast⟩ := hnames
  exact ⟨hchain, by simp, by simp [hlast]⟩

theorem brackets {opening closing : Token} (hopening : opening ≠ .ofOp ".")
    (hclosing : closing ≠ .ofOp ".") (h : Pointed ts) : Pointed (opening :: (ts ++ [closing])) :=
  (h.append (singleton hclosing)).cons hopening

theorem spliced : Spliced Pointed where
  nil := nil
  append := append
  number text := singleton (by simp [Token.ofOp])
  path := path
  operator op := singleton (by cases op <;> decide)
  comma := singleton (by decide)
  brackets := brackets (by decide) (by decide)
  index := brackets (by decide) (by decide)

end Pointed

variable {names : Names}

namespace Stmt

variable {ts : List Token}

theorem ofTokens_pointed {e : Expr} (h : Expr.ofTokens names ts = .ok e) : Pointed ts :=
  Pointed.spliced.of_derives (Expr.derives_of_ofTokens h)

theorem pointed_of_splitArgs {n : Nat} (hn : ts.length < n)
    (h : ∀ part ∈ splitArgs n ts, Pointed part) : Pointed ts := by
  induction n generalizing ts with
  | zero => omega
  | succ n ih =>
    unfold splitArgs at h
    split at h
    · rename_i i hi
      obtain ⟨t, ht, hat, hts⟩ := topLevel?_eq_some hi
      obtain rfl := Token.isOp_iff.1 ht
      rw [List.forall_mem_cons] at h
      have hi := (List.getElem?_eq_some_iff.1 hat).1
      rw [hts]
      refine h.1.append ((ih ?_ h.2).cons (by decide))
      rw [List.length_drop]
      omega
    · split_ifs at h with hempty
      · rw [List.isEmpty_iff.1 hempty]
        exact .nil
      · exact h ts List.mem_cons_self

theorem pointed_of_literalStep? {n : Int64} (h : literalStep? ts = some n) : Pointed ts := by
  have hnumber : ∀ t m, literalStep?.value? t = some m → t ≠ .ofOp "." := by
    rintro t m hvalue rfl
    simp [literalStep?.value?, Token.ofOp] at hvalue
  unfold literalStep? at h
  split at h
  · rename_i t
    exact .singleton (hnumber t n h)
  · rename_i m t
    split_ifs at h with hminus
    obtain ⟨k, hk, -⟩ := Option.map_eq_some_iff.1 h
    obtain rfl := Token.isOp_iff.1 hminus
    exact (Pointed.singleton (hnumber t k hk)).cons (by decide)
  · cases h

variable {l : LogicalLine}

theorem pointed_of_countHead {head : CountHead} (hfor : l.StartsWith "for")
    (h : countHead names l.tokens = .ok head) : Pointed l.tokens := by
  obtain ⟨-, f, inner, hts, hread, -⟩ := countHead_eq_ok h
  have hf : f = .ofName "for" := by simpa [LogicalLine.StartsWith, hts] using hfor
  have hparts : ∀ part ∈ splitArgs (inner.length + 1) inner, Pointed part := by
    intro part hpart
    obtain ⟨e, he⟩ | ⟨n, hn⟩ := hread part hpart
    · exact ofTokens_pointed he
    · exact pointed_of_literalStep? hn
  have hend : Pointed [.ofOp ")", .ofOp ":"] := (Pointed.singleton (by decide)).cons (by decide)
  have hbrackets := ((pointed_of_splitArgs (Nat.lt_succ_self _) hparts).append hend).cons
    (t := .ofOp "(") (by decide)
  rw [hts, hf]
  exact (((hbrackets.cons (by decide)).cons (by decide)).cons (by simp)).cons (by decide)

theorem pointed_of_test {word : String} {e : Expr} (hword : l.StartsWith word)
    (h : test names l = .ok e) : Pointed l.tokens := by
  obtain ⟨ts, hts, he⟩ := test_eq_ok hword h
  rw [hts]
  exact ((ofTokens_pointed he).append (.singleton (by decide))).cons (by simp)

theorem pointed_of_simple {s : Stmt} (h : simple names l = .ok s) : Pointed l.tokens := by
  obtain ⟨ts, e, hts, he, -⟩ | ⟨hts, -⟩ | ⟨hts, -⟩ | ⟨ts, us, t, e, hts, ht, he, -⟩ | ⟨e, he, -⟩ :=
    simple_eq_ok h
  · exact hts ▸ (ofTokens_pointed he).cons (by decide)
  · exact hts ▸ .singleton (by decide)
  · exact hts ▸ .singleton (by decide)
  · have htarget : Pointed ts := by
      obtain ⟨x, rfl, -, -⟩ | ⟨path, indices, hpath, -⟩ := target_eq_ok ht
      · exact .singleton (by simp)
      · exact ofTokens_pointed hpath
    exact hts ▸ htarget.append ((ofTokens_pointed he).cons (by decide))
  · exact ofTokens_pointed he

end Stmt

theorem Node.ReadFrom.pointed {l : LogicalLine} {node : Node} (h : node.ReadFrom names l) :
    Pointed l.tokens := by
  cases node with
  | elif e => exact Stmt.pointed_of_test h.1 h.2
  | otherwise =>
    have htokens : l.tokens = [.ofName "else", .ofOp ":"] := h
    rw [htokens]
    exact (Pointed.singleton (by decide)).cons (by decide)
  | stmt s =>
    cases s with
    | count line x start stop step body => exact Stmt.pointed_of_countHead h.1 h.2
    | choose line clauses otherwise =>
      cases clauses with
      | nil => exact h.elim
      | cons c clauses =>
        obtain ⟨e, body⟩ := c
        exact Stmt.pointed_of_test h.1 h.2
    | loop line e body => exact Stmt.pointed_of_test h.1 h.2
    | assign line target value => exact Stmt.pointed_of_simple h
    | ret line value => exact Stmt.pointed_of_simple h
    | pass => exact Stmt.pointed_of_simple h
    | call line e => exact Stmt.pointed_of_simple h

theorem Follows.pointed {before ls : List LogicalLine} {es : List Entry}
    (h : Follows names before ls es) : ∀ l ∈ ls, Pointed l.tokens := by
  induction h with
  | nil => simp
  | cons hnode hline h ih => exact List.forall_mem_cons.2 ⟨hnode.pointed, ih⟩

end ProcessModel
