import ProcessModel.Proofs.Resolution

/-! Which statements of a method reach its normal form.

Statements on the slow path and bindings are dropped, and both are told by a marker among their
names. A statement without one can gain the marker when its names are resolved. -/

namespace ProcessModel

namespace Scope

variable {s : Scope} {A : String → Prop}

def chains (after : Bool) : List Token → List (List String × Bool)
  | [] => []
  | t :: rest =>
    if t.kind ≠ .name || after then chains (t.isOp ".") rest
    else
      have : (chainRest rest).2.length < (t :: rest).length :=
        Nat.lt_succ_of_le (chainRest_length rest)
      (t.text :: (chainRest rest).1, opensCall (chainRest rest).2) :: chains false (chainRest rest).2
termination_by ts => ts.length
decreasing_by
  · simp
  · exact this

theorem chains_keep {after : Bool} {t : Token} {ts : List Token}
    (h : t.kind ≠ .name ∨ after = true) : chains after (t :: ts) = chains (t.isOp ".") ts := by
  rw [chains, if_pos (by simpa using h)]

theorem chains_name {t : Token} {ts : List Token} (h : t.kind = .name) : chains false (t :: ts) =
    (t.text :: (chainRest ts).1, opensCall (chainRest ts).2) :: chains false (chainRest ts).2 := by
  rw [chains, if_neg (by simp [h])]

/-- Whether a chain leads to a variable or a method below a sub-model of that name. -/
def through (s : Scope) (name : String) (c : List String × Bool) : Bool :=
  (s.enters? c.1 c.2).any fun owner => owner.contains name

/-- Whether a statement uses a variable or a method below a sub-model of that name. -/
def leadsThrough (s : Scope) (name : String) (l : LogicalLine) : Bool :=
  (chains false l.tokens).any (s.through name)

variable {name : String}

theorem through_iff {c : List String × Bool} :
    s.through name c = true ↔ ∃ owner, s.enters? c.1 c.2 = some owner ∧ name ∈ owner := by
  simp [through, Option.any_eq_true]

section Gain

variable {name : String}

theorem mem_dotted {chain : List String} : Token.ofName name ∈ dotted chain ↔ name ∈ chain := by
  simp [dotted]

theorem mem_iff_chainRest (ts : List Token) : Token.ofName name ∈ ts ↔
    name ∈ (chainRest ts).1 ∨ Token.ofName name ∈ (chainRest ts).2 := by
  rw [← mem_dotted, ← List.mem_append, ← chainRest_eq]

/-- Resolution itself puts words into a chain; `name` is none of them. -/
structure Foreign (name : String) : Prop where
  self : name ≠ "self"
  family : ∀ f : Family, name ≠ f.name
  group : ∀ g : GroupRef, name ≠ g.name

theorem mem_of_use (hs : s.Sound A) (hname : Foreign name) (hmarker : s.dialect.fastMarker = name)
    {y : String} {chain : List String} {call : Bool} {found : Option (List Token)} (hy : y ≠ name)
    (hchain : name ∉ chain) (h : s.use chain call = .ok found) :
    Token.ofName name ∈ found.getD [.ofName y] ↔ s.through name (chain, call) = true := by
  rw [through_iff]
  cases uses_of_use h with
  | single x => simp [enters?_single hs, hy.symm]
  | @helper x hunknown =>
    have hx : name ≠ x := by
      rintro rfl
      simp at hchain
    have hnone : ∀ owner, s.enters? [s.dialect.helpers, x] call = some owner → name ∉ owner := by
      intro owner howner
      have henters : (s.enters? [s.dialect.helpers, x] call).getD [] = [] := enters?_pair hunknown
      rw [howner, Option.getD_some] at henters
      simp [henters]
    simpa [hx] using hnone
  | @var _ _ _ path hnone hstart hwalk hpermits =>
    have hself := hname.self
    have hfamily := hname.family path.group.family
    have hgroup := hname.group path.group
    have hlast : name ≠ path.name := hmarker ▸ (walk_var hs hstart hwalk).2.symm
    simp [enters?_var hstart hwalk, mem_dotted, VarPath.segments, hself, hfamily, hgroup, hlast]
  | @method _ _ owner _ x hnone hstart hwalk =>
    have hself := hname.self
    have hx : name ≠ x := by
      rintro rfl
      exact hchain (walk_method hs hstart hwalk).1
    simp [enters?_method hstart hwalk, mem_dotted, hself, hx]

theorem mem_rewritten (hs : s.Sound A) (hname : Foreign name)
    (hmarker : s.dialect.fastMarker = name) {after : Bool} {ts out : List Token}
    (hnot : Token.ofName name ∉ ts) (h : s.Rewritten after ts out) :
    Token.ofName name ∈ out ↔ (chains after ts).any (s.through name) = true := by
  induction h with
  | nil after => simp [chains]
  | @keep after t ts out hkeep h ih =>
    rw [List.mem_cons, not_or] at hnot
    rw [chains_keep hkeep, List.mem_cons, ih hnot.2]
    simp [hnot.1]
  | @chain x ts out found hself hfound h ih =>
    rw [List.mem_cons, not_or, mem_iff_chainRest ts, not_or] at hnot
    obtain ⟨hx, hchain, hrest⟩ := hnot
    replace hx : x ≠ name := by simpa using Ne.symm hx
    have hfirst : name ∉ x :: (chainRest ts).1 := by simpa using ⟨hx.symm, hchain⟩
    rw [chains_name rfl, Token.text_ofName, List.any_cons, Bool.or_eq_true, List.mem_append,
      ih hrest, mem_of_use hs hname hmarker hx hfirst hfound]

end Gain

theorem containsName_iff {l : LogicalLine} :
    l.containsName name = true ↔ Token.ofName name ∈ l.tokens := by
  simp [LogicalLine.containsName, Token.isName_iff]

theorem containsName_resolved (hname : Foreign name) (hmarker : s.dialect.fastMarker = name)
    {r : Scope × LogicalLine} {out : LogicalLine} (h : Resolves A s r out) :
    out.containsName name = r.1.leadsThrough name r.2 := by
  have hnot : Token.ofName name ∉ r.2.tokens := by
    have hplain := h.plain
    simp only [isPlain, hmarker, Bool.and_eq_true, Bool.not_eq_true', ← Bool.not_eq_true,
      containsName_iff] at hplain
    exact hplain.2
  rw [Bool.eq_iff_iff, containsName_iff]
  exact mem_rewritten h.sound hname (h.renames.dialect ▸ hmarker) hnot (rewritten_of_tokens h.tokens)

end Scope

/-- A statement in normal form takes the place of a statement of the source. -/
def StandsFor (l out : LogicalLine) : Prop := out.indent = l.indent ∧ out.line = l.line

/-- The normal form of a statement whose names are resolved in the scope in force. -/
def Scope.Normalizes (r : Scope × LogicalLine) (out : LogicalLine) : Prop :=
  ∃ ts, r.1.tokens false r.2.tokens = .ok ts ∧ out = NormalBody.expand { r.2 with tokens := ts }

theorem Scope.Normalizes.standsFor {r : Scope × LogicalLine} {out : LogicalLine}
    (h : Normalizes r out) : StandsFor r.2 out := by
  obtain ⟨ts, -, rfl⟩ := h
  unfold NormalBody.expand
  split_ifs <;> exact ⟨rfl, rfl⟩

namespace NormalBody

variable {d : Definition} {dialect : Dialect} {source : MethodSource} {resolved : ResolvedBody}
  {normal : NormalBody} {name : String}

/-- The lines of a normal form, in order, are those of the plain statements that do not lead through
a sub-model named like the marker. -/
theorem kept_lines {A : String → Prop} {s s' : Scope} (hforeign : Scope.Foreign s.dialect.fastMarker)
    (hA : Scope.Admits A s.definition) (hs : s.Sound A) {ls out normal : List LogicalLine}
    {names : List Local} (hlines : s.lines ls = .ok (out, s'))
    (hnormal : normalLines s.dialect name names out = .ok normal) :
    List.Forall₂ Scope.Normalizes
      ((s.reads ls).filter fun r => !r.1.leadsThrough s.dialect.fastMarker r.2) normal := by
  obtain ⟨-, rs, hrs, hout⟩ := Scope.reads_lines hA hs hlines
  rw [normalLines_eq_ok hnormal, hout, List.forall₂_map_right_iff]
  have hkept := List.rel_filter (p := fun r => !r.1.leadsThrough s.dialect.fastMarker r.2)
    (q := fun l => !l.containsName s.dialect.fastMarker) (R := Scope.Resolves A s)
    (fun r l h => by simp [Scope.containsName_resolved hforeign rfl h]) hrs
  refine hkept.imp fun r l h => ⟨l.tokens, h.tokens, ?_⟩
  rw [← h.same]

theorem foreign_marker : Scope.Foreign ({} : Dialect).fastMarker where
  self := by decide
  family f := by cases f <;> decide
  group g := by
    cases g with
    | kind k => cases k <;> decide
    | oldStates => decide

def Absent (name : String) (d : Definition) : Prop :=
  ∀ owner d', d.descend? owner = some d' → d'.submodel? name = none

theorem admits_of_absent (h : Absent name d) : Scope.Admits (· ≠ name) d := by
  rintro owner d' x hd hsub - rfl
  simp [h owner d' hd] at hsub

theorem leadsThrough_of_sound {s : Scope} (hA : Scope.Admits (· ≠ name) s.definition)
    (hs : s.Sound (· ≠ name)) (l : LogicalLine) : s.leadsThrough name l = false := by
  rw [← Bool.not_eq_true, Scope.leadsThrough, List.any_eq_true]
  rintro ⟨c, -, hthrough⟩
  obtain ⟨owner, howner, hmem⟩ := Scope.through_iff.1 hthrough
  exact Scope.enters?_owner hA hs howner name hmem rfl

/-- With the usual marker the lines of a normal form are, in order, the normal forms of the
statements that are neither on the slow path nor bindings, less those that lead through a sub-model
named like the marker. So nothing else is lost exactly if there is no such statement, as in a tree
without such a sub-model. -/
theorem normal_lines_stand_for_source (hmarker : dialect.fastMarker = ({} : Dialect).fastMarker)
    (hresolved : ResolvedBody.ofMethod d dialect source = .ok resolved)
    (hnormal : ofLines dialect name source.args source.locals resolved.lines = .ok normal) :
    ∃ block scope, Script.tokensOf source.source source.line = .ok block ∧
      Scope.ofMethod d dialect source = .ok scope ∧
      (scope.reads (block.lines.drop 1)).map (·.2) =
        (block.lines.drop 1).filter (Scope.isPlain dialect) ∧
      List.Forall₂ Scope.Normalizes ((scope.reads (block.lines.drop 1)).filter fun r =>
        !r.1.leadsThrough dialect.fastMarker r.2) normal.lines ∧
      (List.Forall₂ StandsFor ((block.lines.drop 1).filter (Scope.isPlain dialect)) normal.lines ↔
        ∀ r ∈ scope.reads (block.lines.drop 1),
          r.1.leadsThrough dialect.fastMarker r.2 = false) ∧
      (Absent dialect.fastMarker d →
        List.Forall₂ StandsFor ((block.lines.drop 1).filter (Scope.isPlain dialect))
          normal.lines) := by
  obtain ⟨scope, hscope, hresolved⟩ := bind_eq_ok hresolved
  obtain ⟨block, hblock, hresolved⟩ := bind_eq_ok hresolved
  obtain ⟨⟨lines, scope'⟩, hlines, hresolved⟩ := bind_eq_ok hresolved
  cases hresolved
  obtain ⟨out, hout, hnormal⟩ := bind_eq_ok hnormal
  cases hnormal
  replace hscope := Scope.onLine_eq_ok hscope
  have hany : Scope.Admits (fun _ => True) d := fun _ _ _ _ _ _ => trivial
  obtain ⟨hsound, hd, hdialect⟩ := Scope.ofMethod_eq_ok hany hscope
  have hforeign : Scope.Foreign scope.dialect.fastMarker := hdialect ▸ hmarker ▸ foreign_marker
  obtain ⟨hplain, -⟩ := Scope.reads_lines (hd ▸ hany) hsound hlines
  have hkept := kept_lines hforeign (hd ▸ hany) hsound hlines (hdialect ▸ hout)
  rw [hdialect] at hplain hkept
  have hiff : List.Forall₂ StandsFor ((block.lines.drop 1).filter (Scope.isPlain dialect)) out ↔
      ∀ r ∈ scope.reads (block.lines.drop 1), r.1.leadsThrough dialect.fastMarker r.2 = false := by
    rw [← hplain, List.forall₂_map_left_iff]
    constructor
    · intro hall r hr
      have hlength := hkept.length_eq.trans hall.length_eq.symm
      simpa using List.length_filter_eq_length_iff.1 hlength r hr
    · intro hnone
      rw [List.filter_eq_self.2 (by simpa using hnone)] at hkept
      exact hkept.imp fun _ _ => Scope.Normalizes.standsFor
  refine ⟨block, scope, hblock, hscope, hplain, hkept, hiff, fun habsent => hiff.2 fun r hr => ?_⟩
  have hA := admits_of_absent habsent
  obtain ⟨hsound, -, -⟩ := Scope.ofMethod_eq_ok hA hscope
  obtain ⟨-, rs, hrs, -⟩ := Scope.reads_lines (hd ▸ hA) hsound hlines
  obtain ⟨l, -, hl⟩ := exists_of_forall₂ hrs hr
  exact leadsThrough_of_sound (hl.renames.definition ▸ hd ▸ hA) hl.sound r.2

def basin (part : String) : Definition where
  name := "basin"
  sources := [⟨"basin.mdl", "def calc(model):\n    flu.q = fa.get()\n"⟩]
  groups := [{ kind := .fluxes, vars := [{ name := "q" }] }]
  methods := { run := ["calc"] }
  aliases := [("fa", "model." ++ part)]
  submodels := [(part, {
    name := "part"
    sources := [⟨"part.mdl", "def get(model):\n    return 1.0\n"⟩]
    methods := { add := ["get"] } })]

theorem absent_basin : Absent ({} : Dialect).fastMarker (basin "store") := by
  intro owner d' h
  cases owner with
  | nil =>
    cases h
    rfl
  | cons x owner =>
    obtain ⟨part, hpart, h⟩ := Option.bind_eq_some_iff.1 h
    obtain ⟨e, he, rfl⟩ := Option.map_eq_some_iff.1 hpart
    obtain rfl := List.mem_singleton.1 (List.mem_of_find?_eq_some he)
    cases owner with
    | nil =>
      cases h
      rfl
    | cons y owner =>
      obtain ⟨below, hbelow, -⟩ := Option.bind_eq_some_iff.1 h
      cases hbelow

/-- With a sub-model of another name the only statement of the basin is kept. -/
theorem basin_keeps_statement :
    ∃ source resolved normal block,
      MethodSource.find (basin "store") ({} : Dialect).fastMarker "calc" .run = .ok source ∧
      ResolvedBody.ofMethod (basin "store") {} source = .ok resolved ∧
      ofLines {} "calc" source.args source.locals resolved.lines = .ok normal ∧
      Script.tokensOf source.source source.line = .ok block ∧ normal.lines.length = 1 ∧
      List.Forall₂ StandsFor ((block.lines.drop 1).filter (Scope.isPlain {})) normal.lines := by
  have hrun : ((MethodSource.find (basin "store") ({} : Dialect).fastMarker "calc" .run).toOption.any
      fun source => (ResolvedBody.ofMethod (basin "store") {} source).toOption.any
        fun resolved => (ofLines {} "calc" source.args source.locals resolved.lines).toOption.any
          fun normal => normal.lines.length = 1) := by
    decide +kernel
  obtain ⟨source, hsource, h⟩ := exists_ok_of_any hrun
  obtain ⟨resolved, hresolved, h⟩ := exists_ok_of_any h
  obtain ⟨normal, hnormal, hlength⟩ := exists_ok_of_any h
  obtain ⟨block, scope, hblock, -, -, -, -, hall⟩ :=
    normal_lines_stand_for_source rfl hresolved hnormal
  exact ⟨source, resolved, normal, block, hsource, hresolved, hnormal, hblock,
    of_decide_eq_true hlength, hall absent_basin⟩

/-- With a sub-model named like the marker the statement is lost, although it holds no marker. -/
theorem basin_loses_statement :
    ∃ d source resolved normal block, Definition.build (basin "fastaccess") = .ok d ∧
      MethodSource.find d ({} : Dialect).fastMarker "calc" .run = .ok source ∧
      ResolvedBody.ofMethod d {} source = .ok resolved ∧
      ofLines {} "calc" source.args source.locals resolved.lines = .ok normal ∧
      Script.tokensOf source.source source.line = .ok block ∧ normal.lines = [] ∧
      ¬List.Forall₂ StandsFor ((block.lines.drop 1).filter (Scope.isPlain {})) normal.lines := by
  have hrun : ((Definition.build (basin "fastaccess")).toOption.any fun d =>
      (MethodSource.find d ({} : Dialect).fastMarker "calc" .run).toOption.any fun source =>
        (ResolvedBody.ofMethod d {} source).toOption.any fun resolved =>
          (ofLines {} "calc" source.args source.locals resolved.lines).toOption.any fun normal =>
            (Script.tokensOf source.source source.line).toOption.any fun block =>
              normal.lines = [] ∧
                ((block.lines.drop 1).filter (Scope.isPlain {})).length = 1) := by
    decide +kernel
  obtain ⟨d, hd, h⟩ := exists_ok_of_any hrun
  obtain ⟨source, hsource, h⟩ := exists_ok_of_any h
  obtain ⟨resolved, hresolved, h⟩ := exists_ok_of_any h
  obtain ⟨normal, hnormal, h⟩ := exists_ok_of_any h
  obtain ⟨block, hblock, h⟩ := exists_ok_of_any h
  obtain ⟨hempty, hone⟩ := of_decide_eq_true h
  refine ⟨d, source, resolved, normal, block, hd, hsource, hresolved, hnormal, hblock, hempty, ?_⟩
  intro hall
  have hlength := hall.length_eq
  rw [hone, hempty] at hlength
  cases hlength

end NormalBody

end ProcessModel
