import ProcessModel.Proofs.Compiled

/-! What the names in a method body are resolved to.

A chain of names is followed through the tree of models one name at a time, so what holds of all
designations on the way is shown for one step. The scope of a body changes at its bindings only. -/

namespace ProcessModel

theorem Text.splitAll_ne_nil (sep : Char) (cs : List Char) : splitAll sep cs ≠ [] := by
  cases cs with
  | nil => simp [splitAll]
  | cons c cs =>
    unfold splitAll
    split_ifs
    · simp
    · cases splitAll sep cs <;> simp [consFirst]

theorem Text.fields_ne_nil (sep : Char) (s : String) : fields sep s ≠ [] := by
  simp [fields, splitAll_ne_nil]

namespace Designation

def owner : Designation → List String
  | .model owner | .family owner _ | .group owner _ | .method owner _ => owner
  | .var path => path.owner

/-- Whether a chain can go on. -/
def isContainer : Designation → Bool
  | .var _ | .method _ _ => false
  | _ => true

/-- A chain can go on from here, and the sub-models on the way have names of a certain kind. -/
def Opens (A : String → Prop) (found : Designation) : Prop :=
  found.isContainer = true ∧ ∀ name ∈ found.owner, A name

end Designation

namespace Scope

variable {s s' : Scope} {call : Bool}

/-- What following one more name can do. -/
inductive Steps (s : Scope) : String → Designation → Designation → Prop
  | family (owner : List String) (f : Family) : Steps s f.name (.model owner) (.family owner f)
  | submodel {owner : List String} {name : String} {d : Definition}
      (hplain : Family.ofName? name = none) (hd : s.definition.descend? owner = some d)
      (hsub : (d.submodel? name).isSome) : Steps s name (.model owner) (.model (owner ++ [name]))
  | method {owner : List String} {name : String} (hplain : Family.ofName? name = none) :
      Steps s name (.model owner) (.method owner name)
  | group (owner : List String) (g : GroupRef) :
      Steps s g.name (.family owner g.family) (.group owner g)
  | marker (owner : List String) (g : GroupRef) :
      Steps s s.dialect.fastMarker (.group owner g) (.group owner g)
  | var {owner : List String} {g : GroupRef} {name : String} (hne : name ≠ s.dialect.fastMarker) :
      Steps s name (.group owner g) (.var ⟨owner, g, name⟩)

theorem model_eq_ok {owner : List String} {d : Definition} (h : s.model owner = .ok d) :
    s.definition.descend? owner = some d := by
  unfold model at h
  split at h
  · rename_i d' hd
    cases h
    exact hd
  · cases h

variable {start found : Designation}

theorem steps_of_step {last : Bool} {name : String} (h : s.step call last name start = .ok found) :
    s.Steps name start found := by
  cases start with
  | model owner =>
    obtain ⟨d, hd, h⟩ := bind_eq_ok h
    split at h
    · rename_i f hf
      cases h
      obtain rfl := Family.ofName?_eq_some_iff.1 hf
      exact .family owner f
    · rename_i hplain
      split_ifs at h with hsub hmethod
      · cases h
        exact .submodel hplain (model_eq_ok hd) hsub
      · cases h
        exact .method hplain
  | family owner f =>
    obtain ⟨d, -, h⟩ := bind_eq_ok h
    split at h
    · rename_i g hg
      split_ifs at h
      cases h
      obtain ⟨rfl, rfl⟩ := GroupRef.ofName?_eq_some_iff.1 hg
      exact .group owner g
    · cases h
  | group owner g =>
    unfold step at h
    split_ifs at h with hmarker
    · cases h
      subst hmarker
      exact .marker owner g
    · obtain ⟨d, -, h⟩ := bind_eq_ok h
      split_ifs at h
      cases h
      exact .var hmarker
  | var path => cases h
  | method owner name => cases h

variable {chain : List String}

theorem walk_keeps {P : Designation → Prop}
    (hstep : ∀ name start found, P start → s.Steps name start found → P found) (hstart : P start)
    (h : s.walk call start chain = .ok found) : P found := by
  induction chain generalizing start with
  | nil =>
    cases h
    exact hstart
  | cons name rest ih =>
    obtain ⟨next, hnext, h⟩ := bind_eq_ok h
    exact ih (hstep name start next hstart (steps_of_step hnext)) h

theorem walk_last (hstart : start.isContainer = true) (h : s.walk call start chain = .ok found) :
    found.isContainer = true ∨ ∃ name ∈ chain, ∃ before, s.Steps name before found := by
  induction chain generalizing start with
  | nil =>
    cases h
    exact .inl hstart
  | cons name rest ih =>
    obtain ⟨next, hnext, h⟩ := bind_eq_ok h
    have hsteps := steps_of_step hnext
    by_cases hgo : next.isContainer = true
    · refine (ih hgo h).imp_right fun hlast => ?_
      obtain ⟨last, hlast, before, hbefore⟩ := hlast
      exact ⟨last, List.mem_cons_of_mem _ hlast, before, hbefore⟩
    · cases rest with
      | nil =>
        cases h
        exact .inr ⟨name, List.mem_cons_self, start, hsteps⟩
      | cons after rest =>
        obtain ⟨beyond, hbeyond, -⟩ := bind_eq_ok h
        cases steps_of_step hbeyond <;> exact absurd rfl hgo

/-- The names in force stand for containers, reached through sub-models with names of a certain
kind. -/
def Sound (A : String → Prop) (s : Scope) : Prop :=
  ∀ e ∈ s.aliases, e.1 ≠ [] ∧ e.2.Opens A

/-- Whether all sub-models of a tree that chains can lead to have names of a certain kind. -/
def Admits (A : String → Prop) (d : Definition) : Prop :=
  ∀ owner d' name, d.descend? owner = some d' → (d'.submodel? name).isSome →
    Family.ofName? name = none → A name

variable {A : String → Prop}

theorem steps_owner (hA : Admits A s.definition) (name : String) (start found : Designation)
    (hstart : ∀ x ∈ start.owner, A x) (h : s.Steps name start found) : ∀ x ∈ found.owner, A x := by
  cases h with
  | submodel hplain hd hsub =>
    intro x hx
    rcases List.mem_append.1 hx with hx | hx
    · exact hstart x hx
    · obtain rfl := List.mem_singleton.1 hx
      exact hA _ _ _ hd hsub hplain
  | family owner f => exact hstart
  | method hplain => exact hstart
  | group owner g => exact hstart
  | marker owner g => exact hstart
  | var hne => exact hstart

theorem longest?_mem {t : AliasTable} {n : Nat} (h : t.longest? chain = some (n, found)) :
    ∃ e ∈ t, e.1.length = n ∧ e.2 = found := by
  have hfold : ∀ (t : AliasTable) (best : Option (Nat × Designation)),
      t.foldl (fun best e =>
        if e.1.isPrefixOf chain && best.all fun b => b.1 ≤ e.1.length then some (e.1.length, e.2)
        else best) best = some (n, found) →
      best = some (n, found) ∨ ∃ e ∈ t, e.1.length = n ∧ e.2 = found := by
    intro t
    induction t with
    | nil => exact fun _ h => .inl h
    | cons e t ih =>
      intro best h
      rcases ih _ h with hbest | ⟨e', he', hfound⟩
      · beta_reduce at hbest
        split_ifs at hbest
        · cases hbest
          exact .inr ⟨e, List.mem_cons_self, rfl, rfl⟩
        · exact .inl hbest
      · exact .inr ⟨e', List.mem_cons_of_mem _ he', hfound⟩
  exact (hfold t none h).resolve_left (by simp)

theorem start_sound (hs : s.Sound A) {unknown : String → Construct} {rest : List String}
    {first : Designation} (h : s.start unknown chain = .ok (first, rest)) :
    first.Opens A ∧ ∃ n, 0 < n ∧ rest = chain.drop n := by
  unfold start at h
  split at h
  · rename_i n found hfound
    cases h
    obtain ⟨e, he, hlength, rfl⟩ := longest?_mem hfound
    exact ⟨(hs e he).2, n, hlength ▸ List.length_pos_iff.2 (hs e he).1, rfl⟩
  · split_ifs at h
    cases h
    exact ⟨⟨rfl, by simp [Designation.owner]⟩, 1, Nat.one_pos, rfl⟩

theorem walk_owner (hA : Admits A s.definition) (hs : s.Sound A) {unknown : String → Construct}
    {rest : List String} {first : Designation} (hstart : s.start unknown chain = .ok (first, rest))
    (h : s.walk call first rest = .ok found) : ∀ name ∈ found.owner, A name :=
  walk_keeps (P := fun found => ∀ name ∈ found.owner, A name) (steps_owner hA)
    (start_sound hs hstart).1.2 h

section Table

theorem target_sound (hA : Admits A s.definition) (hs : s.Sound A) {chain : List String}
    {found : Designation} (h : s.target chain = .ok found) : found.Opens A := by
  obtain ⟨⟨first, rest⟩, hstart, h⟩ := bind_eq_ok h
  obtain ⟨found', hwalk, h⟩ := bind_eq_ok h
  have howner := walk_owner hA hs hstart hwalk
  cases found' <;> cases h <;> exact ⟨rfl, howner⟩

theorem sound_insert (hs : s.Sound A) (name : String) {found : Designation}
    (hfound : found.Opens A) : Sound A { s with aliases := s.aliases.insert name found } := by
  intro e he
  rcases List.mem_append.1 he with he | he
  · exact hs e (List.mem_filter.1 he).1
  · obtain rfl := List.mem_singleton.1 he
    exact ⟨Text.fields_ne_nil '.' name, hfound⟩

theorem sound_shortcuts (d : Definition) (dialect : Dialect) :
    Sound A { definition := d, dialect, aliases := .shortcuts } := by
  have hall : ∀ e ∈ AliasTable.shortcuts,
      e.1 ≠ [] ∧ e.2.isContainer = true ∧ e.2.owner = [] := by decide
  intro e he
  obtain ⟨hkey, hcontainer, howner⟩ := hall e he
  exact ⟨hkey, hcontainer, by simp [howner]⟩

/-- A change of the table alone. -/
structure Renames (s s' : Scope) : Prop where
  definition : s'.definition = s.definition
  dialect : s'.dialect = s.dialect
  declared : s'.declared = s.declared

theorem Renames.trans {s₁ s₂ : Scope} (h : s.Renames s₁) (h' : s₁.Renames s₂) : s.Renames s₂ :=
  ⟨h'.definition.trans h.definition, h'.dialect.trans h.dialect, h'.declared.trans h.declared⟩

theorem withAliases_sound (hA : Admits A s.definition) (hs : s.Sound A)
    {entries : List (String × String)} (h : s.withAliases entries = .ok s') :
    s'.Sound A ∧ s.Renames s' := by
  induction entries generalizing s with
  | nil =>
    cases h
    exact ⟨hs, rfl, rfl, rfl⟩
  | cons e entries ih =>
    obtain ⟨found, hfound, h⟩ := bind_eq_ok h
    have hinsert := sound_insert hs e.1 (target_sound hA hs hfound)
    obtain ⟨hsound, hrenames⟩ := ih (s := { s with aliases := s.aliases.insert e.1 found }) hA hinsert h
    exact ⟨hsound, hrenames.definition, hrenames.dialect, hrenames.declared⟩

theorem bind_sound (hA : Admits A s.definition) (hs : s.Sound A) {l : LogicalLine}
    (h : s.bind l = .ok s') : s'.Sound A ∧ s.Renames s' := by
  unfold bind at h
  split at h
  · cases h
  · obtain ⟨found, hfound, h⟩ := bind_eq_ok h
    cases h
    exact ⟨sound_insert hs _ (target_sound hA hs hfound), rfl, rfl, rfl⟩

theorem ofMethod_eq_ok {d : Definition} {dialect : Dialect} {m : MethodSource}
    (hA : Admits A d) (h : ofMethod d dialect m = .ok s) :
    s.Sound A ∧ s.definition = d ∧ s.dialect = dialect := by
  obtain ⟨s₀, hs₀, h⟩ := bind_eq_ok h
  obtain ⟨hsound, hrenames⟩ := withAliases_sound hA (sound_shortcuts d dialect) hs₀
  split_ifs at h
  · cases h
    exact ⟨hsound, hrenames.definition, hrenames.dialect⟩
  · obtain ⟨declared, -, h⟩ := bind_eq_ok h
    cases h
    exact ⟨hsound, hrenames.definition, hrenames.dialect⟩

end Table

section Tokens

/-- The model that a chain leads into to use a variable or a method there. -/
def enters? (s : Scope) (chain : List String) (call : Bool) : Option (List String) :=
  match s.start .unknownObject chain with
  | .error _ => none
  | .ok (first, rest) =>
    match s.walk call first rest with
    | .ok (.var path) => some path.owner
    | .ok (.method owner _) => some owner
    | _ => none

variable {chain : List String}

theorem enters?_var {rest : List String} {first : Designation} {path : VarPath}
    (hstart : s.start .unknownObject chain = .ok (first, rest))
    (hwalk : s.walk call first rest = .ok (.var path)) :
    s.enters? chain call = some path.owner := by
  simp only [enters?, hstart, hwalk]

variable {owner : List String}

theorem enters?_method {rest : List String} {first : Designation} {name : String}
    (hstart : s.start .unknownObject chain = .ok (first, rest))
    (hwalk : s.walk call first rest = .ok (.method owner name)) :
    s.enters? chain call = some owner := by
  simp only [enters?, hstart, hwalk]

theorem enters?_cases (h : s.enters? chain call = some owner) :
    ∃ first rest found, s.start .unknownObject chain = .ok (first, rest) ∧
      s.walk call first rest = .ok found ∧ found.isContainer = false ∧ found.owner = owner := by
  unfold enters? at h
  split at h
  · cases h
  · rename_i first rest hstart
    split at h
    · rename_i path hwalk
      cases h
      exact ⟨first, rest, _, hstart, hwalk, rfl, rfl⟩
    · rename_i owner name hwalk
      cases h
      exact ⟨first, rest, _, hstart, hwalk, rfl, rfl⟩
    · cases h

theorem enters?_owner (hA : Admits A s.definition) (hs : s.Sound A)
    (h : s.enters? chain call = some owner) : ∀ name ∈ owner, A name := by
  obtain ⟨first, rest, found, hstart, hwalk, -, rfl⟩ := enters?_cases h
  exact walk_owner hA hs hstart hwalk

theorem enters?_single (hs : s.Sound A) (name : String) : s.enters? [name] call = none := by
  by_contra hsome
  obtain ⟨owner, howner⟩ := Option.ne_none_iff_exists'.1 hsome
  obtain ⟨first, rest, found, hstart, hwalk, hfound, -⟩ := enters?_cases howner
  obtain ⟨⟨hfirst, -⟩, n, hn, rfl⟩ := start_sound hs hstart
  rw [List.drop_of_length_le (Nat.succ_le_of_lt hn)] at hwalk
  cases hwalk
  simp [hfirst] at hfound

theorem enters?_pair {x y : String} (hunknown : s.aliases.longest? [x, y] = none) :
    (s.enters? [x, y] call).getD [] = [] := by
  cases henters : s.enters? [x, y] call with
  | none => rfl
  | some owner =>
    obtain ⟨first, rest, found, hstart, hwalk, hfound, rfl⟩ := enters?_cases henters
    unfold start at hstart
    rw [hunknown] at hstart
    dsimp only at hstart
    split_ifs at hstart
    cases hstart
    obtain ⟨next, hnext, hwalk⟩ := bind_eq_ok hwalk
    cases hwalk
    cases steps_of_step hnext with
    | family => cases hfound
    | submodel => cases hfound
    | method => rfl

/-- The ways in which a chain is resolved. -/
inductive Uses (s : Scope) (call : Bool) : List String → Option (List Token) → Prop
  | single (name : String) : Uses s call [name] none
  | helper {name : String} (hunknown : s.aliases.longest? [s.dialect.helpers, name] = none) :
      Uses s call [s.dialect.helpers, name] (some [.ofName name])
  | var {chain rest : List String} {first : Designation} {path : VarPath}
      (hnone : ¬(chain.headD "" = s.dialect.helpers ∧ chain.length = 2 ∧
        s.aliases.longest? chain = none))
      (hstart : s.start .unknownObject chain = .ok (first, rest))
      (hwalk : s.walk call first rest = .ok (.var path)) (hpermits : s.permits path = true) :
      Uses s call chain (some (.ofName "self" :: dotted path.segments))
  | method {chain rest owner : List String} {first : Designation} {name : String}
      (hnone : ¬(chain.headD "" = s.dialect.helpers ∧ chain.length = 2 ∧
        s.aliases.longest? chain = none))
      (hstart : s.start .unknownObject chain = .ok (first, rest))
      (hwalk : s.walk call first rest = .ok (.method owner name)) :
      Uses s call chain (some (.ofName "self" :: dotted (owner ++ [name])))

theorem uses_of_use {found : Option (List Token)} (h : s.use chain call = .ok found) :
    s.Uses call chain found := by
  unfold use at h
  dsimp only at h
  split_ifs at h with hcalled hbare hsingle hhelper
  · cases h
    obtain ⟨name, rfl⟩ := List.length_eq_one_iff.1 (by simpa using (Bool.and_eq_true_iff.1 hcalled).1)
    exact .single name
  · cases h
    obtain ⟨name, rfl⟩ := List.length_eq_one_iff.1 (by simpa using (Bool.and_eq_true_iff.1 hsingle).1)
    exact .single name
  · cases h
    simp only [Bool.and_eq_true, decide_eq_true_eq, Option.isNone_iff_eq_none] at hhelper
    obtain ⟨⟨hhead, hlength⟩, hunknown⟩ := hhelper
    obtain ⟨x, y, rfl⟩ := List.length_eq_two.1 hlength
    obtain rfl : x = s.dialect.helpers := hhead
    exact .helper hunknown
  · simp only [Bool.and_eq_true, decide_eq_true_eq, Option.isNone_iff_eq_none, and_assoc] at hhelper
    obtain ⟨⟨first, rest⟩, hstart, h⟩ := bind_eq_ok h
    obtain ⟨found', hwalk, h⟩ := bind_eq_ok h
    cases found' with
    | var path =>
      dsimp only at h
      split_ifs at h with hpermits
      cases h
      exact .var hhelper hstart hwalk hpermits
    | method owner name =>
      cases h
      exact .method hhelper hstart hwalk
    | model owner => cases h
    | family owner f => cases h
    | group owner g => cases h

section Reached

variable {rest : List String} {first : Designation}
  (hs : s.Sound A) (hstart : s.start .unknownObject chain = .ok (first, rest))
include hs hstart

theorem walk_var {path : VarPath} (hwalk : s.walk call first rest = .ok (.var path)) :
    path.name ∈ chain ∧ path.name ≠ s.dialect.fastMarker := by
  obtain ⟨⟨hfirst, -⟩, n, -, rfl⟩ := start_sound hs hstart
  obtain ⟨name, hmem, before, hsteps⟩ := (walk_last hfirst hwalk).resolve_left Bool.false_ne_true
  cases hsteps with
  | var hne => exact ⟨List.mem_of_mem_drop hmem, hne⟩

theorem walk_method {name : String} (hwalk : s.walk call first rest = .ok (.method owner name)) :
    name ∈ chain ∧ Family.ofName? name = none := by
  obtain ⟨⟨hfirst, -⟩, n, -, rfl⟩ := start_sound hs hstart
  obtain ⟨name', hmem, before, hsteps⟩ := (walk_last hfirst hwalk).resolve_left Bool.false_ne_true
  cases hsteps with
  | method hplain => exact ⟨List.mem_of_mem_drop hmem, hplain⟩

end Reached

theorem chainRest_eq (ts : List Token) : ts = dotted (chainRest ts).1 ++ (chainRest ts).2 := by
  fun_induction chainRest ts with
  | case1 d t rest h ih =>
    obtain ⟨hpoint, hname⟩ : d.isOp "." = true ∧ t.kind = .name := by simpa using h
    obtain rfl := Token.isOp_iff.1 hpoint
    obtain ⟨x, rfl⟩ := Token.exists_ofName hname
    rw [dotted_cons, List.cons_append, List.cons_append, ← ih]
    rfl
  | case2 => rfl
  | case3 => rfl

def opensCall (ts : List Token) : Bool := ts.head?.any fun t => t.isOp "("

/-- The tokens of a statement with its chains resolved one by one. -/
inductive Rewritten (s : Scope) : Bool → List Token → List Token → Prop
  | nil (after : Bool) : Rewritten s after [] []
  | keep {after : Bool} {t : Token} {ts out : List Token} (hkeep : t.kind ≠ .name ∨ after = true)
      (h : Rewritten s (t.isOp ".") ts out) : Rewritten s after (t :: ts) (t :: out)
  | chain {x : String} {ts out : List Token} {found : Option (List Token)} (hself : x ≠ "self")
      (hfound : s.use (x :: (chainRest ts).1) (opensCall (chainRest ts).2) = .ok found)
      (h : Rewritten s false (chainRest ts).2 out) :
      Rewritten s false (.ofName x :: ts) (found.getD [.ofName x] ++ out)

theorem rewritten_of_tokens {after : Bool} {ts out : List Token} (h : s.tokens after ts = .ok out) :
    s.Rewritten after ts out := by
  fun_induction s.tokens after ts generalizing out with
  | case1 after =>
    cases h
    exact .nil after
  | case2 after t rest hkeep ih =>
    obtain ⟨out', hout', h⟩ := bind_eq_ok h
    cases h
    exact .keep (by simpa using hkeep) (ih hout')
  | case3 => cases h
  | case4 after t rest hkeep hself _ call =>
    rename_i ih
    obtain ⟨found, hfound, h⟩ := bind_eq_ok h
    obtain ⟨out', hout', h⟩ := bind_eq_ok h
    cases h
    obtain ⟨hname, rfl⟩ : t.kind = .name ∧ after = false := by simpa using hkeep
    obtain ⟨x, rfl⟩ := Token.exists_ofName hname
    exact .chain hself hfound (ih hout')

end Tokens

section Lines

/-- The statements of a body whose names are resolved, each with the scope in force there. -/
def reads (s : Scope) : List LogicalLine → List (Scope × LogicalLine)
  | [] => []
  | l :: rest =>
    if l.containsName s.dialect.slowMarker then s.reads rest
    else if l.containsName s.dialect.fastMarker then
      ((s.bind l).toOption.map fun s' => s'.reads rest).getD []
    else (s, l) :: s.reads rest

def isPlain (dialect : Dialect) (l : LogicalLine) : Bool :=
  !l.containsName dialect.slowMarker && !l.containsName dialect.fastMarker

/-- A plain line, resolved in a scope that differs from `s` in the names in force at most. -/
structure Resolves (A : String → Prop) (s : Scope) (r : Scope × LogicalLine) (out : LogicalLine) :
    Prop where
  sound : r.1.Sound A
  renames : s.Renames r.1
  plain : isPlain s.dialect r.2 = true
  tokens : r.1.tokens false r.2.tokens = .ok out.tokens
  same : out = { r.2 with tokens := out.tokens }

theorem Resolves.of_renames (h : s.Renames s') {r : Scope × LogicalLine} {out : LogicalLine}
    (hr : Resolves A s' r out) : Resolves A s r out :=
  ⟨hr.sound, h.trans hr.renames, h.dialect ▸ hr.plain, hr.tokens, hr.same⟩

theorem onLine_eq_ok {α : Type} {line : Nat} {x : Except Construct α} {a : α}
    (h : Script.onLine line x = .ok a) : x = .ok a := by
  cases x with
  | ok b =>
    cases h
    rfl
  | error e => cases h

theorem reads_lines (hA : Admits A s.definition) (hs : s.Sound A) {ls out : List LogicalLine}
    (h : s.lines ls = .ok (out, s')) :
    (s.reads ls).map (·.2) = ls.filter (isPlain s.dialect) ∧
      ∃ rs, List.Forall₂ (Resolves A s) (s.reads ls) rs ∧
        out.filter (fun l => !l.containsName s.dialect.fastMarker) =
          rs.filter fun l => !l.containsName s.dialect.fastMarker := by
  induction ls generalizing s out with
  | nil =>
    cases h
    exact ⟨rfl, [], .nil, rfl⟩
  | cons l ls ih =>
    unfold lines at h
    unfold reads
    split_ifs at h ⊢ with hslow hheader hfast
    · obtain ⟨hmap, hrs⟩ := ih hA hs h
      refine ⟨?_, hrs⟩
      rw [hmap, List.filter_cons_of_neg (by simp [isPlain, hslow])]
    · obtain ⟨s₁, hs₁, h⟩ := bind_eq_ok h
      obtain ⟨⟨out₁, s₂⟩, hout₁, h⟩ := bind_eq_ok h
      cases h
      replace hs₁ := onLine_eq_ok hs₁
      obtain ⟨hsound, hrenames⟩ := bind_sound hA hs hs₁
      obtain ⟨hmap, rs, hrs, hout⟩ := ih (hrenames.definition ▸ hA) hsound hout₁
      rw [hrenames.dialect] at hmap hout
      simp only [hs₁, Except.toOption, Option.map_some, Option.getD_some]
      refine ⟨?_, rs, hrs.imp fun _ _ => .of_renames hrenames, ?_⟩
      · rw [hmap, List.filter_cons_of_neg (by simp [isPlain, hfast])]
      · rw [List.filter_cons_of_neg (by simp [hfast]), hout]
    · obtain ⟨ts, hts, h⟩ := bind_eq_ok h
      obtain ⟨⟨out₁, s₂⟩, hout₁, h⟩ := bind_eq_ok h
      cases h
      obtain ⟨hmap, rs, hrs, hout⟩ := ih hA hs hout₁
      have hplain : isPlain s.dialect l = true := by simp [isPlain, hslow, hfast]
      have hline : Resolves A s (s, l) { l with tokens := ts } :=
        ⟨hs, ⟨rfl, rfl, rfl⟩, hplain, onLine_eq_ok hts, rfl⟩
      refine ⟨?_, _, .cons hline hrs, ?_⟩
      · rw [List.map_cons, hmap, List.filter_cons_of_pos hplain]
      · rw [List.filter_cons, List.filter_cons, hout]

end Lines

end Scope

theorem NormalBody.normalLines_eq_ok {dialect : Dialect} {method : String} {names : List Local}
    {ls out : List LogicalLine} (h : normalLines dialect method names ls = .ok out) :
    out = (ls.filter fun l => !l.containsName dialect.fastMarker).map expand := by
  induction ls generalizing out with
  | nil =>
    cases h
    rfl
  | cons l ls ih =>
    unfold normalLines at h
    split_ifs at h with hmarker
    · rw [ih h, List.filter_cons_of_neg (by simp [hmarker])]
    · rw [List.filter_cons_of_pos (by simp [hmarker])]
      dsimp only at h
      split at h
      · cases h
      · obtain ⟨out', hout', h⟩ := bind_eq_ok h
        cases h
        rw [ih hout', List.map_cons]

end ProcessModel
