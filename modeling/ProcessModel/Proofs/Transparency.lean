import ProcessModel.Proofs.Designations

/-! Names in force are transparent.

A name stands for a model, a family or a group that a chain from `model` could spell as well. The
name jumps to its target, and the chain walks there. The walk fails only where the model lacks the
group, and then nothing can be reached from the target either. -/

namespace ProcessModel

namespace AliasTable

variable {t : AliasTable} {chain : List String} {e : List String × Designation}
  {best : Option (Nat × Designation)}

/-- The better of an entry and the best one so far. -/
def longer (chain : List String) (best : Option (Nat × Designation))
    (e : List String × Designation) : Option (Nat × Designation) :=
  if e.1.isPrefixOf chain && best.all fun b => b.1 ≤ e.1.length then some (e.1.length, e.2)
  else best

theorem longest?_eq_foldl (t : AliasTable) (chain : List String) :
    t.longest? chain = t.foldl (longer chain) none := rfl

theorem foldl_longer_skip (h : ∀ e ∈ t, e.1 <+: chain → ∃ b ∈ best, e.1.length < b.1) :
    t.foldl (longer chain) best = best := by
  induction t with
  | nil => rfl
  | cons e t ih =>
    have hskip : longer chain best e = best := by
      refine if_neg fun htaken => ?_
      obtain ⟨hstarts, hall⟩ := Bool.and_eq_true_iff.1 htaken
      obtain ⟨b, hb, hlt⟩ := h e List.mem_cons_self (List.isPrefixOf_iff_prefix.1 hstarts)
      rw [Option.mem_def.1 hb] at hall
      have hle : b.1 ≤ e.1.length := by simpa using hall
      omega
    rw [List.foldl_cons, hskip]
    exact ih fun e' he' => h e' (List.mem_cons_of_mem _ he')

theorem foldl_longer_le {n : Nat} (hbest : ∀ b ∈ best, b.1 ≤ n)
    (h : ∀ e ∈ t, e.1 <+: chain → e.1.length ≤ n) :
    ∀ b ∈ t.foldl (longer chain) best, b.1 ≤ n := by
  induction t generalizing best with
  | nil => exact hbest
  | cons e t ih =>
    refine ih (fun b hb => ?_) fun e' he' => h e' (List.mem_cons_of_mem _ he')
    unfold longer at hb
    split_ifs at hb with htaken
    · cases hb
      exact h e List.mem_cons_self (List.isPrefixOf_iff_prefix.1 (Bool.and_eq_true_iff.1 htaken).1)
    · exact hbest b hb

theorem longest?_eq_none (h : ∀ e ∈ t, ¬ e.1 <+: chain) : t.longest? chain = none := by
  rw [longest?_eq_foldl]
  exact foldl_longer_skip fun e he hstarts => absurd hstarts (h e he)

theorem longest?_eq_some (hkeys : (t.map (·.1)).Nodup) (he : e ∈ t) (hstarts : e.1 <+: chain)
    (hmax : ∀ e' ∈ t, e'.1 <+: chain → e'.1.length ≤ e.1.length) :
    t.longest? chain = some (e.1.length, e.2) := by
  obtain ⟨before, after, rfl⟩ := List.append_of_mem he
  have hbefore : ∀ b ∈ before.foldl (longer chain) none, b.1 ≤ e.1.length :=
    foldl_longer_le (by simp) fun e' he' => hmax e' (List.mem_append_left _ he')
  have htaken : longer chain (before.foldl (longer chain) none) e = some (e.1.length, e.2) := by
    refine if_pos (Bool.and_eq_true_iff.2 ⟨List.isPrefixOf_iff_prefix.2 hstarts, ?_⟩)
    cases hbest : before.foldl (longer chain) none with
    | none => rfl
    | some b => simpa using hbefore b hbest
  rw [longest?_eq_foldl, List.foldl_append, List.foldl_cons, htaken]
  refine foldl_longer_skip fun e' he' hstarts' => ⟨_, rfl, ?_⟩
  have hle := hmax e' (List.mem_append_right _ (List.mem_cons_of_mem _ he')) hstarts'
  refine lt_of_le_of_ne hle fun hlength => ?_
  -- Two names of one length at the start of a chain are the same, and the table has each once.
  have hkey : e'.1 = e.1 :=
    (List.prefix_of_prefix_length_le hstarts' hstarts hle).eq_of_length hlength
  rw [List.map_append, List.map_cons] at hkeys
  have hfresh := (List.nodup_cons.1 (List.nodup_append.1 hkeys).2.1).1
  exact hfresh (hkey ▸ List.mem_map_of_mem he')

end AliasTable

namespace Scope

variable {s : Scope} {call : Bool}

section Tables

variable {d : Definition} {dialect : Dialect} {m : MethodSource}

theorem InForce.preserves {P : Scope → Prop}
    (hstart : P { definition := d, dialect, aliases := .shortcuts })
    (hinsert : ∀ s name chain found, P s → s.target chain = .ok found →
      P { s with aliases := s.aliases.insert name found })
    (hdeclare : ∀ s declared, P s → P { s with declared }) (h : InForce d dialect m s) : P s := by
  have haliases : ∀ (entries : List (String × String)) (s s' : Scope), P s →
      s.withAliases entries = .ok s' → P s' := by
    intro entries
    induction entries with
    | nil =>
      intro s s' hs h
      cases h
      exact hs
    | cons entry entries ih =>
      intro s s' hs h
      obtain ⟨found, hfound, h⟩ := bind_eq_ok h
      exact ih _ s' (hinsert s entry.1 _ found hs hfound) h
  induction h with
  | start h =>
    obtain ⟨s₀, hs₀, h⟩ := bind_eq_ok h
    have hP := haliases _ _ s₀ hstart hs₀
    split_ifs at h
    · cases h
      exact hP
    · obtain ⟨declared, -, h⟩ := bind_eq_ok h
      cases h
      exact hdeclare s₀ _ hP
  | @bind s s' line hs h ih =>
    unfold Scope.bind at h
    split at h
    · cases h
    · obtain ⟨found, hfound, h⟩ := bind_eq_ok h
      cases h
      exact hinsert s _ _ found ih hfound

/-- The table has each name once, and all its names lead to models of the tree. -/
structure Orderly (s : Scope) : Prop where
  keys : (s.aliases.map (·.1)).Nodup
  reached : ∀ e ∈ s.aliases, (s.definition.descend? e.2.owner).isSome

theorem steps_reached (name : String) (start found : Designation)
    (hstart : (s.definition.descend? start.owner).isSome) (h : s.Steps name start found) :
    (s.definition.descend? found.owner).isSome := by
  cases h with
  | @submodel owner name d hplain hd hsub =>
    show (s.definition.descend? (owner ++ [name])).isSome
    rw [Definition.descend?_append, hd, Option.bind_some, Definition.descend?]
    obtain ⟨d', hd'⟩ := Option.isSome_iff_exists.1 hsub
    rw [hd']
    rfl
  | family owner f => exact hstart
  | method hplain => exact hstart
  | group owner g => exact hstart
  | marker owner g => exact hstart
  | var hne => exact hstart

theorem Orderly.target (hs : s.Orderly) {chain : List String} {found : Designation}
    (h : s.target chain = .ok found) : (s.definition.descend? found.owner).isSome := by
  obtain ⟨⟨first, rest⟩, hstart, h⟩ := bind_eq_ok h
  obtain ⟨found', hwalk, h⟩ := bind_eq_ok h
  have hfirst : (s.definition.descend? first.owner).isSome := by
    unfold start at hstart
    split at hstart
    · rename_i n target hfound
      cases hstart
      obtain ⟨e, he, -, rfl⟩ := longest?_mem hfound
      exact hs.reached e he
    · split_ifs at hstart
      cases hstart
      rfl
  have hreached := walk_keeps (P := fun found => (s.definition.descend? found.owner).isSome)
    steps_reached hfirst hwalk
  cases found' <;> cases h <;> exact hreached

theorem Orderly.insert (hs : s.Orderly) (name : String) {found : Designation}
    (hfound : (s.definition.descend? found.owner).isSome) :
    Orderly { s with aliases := s.aliases.insert name found } := by
  refine ⟨?_, fun e he => ?_⟩
  · dsimp only [AliasTable.insert]
    rw [List.map_append]
    refine List.nodup_append.2 ⟨hs.keys.sublist (List.filter_sublist.map _), by simp, ?_⟩
    intro key hkey key' hkey' heq
    obtain ⟨e, he, rfl⟩ := List.mem_map.1 hkey
    obtain rfl : key' = Text.fields '.' name := by simpa using hkey'
    simpa [heq] using (List.mem_filter.1 he).2
  · rcases List.mem_append.1 he with he | he
    · exact hs.reached e (List.mem_filter.1 he).1
    · rw [List.mem_singleton.1 he]
      exact hfound

theorem InForce.orderly (h : InForce d dialect m s) : s.Orderly := by
  have hkeys : (AliasTable.shortcuts.map (·.1)).Nodup := by decide
  refine h.preserves ⟨hkeys, fun e he => ?_⟩
    (fun s name chain found hs hfound => hs.insert name (hs.target hfound))
    fun s declared hs => ⟨hs.keys, hs.reached⟩
  have howner : ∀ e ∈ AliasTable.shortcuts, e.2.owner = [] := by decide
  rw [howner e he]
  rfl

end Tables

section Walks

variable {chain c rest owner : List String} {name : String} {d : Definition} {found : Designation}

/-- The models, families and groups that chains from `model` spell. Behind a group the marker may
stand any number of times. -/
inductive Spells (marker : String) : List String → Designation → Prop
  | model : Spells marker ["model"] (.model [])
  | submodel {c owner : List String} (h : Spells marker c (.model owner)) (name : String) :
      Spells marker (c ++ [name]) (.model (owner ++ [name]))
  | family {c owner : List String} (h : Spells marker c (.model owner)) (f : Family) :
      Spells marker (c ++ [f.name]) (.family owner f)
  | group {c owner : List String} {g : GroupRef} (h : Spells marker c (.family owner g.family)) :
      Spells marker (c ++ [g.name]) (.group owner g)
  | marker {c owner : List String} {g : GroupRef} (h : Spells marker c (.group owner g)) :
      Spells marker (c ++ [marker]) (.group owner g)

theorem Spells.cons {marker : String} (h : Spells marker c found) :
    c = "model" :: c.drop 1 := by
  have hhead : c.head? = some "model" := by
    induction h with
    | model => rfl
    | submodel h name ih => simp [List.head?_append, ih]
    | family h f ih => simp [List.head?_append, ih]
    | group h ih => simp [List.head?_append, ih]
    | marker h ih => simp [List.head?_append, ih]
  cases c with
  | nil => cases hhead
  | cons x c =>
    cases hhead
    rfl

theorem step_inner (s : Scope) (call last : Bool) (name : String) (start : Designation) :
    s.step call false name start = s.step false last name start := by
  cases start <;> simp only [step, Bool.false_and, Bool.and_false]

/-- A way is walked in two parts, and no method ends the first one. -/
theorem walk_append (s : Scope) (call : Bool) (start : Designation) (hrest : rest ≠ []) :
    s.walk call start (chain ++ rest) =
      s.walk false start chain >>= fun mid => s.walk call mid rest := by
  induction chain generalizing start with
  | nil => rfl
  | cons name chain ih =>
    have hinner : (chain ++ rest).isEmpty = false := by simp [hrest]
    rw [List.cons_append, walk, hinner, step_inner s call chain.isEmpty, walk]
    cases s.step false chain.isEmpty name start with
    | error cause => rfl
    | ok next => exact ih next

theorem walk_concat (s : Scope) (start : Designation) (chain : List String) (name : String) :
    s.walk false start (chain ++ [name]) =
      s.walk false start chain >>= fun mid => s.step false true name mid := by
  rw [walk_append s false start (by simp)]
  cases s.walk false start chain with
  | error cause => rfl
  | ok mid =>
    show (s.step false true name mid >>= fun found => .ok found) = s.step false true name mid
    cases s.step false true name mid <;> rfl

theorem model_of_descend? (h : s.definition.descend? owner = some d) : s.model owner = .ok d := by
  simp only [model, h]

variable {last : Bool}

theorem step_submodel (hplain : Family.ofName? name = none)
    (h : (s.definition.descend? (owner ++ [name])).isSome) :
    s.step call last name (.model owner) = .ok (.model (owner ++ [name])) := by
  rw [Definition.descend?_append] at h
  obtain ⟨d', hd'⟩ := Option.isSome_iff_exists.1 h
  obtain ⟨d, hd, hsub⟩ := Option.bind_eq_some_iff.1 hd'
  obtain ⟨d'', hsub, -⟩ := Option.bind_eq_some_iff.1 hsub
  simp only [step, model_of_descend? hd, ok_bind, hplain, hsub, Option.isSome_some, if_true]

theorem step_family (h : (s.definition.descend? owner).isSome) (f : Family) :
    s.step call last f.name (.model owner) = .ok (.family owner f) := by
  obtain ⟨d, hd⟩ := Option.isSome_iff_exists.1 h
  simp only [step, model_of_descend? hd, ok_bind, Family.ofName?_eq_some_iff.2 rfl]

/-- A group that its model does not declare. -/
def Lacks (s : Scope) : Designation → Prop
  | .group owner g => ∃ d, s.definition.descend? owner = some d ∧ d.group? g.declaring = none
  | _ => False

theorem step_group (h : (s.definition.descend? owner).isSome) (g : GroupRef) :
    s.step call last g.name (.family owner g.family) = .ok (.group owner g) ∨
      s.Lacks (.group owner g) ∧
        ∃ cause, s.step call last g.name (.family owner g.family) = .error cause := by
  obtain ⟨d, hd⟩ := Option.isSome_iff_exists.1 h
  have hg : GroupRef.ofName? g.family g.name = some g := GroupRef.ofName?_eq_some_iff.2 ⟨rfl, rfl⟩
  cases hgroup : d.group? g.declaring with
  | none =>
    refine .inr ⟨⟨d, hd, hgroup⟩, .unknownGroupIn g.name g.family.name d.name, ?_⟩
    simp only [step, model_of_descend? hd, ok_bind, hg, hgroup, Option.isSome_none,
      Bool.false_eq_true, if_false]
  | some group =>
    refine .inl ?_
    simp only [step, model_of_descend? hd, ok_bind, hg, hgroup, Option.isSome_some, if_true]

theorem Spells.walk (h : Spells s.dialect.fastMarker c found)
    (hreached : (s.definition.descend? found.owner).isSome)
    (hplain : ∀ name ∈ found.owner, Family.ofName? name = none) :
    s.walk false (.model []) (c.drop 1) = .ok found ∨
      s.Lacks found ∧ ∃ cause, s.walk false (.model []) (c.drop 1) = .error cause := by
  have hdrop : ∀ {c : List String} {found : Designation} (name : String),
      Spells s.dialect.fastMarker c found → (c ++ [name]).drop 1 = c.drop 1 ++ [name] := by
    intro c found name h
    rw [h.cons]
    rfl
  induction h with
  | model => exact .inl rfl
  | @submodel c owner h name ih =>
    have howner : (s.definition.descend? owner).isSome := by
      rw [Designation.owner, Definition.descend?_append] at hreached
      exact Option.isSome_of_isSome_bind hreached
    have hbefore := (ih howner fun x hx => hplain x (List.mem_append_left _ hx)).resolve_right
      fun hlacks => hlacks.1
    left
    rw [hdrop name h, walk_concat, hbefore]
    exact step_submodel (hplain name (by simp [Designation.owner])) hreached
  | @family c owner h f ih =>
    have hbefore := (ih hreached hplain).resolve_right fun hlacks => hlacks.1
    left
    rw [hdrop f.name h, walk_concat, hbefore]
    exact step_family hreached f
  | @group c owner g h ih =>
    have hbefore := (ih hreached hplain).resolve_right fun hlacks => hlacks.1
    simp only [hdrop g.name h, walk_concat, hbefore, ok_bind]
    exact step_group hreached g
  | @marker c owner g h ih =>
    rw [hdrop _ h, walk_concat]
    rcases ih hreached hplain with hbefore | ⟨hlacks, cause, hbefore⟩
    · left
      rw [hbefore]
      exact if_pos rfl
    · exact .inr ⟨hlacks, cause, by rw [hbefore]; rfl⟩

theorem walk_of_lacks (h : s.Lacks found) {found' : Designation}
    (hwalk : s.walk call found chain = .ok found') : found' = found := by
  cases found with
  | group owner g =>
    obtain ⟨d, hd, hgroup⟩ := h
    induction chain with
    | nil =>
      cases hwalk
      rfl
    | cons name chain ih =>
      obtain ⟨next, hnext, hwalk⟩ := bind_eq_ok hwalk
      by_cases hmarker : name = s.dialect.fastMarker
      · obtain rfl : Designation.group owner g = next := by simpa [step, hmarker] using hnext
        exact ih hwalk
      · simp [step, hmarker, model_of_descend? hd, hgroup] at hnext
  | _ => cases h

end Walks

section Uses

variable {chain : List String} {n : Nat} {found : Designation}

theorem found_of_longest? (h : s.aliases.longest? chain = some (n, found)) :
    s.found chain call = s.walk call found (chain.drop n) := by
  simp only [Scope.found, start, h, ok_bind]

theorem found_of_model (h : s.aliases.longest? ("model" :: chain) = none) :
    s.found ("model" :: chain) call = s.walk call (.model []) chain := by
  simp only [Scope.found, start, h, List.head?_cons, if_true, ok_bind, List.drop_one,
    List.tail_cons]

theorem spell_eq_ok_iff (s : Scope) (chain chain' : List String) (found : Designation)
    (out : Option (List Token)) :
    s.spell chain found = .ok out ↔ s.spell chain' found = .ok out := by
  cases found with
  | var path => exact Iff.rfl
  | method owner name => exact Iff.rfl
  | model owner => simp [spell]
  | family owner f => simp [spell]
  | group owner g => simp [spell]

/-- A name in force and the chain from `model` that spells what it stands for can be used in each
other's place: both uses have the same tokens, or none. -/
theorem use_alias_iff {d : Definition} {dialect : Dialect} {m : MethodSource} {s : Scope}
    (hs : InForce d dialect m s) (hhelpers : dialect.helpers ≠ "model")
    {e : List String × Designation} (he : e ∈ s.aliases) {c rest : List String}
    (hc : Spells dialect.fastMarker c e.2) (hrest : rest ≠ [])
    (hspelled : ∀ e' ∈ s.aliases, ¬ e'.1 <+: c ++ rest)
    (hlongest : ∀ e' ∈ s.aliases, e'.1 <+: e.1 ++ rest → e'.1.length ≤ e.1.length) (call : Bool)
    (out : Option (List Token)) :
    s.use (e.1 ++ rest) call = .ok out ↔ s.use (c ++ rest) call = .ok out := by
  obtain ⟨hsound, rfl, rfl⟩ := hs.sound (admits_plain d)
  obtain ⟨hkey, -, hplain⟩ := hsound e he
  have hpos : 0 < e.1.length ∧ 0 < rest.length :=
    ⟨List.length_pos_iff.2 hkey, List.length_pos_iff.2 hrest⟩
  have hname : s.aliases.longest? (e.1 ++ rest) = some (e.1.length, e.2) :=
    AliasTable.longest?_eq_some hs.orderly.keys he (List.prefix_append _ _) hlongest
  have huse : s.use (e.1 ++ rest) call = s.walk call e.2 rest >>= s.spell (e.1 ++ rest) := by
    rw [use_eq_found (by simp only [List.length_append]; omega) (by simp [callsHelper, hname]),
      found_of_longest? hname, List.drop_left]
  have hnone := AliasTable.longest?_eq_none hspelled
  have huse' : s.use (c ++ rest) call =
      (s.walk false (.model []) (c.drop 1) >>= fun mid => s.walk call mid rest) >>=
        s.spell (c ++ rest) := by
    have hmodel : c ++ rest = "model" :: (c.drop 1 ++ rest) := by
      conv_lhs => rw [hc.cons]
      rfl
    rw [hmodel] at hnone
    rw [hmodel, use_eq_found (by simp only [List.length_cons, List.length_append]; omega)
      (by simp [callsHelper, hhelpers.symm]), found_of_model hnone, walk_append s call _ hrest]
  rw [huse, huse']
  rcases hc.walk (hs.orderly.reached e he) hplain with hwalk | ⟨hlacks, cause, hwalk⟩
  · rw [hwalk, ok_bind]
    cases s.walk call e.2 rest with
    | error cause => exact Iff.rfl
    | ok found => exact spell_eq_ok_iff s _ _ found out
  · rw [hwalk]
    refine iff_of_false (fun h => ?_) (fun h => by cases h)
    obtain ⟨found, hfound, hspell⟩ := bind_eq_ok h
    rw [walk_of_lacks hlacks hfound] at hspell
    cases htarget : e.2 with
    | group owner g =>
      rw [htarget] at hspell
      cases hspell
    | _ =>
      rw [htarget] at hlacks
      cases hlacks

/-- The binding of the headwater and the chain that it stands for, down to an array that is named
like a family. -/
theorem headwater_alias_iff :
    let tokens := Token.ofName "self" :: dotted ["loss", "sequences", "states", "parameters"]
    (["low"], .group ["loss"] (.kind .states)) ∈ headwaterScope.aliases ∧
      Spells "fastaccess" ["model", "loss", "sequences", "states"]
        (.group ["loss"] (.kind .states)) ∧
      headwaterScope.use ["low", "parameters"] false = .ok (some tokens) ∧
      headwaterScope.use ["model", "loss", "sequences", "states", "parameters"] false =
        .ok (some tokens) := by
  intro tokens
  have hmem : (["low"], .group ["loss"] (.kind .states)) ∈ headwaterScope.aliases := by decide
  have hmodel : Spells "fastaccess" ["model", "loss"] (.model ["loss"]) := .submodel .model "loss"
  have hfamily : Spells "fastaccess" ["model", "loss", "sequences"] (.family ["loss"] .sequences) :=
    .family hmodel .sequences
  have hgroup : Spells "fastaccess" ["model", "loss", "sequences", "states"]
      (.group ["loss"] (.kind .states)) := .group (g := .kind .states) hfamily
  have huse : headwaterScope.use ["low", "parameters"] false = .ok (some tokens) := rfl
  refine ⟨hmem, hgroup, huse, ?_⟩
  exact (use_alias_iff headwaterScope_inForce (by decide) hmem hgroup (by simp) (by decide)
    (by decide) false (some tokens)).1 huse

end Uses

end Scope

end ProcessModel
