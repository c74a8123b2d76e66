import RWave.Select.Scope

/-!
# The gates one by one

A selection keeps an alias path if each of its options alone keeps it, and a list of patterns is the
union of its items.
-/

namespace RWave

theorem Str.not_mem_of_mem_split {p : Char → Bool} {s part : String} (member : part ∈ Str.split p s) :
    ∀ c ∈ part.toList, p c = false := by
  have parts (cs : List Char) : ∀ part ∈ cs.splitOnP p, ∀ c ∈ part, p c = false := by
    induction cs with
    | nil => simp
    | cons c cs ih =>
      rw [List.splitOnP_cons_eq_if_modifyHead]
      split
      next => simpa using ih
      next other =>
        generalize cs.splitOnP p = tail at ih
        cases tail with
        | nil => simp
        | cons first tail => simpa [other] using ih
  obtain ⟨cs, among, rfl⟩ := List.mem_map.mp member
  simpa using parts _ cs among

/-- An item of a list is a list of its own. -/
theorem Str.split_of_mem_split {p : Char → Bool} {s part : String} (member : part ∈ Str.split p s) :
    Str.split p part = [part] := by
  rw [Str.split, List.splitOnP_eq_singleton (Str.not_mem_of_mem_split member), List.map_singleton,
    String.ofList_toList]

namespace Select

open RWave.Filter

/-! ## What is compiled -/

/-- The scope part of `Selection::parse_mode`. -/
def scopeOption (host : Host) : Option String → Except String (Option (List ScopePat))
  | some raw => parseScope host raw
  | none => .ok none

/-- The depth part, beside the compiled scope. -/
def depthOption (scope : Option (List ScopePat)) : Option Int → Option Nat
  | some n => if 0 < n ∧ scope.isSome then some (min n.toNat (2 ^ 32 - 1)) else none
  | none => none

/-- Each part of a selection is compiled from its own option. -/
theorem Selection.parseMode_iff {host : Host} {scope : Option String} {depth : Option Int}
    {filter exclude : Option String} {mode : MatchMode} {sel : Selection} :
    Selection.parseMode host scope depth filter exclude mode = .ok sel ↔
      scopeOption host scope = .ok sel.scope ∧ sel.depth = depthOption sel.scope depth ∧
        compile host mode filter = .ok sel.included ∧
        compile host mode exclude = .ok sel.excluded := by
  have parts : Selection.parseMode host scope depth filter exclude mode =
      (scopeOption host scope >>= fun sc => compile host mode filter >>= fun inc =>
        compile host mode exclude >>= fun exc =>
          .ok { scope := sc, depth := depthOption sc depth, included := inc, excluded := exc }) := by
    cases scope <;> cases depth <;> rfl
  rw [parts]
  simp only [Misc.bind_eq_ok]
  constructor
  · intro ⟨sc, first, inc, second, exc, third, built⟩
    obtain rfl := Except.ok.inj built
    exact ⟨first, rfl, second, third⟩
  · intro ⟨first, depthEq, second, third⟩
    exact ⟨_, first, _, second, _, third, by rw [← depthEq]⟩

namespace Selection

variable (sel : Selection)

/-- `--scope` and `--depth` alone. -/
def onlyScope : Selection := { sel with included := none, excluded := none }

/-- `--filter` alone. -/
def onlyFilter : Selection := { sel with scope := none, depth := none, excluded := none }

/-- `--exclude` alone. -/
def onlyExclude : Selection := { sel with scope := none, depth := none, included := none }

theorem onlyScope_keepsAlias (host : Host) (path scope : String) :
    sel.onlyScope.keepsAlias host path scope = sel.structuralOk host scope := by
  simp [keepsAlias, onlyScope, structuralOk]

theorem onlyFilter_keepsAlias (host : Host) (path scope : String) :
    sel.onlyFilter.keepsAlias host path scope =
      (sel.included.map fun inc => inc.matchesPathLeaf host path (Model.leafOf path scope)).getD
        true := by
  cases included : sel.included <;>
    simp [keepsAlias, onlyFilter, structuralOk, included, Filters.matchesPathLeaf]

theorem onlyExclude_keepsAlias (host : Host) (path scope : String) :
    sel.onlyExclude.keepsAlias host path scope =
      (sel.excluded.map fun e => !e.matchesPathLeaf host path (Model.leafOf path scope)).getD
        true := by
  cases excluded : sel.excluded <;>
    simp [keepsAlias, onlyExclude, structuralOk, excluded, Filters.matchesPathLeaf]

/-- An alias path is kept if every option alone keeps it. -/
theorem keepsAlias_eq (host : Host) (path scope : String) :
    sel.keepsAlias host path scope =
      (sel.onlyScope.keepsAlias host path scope && sel.onlyFilter.keepsAlias host path scope &&
        sel.onlyExclude.keepsAlias host path scope) := by
  rw [onlyScope_keepsAlias, onlyFilter_keepsAlias, onlyExclude_keepsAlias, keepsAlias]
  cases sel.included <;> cases sel.excluded <;>
    simp [Filters.matchesPathLeaf, Bool.and_assoc]

/-- A row is displayed if every option but `--filter` alone keeps its path. -/
theorem displaysAlias_eq (host : Host) (path scope : String) :
    sel.displaysAlias host path scope =
      (sel.onlyScope.keepsAlias host path scope &&
        sel.onlyExclude.keepsAlias host path scope) := by
  rw [onlyScope_keepsAlias, onlyExclude_keepsAlias, displaysAlias]
  cases sel.excluded <;> rfl

variable {sel}

/-- The options of an accepted selection are accepted alone. -/
theorem parseMode_parts {host : Host} {scope : Option String} {depth : Option Int}
    {filter exclude : Option String} {mode : MatchMode}
    (parsed : parseMode host scope depth filter exclude mode = .ok sel) :
    parseMode host scope depth none none mode = .ok sel.onlyScope ∧
      parseMode host none none filter none mode = .ok sel.onlyFilter ∧
      parseMode host none none none exclude mode = .ok sel.onlyExclude := by
  obtain ⟨first, depthEq, second, third⟩ := parseMode_iff.mp parsed
  exact ⟨parseMode_iff.mpr ⟨first, depthEq, rfl, rfl⟩, parseMode_iff.mpr ⟨rfl, rfl, second, rfl⟩,
    parseMode_iff.mpr ⟨rfl, rfl, rfl, third⟩⟩

end Selection

/-! ## Pattern lists -/

/-- The items of a comma list. -/
def listItems (raw : String) : List String := Str.split (· == ',') raw

/-- An item that says something. -/
def Filled (item : String) : Prop := Str.isEmpty (Str.trim item) = false

/-- A list without a filled item is no option. -/
theorem compile_eq {host : Host} {mode : MatchMode} {raw : String} {r : Option Filters}
    (compiled : compile host mode (some raw) = .ok r) :
    (r = none ∧ ∀ item ∈ listItems raw, ¬Filled item) ∨
      ∃ f, r = some f ∧ Filters.parseMode host (listItems raw) mode = .ok f ∧
        ∃ item ∈ listItems raw, Filled item := by
  obtain ⟨f, parsed, built⟩ := Misc.bind_eq_ok.mp compiled
  have nonblank : f.pats ≠ [] ↔ ∃ item ∈ listItems raw, Filled item := by
    obtain ⟨pats, each, filters⟩ := Misc.bind_eq_ok.mp parsed
    obtain rfl := Except.ok.inj filters
    have length := (Misc.mapM_eq_ok.mp each).length_eq
    rw [← List.length_pos_iff, ← length, List.length_pos_iff_exists_mem]
    simp [listItems, Filled]
  have result := (Except.ok.inj built).symm
  split at result
  next empty =>
    refine Or.inl ⟨result, ?_⟩
    intro item member filled
    exact nonblank.mpr ⟨item, member, filled⟩ (List.isEmpty_iff.mp empty)
  next patterns =>
    rw [List.isEmpty_iff] at patterns
    exact Or.inr ⟨f, result, parsed, nonblank.mp patterns⟩

/-- A filled item of an accepted list is accepted alone, and matches what it matches there. -/
theorem compile_item {host : Host} {mode : MatchMode} {raw : String} {f : Filters}
    (parsed : Filters.parseMode host (listItems raw) mode = .ok f) {item : String}
    (member : item ∈ listItems raw) (filled : Filled item) :
    ∃ g, compile host mode (some item) = .ok (some g) ∧ ∀ path leaf,
      g.matchesLower path leaf = globMatch (compileGlob (asGlob mode (lowered host item)))
        (haystack (lowered host item) path leaf) := by
  obtain ⟨pats, each, -⟩ := Misc.bind_eq_ok.mp parsed
  have kept : Str.trim item ∈ ((listItems raw).map Str.trim).filter fun pat => !Str.isEmpty pat := by
    exact List.mem_filter.mpr ⟨List.mem_map_of_mem member, by rw [show Str.isEmpty _ = _ from filled]; rfl⟩
  obtain ⟨p, -, one⟩ := Misc.ok_of_mem_of_mapM each kept
  have alone : Filters.parseMode host [item] mode = .ok ⟨[p]⟩ := by
    rw [Filters.parseMode, List.map_singleton, List.filter_singleton, show Str.isEmpty _ = _ from filled]
    simp [one, bind, Except.bind, pure, Except.pure]
  refine ⟨⟨[p]⟩, ?_, Filters.matchesLower_single filled alone⟩
  rw [compile, Filters.parseCsvMode, Str.split_of_mem_split member, alone]
  rfl

/-- A list matches what some filled item of it matches alone. -/
theorem matchesLower_list {host : Host} {mode : MatchMode} {raw : String} {f : Filters}
    (parsed : Filters.parseMode host (listItems raw) mode = .ok f) (path leaf : String) :
    f.matchesLower path leaf = true ↔ ∃ item ∈ listItems raw, Filled item ∧
      ∃ g, compile host mode (some item) = .ok (some g) ∧ g.matchesLower path leaf = true := by
  rw [Filters.matchesLower_iff parsed]
  constructor
  · intro ⟨item, member, filled, hit⟩
    obtain ⟨g, compiled, same⟩ := compile_item parsed member filled
    exact ⟨item, member, filled, g, compiled, by rw [same, hit]⟩
  · intro ⟨item, member, filled, g, compiled, hit⟩
    obtain ⟨g', compiled', same⟩ := compile_item parsed member filled
    rw [compiled] at compiled'
    obtain rfl := Option.some.inj (Except.ok.inj compiled')
    exact ⟨item, member, filled, by rw [← same, hit]⟩

namespace Selection

variable {host : Host} {mode : MatchMode} {raw : String} {sel : Selection}

theorem parseMode_filter_iff {filter : Option String} :
    parseMode host none none filter none mode = .ok sel ↔
      ∃ inc, compile host mode filter = .ok inc ∧ sel = ⟨none, none, inc, none⟩ := by
  rw [parseMode_iff]
  constructor
  · intro ⟨first, depthEq, second, third⟩
    obtain ⟨sc, d, inc, exc⟩ := sel
    cases first
    cases depthEq
    cases third
    exact ⟨inc, second, rfl⟩
  · intro ⟨inc, second, built⟩
    subst built
    exact ⟨rfl, rfl, second, rfl⟩

theorem parseMode_exclude_iff {exclude : Option String} :
    parseMode host none none none exclude mode = .ok sel ↔
      ∃ exc, compile host mode exclude = .ok exc ∧ sel = ⟨none, none, none, exc⟩ := by
  rw [parseMode_iff]
  constructor
  · intro ⟨first, depthEq, second, third⟩
    obtain ⟨sc, d, inc, exc⟩ := sel
    cases first
    cases depthEq
    cases second
    exact ⟨exc, third, rfl⟩
  · intro ⟨exc, third, built⟩
    subst built
    exact ⟨rfl, rfl, rfl, third⟩

theorem keepsAlias_filter (host : Host) (f : Filters) (path scope : String) :
    keepsAlias ⟨none, none, some f, none⟩ host path scope = true ↔
      f.matchesPathLeaf host path (Model.leafOf path scope) = true := by
  simp [keepsAlias, structuralOk, Filters.matchesPathLeaf]

theorem keepsAlias_exclude (host : Host) (f : Filters) (path scope : String) :
    keepsAlias ⟨none, none, none, some f⟩ host path scope = false ↔
      f.matchesPathLeaf host path (Model.leafOf path scope) = true := by
  simp [keepsAlias, structuralOk, Filters.matchesPathLeaf]

/-- `--filter` keeps the union of what its filled items keep. -/
theorem filter_union (parsed : parseMode host none none (some raw) none mode = .ok sel)
    (filled : ∃ item ∈ listItems raw, Filled item) (path scope : String) :
    sel.keepsAlias host path scope = true ↔ ∃ item ∈ listItems raw, Filled item ∧
      ∃ s, parseMode host none none (some item) none mode = .ok s ∧
        s.keepsAlias host path scope = true := by
  obtain ⟨inc, compiled, rfl⟩ := parseMode_filter_iff.mp parsed
  obtain ⟨-, blank⟩ | ⟨f, rfl, list, -⟩ := compile_eq compiled
  · obtain ⟨item, member, nonblank⟩ := filled
    exact absurd nonblank (blank item member)
  · rw [keepsAlias_filter, Filters.matchesPathLeaf, matchesLower_list list]
    constructor
    · intro ⟨item, member, nonblank, g, alone, hit⟩
      exact ⟨item, member, nonblank, _, parseMode_filter_iff.mpr ⟨_, alone, rfl⟩,
        (keepsAlias_filter host g path scope).mpr hit⟩
    · intro ⟨item, member, nonblank, s, alone, hit⟩
      obtain ⟨g, compiled', -⟩ := compile_item list member nonblank
      obtain ⟨inc, own, rfl⟩ := parseMode_filter_iff.mp alone
      rw [compiled'] at own
      obtain rfl := Except.ok.inj own
      exact ⟨item, member, nonblank, g, compiled', (keepsAlias_filter host g path scope).mp hit⟩

/-- `--exclude` drops the union of what its filled items drop. -/
theorem exclude_union (parsed : parseMode host none none none (some raw) mode = .ok sel)
    (path scope : String) :
    sel.keepsAlias host path scope = false ↔ ∃ item ∈ listItems raw, Filled item ∧
      ∃ s, parseMode host none none none (some item) mode = .ok s ∧
        s.keepsAlias host path scope = false := by
  obtain ⟨exc, compiled, rfl⟩ := parseMode_exclude_iff.mp parsed
  obtain ⟨rfl, blank⟩ | ⟨f, rfl, list, -⟩ := compile_eq compiled
  · constructor
    · intro dropped
      simp [keepsAlias, structuralOk] at dropped
    · rintro ⟨item, member, nonblank, _⟩
      exact absurd nonblank (blank item member)
  · rw [keepsAlias_exclude, Filters.matchesPathLeaf, matchesLower_list list]
    constructor
    · rintro ⟨item, member, nonblank, g, alone, hit⟩
      exact ⟨item, member, nonblank, _, parseMode_exclude_iff.mpr ⟨_, alone, rfl⟩,
        (keepsAlias_exclude host g path scope).mpr hit⟩
    · rintro ⟨item, member, nonblank, s, alone, hit⟩
      obtain ⟨g, compiled', -⟩ := compile_item list member nonblank
      obtain ⟨exc, own, rfl⟩ := parseMode_exclude_iff.mp alone
      rw [compiled'] at own
      obtain rfl := Except.ok.inj own
      exact ⟨item, member, nonblank, g, compiled', (keepsAlias_exclude host g path scope).mp hit⟩

end Selection

/-! ## Scope lists -/

/-- The depth that is in force: a positive one. -/
def levels (depth : Option Int) : Option Nat :=
  depth.bind fun n => if 0 < n then some n.toNat else none

/-- An item that names a scope. -/
def NamesScope (item : String) : Prop := segments (Str.trim item) ≠ []

instance (item : String) : Decidable (NamesScope item) := inferInstanceAs (Decidable (_ ≠ _))

theorem mem_scopeValues {raw value : String} :
    value ∈ scopeValues raw ↔ ∃ item ∈ listItems raw, NamesScope item ∧ Str.trim item = value := by
  simp only [scopeValues, List.mem_filter, List.mem_map, listItems, NamesScope]
  constructor
  · rintro ⟨⟨item, member, trimmed⟩, nonblank⟩
    subst trimmed
    exact ⟨item, member, by simpa using nonblank, rfl⟩
  · rintro ⟨item, member, nonblank, trimmed⟩
    subst trimmed
    exact ⟨⟨item, member, rfl⟩, by simpa using nonblank⟩

theorem scopeValues_item {raw item : String} (member : item ∈ listItems raw)
    (named : NamesScope item) : scopeValues item = [Str.trim item] := by
  rw [scopeValues, Str.split_of_mem_split member, List.map_singleton]
  have nonblank : (segments (Str.trim item)).isEmpty = false := by simpa [NamesScope] using named
  simp [nonblank]

section ScopeList

variable {host : Host} {mode : MatchMode} {raw : String} {depth : Option Int} {sel : Selection}

theorem Selection.scope_compiled {exclude filter : Option String} (filled : scopeValues raw ≠ [])
    (parsed : Selection.parseMode host (some raw) depth filter exclude mode = .ok sel) :
    Compiled host (scopeValues raw) (levels depth) sel := by
  obtain ⟨first, depthEq, -, -⟩ := Selection.parseMode_iff.mp parsed
  obtain ⟨empty, -⟩ | ⟨pats, -, scope, each⟩ := parseScope_eq first
  · exact absurd empty filled
  · refine ⟨⟨pats, scope, each⟩, ?_⟩
    rw [depthEq, scope]
    cases depth with
    | none => rfl
    | some n =>
      by_cases positive : 0 < n
      · simp [depthOption, levels, positive]
      · simp [depthOption, levels, positive]

/-- An item of an accepted list is accepted alone. -/
theorem Selection.parseMode_item
    (parsed : Selection.parseMode host (some raw) depth none none mode = .ok sel) {item : String}
    (member : item ∈ listItems raw) :
    ∃ s, Selection.parseMode host (some item) depth none none mode = .ok s := by
  obtain ⟨first, -, -, -⟩ := Selection.parseMode_iff.mp parsed
  obtain ⟨found, each, -⟩ := Misc.bind_eq_ok.mp first
  obtain ⟨p, -, one⟩ := Misc.ok_of_mem_of_mapM each (List.mem_map_of_mem member)
  have alone : ∃ sc, parseScope host item = .ok sc := by
    rw [parseScope, Str.split_of_mem_split member]
    simp only [List.map_singleton, List.mapM_cons, List.mapM_nil, one]
    exact ⟨_, rfl⟩
  obtain ⟨sc, alone⟩ := alone
  exact ⟨⟨sc, depthOption sc depth, none, none⟩, Selection.parseMode_iff.mpr ⟨alone, rfl, rfl, rfl⟩⟩

/-- The level below the deepest scope that the list names is not too low, modulo `2 ^ 32`, where
the level below a scope that an item of it names is not. -/
def UnionUnwrapped (host : Host) (values : List String) (depth : Option Nat) (path : String) :
    Prop :=
  ∀ n ∈ depth, ∀ k, Deepest host values (scopeSegments host path) k →
    ∀ value ∈ values, ∀ j, Deepest host [value] (scopeSegments host path) j →
      ((scopeSegments host path).length - j + 1) % 2 ^ 32 ≤ n →
      ((scopeSegments host path).length - k + 1) % 2 ^ 32 ≤ n

theorem unionUnwrapped_of_short (values : List String) (depth : Option Nat) {path : String}
    (short : (segments path).length < 2 ^ 32) : UnionUnwrapped host values depth path := by
  intro n _ k deepest value member j deepest' low
  have count : (scopeSegments host path).length = (segments path).length := List.length_map _
  have hit : Hit host values (scopeSegments host path) j := by
    obtain ⟨positive, within, value', here, named⟩ := deepest'.1
    exact ⟨positive, within, value, member, List.mem_singleton.mp here ▸ named⟩
  have le : j ≤ k := Nat.not_lt.mp fun lt => deepest.2 j lt hit
  have positive := deepest'.1.1
  rw [Nat.mod_eq_of_lt (by omega)] at low
  rw [Nat.mod_eq_of_lt (by omega)]
  omega

theorem Compiled.union_iff {values : List String} {depth : Option Nat} {sel : Selection}
    (compiled : Compiled host values depth sel) (path : String) :
    (sel.structuralOk host path = true ↔ ∃ value ∈ values,
        ∃ k, Deepest host [value] (scopeSegments host path) k ∧
          ∀ n ∈ depth, ((scopeSegments host path).length - k + 1) % 2 ^ 32 ≤ n) ↔
      UnionUnwrapped host values depth path := by
  rw [compiled.structuralOk_iff]
  have lone {value : String} {k : Nat} (member : value ∈ values)
      (hit : Hit host [value] (scopeSegments host path) k) :
      Hit host values (scopeSegments host path) k := by
    obtain ⟨positive, within, value', here, named⟩ := hit
    exact ⟨positive, within, value, member, List.mem_singleton.mp here ▸ named⟩
  constructor
  · intro same n member k deepest value among j deepest' low
    obtain ⟨k', deepest'', low'⟩ := same.mpr ⟨value, among, j, deepest', fun n' member' => by
      rwa [Option.mem_unique member' member]⟩
    rw [deepest.unique deepest'']
    exact low' n member
  · intro unwrapped
    constructor
    · intro ⟨k, ⟨⟨positive, within, value, among, named⟩, last⟩, low⟩
      refine ⟨value, among, k, ⟨⟨positive, within, value, List.mem_singleton_self _, named⟩, ?_⟩, low⟩
      intro j gt hit
      exact last j gt (lone among hit)
    · intro ⟨value, among, j, deepest', low⟩
      obtain ⟨_, _, each⟩ := compiled.scope
      obtain ⟨k, -, deepest⟩ := exists_deepest each (lone among deepest'.1)
      refine ⟨k, deepest, ?_⟩
      intro n member
      exact unwrapped n member k deepest value among j deepest' (low n member)

/-- `--scope` keeps the union of what its items keep, unless a level is taken for another. -/
theorem Selection.scope_union_iff
    (parsed : Selection.parseMode host (some raw) depth none none mode = .ok sel)
    (filled : ∃ item ∈ listItems raw, NamesScope item) (path scope : String) :
    (sel.keepsAlias host path scope = true ↔ ∃ item ∈ listItems raw, NamesScope item ∧
        ∃ s, Selection.parseMode host (some item) depth none none mode = .ok s ∧
          s.keepsAlias host path scope = true) ↔
      UnionUnwrapped host (scopeValues raw) (levels depth) scope := by
  have filled' : scopeValues raw ≠ [] := by
    obtain ⟨item, member, named⟩ := filled
    exact List.ne_nil_of_mem (mem_scopeValues.mpr ⟨item, member, named, rfl⟩)
  have compiled := Selection.scope_compiled filled' parsed
  have gate {raw' : String} {s : Selection}
      (alone : Selection.parseMode host (some raw') depth none none mode = .ok s) :
      s.keepsAlias host path scope = s.structuralOk host scope := by
    obtain ⟨-, -, inc, exc⟩ := Selection.parseMode_iff.mp alone
    rw [Selection.keepsAlias, ← Except.ok.inj inc, ← Except.ok.inj exc]
    simp
  rw [← compiled.union_iff, gate parsed]
  refine iff_congr Iff.rfl ?_
  constructor
  · intro ⟨item, member, named, s, alone, kept⟩
    have values := scopeValues_item member named
    have own := Selection.scope_compiled (by simp [values]) alone
    rw [values] at own
    rw [gate alone, own.structuralOk_iff] at kept
    exact ⟨_, mem_scopeValues.mpr ⟨item, member, named, rfl⟩, kept⟩
  · intro ⟨value, among, kept⟩
    obtain ⟨item, member, named, trimmed⟩ := mem_scopeValues.mp among
    subst trimmed
    obtain ⟨s, alone⟩ := Selection.parseMode_item parsed member
    have values := scopeValues_item member named
    have own := Selection.scope_compiled (by simp [values]) alone
    rw [values] at own
    exact ⟨item, member, named, s, alone, by rwa [gate alone, own.structuralOk_iff]⟩

end ScopeList

end Select

end RWave
