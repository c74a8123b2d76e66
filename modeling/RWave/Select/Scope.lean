import RWave.Select
import RWave.Filter.Glob

/-!
# Scopes and depths

What `--scope` and `--depth` select, in the words of the option: an alias path is in range if some
scope above it is named by one of the values and lies no further up than the depth allows.
-/

namespace RWave.Select

open RWave.Filter
open Misc (Fits)

/-! ## What a value names -/

/-- The items of a `--scope` list that say something. -/
def scopeValues (raw : String) : List String :=
  ((Str.split (· == ',') raw).map Str.trim).filter fun value => !(segments value).isEmpty

/-- The scope formed by these segments ends in what `value` names, segment by segment. -/
def Names (host : Host) (value : String) (scope : List String) : Prop :=
  ∃ above named, scope = above ++ named ∧
    List.Forall₂ (fun pat seg => Fits (globItems (host.toLowercase pat)) seg.toList)
      (segments value) named

/-- A compiled segment matches what the glob of its text fits. -/
theorem SegPat.matches_iff {host : Host} {raw : String} {sp : SegPat}
    (parsed : SegPat.parse host raw = .ok sp) (seg : String) :
    sp.matches seg = true ↔ Fits (globItems (host.toLowercase raw)) seg.toList := by
  unfold SegPat.parse at parsed
  split at parsed
  next => cases parsed
  next =>
    dsimp only at parsed
    split at parsed
    next => cases parsed
    next =>
      split at parsed
      next =>
        obtain rfl := Except.ok.inj parsed
        exact globMatch_iff _ _
      next nowhere =>
        obtain rfl := Except.ok.inj parsed
        have plain : Str.containsChar isWildcard (host.toLowercase raw) = false := by
          rw [Str.containsChar, List.any_eq_false]
          simpa [List.countP_pos_iff] using nowhere
        rw [SegPat.matches, beq_iff_eq, ← globMatch_iff, globMatch_plain _ plain, eq_comm]

theorem matches_forall₂ {host : Host} {raws : List String} {sps : List SegPat}
    (parsed : List.Forall₂ (fun raw sp => SegPat.parse host raw = .ok sp) raws sps)
    {segs : List String} (length : segs.length = sps.length) :
    ((sps.zip segs).all fun (sp, s) => sp.matches s) = true ↔
      List.Forall₂ (fun pat seg => Fits (globItems (host.toLowercase pat)) seg.toList)
        raws segs := by
  induction parsed generalizing segs with
  | nil =>
    obtain rfl := List.length_eq_zero_iff.mp length
    simp
  | cons first _ ih =>
    cases segs with
    | nil => cases length
    | cons seg segs =>
      have rest := ih (Nat.succ.inj length)
      simp only [List.zip_cons_cons, List.all_cons, Bool.and_eq_true, List.forall₂_cons,
        SegPat.matches_iff first, rest]

/-- The form of an accepted value. -/
theorem parseScopeValue_eq {host : Host} {value : String} {p : Option ScopePat}
    (parsed : parseScopeValue host value = .ok p) :
    (segments value = [] ∧ p = none) ∨
      (∃ seg sp, segments value = [seg] ∧ SegPat.parse host seg = .ok sp ∧
        p = some (.instanceName sp)) ∨
      ∃ sps, segments value ≠ [] ∧
        List.Forall₂ (fun raw sp => SegPat.parse host raw = .ok sp) (segments value) sps ∧
        p = some (.suffix sps) := by
  unfold parseScopeValue at parsed
  split at parsed
  next empty => exact Or.inl ⟨empty, (Except.ok.inj parsed).symm⟩
  next seg segs form =>
    split at parsed
    next bare =>
      obtain ⟨sp, one, built⟩ := Misc.bind_eq_ok.mp parsed
      simp only [Bool.and_eq_true, List.isEmpty_iff] at bare
      exact Or.inr (Or.inl ⟨seg, sp, by rw [form, bare.1], one, (Except.ok.inj built).symm⟩)
    next =>
      obtain ⟨sps, each, built⟩ := Misc.bind_eq_ok.mp parsed
      refine Or.inr (Or.inr ⟨sps, by simp [form], ?_, (Except.ok.inj built).symm⟩)
      rw [form]
      exact Misc.mapM_eq_ok.mp each

/-- A compiled value hits the scopes that its text names. -/
theorem ScopePat.hits_iff {host : Host} {value : String} {p : ScopePat}
    (parsed : parseScopeValue host value = .ok (some p)) {segs : List String} {k : Nat}
    (positive : 1 ≤ k) (within : k ≤ segs.length) :
    p.hits segs k = true ↔ Names host value (segs.take k) := by
  obtain ⟨-, absurdity⟩ | ⟨seg, sp, form, one, built⟩ | ⟨sps, -, each, built⟩ :=
    parseScopeValue_eq parsed
  · cases absurdity
  · obtain rfl := Option.some.inj built
    have last : segs[k - 1]? = some segs[k - 1] := List.getElem?_eq_getElem (by omega)
    have shape : segs.take k = segs.take (k - 1) ++ [segs[k - 1]] := by
      obtain ⟨j, rfl⟩ : ∃ j, k = j + 1 := ⟨k - 1, by omega⟩
      simp
    simp only [hits, last, Option.any_some, SegPat.matches_iff one, Names, form]
    constructor
    · intro fits
      exact ⟨_, _, shape, List.Forall₂.cons fits List.Forall₂.nil⟩
    · intro ⟨above, named, cut, matched⟩
      cases matched with
      | cons fits rest =>
        cases rest
        rw [shape] at cut
        have := (List.append_inj' cut rfl).2
        rwa [List.singleton_inj.mp this]
  · obtain rfl := Option.some.inj built
    have count : (segments value).length = sps.length := each.length_eq
    simp only [hits, Bool.and_eq_true, decide_eq_true_eq, Names]
    constructor
    · intro ⟨short, all⟩
      refine ⟨(segs.take k).take (k - sps.length), _, (List.take_append_drop _ _).symm, ?_⟩
      refine (matches_forall₂ each ?_).mp all
      rw [List.length_drop, List.length_take]
      omega
    · intro ⟨above, named, cut, matched⟩
      have total := congrArg List.length cut
      rw [List.length_take, List.length_append, ← matched.length_eq] at total
      have above_length : k - sps.length = above.length := by omega
      refine ⟨by omega, (matches_forall₂ each ?_).mpr ?_⟩
      · rw [List.length_drop, List.length_take]
        omega
      · rw [cut, above_length, List.drop_left]
        exact matched

/-! ## The compiled list -/

theorem parseScopeValues {host : Host} {values : List String} {found : List (Option ScopePat)}
    (parsed : List.Forall₂ (fun value p => parseScopeValue host value = .ok p) values found) :
    List.Forall₂ (fun value p => parseScopeValue host value = .ok (some p))
      (values.filter fun value => !(segments value).isEmpty) found.reduceOption := by
  induction parsed with
  | nil => exact List.Forall₂.nil
  | cons first _ ih =>
    obtain ⟨empty, rfl⟩ | ⟨seg, sp, form, -, rfl⟩ | ⟨sps, filled, -, rfl⟩ :=
      parseScopeValue_eq first
    · rwa [List.filter_cons_of_neg (by simp [empty]), List.reduceOption_cons_of_none]
    · rw [List.filter_cons_of_pos (by simp [form]), List.reduceOption_cons_of_some]
      exact List.Forall₂.cons first ih
    · rw [List.filter_cons_of_pos (by simp [filled]), List.reduceOption_cons_of_some]
      exact List.Forall₂.cons first ih

/-- The values are compiled one by one; a list that says nothing is no option. -/
theorem parseScope_eq {host : Host} {raw : String} {r : Option (List ScopePat)}
    (parsed : parseScope host raw = .ok r) :
    (scopeValues raw = [] ∧ r = none) ∨
      ∃ pats, scopeValues raw ≠ [] ∧ r = some pats ∧
        List.Forall₂ (fun value p => parseScopeValue host value = .ok (some p))
          (scopeValues raw) pats := by
  obtain ⟨found, each, built⟩ := Misc.bind_eq_ok.mp parsed
  have pairs := parseScopeValues (Misc.mapM_eq_ok.mp each)
  rw [← scopeValues] at pairs
  have result := (Except.ok.inj built).symm
  split at result
  next nowhere =>
    rw [List.isEmpty_iff] at nowhere
    rw [nowhere, List.forall₂_nil_right_iff] at pairs
    exact Or.inl ⟨pairs, result⟩
  next nonempty =>
    refine Or.inr ⟨_, ?_, result, pairs⟩
    intro empty
    rw [empty, List.forall₂_nil_left_iff] at pairs
    exact nonempty (List.isEmpty_iff.mpr pairs)

/-- The lower-cased segments of a scope path. -/
def scopeSegments (host : Host) (path : String) : List String :=
  (segments path).map host.toLowercase

/-- One of the values names the scope formed by the first `k` segments. -/
def Hit (host : Host) (values segs : List String) (k : Nat) : Prop :=
  1 ≤ k ∧ k ≤ segs.length ∧ ∃ value ∈ values, Names host value (segs.take k)

theorem any_hits_iff {host : Host} {values : List String} {pats : List ScopePat}
    (compiled : List.Forall₂ (fun value p => parseScopeValue host value = .ok (some p)) values pats)
    {segs : List String} {k : Nat} (positive : 1 ≤ k) (within : k ≤ segs.length) :
    pats.any (ScopePat.hits segs k) = true ↔ Hit host values segs k := by
  simp only [Hit, positive, within, true_and]
  induction compiled with
  | nil => simp
  | cons first _ ih => simp [ScopePat.hits_iff first positive within, ih]

/-! ## The deepest scope -/

theorem foldl_eq_some_iff (hit : Nat → Bool) (n b : Nat) :
    ((List.range n).map Nat.succ).foldl (fun base k => if hit k then some k else base) none =
        some b ↔
      (1 ≤ b ∧ b ≤ n ∧ hit b = true) ∧ ∀ j, b < j → j ≤ n → hit j = false := by
  induction n with
  | zero =>
    simp only [List.range_zero, List.map_nil, List.foldl_nil]
    constructor
    · intro absurdity
      cases absurdity
    · omega
  | succ n ih =>
    rw [List.range_succ, List.map_append, List.foldl_append, List.map_singleton, List.foldl_cons,
      List.foldl_nil]
    split
    next here =>
      constructor
      · intro last
        obtain rfl := Option.some.inj last
        exact ⟨⟨by omega, le_rfl, here⟩, by omega⟩
      · intro ⟨⟨_, le, _⟩, after⟩
        cases Nat.lt_or_eq_of_le le with
        | inl lt => exact absurd here (by simp [after n.succ lt le_rfl])
        | inr last => exact congrArg some last.symm
    next miss =>
      rw [ih]
      simp only [Bool.not_eq_true] at miss
      constructor
      · intro ⟨⟨positive, le, here⟩, after⟩
        refine ⟨⟨positive, by omega, here⟩, ?_⟩
        intro j gt le'
        cases Nat.lt_or_eq_of_le le' with
        | inl lt => exact after j gt (by omega)
        | inr last => exact last ▸ miss
      · intro ⟨⟨positive, le, here⟩, after⟩
        have other : b ≠ n + 1 := by
          intro last
          rw [last] at here
          exact absurd here (by simp [miss])
        exact ⟨⟨positive, by omega, here⟩, fun j gt le' => after j gt (by omega)⟩

theorem foldl_eq_none_iff (hit : Nat → Bool) (n : Nat) :
    ((List.range n).map Nat.succ).foldl (fun base k => if hit k then some k else base) none =
        none ↔ ∀ k, 1 ≤ k → k ≤ n → hit k = false := by
  induction n with
  | zero => simp; omega
  | succ n ih =>
    rw [List.range_succ, List.map_append, List.foldl_append, List.map_singleton, List.foldl_cons,
      List.foldl_nil]
    split
    next here =>
      constructor
      · intro absurdity
        cases absurdity
      · intro nowhere
        exact absurd here (by simp [nowhere n.succ (by omega) le_rfl])
    next miss =>
      rw [ih]
      simp only [Bool.not_eq_true] at miss
      constructor
      · intro nowhere k positive le
        cases Nat.lt_or_eq_of_le le with
        | inl lt => exact nowhere k positive (by omega)
        | inr last => exact last ▸ miss
      · intro nowhere k positive le
        exact nowhere k positive (by omega)

/-- The deepest scope that a value names. -/
def Deepest (host : Host) (values segs : List String) (k : Nat) : Prop :=
  Hit host values segs k ∧ ∀ j, k < j → ¬Hit host values segs j

theorem Deepest.unique {host : Host} {values segs : List String} {j k : Nat}
    (deepest : Deepest host values segs j) (deepest' : Deepest host values segs k) : j = k := by
  apply Nat.le_antisymm
  · exact Nat.not_lt.mp fun lt => deepest'.2 j lt deepest.1
  · exact Nat.not_lt.mp fun lt => deepest.2 k lt deepest'.1

section Compiled

variable {host : Host} {values : List String} {pats : List ScopePat}
  (compiled : List.Forall₂ (fun value p => parseScopeValue host value = .ok (some p)) values pats)

include compiled

/-- The loop finds the deepest scope that a value names. -/
theorem base_eq_some_iff (segs : List String) (k : Nat) :
    Selection.base pats segs = some k ↔ Deepest host values segs k := by
  rw [Selection.base, foldl_eq_some_iff]
  constructor
  · intro ⟨⟨positive, within, here⟩, after⟩
    refine ⟨(any_hits_iff compiled positive within).mp here, ?_⟩
    intro j gt hit
    have miss := after j gt hit.2.1
    rw [(any_hits_iff compiled hit.1 hit.2.1).mpr hit] at miss
    cases miss
  · intro ⟨hit, after⟩
    refine ⟨⟨hit.1, hit.2.1, (any_hits_iff compiled hit.1 hit.2.1).mpr hit⟩, ?_⟩
    intro j gt within
    have positive : 1 ≤ j := by omega
    rw [← Bool.not_eq_true, any_hits_iff compiled positive within]
    exact after j gt

theorem base_eq_none_iff (segs : List String) :
    Selection.base pats segs = none ↔ ∀ k, ¬Hit host values segs k := by
  rw [Selection.base, foldl_eq_none_iff]
  constructor
  · intro nowhere k hit
    have miss := nowhere k hit.1 hit.2.1
    rw [(any_hits_iff compiled hit.1 hit.2.1).mpr hit] at miss
    cases miss
  · intro nowhere k positive within
    rw [← Bool.not_eq_true, any_hits_iff compiled positive within]
    exact nowhere k

/-- A scope that is hit has a deepest one. -/
theorem exists_deepest {segs : List String} {k : Nat} (hit : Hit host values segs k) :
    ∃ j, k ≤ j ∧ Deepest host values segs j := by
  cases base : Selection.base pats segs with
  | none => exact absurd hit ((base_eq_none_iff compiled segs).mp base k)
  | some j =>
    have deepest := (base_eq_some_iff compiled segs j).mp base
    refine ⟨j, ?_, deepest⟩
    by_contra later
    exact deepest.2 k (by omega) hit

end Compiled

/-! ## The gate -/

/-- `path` lies in a scope that one of the values names, or below it by less than the depth. -/
def InScope (host : Host) (values : List String) (depth : Option Nat) (path : String) : Prop :=
  ∃ k, Hit host values (scopeSegments host path) k ∧
    ∀ n ∈ depth, (scopeSegments host path).length - k + 1 ≤ n

/-- The level of `path` below the deepest scope named is not taken for a smaller one, modulo
`2 ^ 32`, that the depth allows. -/
def Unwrapped (host : Host) (values : List String) (depth : Option Nat) (path : String) : Prop :=
  ∀ n ∈ depth, ∀ k, Deepest host values (scopeSegments host path) k →
    ((scopeSegments host path).length - k + 1) % 2 ^ 32 ≤ n →
    (scopeSegments host path).length - k + 1 ≤ n

/-- What the options say, in the selection compiled from them. -/
structure Compiled (host : Host) (values : List String) (depth : Option Nat) (sel : Selection) :
    Prop where
  scope : ∃ pats, sel.scope = some pats ∧
    List.Forall₂ (fun value p => parseScopeValue host value = .ok (some p)) values pats
  depth : sel.depth = depth.map fun n => min n (2 ^ 32 - 1)

/-- A path of fewer than `2 ^ 32` segments has no level that is taken for another. -/
theorem unwrapped_of_short {host : Host} (values : List String) (depth : Option Nat) {path : String}
    (short : (segments path).length < 2 ^ 32) : Unwrapped host values depth path := by
  intro n _ k deepest small
  have count : (scopeSegments host path).length = (segments path).length := List.length_map _
  have positive := deepest.1.1
  rwa [Nat.mod_eq_of_lt (by omega)] at small

section Gate

variable {host : Host} {values : List String} {depth : Option Nat} {sel : Selection}

theorem Selection.parseMode_compiled {raw : String} {filter exclude : Option String}
    {mode : MatchMode} (positive : ∀ n ∈ depth, 0 < n) (filled : scopeValues raw ≠ [])
    (parsed : Selection.parseMode host (some raw) (depth.map Int.ofNat) filter exclude mode =
      .ok sel) : Compiled host (scopeValues raw) depth sel := by
  obtain ⟨scope, scopeParsed, rest⟩ := Misc.bind_eq_ok.mp parsed
  obtain ⟨included, -, rest⟩ := Misc.bind_eq_ok.mp rest
  obtain ⟨excluded, -, built⟩ := Misc.bind_eq_ok.mp rest
  obtain rfl := Except.ok.inj built
  obtain ⟨empty, -⟩ | ⟨pats, -, rfl, each⟩ := parseScope_eq scopeParsed
  · exact absurd empty filled
  · refine ⟨⟨pats, rfl, each⟩, ?_⟩
    cases depth with
    | none => rfl
    | some n =>
      have : 0 < n := positive n rfl
      simp [this]

/-- The gate judges the level below the deepest scope named, modulo `2 ^ 32`. -/
theorem Compiled.structuralOk_iff (compiled : Compiled host values depth sel) (path : String) :
    sel.structuralOk host path = true ↔
      ∃ k, Deepest host values (scopeSegments host path) k ∧
        ∀ n ∈ depth, ((scopeSegments host path).length - k + 1) % 2 ^ 32 ≤ n := by
  obtain ⟨⟨pats, scope, each⟩, depth_eq⟩ := compiled
  simp only [Selection.structuralOk, scope, depth_eq]
  rw [← scopeSegments]
  cases base : Selection.base pats (scopeSegments host path) with
  | none =>
    have nowhere := (base_eq_none_iff each _).mp base
    simp only [Bool.false_eq_true, false_iff, not_exists, not_and]
    intro k deepest
    exact absurd deepest.1 (nowhere k)
  | some k =>
    have deepest := (base_eq_some_iff each _ k).mp base
    have unique : ∀ j, Deepest host values (scopeSegments host path) j ↔ j = k := by
      intro j
      exact ⟨fun other => other.unique deepest, fun same => same ▸ deepest⟩
    simp only [unique, exists_eq_left]
    cases depth with
    | none => simp
    | some n =>
      simp only [Option.map_some, decide_eq_true_eq, Option.mem_some_iff, forall_eq']
      omega

/-- The deepest scope named is the most permissive one. -/
theorem Compiled.inScope_iff (compiled : Compiled host values depth sel) (path : String) :
    InScope host values depth path ↔
      ∃ k, Deepest host values (scopeSegments host path) k ∧
        ∀ n ∈ depth, (scopeSegments host path).length - k + 1 ≤ n := by
  constructor
  · intro ⟨k, hit, low⟩
    obtain ⟨_, _, each⟩ := compiled.scope
    obtain ⟨j, le, deepest⟩ := exists_deepest each hit
    refine ⟨j, deepest, ?_⟩
    intro n member
    have := low n member
    omega
  · intro ⟨k, deepest, low⟩
    exact ⟨k, deepest.1, low⟩

/-- What is in scope passes the gate. -/
theorem Compiled.ok_of_inScope (compiled : Compiled host values depth sel) {path : String}
    (inside : InScope host values depth path) : sel.structuralOk host path = true := by
  obtain ⟨k, deepest, low⟩ := (compiled.inScope_iff path).mp inside
  refine (compiled.structuralOk_iff path).mpr ⟨k, deepest, ?_⟩
  intro n member
  exact (Nat.mod_le _ _).trans (low n member)

/-- What passes the gate is in scope, where no level is taken for another. -/
theorem Compiled.inScope_of_ok (compiled : Compiled host values depth sel) {path : String}
    (unwrapped : Unwrapped host values depth path) (passed : sel.structuralOk host path = true) :
    InScope host values depth path := by
  obtain ⟨k, deepest, low⟩ := (compiled.structuralOk_iff path).mp passed
  refine (compiled.inScope_iff path).mpr ⟨k, deepest, ?_⟩
  intro n member
  exact unwrapped n member k deepest (low n member)

theorem Compiled.exact_iff (compiled : Compiled host values depth sel) (path : String) :
    (sel.structuralOk host path = true ↔ InScope host values depth path) ↔
      Unwrapped host values depth path := by
  constructor
  · intro same n member k deepest small
    have passed : sel.structuralOk host path = true := by
      refine (compiled.structuralOk_iff path).mpr ⟨k, deepest, ?_⟩
      intro n' member'
      rwa [Option.mem_unique member' member]
    obtain ⟨j, deepest', low⟩ := (compiled.inScope_iff path).mp (same.mp passed)
    rw [deepest.unique deepest']
    exact low n member
  · intro unwrapped
    exact ⟨compiled.inScope_of_ok unwrapped, compiled.ok_of_inScope⟩

end Gate

/-! ## Lists, depths and spellings -/

theorem scopeValues_append (raw raw' : String) :
    scopeValues (raw ++ "," ++ raw') = scopeValues raw ++ scopeValues raw' := by
  have joined : Str.split (· == ',') (raw ++ "," ++ raw') =
      Str.split (· == ',') raw ++ Str.split (· == ',') raw' := by
    have cut := List.splitOnP_append_cons (p := (· == ',')) raw.toList raw'.toList
      (show (',' == ',') = true from rfl)
    simp only [Str.split, String.toList_append, List.append_assoc]
    rw [← List.map_append, ← cut]
    rfl
  rw [scopeValues, joined, List.map_append, List.filter_append, ← scopeValues, ← scopeValues]

theorem hit_append {host : Host} {values values' segs : List String} {k : Nat} :
    Hit host (values ++ values') segs k ↔ Hit host values segs k ∨ Hit host values' segs k := by
  simp only [Hit, List.mem_append, or_and_right, exists_or, and_or_left]

theorem inScope_append {host : Host} {values values' : List String} {depth : Option Nat}
    {path : String} :
    InScope host (values ++ values') depth path ↔
      InScope host values depth path ∨ InScope host values' depth path := by
  simp only [InScope, hit_append, or_and_right, exists_or]

section Append

variable {host : Host} {values values' : List String} {depth : Option Nat} {sel sel' both : Selection}
  {path : String} (compiled : Compiled host values depth sel)
  (compiled' : Compiled host values' depth sel')
  (compiledBoth : Compiled host (values ++ values') depth both)
include compiled compiledBoth

/-- More values pass what some of them pass, where no level is taken for another. -/
theorem Compiled.append_left (unwrapped : Unwrapped host values depth path)
    (passed : sel.structuralOk host path = true) : both.structuralOk host path = true :=
  compiledBoth.ok_of_inScope
    (inScope_append.mpr (.inl (compiled.inScope_of_ok unwrapped passed)))

include compiled'

/-- Two lists of values pass what one of them passes: the deepest scope of both is that of one. -/
theorem Compiled.append_eq (unwrapped : Unwrapped host values depth path)
    (unwrapped' : Unwrapped host values' depth path) :
    both.structuralOk host path = (sel.structuralOk host path || sel'.structuralOk host path) := by
  rw [Bool.eq_iff_iff, Bool.or_eq_true]
  constructor
  · intro passed
    obtain ⟨k, ⟨hit, last⟩, low⟩ := (compiledBoth.structuralOk_iff path).mp passed
    simp only [hit_append, not_or] at hit last
    cases hit with
    | inl hit =>
      have deepest := And.intro hit fun j gt => (last j gt).1
      exact .inl ((compiled.structuralOk_iff path).mpr ⟨k, deepest, low⟩)
    | inr hit =>
      have deepest := And.intro hit fun j gt => (last j gt).2
      exact .inr ((compiled'.structuralOk_iff path).mpr ⟨k, deepest, low⟩)
  · intro passed
    cases passed with
    | inl passed => exact compiled.append_left compiledBoth unwrapped passed
    | inr passed =>
      exact compiledBoth.ok_of_inScope
        (inScope_append.mpr (.inr (compiled'.inScope_of_ok unwrapped' passed)))

end Append

/-- A larger depth, or none, lets more through. -/
theorem InScope.enlarge {host : Host} {values : List String} {depth depth' : Option Nat}
    {path : String} (larger : ∀ n' ∈ depth', ∃ n ∈ depth, n ≤ n')
    (inside : InScope host values depth path) : InScope host values depth' path := by
  obtain ⟨k, hit, low⟩ := inside
  refine ⟨k, hit, ?_⟩
  intro n' member
  obtain ⟨n, member, le⟩ := larger n' member
  exact (low n member).trans le

/-- The two lists name the same segments but for case. -/
def Alike (host : Host) : List String → List String → Prop :=
  List.Forall₂ fun value value' => scopeSegments host value = scopeSegments host value'

theorem names_iff {host : Host} {value : String} {scope : List String} :
    Names host value scope ↔ ∃ above named, scope = above ++ named ∧
      List.Forall₂ (fun pat seg => Fits (globItems pat) seg.toList)
        (scopeSegments host value) named := by
  simp only [Names, scopeSegments, List.forall₂_map_left_iff]

theorem Alike.hit_iff {host : Host} {values values' : List String} (alike : Alike host values values')
    (segs : List String) (k : Nat) : Hit host values segs k ↔ Hit host values' segs k := by
  have named : (∃ value ∈ values, Names host value (segs.take k)) ↔
      ∃ value ∈ values', Names host value (segs.take k) := by
    induction alike with
    | nil => rfl
    | cons same _ ih =>
      simp only [List.exists_mem_cons_iff, ih]
      rw [names_iff, same, ← names_iff]
  simp only [Hit, named]

theorem Alike.structuralOk_eq {host : Host} {values values' : List String} {depth : Option Nat}
    {sel sel' : Selection} (alike : Alike host values values')
    (compiled : Compiled host values depth sel) (compiled' : Compiled host values' depth sel')
    {path path' : String} (same : scopeSegments host path = scopeSegments host path') :
    sel.structuralOk host path = sel'.structuralOk host path' := by
  rw [Bool.eq_iff_iff, compiled.structuralOk_iff, compiled'.structuralOk_iff, same]
  simp only [Deepest, alike.hit_iff]

/-- The same characters but for the choice of a separator. -/
def SameButSeparators (s s' : String) : Prop :=
  List.Forall₂ (fun c c' => c = c' ∨ (isSeparator c = true ∧ isSeparator c' = true))
    s.toList s'.toList

section Separators

/-- The relation of two characters under `SameButSeparators`. -/
private abbrev SepRel (c c' : Char) : Prop :=
  c = c' ∨ (isSeparator c = true ∧ isSeparator c' = true)

private theorem splitOnP_separator {cs cs' : List Char} (same : List.Forall₂ SepRel cs cs') :
    cs.splitOnP isSeparator = cs'.splitOnP isSeparator := by
  induction same with
  | nil => rfl
  | cons first _ ih =>
    rw [List.splitOnP_cons_eq_if_modifyHead, List.splitOnP_cons_eq_if_modifyHead, ih]
    cases first with
    | inl equal => rw [equal]
    | inr both => rw [if_pos both.1, if_pos both.2]

theorem segments_eq_of_sameButSeparators {s s' : String} (same : SameButSeparators s s') :
    segments s = segments s' := by
  rw [segments, segments, Str.split, Str.split, splitOnP_separator same]

private theorem splitOnP_forall₂ {p : Char → Bool} (uniform : ∀ c c', SepRel c c' → p c = p c')
    {cs cs' : List Char} (same : List.Forall₂ SepRel cs cs') :
    List.Forall₂ (List.Forall₂ SepRel) (cs.splitOnP p) (cs'.splitOnP p) := by
  induction same with
  | nil => exact List.Forall₂.cons List.Forall₂.nil List.Forall₂.nil
  | @cons c c' cs cs' first _ ih =>
    rw [List.splitOnP_cons_eq_if_modifyHead, List.splitOnP_cons_eq_if_modifyHead,
      uniform c c' first]
    split
    · exact List.Forall₂.cons List.Forall₂.nil ih
    · generalize cs.splitOnP p = parts, cs'.splitOnP p = parts' at ih
      cases ih with
      | nil => exact List.Forall₂.nil
      | cons head tail => exact List.Forall₂.cons (List.Forall₂.cons first head) tail

private theorem dropWhile_forall₂ {p : Char → Bool} (uniform : ∀ c c', SepRel c c' → p c = p c')
    {cs cs' : List Char} (same : List.Forall₂ SepRel cs cs') :
    List.Forall₂ SepRel (cs.dropWhile p) (cs'.dropWhile p) := by
  induction same with
  | nil => exact List.Forall₂.nil
  | @cons c c' cs cs' first rest ih =>
    rw [List.dropWhile_cons, List.dropWhile_cons, uniform c c' first]
    split
    · exact ih
    · exact List.Forall₂.cons first rest

/-- A test that neither separator passes does not tell the two apart. -/
private theorem uniform_of_separators {p : Char → Bool} (dot : p '.' = false)
    (slash : p '/' = false) (c c' : Char) (same : SepRel c c') : p c = p c' := by
  have other (c : Char) (separator : isSeparator c = true) : p c = false := by
    have : c = '.' ∨ c = '/' := by simpa [isSeparator, separators] using separator
    rcases this with rfl | rfl
    · exact dot
    · exact slash
  cases same with
  | inl equal => rw [equal]
  | inr both => rw [other c both.1, other c' both.2]

private theorem isWhitespace_uniform : ∀ c c', SepRel c c' →
    Str.isWhitespace c = Str.isWhitespace c' := uniform_of_separators rfl rfl

private theorem trim_same {s s' : String} (same : SameButSeparators s s') :
    SameButSeparators (Str.trim s) (Str.trim s') := by
  simp only [SameButSeparators, Str.trim, Str.trimMatches, Str.trimEndMatches,
    Str.trimStartMatches, String.toList_ofList, List.forall₂_reverse_iff]
  apply dropWhile_forall₂ isWhitespace_uniform
  rw [List.forall₂_reverse_iff]
  exact dropWhile_forall₂ isWhitespace_uniform same

/-- A list of values does not depend on which separator is written where. -/
theorem alike_of_sameButSeparators (host : Host) {raw raw' : String}
    (same : SameButSeparators raw raw') : Alike host (scopeValues raw) (scopeValues raw') := by
  have parts : List.Forall₂ SameButSeparators ((Str.split (· == ',') raw).map Str.trim)
      ((Str.split (· == ',') raw').map Str.trim) := by
    rw [List.forall₂_map_left_iff, List.forall₂_map_right_iff, Str.split, Str.split,
      List.forall₂_map_left_iff, List.forall₂_map_right_iff]
    refine (splitOnP_forall₂ (uniform_of_separators rfl rfl) same).imp ?_
    intro cs cs' related
    exact trim_same (by simpa [SameButSeparators] using related)
  rw [scopeValues, scopeValues]
  generalize (Str.split (· == ',') raw).map Str.trim = values at parts
  generalize (Str.split (· == ',') raw').map Str.trim = values' at parts
  induction parts with
  | nil => exact List.Forall₂.nil
  | cons first _ ih =>
    have equal := segments_eq_of_sameButSeparators first
    rw [List.filter_cons, List.filter_cons, equal]
    split
    · exact List.Forall₂.cons (by rw [scopeSegments, scopeSegments, equal]) ih
    · exact ih

end Separators

/-- The gate is ancestor matching, except for a path so deep that its level, modulo `2 ^ 32`, is
one the depth allows. Apart from these paths a list of values passes what one of them passes, and a
larger depth passes more; and only the lower-cased segments of values and paths matter. -/
theorem structuralOk_ancestors {host : Host} {raw : String} {depth : Option Nat}
    {filter exclude : Option String} {mode : MatchMode} {sel : Selection}
    (positive : ∀ n ∈ depth, 0 < n) (filled : scopeValues raw ≠ [])
    (parsed : Selection.parseMode host (some raw) (depth.map Int.ofNat) filter exclude mode =
      .ok sel) (path : String) :
    ((sel.structuralOk host path = true ↔ InScope host (scopeValues raw) depth path) ↔
        Unwrapped host (scopeValues raw) depth path) ∧
      ((segments path).length < 2 ^ 32 → Unwrapped host (scopeValues raw) depth path) ∧
      (∀ (raw' : String) (sel' both : Selection), scopeValues raw' ≠ [] →
        Selection.parseMode host (some raw') (depth.map Int.ofNat) filter exclude mode = .ok sel' →
        Selection.parseMode host (some (raw ++ "," ++ raw')) (depth.map Int.ofNat) filter exclude
          mode = .ok both →
        Unwrapped host (scopeValues raw) depth path →
        (sel.structuralOk host path = true → both.structuralOk host path = true) ∧
        (Unwrapped host (scopeValues raw') depth path →
          both.structuralOk host path = (sel.structuralOk host path ||
            sel'.structuralOk host path))) ∧
      (∀ (depth' : Option Nat) (wider : Selection), (∀ n' ∈ depth', ∃ n ∈ depth, n ≤ n') →
        Selection.parseMode host (some raw) (depth'.map Int.ofNat) filter exclude mode = .ok wider →
        Unwrapped host (scopeValues raw) depth path →
        sel.structuralOk host path = true → wider.structuralOk host path = true) ∧
      (∀ (raw' : String) (sel' : Selection) (path' : String), Alike host (scopeValues raw) (scopeValues raw') →
        Selection.parseMode host (some raw') (depth.map Int.ofNat) filter exclude mode = .ok sel' →
        scopeSegments host path = scopeSegments host path' →
        sel.structuralOk host path = sel'.structuralOk host path') ∧
      (∀ raw', SameButSeparators raw raw' → Alike host (scopeValues raw) (scopeValues raw')) ∧
      ∀ path', SameButSeparators path path' →
        scopeSegments host path = scopeSegments host path' := by
  have compiled := Selection.parseMode_compiled positive filled parsed
  refine ⟨compiled.exact_iff path, unwrapped_of_short _ _, ?_, ?_, ?_, ?_, ?_⟩
  · intro raw' sel' both filled' parsed' parsedBoth unwrapped
    have compiled' := Selection.parseMode_compiled positive filled' parsed'
    have compiledBoth := Selection.parseMode_compiled positive
      (by rw [scopeValues_append]; simp [filled]) parsedBoth
    rw [scopeValues_append] at compiledBoth
    exact ⟨compiled.append_left compiledBoth unwrapped, fun unwrapped' =>
      compiled.append_eq compiled' compiledBoth unwrapped unwrapped'⟩
  · intro depth' wider larger parsed' unwrapped passed
    have positive' : ∀ n' ∈ depth', 0 < n' := by
      intro n' member'
      obtain ⟨n, member, le⟩ := larger n' member'
      exact (positive n member).trans_le le
    have compiled' := Selection.parseMode_compiled positive' filled parsed'
    exact compiled'.ok_of_inScope ((compiled.inScope_of_ok unwrapped passed).enlarge larger)
  · intro raw' sel' path' alike parsed' same
    have filled' : scopeValues raw' ≠ [] := by
      intro empty
      have count := alike.length_eq
      rw [empty, List.length_nil] at count
      exact filled (List.length_eq_zero_iff.mp count)
    exact alike.structuralOk_eq compiled (Selection.parseMode_compiled positive filled' parsed') same
  · intro raw' same
    exact alike_of_sameButSeparators host same
  · intro path' same
    rw [scopeSegments, scopeSegments, segments_eq_of_sameButSeparators same]

/-! ## A path too deep -/

/-- The scope path `top.a.a…` with `m` scopes below `top`. -/
def deepPath (m : Nat) : String :=
  .ofList ("top".toList ++ (List.replicate m ['.', 'a']).flatten)

theorem segments_deepPath (m : Nat) : segments (deepPath m) = "top" :: List.replicate m "a" := by
  have cut (first : List Char) (plain : ∀ c ∈ first, isSeparator c = false) :
      (first ++ (List.replicate m ['.', 'a']).flatten).splitOnP isSeparator =
        first :: List.replicate m ['a'] := by
    induction m generalizing first with
    | zero => simp [List.splitOnP_eq_singleton plain]
    | succ m ih =>
      have rest := List.splitOnP_append_cons_of_forall_mem plain '.' (show isSeparator '.' = true from rfl)
        ('a' :: (List.replicate m ['.', 'a']).flatten)
      have next := ih ['a'] (by simp [isSeparator, separators])
      simp only [List.singleton_append] at next
      rw [List.replicate_succ, List.flatten_cons, List.replicate_succ, ← next]
      exact rest
  have plain : ∀ c ∈ "top".toList, isSeparator c = false := by simp [isSeparator, separators]
  have top : Str.isEmpty "top" = false := rfl
  have below : Str.isEmpty "a" = false := rfl
  rw [segments, Str.split, deepPath, String.toList_ofList, cut _ plain, List.map_cons,
    List.map_replicate, String.ofList_toList, show String.ofList ['a'] = "a" from rfl]
  simp [top, below]

/-- `--scope top --depth 1`. -/
def topScope : Selection :=
  { scope := some [.instanceName (.lit "top")], depth := some 1, included := none, excluded := none }

theorem scopeSegments_deepPath (m : Nat) :
    scopeSegments Model.MockBackend.host (deepPath m) = "top" :: List.replicate m "a" := by
  rw [scopeSegments, segments_deepPath, List.map_cons, List.map_replicate]
  rfl

theorem names_top (scope : List String) :
    Names Model.MockBackend.host "top" scope ↔ ∃ above, scope = above ++ ["top"] := by
  rw [names_iff, show scopeSegments Model.MockBackend.host "top" = ["top"] by decide]
  have only (seg : String) : Fits (globItems "top") seg.toList ↔ seg = "top" := by
    rw [← globMatch_iff, globMatch_plain seg (by decide)]
  constructor
  · intro ⟨above, named, cut, matched⟩
    cases matched with
    | cons first rest =>
      cases rest
      exact ⟨above, by rw [cut, (only _).mp first]⟩
  · intro ⟨above, cut⟩
    exact ⟨above, _, cut, List.Forall₂.cons ((only _).mpr rfl) List.Forall₂.nil⟩

/-- Only the outermost scope of the path is `top`. -/
theorem hit_deepPath (m k : Nat) :
    Hit Model.MockBackend.host ["top"] (scopeSegments Model.MockBackend.host (deepPath m)) k ↔
      k = 1 := by
  rw [scopeSegments_deepPath]
  simp only [Hit, List.mem_singleton, exists_eq_left, names_top]
  constructor
  · intro ⟨positive, within, above, cut⟩
    by_contra deeper
    obtain ⟨j, rfl⟩ : ∃ j, k = j + 2 := ⟨k - 2, by omega⟩
    have last := congrArg List.getLast? cut
    rw [List.take_succ_cons, List.take_replicate, List.getLast?_concat] at last
    have fits : min (j + 1) m = j + 1 := by
      simp only [List.length_cons, List.length_replicate] at within
      omega
    rw [fits, List.replicate_succ', ← List.cons_append, List.getLast?_concat] at last
    exact absurd (Option.some.inj last) (by decide)
  · intro one
    subst one
    exact ⟨le_rfl, by simp, [], by simp⟩

theorem deepest_deepPath (m : Nat) :
    Deepest Model.MockBackend.host ["top"] (scopeSegments Model.MockBackend.host (deepPath m)) 1 := by
  refine ⟨(hit_deepPath m 1).mpr rfl, ?_⟩
  intro j deeper hit
  rw [hit_deepPath] at hit
  omega

theorem topScope_compiled : Compiled Model.MockBackend.host ["top"] (some 1) topScope :=
  ⟨⟨_, rfl, List.Forall₂.cons (by decide) List.Forall₂.nil⟩, rfl⟩

theorem length_deepPath (m : Nat) :
    (scopeSegments Model.MockBackend.host (deepPath m)).length = m + 1 := by
  rw [scopeSegments_deepPath, List.length_cons, List.length_replicate]

/-- A scope `2 ^ 32` levels below `top` passes as one at depth 1. -/
theorem structuralOk_deepPath :
    Selection.parseMode Model.MockBackend.host (some "top") (some 1) none none .substring =
        .ok topScope ∧
      topScope.structuralOk Model.MockBackend.host (deepPath (2 ^ 32 - 1)) = true ∧
      ¬InScope Model.MockBackend.host (scopeValues "top") (some 1) (deepPath (2 ^ 32 - 1)) := by
  have deepest := deepest_deepPath (2 ^ 32 - 1)
  have count := length_deepPath (2 ^ 32 - 1)
  refine ⟨by decide, ?_, ?_⟩
  · refine (topScope_compiled.structuralOk_iff _).mpr ⟨1, deepest, ?_⟩
    intro n member
    obtain rfl := Option.some.inj member
    rw [count]
    norm_num
  · rw [show scopeValues "top" = ["top"] by decide, topScope_compiled.inScope_iff]
    intro ⟨k, deepest', low⟩
    have level := low 1 rfl
    rw [deepest'.unique deepest, count] at level
    omega

theorem structuralOk_ancestors_top :
    (topScope.structuralOk Model.MockBackend.host "top.u" = true ↔
        InScope Model.MockBackend.host (scopeValues "top") (some 1) "top.u") ↔
      Unwrapped Model.MockBackend.host (scopeValues "top") (some 1) "top.u" :=
  (@structuralOk_ancestors Model.MockBackend.host "top" (some 1) none none .substring topScope
    (by simp) (by decide) (by decide) "top.u").1

end RWave.Select
