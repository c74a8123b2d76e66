import RWave.Commands.TreeForest
import RWave.Select.Gates

/-!
# Where a tree begins

`roots` of `tree --scope`: the accepted scopes whose parent is not accepted. The tree cuts a scope at
every separator, the matcher compares lower-cased segments and drops empty ones. All the same a scope
has the segments of its parent and at most one more, so what the matcher accepts it accepts below,
and the walks from the roots list what it accepts once each.
-/

namespace RWave.Commands

open RWave.Model RWave.Filter RWave.Misc RWave.Select RWave.Cli

/-- A scope has the segments of its parent, and one more unless it ends in a separator. -/
theorem segments_child {s p : String} (up : parentOf s = some p) :
    ∃ last, segments s = segments p ++ last := by
  obtain ⟨-, c, after, separator, -, cut⟩ := parentOf_eq_some up
  refine ⟨((after.splitOnP isSeparator).map String.ofList).filter fun s => !Str.isEmpty s, ?_⟩
  rw [segments, Str.split, cut, List.splitOnP_append_cons _ _ separator, List.map_append,
    List.filter_append]
  rfl

/-- What a pattern matches of the first segments does not depend on the others. -/
theorem hits_append {segs last : List String} {k : Nat} (positive : 1 ≤ k) (within : k ≤ segs.length)
    (pat : ScopePat) : pat.hits (segs ++ last) k = pat.hits segs k := by
  cases pat with
  | instanceName sp =>
    rw [ScopePat.hits, ScopePat.hits, List.getElem?_append_left (by omega)]
  | suffix sps =>
    rw [ScopePat.hits, ScopePat.hits, List.take_append_of_le_length within]

/-- Without a depth a gate that accepts a scope accepts what is below. -/
theorem structuralOk_child {host : Host} {sel : Selection} (anyDepth : sel.depth = none)
    {s p : String} (up : parentOf s = some p) (accepted : sel.structuralOk host p = true) :
    sel.structuralOk host s = true := by
  obtain ⟨last, segs⟩ := segments_child up
  unfold Selection.structuralOk at accepted ⊢
  cases scope : sel.scope with
  | none => rfl
  | some pats =>
    simp only [scope, anyDepth, segs, List.map_append] at accepted ⊢
    cases base : Selection.base pats ((segments p).map host.toLowercase) with
    | none => simp [base] at accepted
    | some b =>
      cases base' : Selection.base pats
          ((segments p).map host.toLowercase ++ last.map host.toLowercase) with
      | some b' => rfl
      | none =>
        obtain ⟨⟨positive, within, here⟩, -⟩ := (foldl_eq_some_iff _ _ _).mp base
        have hit : pats.any (ScopePat.hits ((segments p).map host.toLowercase) b) = true := here
        have miss : pats.any (ScopePat.hits
            ((segments p).map host.toLowercase ++ last.map host.toLowercase) b) = false := by
          refine (foldl_eq_none_iff _ _).mp base' b positive ?_
          rw [List.length_append]
          omega
        rw [funext (hits_append positive within), hit] at miss
        cases miss

variable {F : File} {host : Host} {args : Args}

/-- A selection of a scope pattern alone is its structural gate. -/
theorem scopeOnly {pattern : String} {sel : Selection}
    (parsed : Selection.parse host (some pattern) none none none = .ok sel) :
    sel.depth = none ∧ ∀ scope, sel.keepsAlias host "" scope = sel.structuralOk host scope := by
  obtain ⟨-, depth, included, excluded⟩ := Selection.parseMode_iff.mp parsed
  refine ⟨depth, ?_⟩
  intro scope
  rw [Selection.keepsAlias, ← Except.ok.inj included, ← Except.ok.inj excluded]
  exact Bool.and_true _

/-- The roots of the accepted scopes, unless there are none. -/
theorem roots_eq {pattern : String} {sel : Selection} (given : rootPattern args = some pattern)
    (parsed : Selection.parse host (some pattern) none none none = .ok sel) :
    roots host (Index.build F) args =
      if Forest.roots (indexKeys F) parentOf (sel.structuralOk host) = [] then
        .error ("no scope matches " ++ Format.pyrepr pattern ++
          "; run tree without a scope to see the top level")
      else .ok (Forest.roots (indexKeys F) parentOf (sel.structuralOk host)) := by
  have gate := (scopeOnly parsed).2
  have found : ((Index.build F).scopes.map Prod.fst).filter (fun s =>
      sel.keepsAlias host "" s && !(parentOf s).any (sel.keepsAlias host "")) =
      Forest.roots (indexKeys F) parentOf (sel.structuralOk host) := by
    rw [funext gate]
    rfl
  unfold roots
  simp only [given, parsed, bind, Except.bind]
  rw [found]
  simp only [List.isEmpty_iff]
  split
  next => rfl
  next => rfl

/-- The walks from the roots that `tree --scope` finds list the scopes its gate accepts, each once, and
no root lies below another. There are roots when some scope is accepted. -/
theorem roots_partition (F : File) (host : Host) (args : Args) (pattern : String) (sel : Selection)
    (given : rootPattern args = some pattern)
    (parsed : Selection.parse host (some pattern) none none none = .ok sel) :
    (∀ rs, roots host (Index.build F) args = .ok rs →
      (∀ levels, (indexKeys F).length ≤ levels →
        ((rs.flatMap fun r => (Index.build F).walk r 0 levels).map Node.path).Nodup ∧
        ∀ s, s ∈ (rs.flatMap fun r => (Index.build F).walk r 0 levels).map Node.path ↔
          s ∈ indexKeys F ∧ sel.structuralOk host s = true) ∧
      rs.Nodup ∧ ∀ r ∈ rs, ∀ r' ∈ rs, Forest.Below parentOf r r' → r = r') ∧
    ((∃ rs, roots host (Index.build F) args = .ok rs) ↔
      ∃ s ∈ indexKeys F, sel.structuralOk host s = true) := by
  have forest := index_isForest F
  have handed : ∀ k p, parentOf k = some p → sel.structuralOk host p = true →
      sel.structuralOk host k = true := fun _ _ => structuralOk_child (scopeOnly parsed).1
  rw [roots_eq given parsed]
  refine ⟨?_, ?_⟩
  · intro rs found
    split at found
    next => cases found
    next =>
      obtain rfl := Except.ok.inj found
      refine ⟨?_, forest.nodup.filter _, fun r root r' root' => Forest.roots_apart handed root root'⟩
      intro levels deep
      have listed : ((Forest.roots (indexKeys F) parentOf (sel.structuralOk host)).flatMap
          fun r => (Index.build F).walk r 0 levels).map Node.path =
          ((Forest.roots (indexKeys F) parentOf (sel.structuralOk host)).flatMap
            fun r => Forest.walk (indexKeys F) parentOf r 0 levels).map Prod.fst := by
        rw [List.map_flatMap, List.map_flatMap]
        refine List.flatMap_congr ?_
        intro r _
        rw [← walk_eq, List.map_map]
        rfl
      have perm := forest.walkRoots_perm handed deep
      rw [← listed] at perm
      refine ⟨perm.nodup_iff.mpr (forest.nodup.filter _), fun s => ?_⟩
      rw [perm.mem_iff, List.mem_filter]
  · constructor
    · rintro ⟨rs, found⟩
      split at found
      next => cases found
      next nonempty =>
        obtain ⟨r, root⟩ := List.exists_mem_of_ne_nil _ nonempty
        exact ⟨r, (Forest.mem_roots.mp root).1, (Forest.mem_roots.mp root).2.1⟩
    · rintro ⟨s, key, accepted⟩
      obtain ⟨r, root, -⟩ := forest.exists_root key accepted
      exact ⟨_, if_neg (List.ne_nil_of_mem root)⟩

/-- An instance `u` at the root, and one within another instance of its name behind two dots. -/
def nestedFile : File :=
  let signal (path scope : String) (i : Nat) : SignalInfo :=
    { path, aliases := [path], width := 1, typeStr := "wire", kind := .bits, aliasScopes := [scope]
      declOrder := i, backendSid := i }
  { MockBackend.file ⟨[], false, false⟩ with
    signals := [signal "/u/q" "/u" 0, signal "top.U..u.q" "top.U..u" 1, signal "top.v.q" "top.v" 2] }

/-- `tree FILE --scope u`. -/
def treeArgs : Args :=
  { command := .tree, file := "nested.vcd", json := false, limit := none, verbose := false
    beginAt := none, endAt := none, scope := some "u", depth := none, filter := none, exclude := none
    exact := false, at_ := none, condition := [], show_ := none, target := none, load := false
    control := false, kdb := none, top := none, of_ := none }

/-- `--scope u`. -/
def scopeU : Selection :=
  { scope := some [.instanceName (.lit "u")], depth := none, included := none, excluded := none }

theorem roots_partition_nested :
    roots MockBackend.host (Index.build nestedFile) treeArgs = .ok ["/u", "top.U"] ∧
      ∀ s, s ∈ (["/u", "top.U"].flatMap fun r =>
          (Index.build nestedFile).walk r 0 6).map Node.path ↔
        s ∈ indexKeys nestedFile ∧ scopeU.structuralOk MockBackend.host s = true := by
  have found : roots MockBackend.host (Index.build nestedFile) treeArgs = .ok ["/u", "top.U"] := by
    decide
  have partition := roots_partition nestedFile MockBackend.host treeArgs "u" scopeU
    (by decide) (by decide)
  exact ⟨found, ((partition.1 _ found).1 6 (by decide)).2⟩

end RWave.Commands
