import RWave.Commands.Tree
import RWave.Misc.Forest
import RWave.Str.Pattern

/-!
# The scopes as a forest

`Index::build` makes the ancestors of a scope by slicing at its separators and files each scope under
what precedes its last separator. The two agree on every string, so the scopes are a forest, and the
walks below its tops show all of it.
-/

namespace RWave.Commands

open RWave.Model RWave.Filter RWave.Misc

/-! ## Parents and prefixes -/

/-- The parent of a scope is what precedes its last separator. -/
theorem parentOf_eq_some {s p : String} (up : parentOf s = some p) :
    p.toList ≠ [] ∧ ∃ c after, isSeparator c = true ∧ (∀ d ∈ after, isSeparator d = false) ∧
      s.toList = p.toList ++ c :: after := by
  unfold parentOf at up
  obtain ⟨unsplit, -⟩ | ⟨before, c, after, found, separator, plain, cut⟩ :=
    Str.rsplitOnce_cases isSeparator s
  · rw [unsplit] at up
    cases up
  · rw [found] at up
    dsimp only at up
    split at up
    next => cases up
    next filled =>
      obtain rfl := Option.some.inj up
      exact ⟨by simpa [Str.isEmpty] using filled, c, _, separator, plain, cut⟩

/-- A top-level scope has a separator at most at its beginning. -/
theorem parentOf_eq_none {s : String} (top : parentOf s = none) :
    ∀ d ∈ s.toList.tail, isSeparator d = false := by
  unfold parentOf at top
  intro d member
  obtain ⟨-, plain⟩ | ⟨before, c, after, found, -, plain, cut⟩ := Str.rsplitOnce_cases isSeparator s
  · exact plain d (List.mem_of_mem_tail member)
  · rw [found] at top
    dsimp only at top
    split at top
    next empty =>
      rw [cut, List.isEmpty_iff.mp empty] at member
      exact plain d member
    next => cases top

theorem prefixesFrom_append (done as bs : List Char) :
    prefixesFrom done (as ++ bs) = prefixesFrom done as ++ prefixesFrom (done ++ as) bs := by
  induction as generalizing done with
  | nil => simp [prefixesFrom]
  | cons c as ih =>
    rw [List.cons_append, prefixesFrom, prefixesFrom]
    split <;> simp [ih]

theorem prefixesFrom_plain (done : List Char) {cs : List Char}
    (plain : ∀ d ∈ cs, isSeparator d = false) : prefixesFrom done cs = [] := by
  induction cs generalizing done with
  | nil => rfl
  | cons c cs ih =>
    rw [prefixesFrom, plain c List.mem_cons_self, Bool.false_and, if_neg Bool.false_ne_true]
    exact ih _ fun d member => plain d (List.mem_cons_of_mem _ member)

/-- The prefixes of a scope are those of its parent and the scope itself. -/
theorem prefixes_child {s p : String} (up : parentOf s = some p) : prefixes s = prefixes p ++ [s] := by
  obtain ⟨filled, c, last, separator, plain, cut⟩ := parentOf_eq_some up
  rw [prefixes, cut, prefixesFrom_append, List.nil_append, prefixesFrom, prefixesFrom_plain _ plain,
    prefixes, separator]
  simp [filled]

theorem prefixes_top {s : String} (top : parentOf s = none) : prefixes s = [s] := by
  have plain := parentOf_eq_none top
  have noPrefixes : prefixesFrom [] s.toList = [] := by
    cases form : s.toList with
    | nil => rfl
    | cons c cs =>
      rw [form] at plain
      simp only [prefixesFrom, List.isEmpty_nil, Bool.not_true, Bool.and_false, Bool.false_eq_true,
        if_false]
      exact prefixesFrom_plain _ plain
  rw [prefixes, noPrefixes, List.nil_append]

theorem length_parentOf {s p : String} (up : parentOf s = some p) :
    p.toList.length < s.toList.length := by
  obtain ⟨-, c, after, -, -, cut⟩ := parentOf_eq_some up
  rw [cut, List.length_append, List.length_cons]
  omega

/-- What holds of top-level scopes and is handed down to children holds of every scope. -/
theorem parent_induction {motive : String → Prop} (top : ∀ s, parentOf s = none → motive s)
    (child : ∀ s p, parentOf s = some p → motive p → motive s) (s : String) : motive s := by
  induction length_eq : s.toList.length using Nat.strong_induction_on generalizing s with
  | h n ih =>
    cases up : parentOf s with
    | none => exact top s up
    | some p => exact child s p up (ih _ (length_eq ▸ length_parentOf up) p rfl)

/-- `chain` leads from a top-level scope down to `s`, from parent to child. -/
structure ParentChain (s : String) (chain : List String) : Prop where
  ends : chain.getLast? = some s
  top : ∀ first ∈ chain.head?, parentOf first = none
  linked : chain.IsChain fun p c => parentOf c = some p

theorem prefixes_ne_nil (s : String) : prefixes s ≠ [] := by
  rw [prefixes]
  simp

theorem prefixes_chain (s : String) : ParentChain s (prefixes s) := by
  induction s using parent_induction with
  | top s top =>
    rw [prefixes_top top]
    exact ⟨rfl, by simpa using top, List.IsChain.singleton s⟩
  | child s p up ih =>
    rw [prefixes_child up]
    refine ⟨List.getLast?_concat, ?_, ?_⟩
    · rw [List.head?_append_of_ne_nil _ (prefixes_ne_nil p)]
      exact ih.top
    · refine List.isChain_append.mpr ⟨ih.linked, List.IsChain.singleton s, ?_⟩
      intro last member first member'
      rw [ih.ends] at member
      obtain rfl := Option.some.inj member
      obtain rfl := Option.some.inj member'
      exact up

theorem self_mem_prefixes (s : String) : s ∈ prefixes s := by
  rw [prefixes]
  simp

/-- The prefixes of a prefix are prefixes. -/
theorem prefixes_subset {s p : String} (member : p ∈ prefixes s) : prefixes p ⊆ prefixes s := by
  induction s using parent_induction with
  | top s top =>
    rw [prefixes_top top, List.mem_singleton] at member
    rw [member]
    exact List.Subset.refl _
  | child s q up ih =>
    rw [prefixes_child up] at member
    cases List.mem_append.mp member with
    | inl above =>
      rw [prefixes_child up]
      exact List.subset_append_of_subset_left _ (ih above)
    | inr self =>
      rw [List.mem_singleton.mp self]
      exact List.Subset.refl _

theorem parentOf_mem_prefixes {s p : String} (up : parentOf s = some p) : p ∈ prefixes s := by
  rw [prefixes_child up]
  exact List.mem_append_left _ (self_mem_prefixes p)

/-! ## The index -/

/-- What `Index::build` holds while it goes over the aliases: the signals of each scope known so far
and those at the file root. -/
structure ScopeScan where
  scopes : String → Option Nat
  rootSignals : Nat

/-- `entry(p).or_insert(0)`. -/
def orInsert (scopes : String → Option Nat) (p : String) : String → Option Nat :=
  Function.update scopes p (some ((scopes p).getD 0))

/-- One alias: the ancestors of its scope are materialized the first time the scope is seen. -/
def ScopeScan.step (scan : ScopeScan) (scope : String) : ScopeScan :=
  if Str.isEmpty scope then { scan with rootSignals := scan.rootSignals + 1 }
  else
    let seen := (scan.scopes scope).isSome
    let scopes := Function.update scan.scopes scope (some ((scan.scopes scope).getD 0 + 1))
    { scan with scopes := if seen then scopes else (prefixes scope).foldl orInsert scopes }

/-- The loop of `Index::build` over the scopes of all aliases. -/
def scanScopes (declared : List String) : ScopeScan :=
  declared.foldl ScopeScan.step ⟨fun _ => none, 0⟩

/-- The scopes that are not the file root. -/
def inScope (declared : List String) : List String := declared.filter fun scope => !Str.isEmpty scope

/-- The scopes and all their ancestors. -/
def allPrefixes (declared : List String) : List String := (inScope declared).flatMap prefixes

theorem foldl_orInsert (ps : List String) (scopes : String → Option Nat) (k : String) :
    ps.foldl orInsert scopes k = if k ∈ ps then some ((scopes k).getD 0) else scopes k := by
  induction ps generalizing scopes with
  | nil => simp
  | cons p ps ih =>
    rw [List.foldl_cons, ih, orInsert]
    by_cases here : k = p
    · simp [here]
    · simp [here]

/-- What the scan knows after the scopes `declared`. -/
structure Scanned (declared : List String) (scan : ScopeScan) : Prop where
  known : ∀ k, scan.scopes k =
    if k ∈ allPrefixes declared then some ((inScope declared).count k) else none
  root : scan.rootSignals = declared.countP Str.isEmpty

section Scan

variable {declared : List String} {scan : ScopeScan} {scope : String}

/-- A scope that is not an ancestor of one seen so far was not seen itself. -/
theorem Scanned.counted (scanned : Scanned declared scan) (k : String) :
    (scan.scopes k).getD 0 = (inScope declared).count k := by
  rw [scanned.known k]
  split
  · rfl
  · rename_i new
    refine (List.count_eq_zero.mpr fun member => new ?_).symm
    exact List.mem_flatMap.mpr ⟨k, member, self_mem_prefixes k⟩

/-- An alias at the file root. -/
theorem Scanned.step_root (scanned : Scanned declared scan) (empty : Str.isEmpty scope = true) :
    Scanned (declared ++ [scope]) (scan.step scope) := by
  have same : inScope (declared ++ [scope]) = inScope declared := by
    simp [inScope, List.filter_append, empty]
  have samePrefixes : allPrefixes (declared ++ [scope]) = allPrefixes declared := by
    rw [allPrefixes, same, allPrefixes]
  rw [ScopeScan.step, if_pos empty]
  constructor
  · rw [samePrefixes, same]
    exact scanned.known
  · simp [scanned.root, empty]

/-- An alias in a scope. When the scope is known its ancestors are, as it is a prefix of an earlier
one. -/
theorem Scanned.step_scope (scanned : Scanned declared scan) (filled : Str.isEmpty scope = false) :
    Scanned (declared ++ [scope]) (scan.step scope) := by
  have grown : inScope (declared ++ [scope]) = inScope declared ++ [scope] := by
    simp [inScope, List.filter_append, filled]
  have members (k : String) : k ∈ allPrefixes (declared ++ [scope]) ↔
      k ∈ allPrefixes declared ∨ k ∈ prefixes scope := by
    simp [allPrefixes, grown]
  have count (k : String) : (inScope (declared ++ [scope])).count k =
      (inScope declared).count k + if k = scope then 1 else 0 := by
    rw [grown, List.count_append, List.count_singleton]
    by_cases self : k = scope
    · simp [self]
    · simp [self, Ne.symm self]
  rw [ScopeScan.step, if_neg (by simp [filled])]
  dsimp only
  refine ⟨fun k => ?_, by simp [scanned.root, filled]⟩
  dsimp only
  rw [scanned.counted scope, count k]
  have here := self_mem_prefixes scope
  by_cases self : k = scope
  · subst self
    rw [if_pos ((members k).mpr (.inr here)), if_pos rfl]
    split
    · rw [Function.update_self]
    · rw [foldl_orInsert, if_pos here, Function.update_self, Option.getD_some]
  · simp only [if_neg self, Nat.add_zero]
    split
    · rename_i seen
      rw [scanned.known scope] at seen
      have old : scope ∈ allPrefixes declared := by
        by_contra new
        simp [new] at seen
      have same : k ∈ allPrefixes (declared ++ [scope]) ↔ k ∈ allPrefixes declared := by
        rw [members, or_iff_left_of_imp]
        intro member
        obtain ⟨t, among, above⟩ := List.mem_flatMap.mp old
        exact List.mem_flatMap.mpr ⟨t, among, prefixes_subset above member⟩
      simp only [Function.update_of_ne self, scanned.known k, same]
    · rw [foldl_orInsert, Function.update_of_ne self]
      by_cases above : k ∈ prefixes scope
      · rw [if_pos above, scanned.counted, if_pos ((members k).mpr (.inr above))]
      · rw [if_neg above, scanned.known]
        simp only [members, above, or_false]

/-- The loop counts every scope and knows every ancestor, though it looks at the ancestors of a scope
only once. -/
theorem scanScopes_scanned (declared : List String) : Scanned declared (scanScopes declared) := by
  induction declared using List.reverseRecOn with
  | nil => exact ⟨by simp [scanScopes, allPrefixes, inScope], rfl⟩
  | append_singleton declared scope ih =>
    rw [scanScopes, List.foldl_append]
    cases empty : Str.isEmpty scope with
    | true => exact ih.step_root empty
    | false => exact ih.step_scope empty

end Scan

variable (F : File)

/-- The scopes of all alias paths. -/
def declaredScopes : List String := F.signals.flatMap fun info => info.aliasPairs.map Prod.snd

/-- The scopes of the index. -/
def indexKeys : List String := (Index.build F).scopes.map Prod.fst

theorem indexKeys_eq : indexKeys F = sortDedup (allPrefixes (declaredScopes F)) := by
  rw [indexKeys, Index.build, List.map_map]
  exact List.map_id _

theorem mem_indexKeys {k : String} : k ∈ indexKeys F ↔ k ∈ allPrefixes (declaredScopes F) := by
  rw [indexKeys_eq, sortDedup, List.mem_dedup, mem_sortByKey]

theorem scopes_eq :
    (Index.build F).scopes = (indexKeys F).map fun k => (k, (inScope (declaredScopes F)).count k) := by
  rw [indexKeys_eq]
  rfl

theorem lookup_map_key (keys : List String) (count : String → Nat) (k : String) :
    (keys.map fun k => (k, count k)).lookup k = if k ∈ keys then some (count k) else none := by
  induction keys with
  | nil => rfl
  | cons key keys ih =>
    rw [List.map_cons, List.lookup_cons, ih]
    by_cases here : k = key
    · simp [here]
    · simp [here, beq_false_of_ne here]

/-- The index holds what the loop over the aliases leaves. -/
theorem build_scan (k : String) :
    (Index.build F).scopes.lookup k = (scanScopes (declaredScopes F)).scopes k ∧
      (Index.build F).rootSignals = (scanScopes (declaredScopes F)).rootSignals := by
  obtain ⟨known, root⟩ := scanScopes_scanned (declaredScopes F)
  refine ⟨?_, root.symm⟩
  rw [scopes_eq, lookup_map_key, known]
  simp only [mem_indexKeys]

/-- The scopes of a file form a forest. -/
theorem index_isForest :
    Forest (indexKeys F) parentOf fun s => (prefixes s).length - 1 where
  nodup := by
    rw [indexKeys_eq]
    exact List.nodup_dedup _
  closed k key p up := by
    rw [mem_indexKeys] at key ⊢
    obtain ⟨s, among, above⟩ := List.mem_flatMap.mp key
    exact List.mem_flatMap.mpr ⟨s, among, prefixes_subset above (parentOf_mem_prefixes up)⟩
  rank_top k top := by rw [prefixes_top top, List.length_singleton]
  rank_child k p up := by
    have filled := List.length_pos_iff.mpr (prefixes_ne_nil p)
    rw [prefixes_child up, List.length_append, List.length_singleton]
    omega

theorem walk_eq (s : String) (level levels : Nat) :
    ((Index.build F).walk s level levels).map (fun node => (node.path, node.level)) =
      Forest.walk (indexKeys F) parentOf s level levels := by
  induction levels generalizing s level with
  | zero => rfl
  | succ levels ih =>
    rw [Index.walk, Forest.walk, List.map_cons, List.map_flatMap]
    congr 1
    exact List.flatMap_congr fun c _ => ih c (level + 1)

/-- The walks of all top-level scopes. -/
def wholeTree (levels : Nat) : List Node :=
  (Index.build F).tops.flatMap fun s => (Index.build F).walk s 0 levels

theorem wholeTree_eq (levels : Nat) :
    (wholeTree F levels).map (fun node => (node.path, node.level)) =
      Forest.walkAll (indexKeys F) parentOf levels := by
  rw [wholeTree, List.map_flatMap, Forest.walkAll, Forest.tops, indexKeys_eq]
  exact List.flatMap_congr fun s _ => indexKeys_eq F ▸ walk_eq F s 0 levels

/-- The counts of the scopes and of the file root are those of the alias paths. -/
theorem sum_counts :
    ((Index.build F).scopes.map Prod.snd).sum + (Index.build F).rootSignals =
      (F.signals.map fun info => info.aliasPairs.length).sum := by
  have declared : (declaredScopes F).length = (F.signals.map fun info => info.aliasPairs.length).sum := by
    simp [declaredScopes, List.length_flatMap]
  have nodup := (index_isForest F).nodup
  have counted : ((Index.build F).scopes.map Prod.snd).sum = (inScope (declaredScopes F)).length := by
    rw [scopes_eq, List.map_map]
    have all : ∀ s ∈ (inScope (declaredScopes F) : Multiset String), s ∈ (indexKeys F).toFinset := by
      intro s member
      rw [List.mem_toFinset, mem_indexKeys]
      exact List.mem_flatMap.mpr ⟨s, Multiset.mem_coe.mp member, self_mem_prefixes s⟩
    have sum := Multiset.sum_count_eq_card all
    rw [List.sum_toFinset _ nodup, Multiset.coe_card] at sum
    simp only [Multiset.coe_count] at sum
    exact sum
  have parts := List.length_eq_countP_add_countP Str.isEmpty (l := declaredScopes F)
  have kept : (inScope (declaredScopes F)).length =
      (declaredScopes F).countP fun s => decide ¬Str.isEmpty s = true := by
    rw [inScope, ← List.countP_eq_length_filter]
    simp
  have root : (Index.build F).rootSignals = (declaredScopes F).countP Str.isEmpty := rfl
  omega

/-- The index is a complete forest: it has the parent of every scope, `prefixes` is the chain of
parents, a walk of all tops lists every scope once behind its parent, and every alias is counted. -/
theorem index_forest :
    (∀ s ∈ indexKeys F, ∀ p, parentOf s = some p → p ∈ indexKeys F) ∧
      (∀ s, ParentChain s (prefixes s)) ∧
      (∀ levels, (indexKeys F).length ≤ levels →
        ((wholeTree F levels).map Node.path).Perm (indexKeys F) ∧ (indexKeys F).Nodup ∧
        (∀ node ∈ wholeTree F levels, parentOf node.path = none → node.level = 0) ∧
        ∀ before node after, wholeTree F levels = before ++ node :: after →
          ∀ p, parentOf node.path = some p →
            ∃ up ∈ before, up.path = p ∧ node.level = up.level + 1) ∧
      ((Index.build F).scopes.map Prod.snd).sum + (Index.build F).rootSignals =
        (F.signals.map fun info => info.aliasPairs.length).sum ∧
      ∀ k, (Index.build F).scopes.lookup k = (scanScopes (declaredScopes F)).scopes k ∧
        (Index.build F).rootSignals = (scanScopes (declaredScopes F)).rootSignals := by
  have forest := index_isForest F
  refine ⟨forest.closed, prefixes_chain, ?_, sum_counts F, build_scan F⟩
  intro levels deep
  have paths : (wholeTree F levels).map Node.path =
      (Forest.walkAll (indexKeys F) parentOf levels).map Prod.fst := by
    rw [← wholeTree_eq, List.map_map]
    rfl
  refine ⟨paths ▸ forest.walkAll_perm deep, forest.nodup, ?_, ?_⟩
  · intro node member top
    have listed : (node.path, node.level) ∈ Forest.walkAll (indexKeys F) parentOf levels := by
      rw [← wholeTree_eq]
      exact List.mem_map.mpr ⟨node, member, rfl⟩
    exact (forest.level_of_mem_walkAll listed).2.trans (forest.rank_top _ top)
  · intro before node after cut p up
    have first : Forest.ParentsFirst parentOf [] (Forest.walkAll (indexKeys F) parentOf levels) :=
      Forest.walkAll_parentsFirst levels
    have cut' := congrArg (List.map fun node : Node => (node.path, node.level)) cut
    rw [wholeTree_eq, List.map_append, List.map_cons] at cut'
    obtain ⟨level, known | earlier, next⟩ := first.before cut' up
    · cases known
    · obtain ⟨above, member, same⟩ := List.mem_map.mp earlier
      obtain ⟨path, lvl⟩ := Prod.mk.inj same
      exact ⟨above, member, path, by rw [lvl]; exact next⟩

end RWave.Commands
