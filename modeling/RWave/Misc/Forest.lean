import Mathlib

/-!
# Forests by their parents

A finite set of keys, each with a parent among them or none, and a rank that counts the way up. A
walk lists a key before its descendants; over all tops it lists every key once, under its parent.
-/

namespace RWave.Misc

variable {α : Type}

/-- The keys form a forest: a parent is a key, one rank higher up. -/
structure Forest (keys : List α) (parent : α → Option α) (rank : α → Nat) : Prop where
  nodup : keys.Nodup
  closed : ∀ k ∈ keys, ∀ p, parent k = some p → p ∈ keys
  rank_top : ∀ k, parent k = none → rank k = 0
  rank_child : ∀ k p, parent k = some p → rank k = rank p + 1

namespace Forest

variable {keys : List α} {parent : α → Option α} {rank : α → Nat}

/-! ## Ancestors -/

/-- `k` is `a` or a descendant of it. -/
def Below (parent : α → Option α) (a k : α) : Prop :=
  Relation.ReflTransGen (fun p c => parent c = some p) a k

section

variable (forest : Forest keys parent rank)

include forest

theorem rank_le {a k : α} (below : Below parent a k) : rank a ≤ rank k := by
  induction below with
  | refl => exact le_rfl
  | tail _ up ih =>
    have step := forest.rank_child _ _ up
    omega

/-- A key has one ancestor of each rank. -/
theorem below_unique {a a' k : α} (below : Below parent a k) (below' : Below parent a' k)
    (same : rank a = rank a') : a = a' := by
  induction below with
  | refl =>
    cases Relation.ReflTransGen.cases_tail below' with
    | inl start => exact start
    | inr step =>
      obtain ⟨p, above, up⟩ := step
      have := forest.rank_le above
      have := forest.rank_child _ _ up
      omega
  | @tail p k above up ih =>
    cases Relation.ReflTransGen.cases_tail below' with
    | inl start =>
      have := forest.rank_le above
      have := forest.rank_child _ _ up
      rw [start] at this
      omega
    | inr step =>
      obtain ⟨p', above', up'⟩ := step
      rw [show parent k = some p from up] at up'
      obtain rfl := Option.some.inj up'
      exact ih above'

theorem mem_keys_of_below {a k : α} (key : k ∈ keys) (below : Below parent a k) : a ∈ keys := by
  induction below with
  | refl => exact key
  | tail _ up ih => exact ih (forest.closed _ key _ up)

/-- There are as many keys as ranks up to that of a key. -/
theorem rank_lt {k : α} (key : k ∈ keys) : rank k < keys.length := by
  have ranks : ∀ r ≤ rank k, r ∈ keys.map rank := by
    induction rank_eq : rank k generalizing k with
    | zero =>
      intro r le
      exact List.mem_map.mpr ⟨k, key, by omega⟩
    | succ n ih =>
      intro r le
      cases Nat.lt_or_eq_of_le le with
      | inr last => exact List.mem_map.mpr ⟨k, key, by omega⟩
      | inl lt =>
        cases up : parent k with
        | none =>
          have := forest.rank_top k up
          omega
        | some p =>
          have step := forest.rank_child k p up
          exact ih (forest.closed k key p up) (by omega) r (by omega)
  have subset : Finset.range (rank k + 1) ⊆ (keys.map rank).toFinset := by
    intro r member
    exact List.mem_toFinset.mpr (ranks r (Nat.lt_succ_iff.mp (Finset.mem_range.mp member)))
  have count := (Finset.card_le_card subset).trans (List.toFinset_card_le _)
  rw [Finset.card_range, List.length_map] at count
  exact count

end

/-! ## Parents first -/

/-- Every entry of `nodes` stands behind its parent, which is one level up, in `nodes` or among the
entries `known` before. -/
def ParentsFirst (parent : α → Option α) (known : List (α × Nat)) : List (α × Nat) → Prop
  | [] => True
  | node :: nodes =>
    (∀ p, parent node.1 = some p → ∃ level, (p, level) ∈ known ∧ node.2 = level + 1) ∧
      ParentsFirst parent (node :: known) nodes

theorem ParentsFirst.mono {known known' nodes : List (α × Nat)} (subset : known ⊆ known')
    (first : ParentsFirst parent known nodes) : ParentsFirst parent known' nodes := by
  induction nodes generalizing known known' with
  | nil => trivial
  | cons node nodes ih =>
    obtain ⟨here, rest⟩ := first
    refine ⟨?_, ih (List.cons_subset_cons node subset) rest⟩
    intro p up
    obtain ⟨level, member, next⟩ := here p up
    exact ⟨level, subset member, next⟩

theorem ParentsFirst.append {known nodes nodes' : List (α × Nat)}
    (first : ParentsFirst parent known nodes) (first' : ParentsFirst parent known nodes') :
    ParentsFirst parent known (nodes ++ nodes') := by
  induction nodes generalizing known with
  | nil => exact first'
  | cons node nodes ih =>
    exact ⟨first.1, ih first.2 (first'.mono (List.subset_cons_self _ _))⟩

theorem ParentsFirst.flatMap {known : List (α × Nat)} {as : List α} {f : α → List (α × Nat)}
    (each : ∀ a ∈ as, ParentsFirst parent known (f a)) :
    ParentsFirst parent known (as.flatMap f) := by
  induction as with
  | nil => trivial
  | cons a as ih =>
    rw [List.flatMap_cons]
    exact (each a List.mem_cons_self).append (ih fun b member => each b (List.mem_cons_of_mem _ member))

/-- Every entry is preceded by its parent. -/
theorem ParentsFirst.before {known nodes before after : List (α × Nat)} {node : α × Nat}
    (first : ParentsFirst parent known nodes) (cut : nodes = before ++ node :: after) {p : α}
    (up : parent node.1 = some p) :
    ∃ level, ((p, level) ∈ known ∨ (p, level) ∈ before) ∧ node.2 = level + 1 := by
  induction before generalizing known nodes with
  | nil =>
    subst cut
    obtain ⟨level, member, next⟩ := first.1 p up
    exact ⟨level, Or.inl member, next⟩
  | cons earlier before ih =>
    subst cut
    obtain ⟨level, member, next⟩ := ih first.2 rfl
    refine ⟨level, ?_, next⟩
    simp only [List.mem_cons] at member ⊢
    tauto

/-! ## Walks -/

variable (keys parent)

/-- The keys without a parent. -/
def tops : List α := keys.filter fun k => (parent k).isNone

variable [DecidableEq α]

/-- The keys directly below `a`. -/
def childrenOf (a : α) : List α := keys.filter fun k => parent k == some a

/-- `a` and the keys at most `levels` levels below it, each with its level. -/
def walk (a : α) (level : Nat) : (levels : Nat) → List (α × Nat)
  | 0 => [(a, level)]
  | levels + 1 =>
    (a, level) :: (childrenOf keys parent a).flatMap fun c => walk c (level + 1) levels

/-- The accepted keys whose parent is not accepted. -/
def roots (accept : α → Bool) : List α :=
  keys.filter fun k => accept k && !(parent k).any accept

/-- The walks of all tops. -/
def walkAll (levels : Nat) : List (α × Nat) :=
  (tops keys parent).flatMap fun a => walk keys parent a 0 levels

variable {keys parent}

omit [DecidableEq α] in
@[simp] theorem mem_tops {a : α} : a ∈ tops keys parent ↔ a ∈ keys ∧ parent a = none := by
  rw [tops, List.mem_filter, Option.isNone_iff_eq_none]

@[simp] theorem mem_childrenOf {a c : α} :
    c ∈ childrenOf keys parent a ↔ c ∈ keys ∧ parent c = some a := by
  rw [childrenOf, List.mem_filter, beq_iff_eq]

omit [DecidableEq α] in
@[simp] theorem mem_roots {accept : α → Bool} {a : α} :
    a ∈ roots keys parent accept ↔
      a ∈ keys ∧ accept a = true ∧ ∀ p, parent a = some p → accept p = false := by
  rw [roots, List.mem_filter, Bool.and_eq_true, Bool.not_eq_true', Option.any_eq_false]

omit [DecidableEq α] in
/-- Where everything is accepted the roots are the tops. -/
theorem roots_all : roots keys parent (fun _ => true) = tops keys parent := by
  refine List.filter_congr ?_
  intro k _
  cases parent k <;> rfl

theorem walk_parentsFirst {known : List (α × Nat)} (a : α) (level levels : Nat)
    (under : ∀ p, parent a = some p → ∃ l, (p, l) ∈ known ∧ level = l + 1) :
    ParentsFirst parent known (walk keys parent a level levels) := by
  induction levels generalizing a level known with
  | zero => exact ⟨under, trivial⟩
  | succ levels ih =>
    refine ⟨under, ParentsFirst.flatMap ?_⟩
    intro c child
    apply ih
    intro p up
    rw [(mem_childrenOf.mp child).2] at up
    obtain rfl := Option.some.inj up
    exact ⟨level, List.mem_cons_self, rfl⟩

theorem walkAll_parentsFirst (levels : Nat) :
    ParentsFirst parent [] (walkAll keys parent levels) := by
  apply ParentsFirst.flatMap
  intro a top
  apply walk_parentsFirst
  intro p up
  rw [(mem_tops.mp top).2] at up
  cases up

section

variable (forest : Forest keys parent rank)

include forest

omit [DecidableEq α] forest in
/-- Of two ancestors of a key one is above the other. -/
theorem below_total {a a' k : α} (below : Below parent a k) (below' : Below parent a' k) :
    Below parent a a' ∨ Below parent a' a := by
  induction below with
  | refl => exact .inr below'
  | @tail p k above up ih =>
    cases Relation.ReflTransGen.cases_tail below' with
    | inl start => exact .inl (start ▸ above.tail up)
    | inr step =>
      obtain ⟨p', above', up'⟩ := step
      rw [show parent k = some p from up] at up'
      obtain rfl := Option.some.inj up'
      exact ih above'

/-- What a walk lists lies below its start, at the level of its rank. -/
theorem below_of_mem_walk {a : α} {level levels : Nat} (key : a ∈ keys) {node : α × Nat}
    (member : node ∈ walk keys parent a level levels) :
    node.1 ∈ keys ∧ Below parent a node.1 ∧ node.2 + rank a = level + rank node.1 := by
  induction levels generalizing a level with
  | zero =>
    obtain rfl := List.mem_singleton.mp member
    exact ⟨key, Relation.ReflTransGen.refl, rfl⟩
  | succ levels ih =>
    cases List.mem_cons.mp member with
    | inl start =>
      subst start
      exact ⟨key, Relation.ReflTransGen.refl, rfl⟩
    | inr below =>
      obtain ⟨c, child, inside⟩ := List.mem_flatMap.mp below
      obtain ⟨childKey, up⟩ := mem_childrenOf.mp child
      obtain ⟨within, path, same⟩ := ih childKey inside
      have step := forest.rank_child c a up
      exact ⟨within, Relation.ReflTransGen.head up path, by omega⟩

theorem walk_nodup {a : α} {level levels : Nat} (key : a ∈ keys) :
    ((walk keys parent a level levels).map Prod.fst).Nodup := by
  induction levels generalizing a level with
  | zero => exact List.nodup_singleton a
  | succ levels ih =>
    rw [walk, List.map_cons, List.nodup_cons, List.map_flatMap, List.nodup_flatMap]
    refine ⟨?_, ?_, ?_⟩
    · intro member
      obtain ⟨c, child, inside⟩ := List.mem_flatMap.mp member
      obtain ⟨node, inside, start⟩ := List.mem_map.mp inside
      obtain ⟨childKey, up⟩ := mem_childrenOf.mp child
      have low := forest.rank_le (forest.below_of_mem_walk childKey inside).2.1
      have step := forest.rank_child c a up
      rw [start] at low
      dsimp only at low
      omega
    · intro c child
      exact ih (mem_childrenOf.mp child).1
    · refine (forest.nodup.filter _).imp_of_mem ?_
      intro c c' child child' apart k member member'
      obtain ⟨node, inside, rfl⟩ := List.mem_map.mp member
      obtain ⟨node', inside', same⟩ := List.mem_map.mp member'
      obtain ⟨childKey, up⟩ := mem_childrenOf.mp child
      obtain ⟨childKey', up'⟩ := mem_childrenOf.mp child'
      have below := (forest.below_of_mem_walk childKey inside).2.1
      have below' := (forest.below_of_mem_walk childKey' inside').2.1
      rw [same] at below'
      refine apart (forest.below_unique below below' ?_)
      rw [forest.rank_child c a up, forest.rank_child c' a up']

/-- A walk goes down to every key below its start that is not too far away. -/
theorem mem_walk_of_below {a k : α} {level levels : Nat} (key : k ∈ keys) (below : Below parent a k)
    (near : rank k ≤ rank a + levels) :
    ∃ l, (k, l) ∈ walk keys parent a level levels := by
  induction below using Relation.ReflTransGen.head_induction_on generalizing level levels with
  | refl =>
    refine ⟨level, ?_⟩
    cases levels <;> exact List.mem_cons_self
  | @head a c up rest ih =>
    have step := forest.rank_child c a up
    have deeper := forest.rank_le rest
    obtain ⟨levels, rfl⟩ : ∃ n, levels = n + 1 := ⟨levels - 1, by omega⟩
    obtain ⟨l, inside⟩ : ∃ l, (k, l) ∈ walk keys parent c (level + 1) levels := ih (by omega)
    refine ⟨l, List.mem_cons_of_mem _ (List.mem_flatMap.mpr ⟨c, ?_, inside⟩)⟩
    exact mem_childrenOf.mpr ⟨forest.mem_keys_of_below key rest, up⟩

theorem level_of_mem_walkAll {levels : Nat} {node : α × Nat}
    (member : node ∈ walkAll keys parent levels) : node.1 ∈ keys ∧ node.2 = rank node.1 := by
  obtain ⟨a, top, inside⟩ := List.mem_flatMap.mp member
  obtain ⟨key, parentless⟩ := mem_tops.mp top
  obtain ⟨within, -, same⟩ := forest.below_of_mem_walk key inside
  rw [forest.rank_top a parentless] at same
  exact ⟨within, by omega⟩

section Accept

variable {accept : α → Bool}
  (handed : ∀ k p, parent k = some p → accept p = true → accept k = true)

include handed

omit [DecidableEq α] forest in
theorem accept_below {a k : α} (accepted : accept a = true) (below : Below parent a k) :
    accept k = true := by
  induction below with
  | refl => exact accepted
  | tail _ up ih => exact handed _ _ up ih

omit [DecidableEq α] forest in
/-- No root is below another. -/
theorem roots_apart {a a' : α} (root : a ∈ roots keys parent accept)
    (root' : a' ∈ roots keys parent accept) (below : Below parent a a') : a = a' := by
  cases Relation.ReflTransGen.cases_tail below with
  | inl same => exact same.symm
  | inr step =>
    obtain ⟨p, above, up⟩ := step
    have accepted := accept_below handed (mem_roots.mp root).2.1 above
    rw [(mem_roots.mp root').2.2 p up] at accepted
    cases accepted

omit [DecidableEq α] handed in
/-- An accepted key lies below a root. -/
theorem exists_root {k : α} (key : k ∈ keys) (accepted : accept k = true) :
    ∃ a ∈ roots keys parent accept, Below parent a k := by
  induction rank_eq : rank k using Nat.strong_induction_on generalizing k with
  | h r ih =>
    by_cases above : ∃ p, parent k = some p ∧ accept p = true
    · obtain ⟨p, up, accepted'⟩ := above
      have step := forest.rank_child k p up
      obtain ⟨a, root, below⟩ :=
        ih (rank p) (by omega) (forest.closed k key p up) accepted' rfl
      exact ⟨a, root, below.tail up⟩
    · refine ⟨k, mem_roots.mpr ⟨key, accepted, ?_⟩, Relation.ReflTransGen.refl⟩
      intro p up
      by_contra acceptedParent
      exact above ⟨p, up, by simpa using acceptedParent⟩

/-- Deep enough walks of all roots list every accepted key exactly once. -/
theorem walkRoots_perm {levels : Nat} (deep : keys.length ≤ levels) :
    (((roots keys parent accept).flatMap fun a => walk keys parent a 0 levels).map Prod.fst).Perm
      (keys.filter accept) := by
  have nodup : (((roots keys parent accept).flatMap fun a =>
      walk keys parent a 0 levels).map Prod.fst).Nodup := by
    rw [List.map_flatMap, List.nodup_flatMap]
    refine ⟨fun a root => forest.walk_nodup (mem_roots.mp root).1, ?_⟩
    refine (forest.nodup.filter _).imp_of_mem ?_
    intro a a' root root' apart k member member'
    obtain ⟨node, inside, rfl⟩ := List.mem_map.mp member
    obtain ⟨node', inside', same⟩ := List.mem_map.mp member'
    have below := (forest.below_of_mem_walk (mem_roots.mp root).1 inside).2.1
    have below' := (forest.below_of_mem_walk (mem_roots.mp root').1 inside').2.1
    rw [same] at below'
    rcases below_total below below' with under | above
    · exact apart (roots_apart handed root root' under)
    · exact apart (roots_apart handed root' root above).symm
  rw [List.perm_ext_iff_of_nodup nodup (forest.nodup.filter _)]
  intro k
  rw [List.mem_filter]
  constructor
  · intro member
    obtain ⟨node, inside, rfl⟩ := List.mem_map.mp member
    obtain ⟨a, root, inside⟩ := List.mem_flatMap.mp inside
    obtain ⟨key, below, -⟩ := forest.below_of_mem_walk (mem_roots.mp root).1 inside
    exact ⟨key, accept_below handed (mem_roots.mp root).2.1 below⟩
  · rintro ⟨key, accepted⟩
    obtain ⟨a, root, below⟩ := forest.exists_root key accepted
    have near := forest.rank_lt key
    obtain ⟨l, inside⟩ : ∃ l, (k, l) ∈ walk keys parent a 0 levels :=
      forest.mem_walk_of_below key below (by omega)
    exact List.mem_map.mpr ⟨_, List.mem_flatMap.mpr ⟨a, root, inside⟩, rfl⟩

end Accept

/-- Deep enough walks of all tops list every key exactly once. -/
theorem walkAll_perm {levels : Nat} (deep : keys.length ≤ levels) :
    ((walkAll keys parent levels).map Prod.fst).Perm keys := by
  have all := @walkRoots_perm _ _ _ _ _ forest (fun _ => true) (fun _ _ _ _ => rfl) _ deep
  rwa [roots_all, List.filter_true] at all

end

end Forest

end RWave.Misc
