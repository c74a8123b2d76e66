import RWave.Model.Wave
import RWave.Misc.StableSort

/-!
# The signal table

`build_signal_table`: the declarations of a backend grouped by handle, each group's paths sorted and
freed of repetitions, the groups sorted by path. What the standard library leaves open, the order in
which a hash map gives its values out and the choice of an unstable sort, is a parameter.
-/

namespace RWave.Model

open RWave.Backend RWave.Misc

/-- One variable declaration of a backend. -/
structure VarDecl where
  fullPath : String
  scopePath : String
  width : Nat
  typeStr : String
  kind : ValueKind
  backendSid : BackendSid
  deriving DecidableEq, Repr

/-- The declarations of one handle, and its key in the hash map. -/
structure Group where
  width : Nat
  typeStr : String
  kind : ValueKind
  backendSid : BackendSid
  /-- `(full_path, scope_path)` of each declaration. -/
  paths : List (String × String)
  declOrder : Nat
  deriving DecidableEq, Repr

/-- What the standard library does not specify. -/
structure HashOrder where
  /-- `groups.into_values()`. -/
  intoValues : List Group → List Group
  intoValues_perm : ∀ groups, (intoValues groups).Perm groups
  /-- `type_counts.into_iter()`. -/
  intoIter : List (String × Nat) → List (String × Nat)
  intoIter_perm : ∀ counts, (intoIter counts).Perm counts
  /-- `sort_unstable_by` the path. -/
  sortUnstable : List SignalInfo → List SignalInfo
  sortUnstable_perm : ∀ infos, (sortUnstable infos).Perm infos
  sortUnstable_sorted : ∀ infos, SortedBy SignalInfo.path (sortUnstable infos)

/-- An alias of a known handle. -/
def Group.add (declIdx : Nat) (decl : VarDecl) (g : Group) : Group :=
  { g with
    declOrder := if declIdx < g.declOrder then declIdx else g.declOrder
    paths := g.paths ++ [(decl.fullPath, decl.scopePath)] }

/-- The first declaration of a handle. -/
def Group.ofDecl (declIdx : Nat) (decl : VarDecl) : Group where
  width := decl.width
  typeStr := decl.typeStr
  kind := decl.kind
  backendSid := decl.backendSid
  paths := [(decl.fullPath, decl.scopePath)]
  declOrder := declIdx

/-- One declaration enters the groups. -/
def insertDecl (groups : List Group) : VarDecl × Nat → List Group
  | (decl, declIdx) =>
    if groups.any fun g => g.backendSid == decl.backendSid then
      groups.map fun g => if g.backendSid = decl.backendSid then g.add declIdx decl else g
    else groups ++ [Group.ofDecl declIdx decl]

/-- The groups, in the order of their first declarations. -/
def groupDecls (decls : List VarDecl) : List Group := decls.zipIdx.foldl insertDecl []

/-- `*type_counts.entry(k).or_insert(0) += 1`. -/
def countType (counts : List (String × Nat)) (k : String) : List (String × Nat) :=
  if counts.any fun e => e.1 == k then
    counts.map fun e => if e.1 = k then (e.1, e.2 + 1) else e
  else counts ++ [(k, 1)]

def typeCounts (decls : List VarDecl) : List (String × Nat) :=
  (decls.map VarDecl.typeStr).foldl countType []

/-- The paths of a group, sorted and without repetitions if there are several. -/
def canonicalPaths (paths : List (String × String)) : List (String × String) :=
  if 1 < paths.length then
    (sortByKey Prod.fst paths).destutter fun a b => a.1 ≠ b.1
  else paths

/-- The entry of a group. -/
def Group.toInfo (g : Group) : SignalInfo :=
  let paths := canonicalPaths g.paths
  { path := (paths.map Prod.fst).headD ""
    aliases := paths.map Prod.fst
    width := g.width
    typeStr := g.typeStr
    kind := g.kind
    aliasScopes := paths.map Prod.snd
    declOrder := g.declOrder
    backendSid := g.backendSid }

/-- `build_signal_table`: the table, the number of declarations and the types with their counts, the
most frequent first. -/
def buildSignalTable (order : HashOrder) (decls : List VarDecl) :
    List SignalInfo × Nat × List (String × Nat) :=
  let infos := (order.intoValues (groupDecls decls)).map Group.toInfo
  (order.sortUnstable infos, decls.length,
    sortByKey (fun e => toLex (OrderDual.toDual e.2, e.1)) (order.intoIter (typeCounts decls)))

/-! ## The groups -/

/-- `g` holds the declarations of its handle: their paths in order, the index of the first, and
what that one says. -/
structure Group.Holds (decls : List VarDecl) (g : Group) : Prop where
  paths : g.paths = (decls.filter fun d => d.backendSid == g.backendSid).map
    fun d => (d.fullPath, d.scopePath)
  first : ∃ d, decls[g.declOrder]? = some d ∧ d.backendSid = g.backendSid ∧ d.width = g.width ∧
    d.typeStr = g.typeStr ∧ d.kind = g.kind
  least : ∀ i d, decls[i]? = some d → d.backendSid = g.backendSid → g.declOrder ≤ i

/-- There is one group for each handle. -/
structure GroupsHold (decls : List VarDecl) (groups : List Group) : Prop where
  nodup : (groups.map Group.backendSid).Nodup
  holds : ∀ g ∈ groups, g.Holds decls
  covered : ∀ d ∈ decls, ∃ g ∈ groups, g.backendSid = d.backendSid

theorem Group.Holds.other {decls : List VarDecl} {g : Group} {decl : VarDecl} (holds : g.Holds decls)
    (other : g.backendSid ≠ decl.backendSid) : g.Holds (decls ++ [decl]) := by
  obtain ⟨paths, ⟨d, found, own⟩, least⟩ := holds
  refine ⟨?_, ⟨d, ?_, own⟩, ?_⟩
  · rw [paths, List.filter_append, List.filter_singleton]
    simp [beq_false_of_ne (Ne.symm other)]
  · rw [List.getElem?_append_left (List.getElem?_eq_some_iff.mp found).1, found]
  · intro i d' found' same
    rw [List.getElem?_append] at found'
    split at found'
    next => exact least i d' found' same
    next =>
      obtain rfl := List.mem_singleton.mp (List.mem_of_getElem? found')
      exact absurd same.symm other

theorem Group.Holds.add {decls : List VarDecl} {g : Group} {decl : VarDecl} (holds : g.Holds decls)
    (own : g.backendSid = decl.backendSid) : (g.add decls.length decl).Holds (decls ++ [decl]) := by
  obtain ⟨paths, ⟨d, found, same⟩, least⟩ := holds
  have earlier := (List.getElem?_eq_some_iff.mp found).1
  have order : (g.add decls.length decl).declOrder = g.declOrder := by
    rw [Group.add, if_neg (by omega)]
  refine ⟨?_, ⟨d, ?_, same⟩, ?_⟩
  · change g.paths ++ _ = _
    rw [paths, List.filter_append, List.map_append, List.filter_singleton]
    simp [Group.add, own]
  · rw [order, List.getElem?_append_left earlier, found]
  · intro i d' found' mine
    rw [order]
    rw [List.getElem?_append] at found'
    split at found'
    next => exact least i d' found' mine
    next => omega

theorem Group.holds_ofDecl {decls : List VarDecl} {decl : VarDecl}
    (new : ∀ d ∈ decls, d.backendSid ≠ decl.backendSid) :
    (Group.ofDecl decls.length decl).Holds (decls ++ [decl]) := by
  refine ⟨?_, ⟨decl, ?_, rfl, rfl, rfl, rfl⟩, ?_⟩
  · have noDecls : decls.filter (fun d => d.backendSid == decl.backendSid) = [] := by
      rw [List.filter_eq_nil_iff]
      intro d member
      simpa using new d member
    simp [Group.ofDecl, List.filter_append, noDecls]
  · rw [Group.ofDecl]
    simp
  · intro i d found own
    rw [List.getElem?_append] at found
    split at found
    next => exact absurd own (new d (List.mem_of_getElem? found))
    next late => exact Nat.not_lt.mp late

theorem groupDecls_append (decls : List VarDecl) (decl : VarDecl) :
    groupDecls (decls ++ [decl]) = insertDecl (groupDecls decls) (decl, decls.length) := by
  simp [groupDecls, List.zipIdx_append]

section Insert

variable {decls : List VarDecl} {groups : List Group} {decl : VarDecl}

/-- A declaration of a signal that has a group goes into it. -/
theorem GroupsHold.insert_known (hold : GroupsHold decls groups)
    (known : ∃ g ∈ groups, g.backendSid = decl.backendSid) :
    GroupsHold (decls ++ [decl]) (groups.map fun g =>
      if g.backendSid = decl.backendSid then g.add decls.length decl else g) := by
  obtain ⟨nodup, holds, covered⟩ := hold
  have keep (g : Group) : (if g.backendSid = decl.backendSid then g.add decls.length decl
      else g).backendSid = g.backendSid := by
    split <;> rfl
  refine ⟨?_, ?_, ?_⟩
  · rw [List.map_map]
    convert nodup using 1
    exact List.map_congr_left fun g _ => keep g
  · intro g member
    obtain ⟨g, before, rfl⟩ := List.mem_map.mp member
    split
    next own => exact (holds g before).add own
    next other => exact (holds g before).other other
  · intro d member
    obtain ⟨g, among, same⟩ : ∃ g ∈ groups, g.backendSid = d.backendSid := by
      cases List.mem_append.mp member with
      | inl before => exact covered d before
      | inr last =>
        obtain ⟨g, among, same⟩ := known
        exact ⟨g, among, same.trans (List.mem_singleton.mp last ▸ rfl)⟩
    exact ⟨_, List.mem_map_of_mem among, (keep g).trans same⟩

/-- A declaration of another signal starts a group. -/
theorem GroupsHold.insert_new (hold : GroupsHold decls groups)
    (new : ∀ g ∈ groups, g.backendSid ≠ decl.backendSid) :
    GroupsHold (decls ++ [decl]) (groups ++ [Group.ofDecl decls.length decl]) := by
  obtain ⟨nodup, holds, covered⟩ := hold
  refine ⟨?_, ?_, ?_⟩
  · rw [List.map_append, List.map_singleton, List.nodup_append]
    refine ⟨nodup, List.nodup_singleton _, ?_⟩
    intro sid member sid' member' same
    obtain ⟨g, among, rfl⟩ := List.mem_map.mp member
    exact new g among (same.trans (List.mem_singleton.mp member'))
  · intro g member
    cases List.mem_append.mp member with
    | inl before => exact (holds g before).other (new g before)
    | inr last =>
      rw [List.mem_singleton.mp last]
      apply Group.holds_ofDecl
      intro d declared same
      obtain ⟨g, among, own⟩ := covered d declared
      exact new g among (own.trans same)
  · intro d member
    cases List.mem_append.mp member with
    | inl before =>
      obtain ⟨g, among, same⟩ := covered d before
      exact ⟨g, List.mem_append_left _ among, same⟩
    | inr last =>
      rw [List.mem_singleton.mp last]
      exact ⟨_, List.mem_append_right _ (List.mem_singleton_self _), rfl⟩

end Insert

theorem groupsHold (decls : List VarDecl) : GroupsHold decls (groupDecls decls) := by
  induction decls using List.reverseRecOn with
  | nil => exact ⟨List.nodup_nil, by simp [groupDecls], by simp⟩
  | append_singleton decls decl ih =>
    rw [groupDecls_append, insertDecl]
    split
    next known =>
      obtain ⟨g, member, same⟩ := List.any_eq_true.mp known
      exact ih.insert_known ⟨g, member, beq_iff_eq.mp same⟩
    next unknown =>
      exact ih.insert_new fun g member same =>
        unknown (List.any_eq_true.mpr ⟨g, member, beq_iff_eq.mpr same⟩)

/-! ## The paths of a group -/

theorem mem_canonicalPaths {paths : List (String × String)}
    (single : ∀ a ∈ paths, ∀ b ∈ paths, a.1 = b.1 → a.2 = b.2) {e : String × String} :
    e ∈ canonicalPaths paths ↔ e ∈ paths := by
  rw [canonicalPaths]
  split
  next =>
    constructor
    · intro member
      exact mem_sortByKey.mp ((List.destutter_sublist _ _).subset member)
    · intro member
      obtain ⟨b, kept, same⟩ := exists_mem_destutter Prod.fst
        ((sortByKey_perm Prod.fst paths).mem_iff.mpr member)
      have among := mem_sortByKey.mp ((List.destutter_sublist _ _).subset kept)
      have equal : b = e := Prod.ext same (single b among e member same)
      exact equal ▸ kept
  next => rfl

theorem canonicalPaths_ascending (paths : List (String × String)) :
    ((canonicalPaths paths).map Prod.fst).Pairwise (· < ·) := by
  rw [canonicalPaths]
  split
  next => exact destutter_ascending (sortByKey_sorted Prod.fst paths)
  next short =>
    cases paths with
    | nil => exact List.Pairwise.nil
    | cons e rest =>
      cases rest with
      | nil => exact List.pairwise_singleton _ _
      | cons e' rest => simp at short

/-! ## The table -/

/-- What the table asks of the declarations: a path has one scope and one handle. -/
structure WellDeclared (decls : List VarDecl) : Prop where
  scope : ∀ d ∈ decls, ∀ d' ∈ decls, d.fullPath = d'.fullPath → d.scopePath = d'.scopePath
  handle : ∀ d ∈ decls, ∀ d' ∈ decls, d.fullPath = d'.fullPath → d.backendSid = d'.backendSid

/-- `info` is the entry of its handle: its aliases are the paths declared for it, in ascending
order, each with its scope, and it stands for the first declaration. -/
structure EntryOf (decls : List VarDecl) (info : SignalInfo) : Prop where
  aligned : info.aliasScopes.length = info.aliases.length
  ascending : info.aliases.Pairwise (· < ·)
  aliases : ∀ p, p ∈ info.aliases ↔
    ∃ d ∈ decls, d.backendSid = info.backendSid ∧ d.fullPath = p
  pairs : ∀ p scope, (p, scope) ∈ info.aliasPairs ↔
    ∃ d ∈ decls, d.backendSid = info.backendSid ∧ d.fullPath = p ∧ d.scopePath = scope
  path : info.aliases.head? = some info.path
  declOrder : IsLeast {i | ∃ d, decls[i]? = some d ∧ d.backendSid = info.backendSid} info.declOrder
  first : ∀ d, decls[info.declOrder]? = some d →
    info.width = d.width ∧ info.typeStr = d.typeStr ∧ info.kind = d.kind

/-- The table is a canonical partition of the declarations. -/
structure CanonicalTable (decls : List VarDecl) (infos : List SignalInfo) : Prop where
  entries : ∀ info ∈ infos, EntryOf decls info
  handles_nodup : (infos.map SignalInfo.backendSid).Nodup
  handles : ∀ sid, (∃ info ∈ infos, info.backendSid = sid) ↔ ∃ d ∈ decls, d.backendSid = sid
  declOrders : (infos.map SignalInfo.declOrder).Nodup
  ascending : (infos.map SignalInfo.path).Pairwise (· < ·)

section Table

variable {decls : List VarDecl} (well : WellDeclared decls)

theorem Group.Holds.mem_paths {g : Group} (holds : g.Holds decls) {e : String × String} :
    e ∈ g.paths ↔ ∃ d ∈ decls, d.backendSid = g.backendSid ∧ (d.fullPath, d.scopePath) = e := by
  rw [holds.paths]
  simp only [List.mem_map, List.mem_filter, beq_iff_eq, and_assoc]

theorem Group.Holds.paths_ne_nil {g : Group} (holds : g.Holds decls) : g.paths ≠ [] := by
  obtain ⟨d, found, own, -⟩ := holds.first
  exact List.ne_nil_of_mem (holds.mem_paths.mpr ⟨d, List.mem_of_getElem? found, own, rfl⟩)

include well in
theorem Group.Holds.mem_canonicalPaths {g : Group} (holds : g.Holds decls) {e : String × String} :
    e ∈ canonicalPaths g.paths ↔
      ∃ d ∈ decls, d.backendSid = g.backendSid ∧ (d.fullPath, d.scopePath) = e := by
  rw [← holds.mem_paths]
  apply Model.mem_canonicalPaths
  intro a member b member' same
  obtain ⟨d, declared, -, rfl⟩ := holds.mem_paths.mp member
  obtain ⟨d', declared', -, rfl⟩ := holds.mem_paths.mp member'
  exact well.scope d declared d' declared' same

theorem toInfo_aliasPairs (g : Group) : g.toInfo.aliasPairs = canonicalPaths g.paths := by
  rw [SignalInfo.aliasPairs, Group.toInfo]
  exact (List.zip_of_prod rfl rfl).symm

include well in
theorem Group.Holds.entryOf {g : Group} (holds : g.Holds decls) : EntryOf decls g.toInfo where
  aligned := by
    rw [Group.toInfo, List.length_map, List.length_map]
  ascending := canonicalPaths_ascending g.paths
  aliases p := by
    change p ∈ (canonicalPaths g.paths).map Prod.fst ↔ _
    simp only [List.mem_map, holds.mem_canonicalPaths well]
    constructor
    · intro ⟨_, ⟨d, member, own, pair⟩, first⟩
      subst pair
      exact ⟨d, member, own, first⟩
    · intro ⟨d, member, own, first⟩
      exact ⟨_, ⟨d, member, own, rfl⟩, first⟩
  pairs p scope := by
    rw [toInfo_aliasPairs, holds.mem_canonicalPaths well]
    simp only [Prod.mk.injEq]
    rfl
  path := by
    have filled : canonicalPaths g.paths ≠ [] := by
      obtain ⟨e, member⟩ := List.exists_mem_of_ne_nil _ holds.paths_ne_nil
      rw [holds.mem_paths, ← holds.mem_canonicalPaths well] at member
      exact List.ne_nil_of_mem member
    obtain ⟨e, rest, form⟩ := List.exists_cons_of_ne_nil filled
    simp [Group.toInfo, form]
  declOrder := by
    obtain ⟨d, found, own, -⟩ := holds.first
    refine ⟨⟨d, found, own⟩, ?_⟩
    intro i ⟨d', found', own'⟩
    exact holds.least i d' found' own'
  first d found := by
    obtain ⟨d', found', -, width, type, kind⟩ := holds.first
    obtain rfl := Option.some.inj (found'.symm.trans found)
    exact ⟨width.symm, type.symm, kind.symm⟩

variable (order : HashOrder)

theorem mem_buildSignalTable {info : SignalInfo} :
    info ∈ (buildSignalTable order decls).1 ↔ ∃ g ∈ groupDecls decls, g.toInfo = info := by
  rw [buildSignalTable]
  dsimp only
  rw [(order.sortUnstable_perm _).mem_iff, List.mem_map]
  simp only [(order.intoValues_perm _).mem_iff]

theorem buildSignalTable_perm :
    (buildSignalTable order decls).1.Perm ((groupDecls decls).map Group.toInfo) :=
  (order.sortUnstable_perm _).trans ((order.intoValues_perm _).map _)

include well in
/-- Entries of one path are entries of one handle. -/
theorem EntryOf.handle_eq {info info' : SignalInfo} (entry : EntryOf decls info)
    (entry' : EntryOf decls info') (same : info.path = info'.path) :
    info.backendSid = info'.backendSid := by
  obtain ⟨d, member, own, path⟩ := (entry.aliases info.path).mp (List.mem_of_mem_head? entry.path)
  obtain ⟨d', member', own', path'⟩ :=
    (entry'.aliases info'.path).mp (List.mem_of_mem_head? entry'.path)
  rw [← own, ← own']
  exact well.handle d member d' member' (path.trans (same.trans path'.symm))

/-- Entries of one declaration are entries of one handle. -/
theorem EntryOf.handle_of_declOrder {info info' : SignalInfo} (entry : EntryOf decls info)
    (entry' : EntryOf decls info') (same : info.declOrder = info'.declOrder) :
    info.backendSid = info'.backendSid := by
  obtain ⟨d, found, own⟩ := entry.declOrder.1
  obtain ⟨d', found', own'⟩ := entry'.declOrder.1
  rw [same] at found
  obtain rfl := Option.some.inj (found.symm.trans found')
  exact own.symm.trans own'

include well in
theorem canonicalTable : CanonicalTable decls (buildSignalTable order decls).1 := by
  have groups := groupsHold decls
  have entries : ∀ info ∈ (buildSignalTable order decls).1, EntryOf decls info := by
    intro info member
    obtain ⟨g, among, rfl⟩ := (mem_buildSignalTable order).mp member
    exact (groups.holds g among).entryOf well
  have handles_nodup : ((buildSignalTable order decls).1.map SignalInfo.backendSid).Nodup := by
    rw [((buildSignalTable_perm order).map _).nodup_iff, List.map_map]
    exact groups.nodup
  -- Entries that share a key of any kind share their handle, and so are one entry.
  have keyed {κ : Type} (key : SignalInfo → κ) (single : ∀ info info', EntryOf decls info →
      EntryOf decls info' → key info = key info' → info.backendSid = info'.backendSid) :
      ((buildSignalTable order decls).1.map key).Nodup := by
    refine List.Nodup.map_on ?_ (List.Nodup.of_map _ handles_nodup)
    intro info member info' member' same
    exact List.inj_on_of_nodup_map handles_nodup member member'
      (single info info' (entries info member) (entries info' member') same)
  refine ⟨entries, handles_nodup, ?_, keyed _ fun _ _ => EntryOf.handle_of_declOrder, ?_⟩
  · intro sid
    constructor
    · intro ⟨info, member, own⟩
      obtain ⟨d, found, same⟩ := (entries info member).declOrder.1
      exact ⟨d, List.mem_of_getElem? found, same.trans own⟩
    · intro ⟨d, member, own⟩
      obtain ⟨g, among, same⟩ := groups.covered d member
      exact ⟨_, (mem_buildSignalTable order).mpr ⟨g, among, rfl⟩, same.trans own⟩
  · have distinct := keyed SignalInfo.path fun _ _ => EntryOf.handle_eq well
    have sorted : ((buildSignalTable order decls).1.map SignalInfo.path).Pairwise (· ≤ ·) :=
      List.pairwise_map.mpr (order.sortUnstable_sorted _)
    exact (sorted.and distinct).imp fun both => lt_of_le_of_ne both.1 both.2

/-! ## The order of the hash maps -/

theorem countType_nodup {counts : List (String × Nat)} (nodup : (counts.map Prod.fst).Nodup)
    (k : String) : ((countType counts k).map Prod.fst).Nodup := by
  rw [countType]
  split
  next =>
    rw [List.map_map]
    convert nodup using 1
    apply List.map_congr_left
    intro e _
    change (if e.1 = k then (e.1, e.2 + 1) else e).1 = e.1
    split <;> rfl
  next unknown =>
    rw [List.map_append, List.map_singleton, List.nodup_append]
    refine ⟨nodup, List.nodup_singleton k, ?_⟩
    intro name member name' member' same
    obtain ⟨e, among, rfl⟩ := List.mem_map.mp member
    rw [List.any_eq_true] at unknown
    exact unknown ⟨e, among, beq_iff_eq.mpr (same.trans (List.mem_singleton.mp member'))⟩

theorem typeCounts_nodup (decls : List VarDecl) : ((typeCounts decls).map Prod.fst).Nodup := by
  rw [typeCounts]
  induction decls.map VarDecl.typeStr using List.reverseRecOn with
  | nil => exact List.nodup_nil
  | append_singleton types k ih =>
    rw [List.foldl_append]
    exact countType_nodup ih k

include well in
/-- The table does not depend on what the standard library leaves open. -/
theorem buildSignalTable_order (order' : HashOrder) :
    buildSignalTable order' decls = buildSignalTable order decls := by
  have table := canonicalTable well order
  have paths : ((buildSignalTable order decls).1.map SignalInfo.path).Nodup :=
    table.ascending.imp fun lt => lt.ne
  have infos : (buildSignalTable order' decls).1 = (buildSignalTable order decls).1 :=
    (sorted_eq ((buildSignalTable_perm order).trans (buildSignalTable_perm order').symm) paths
      (order.sortUnstable_sorted _) (order'.sortUnstable_sorted _)).symm
  have counts : (buildSignalTable order' decls).2.2 = (buildSignalTable order decls).2.2 := by
    refine sorted_eq ?_ ?_ (sortByKey_sorted _ _) (sortByKey_sorted _ _)
    · exact ((sortByKey_perm _ _).trans (order'.intoIter_perm _)).trans
        ((sortByKey_perm _ _).trans (order.intoIter_perm _)).symm
    · have names : ((buildSignalTable order' decls).2.2.map Prod.fst).Nodup := by
        refine (((sortByKey_perm _ _).trans (order'.intoIter_perm _)).map _).nodup_iff.mpr ?_
        exact typeCounts_nodup decls
      refine List.Nodup.map_on ?_ (List.Nodup.of_map _ names)
      intro e member e' member' same
      have name : e.1 = e'.1 := congrArg (fun k => (ofLex k).2) same
      exact List.inj_on_of_nodup_map names member member' name
  exact Prod.ext infos (Prod.ext rfl counts)

end Table

/-- The table holds one entry for each handle, with that handle's distinct paths in ascending order
and its smallest declaration index, in strictly ascending order of path, whatever the order in which
the hash maps give out what they hold. -/
theorem buildSignalTable_canonical {decls : List VarDecl} (well : WellDeclared decls)
    (order : HashOrder) :
    CanonicalTable decls (buildSignalTable order decls).1 ∧
      ∀ order', buildSignalTable order' decls = buildSignalTable order decls :=
  ⟨canonicalTable well order, buildSignalTable_order well order⟩

/-- A hash map that gives its values out backwards. -/
def backwards : HashOrder where
  intoValues := List.reverse
  intoValues_perm := List.reverse_perm
  intoIter := List.reverse
  intoIter_perm := List.reverse_perm
  sortUnstable := sortByKey SignalInfo.path
  sortUnstable_perm := sortByKey_perm _
  sortUnstable_sorted := sortByKey_sorted _

/-- Two nets, the second under two names, one of them declared twice. -/
def aliasDecls : List VarDecl :=
  [⟨"top.q", "top", 8, "reg", .bits, 7⟩, ⟨"top.u.d", "top.u", 1, "wire", .bits, 4⟩,
    ⟨"top.d", "top", 1, "wire", .bits, 4⟩, ⟨"top.u.d", "top.u", 1, "wire", .bits, 4⟩]

theorem buildSignalTable_canonical_alias :
    CanonicalTable aliasDecls (buildSignalTable backwards aliasDecls).1 ∧
      ∀ order', buildSignalTable order' aliasDecls = buildSignalTable backwards aliasDecls :=
  buildSignalTable_canonical ⟨by decide, by decide⟩ backwards

/-! ## The open file -/

/-- `Wave::from_backend`. -/
def File.fromBackend (order : HashOrder) (backend : WaveformBackend) (decls : List VarDecl) : File :=
  let (signals, rawVarCount, typeCounts) := buildSignalTable order decls
  { backend, signals, rawVarCount, typeCounts }

/-- In a file opened on well-declared variables the declaration orders are distinct and every signal
has a name. -/
theorem File.fromBackend_table {decls : List VarDecl} (well : WellDeclared decls) (order : HashOrder)
    (backend : WaveformBackend) :
    (File.fromBackend order backend decls).DeclDistinct ∧
      ∀ sid, ((File.fromBackend order backend decls).signal sid).aliasPairs ≠ [] := by
  have table := canonicalTable well order
  constructor
  · intro a b same
    have nodup : ((File.fromBackend order backend decls).signals.map SignalInfo.declOrder).Nodup :=
      table.declOrders
    have inside (sid : (File.fromBackend order backend decls).Sid) :
        sid.val < ((File.fromBackend order backend decls).signals.map SignalInfo.declOrder).length := by
      rw [List.length_map]
      exact sid.isLt
    refine Fin.ext (Fin.mk.inj ((nodup.get_inj_iff (i := ⟨a, inside a⟩) (j := ⟨b, inside b⟩)).mp ?_))
    rw [List.get_eq_getElem, List.get_eq_getElem, List.getElem_map, List.getElem_map]
    exact same
  · intro sid
    have entry := table.entries _ (List.getElem_mem sid.isLt)
    obtain ⟨d, member, own, path⟩ := (entry.aliases _).mp (List.mem_of_mem_head? entry.path)
    exact List.ne_nil_of_mem ((entry.pairs _ _).mpr ⟨d, member, own, path, rfl⟩)

end RWave.Model
