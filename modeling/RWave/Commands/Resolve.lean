import RWave.Ascii
import RWave.Commands.SearchCommand
import RWave.Misc.Outcome
import RWave.Model.Mock
import RWave.Select.Leaf

/-!
# Names spelled in full

What `resolve_one_signal` and `resolve_signal_path` make of a path of the signal table. Both compare
paths without regard to case, and `search` takes a name with `*` or `?` for a pattern, so a path
finds its own signal only where no other path is spelled alike and the pattern singles it out.
-/

namespace RWave.Commands

open RWave.Model RWave.Filter RWave.Select RWave.Misc

variable {F : File} {host : Host}

/-- The alias paths of the signal table, each with its scope. -/
def allPairs (F : File) : List (String × String) :=
  F.allSids.flatMap fun sid => (F.signal sid).aliasPairs

/-- No path of the signal table stands for two aliases. -/
structure DistinctPaths (F : File) : Prop where
  aligned : ∀ sid, (F.signal sid).aliasScopes.length = (F.signal sid).aliases.length
  distinct : ((allPairs F).map Prod.fst).Nodup

theorem mem_allPairs {e : String × String} :
    e ∈ allPairs F ↔ ∃ sid, e ∈ (F.signal sid).aliasPairs := by
  simp [allPairs, File.allSids]

theorem DistinctPaths.mem_aliases (table : DistinctPaths F) {sid : F.Sid} {p : String} :
    p ∈ (F.signal sid).aliases ↔ ∃ scope, (p, scope) ∈ (F.signal sid).aliasPairs := by
  have paths : (F.signal sid).aliasPairs.map Prod.fst = (F.signal sid).aliases :=
    List.map_fst_zip (table.aligned sid).ge
  rw [← paths, List.mem_map]
  simp

theorem DistinctPaths.scope_eq (table : DistinctPaths F) {p scope scope' : String}
    (here : (p, scope) ∈ allPairs F) (there : (p, scope') ∈ allPairs F) : scope = scope' := by
  have := List.inj_on_of_nodup_map table.distinct here there rfl
  exact congrArg Prod.snd this

/-- Without a path twice, a path belongs to one signal. -/
theorem sid_eq_of_nodup (paths : ((allPairs F).map Prod.fst).Nodup) {p scope scope' : String}
    {s s' : F.Sid} (here : (p, scope) ∈ (F.signal s).aliasPairs)
    (there : (p, scope') ∈ (F.signal s').aliasPairs) : s = s' := by
  by_contra other
  rw [allPairs, List.map_flatMap, List.nodup_flatMap] at paths
  have symmetric : Std.Symm (Function.onFun List.Disjoint fun sid =>
      (F.signal sid).aliasPairs.map Prod.fst) := ⟨fun _ _ apart => apart.symm⟩
  have apart := paths.2.forall (List.mem_finRange s) (List.mem_finRange s') other
  exact apart (List.mem_map.mpr ⟨_, here, rfl⟩) (List.mem_map.mpr ⟨_, there, rfl⟩)

theorem DistinctPaths.sid_eq (table : DistinctPaths F) {p scope scope' : String} {s s' : F.Sid}
    (here : (p, scope) ∈ (F.signal s).aliasPairs) (there : (p, scope') ∈ (F.signal s').aliasPairs) :
    s = s' :=
  sid_eq_of_nodup table.distinct here there

theorem eq_singleton_iff {α : Type} {l : List α} {a : α} (nodup : l.Nodup) :
    l = [a] ↔ ∀ x, x ∈ l ↔ x = a := by
  rw [← List.perm_singleton, List.perm_ext_iff_of_nodup nodup (List.nodup_singleton a)]
  simp only [List.mem_singleton]

theorem sidsWhere_eq_singleton {pred : SignalInfo → Bool} {s : F.Sid} :
    sidsWhere F pred = [s] ↔ ∀ sid, pred (F.signal sid) = true ↔ sid = s := by
  have nodup : (sidsWhere F pred).Nodup := (List.nodup_finRange _).filter _
  rw [eq_singleton_iff nodup]
  simp [sidsWhere, File.allSids]

theorem mem_sortDedupPairs {l : List (String × String)} {e : String × String} :
    e ∈ sortDedupPairs l ↔ e ∈ l := by
  rw [sortDedupPairs, List.mem_dedup, mem_sortByKey]

theorem sortDedupPairs_eq_singleton {l : List (String × String)} {e : String × String} :
    sortDedupPairs l = [e] ↔ ∀ x, x ∈ l ↔ x = e := by
  have nodup : (sortDedupPairs l).Nodup := List.nodup_dedup _
  rw [eq_singleton_iff nodup]
  exact forall_congr' fun x => iff_congr mem_sortDedupPairs .rfl

/-! ## The name of a condition -/

theorem resolveOneSignal_eq_ok {sel : Selection} {pattern role : String} {mode : MatchMode}
    {s : F.Sid} :
    resolveOneSignal host F sel pattern role mode = .ok s ↔
      exactSids host F (Str.trim pattern) = [s] ∨
        exactSids host F (Str.trim pattern) = [] ∧
          matchingSids host F sel (Str.trim pattern) mode = .ok [s] := by
  rw [resolveOneSignal]
  cases exact : exactSids host F (Str.trim pattern) with
  | nil =>
    simp only [List.nil_eq, reduceCtorEq, false_or, true_and]
    rw [bind_eq_ok]
    constructor
    · rintro ⟨matched, read, picked⟩
      cases matched with
      | nil => cases picked
      | cons sid rest =>
        cases rest with
        | nil =>
          cases picked
          exact read
        | cons sid' rest => cases picked
    · intro read
      exact ⟨[s], read, rfl⟩
  | cons sid rest =>
    cases rest with
    | nil => simp
    | cons sid' rest => simp

theorem matchingSids_eq_ok {sel : Selection} {pat : String} {mode : MatchMode} {sids : List F.Sid} :
    matchingSids host F sel pat mode = .ok sids ↔
      ∃ filters, Filters.parseMode host [pat] mode = .ok filters ∧
        sidsWhere F (fun info => sel.keepsSignalMatching host info filters) = sids := by
  rw [matchingSids, bind_eq_ok]
  refine exists_congr fun filters => and_congr_right fun _ => ?_
  simp [pure, Except.pure]

/-- A path without wildcards finds its signal when no other signal has a path spelled alike, a path
with wildcards when it singles out its signal within the selection. -/
theorem resolveOneSignal_path (table : DistinctPaths F) {s : F.Sid} {p scope role : String}
    {sel : Selection} {mode : MatchMode} (own : (p, scope) ∈ (F.signal s).aliasPairs)
    (trimmed : Str.trim p = p) :
    resolveOneSignal host F sel p role mode = .ok s ↔
      if Str.containsChar isWildcard p then
        ∃ filters, Filters.parseMode host [p] mode = .ok filters ∧
          ∀ sid, sel.keepsSignalMatching host (F.signal sid) filters = true ↔ sid = s
      else ∀ sid, (∃ q ∈ (F.signal sid).aliases, host.toLowercase q = host.toLowercase p) ↔ sid = s := by
  rw [resolveOneSignal_eq_ok, trimmed, exactSids]
  split
  · simp only [reduceCtorEq, false_or, true_and, matchingSids_eq_ok, sidsWhere_eq_singleton,
      List.nil_eq]
  · have some : sidsWhere F (fun info => info.hasExactPathCi host (host.toLowercase p)) ≠ [] := by
      apply List.ne_nil_of_mem (a := s)
      simp only [sidsWhere, File.allSids, List.mem_filter, List.mem_finRange, true_and,
        SignalInfo.hasExactPathCi, List.any_eq_true, beq_iff_eq]
      exact ⟨p, table.mem_aliases.mpr ⟨scope, own⟩, rfl⟩
    rw [or_iff_left fun fallback => some fallback.1, sidsWhere_eq_singleton]
    simp only [SignalInfo.hasExactPathCi, List.any_eq_true, beq_iff_eq]

/-! ## The name of a signal to trace -/

/-- `to_lowercase` neither makes a separator nor takes one away. -/
def KeepsSeparators (host : Host) : Prop :=
  ∀ s, Str.containsChar isSeparator (host.toLowercase s) = Str.containsChar isSeparator s

theorem containsChar_collapseStars (s : String) :
    Str.containsChar isSeparator (collapseStars s) = Str.containsChar isSeparator s := by
  have loop (prevStar : Bool) (l : List Char) :
      (collapseFrom prevStar l).any isSeparator = l.any isSeparator := by
    fun_induction collapseFrom prevStar l with
    | case1 => rfl
    | case2 cs ih => rw [ih, List.any_cons]; rfl
    | case3 prevStar cs first ih => rw [List.any_cons, List.any_cons, ih]
    | case4 prevStar c cs other ih => rw [List.any_cons, List.any_cons, ih]
  rw [Str.containsChar, collapseStars, String.toList_ofList, loop]
  rfl

/-- A path without a separator is its own leaf. -/
theorem leafOf_of_plain {path scope : String} (plain : Str.containsChar isSeparator path = false) :
    leafOf path scope = path := by
  apply leafOf_uncut
  intro here
  obtain ⟨before, sep, after, cut, -, separator⟩ := here.cut
  rw [Str.containsChar, List.any_eq_false] at plain
  exact plain sep (by simp [cut]) separator

/-- The alias paths spelled like `p` but for case. -/
def alikePairs (host : Host) (F : File) (p : String) : List (String × String) :=
  (allPairs F).filter fun (path, _) => host.toLowercase path == host.toLowercase p

/-- The alias paths that match a filter. -/
def matchingPairs (host : Host) (F : File) (filters : Filters) : List (String × String) :=
  (allPairs F).filter fun (path, scope) => filters.matchesPathLeaf host path (leafOf path scope)

theorem resolveSignalPath_eq_ok {pattern role : String} {e : String × String} :
    resolveSignalPath host F pattern role = .ok e ↔
      sortDedupPairs (alikePairs host F (Str.trim pattern)) = [e] ∨
        (∀ e', sortDedupPairs (alikePairs host F (Str.trim pattern)) ≠ [e']) ∧
          ∃ filters, Filters.parse host [Str.trim pattern] = .ok filters ∧
            sortDedupPairs (matchingPairs host F filters) = [e] := by
  rw [resolveSignalPath]
  dsimp only
  split
  · rename_i hit only
    have single : sortDedupPairs (alikePairs host F (Str.trim pattern)) = [hit] := only
    rw [single]
    constructor
    · rintro ⟨⟩
      exact .inl rfl
    · rintro (same | ⟨several, -⟩)
      · cases same
        rfl
      · exact absurd rfl (several hit)
  · rename_i several
    have notSingle : ∀ e', sortDedupPairs (alikePairs host F (Str.trim pattern)) ≠ [e'] := several
    rw [or_iff_right (notSingle e), and_iff_right notSingle, bind_eq_ok]
    refine exists_congr fun filters => and_congr ?_ ?_
    · cases Filters.parse host [Str.trim pattern] <;> simp [Except.mapError]
    · split
      next none =>
        have hits : sortDedupPairs (matchingPairs host F filters) = [] := none
        rw [hits]
        exact iff_of_false (fun picked => by cases picked) (by simp)
      next hit only =>
        have hits : sortDedupPairs (matchingPairs host F filters) = [hit] := only
        rw [hits]
        simp [pure, Except.pure]
      next several =>
        exact iff_of_false (fun picked => by cases picked) fun only => several e only

/-- The one pattern of a name, unless the name is empty. -/
theorem pats_of_parseMode {p : String} {mode : MatchMode} {filters : Filters}
    (parsed : Filters.parseMode host [p] mode = .ok filters) (trimmed : Str.trim p = p) :
    filters.pats = [] ∨ ∃ pat, parsePat host mode p = .ok pat ∧ filters.pats = [pat] := by
  obtain ⟨pats, each, new⟩ := bind_eq_ok.mp parsed
  cases new
  rw [List.map_singleton, trimmed] at each
  cases empty : Str.isEmpty p with
  | true =>
    rw [List.filter_cons_of_neg (by simp [empty])] at each
    cases each
    exact .inl rfl
  | false =>
    rw [List.filter_cons_of_pos (by simp [empty]), List.filter_nil, List.mapM_cons] at each
    obtain ⟨pat, read, rest⟩ := bind_eq_ok.mp each
    cases rest
    exact .inr ⟨pat, read, rfl⟩

theorem domain_of_parsePat (separators : KeepsSeparators host) {p : String} {mode : MatchMode}
    {pat : Pat} (read : parsePat host mode p = .ok pat) (hier : Str.containsChar isSeparator p) :
    pat.domain = .path := by
  rw [parsePat] at read
  split at read
  · cases read
  · dsimp only at read
    split at read
    · cases read
    · cases read
      exact if_pos (by rw [separators, containsChar_collapseStars, hier])

/-- Paths spelled alike match a filter both or neither: only a leaf could tell them apart, and a
path without a separator is its own leaf. -/
theorem matchesPathLeaf_alike (separators : KeepsSeparators host) {p q scope scope' : String}
    {mode : MatchMode} {filters : Filters} (parsed : Filters.parseMode host [p] mode = .ok filters)
    (trimmed : Str.trim p = p) (alike : host.toLowercase q = host.toLowercase p) :
    filters.matchesPathLeaf host q (leafOf q scope') =
      filters.matchesPathLeaf host p (leafOf p scope) := by
  rw [Filters.matchesPathLeaf, Filters.matchesPathLeaf, alike]
  cases hier : Str.containsChar isSeparator p with
  | false =>
    have hier' : Str.containsChar isSeparator q = false := by
      rw [← separators, alike, separators, hier]
    rw [leafOf_of_plain hier, leafOf_of_plain hier', alike]
  | true =>
    rw [Filters.matchesLower, Filters.matchesLower]
    rcases pats_of_parseMode parsed trimmed with none | ⟨pat, read, only⟩
    · rw [none]
      rfl
    · rw [only, List.any_cons, List.any_cons, Pat.matches, Pat.matches,
        domain_of_parsePat separators read hier]
      rfl

/-- A path is returned with its scope just when no other path is spelled alike. -/
theorem resolveSignalPath_path (table : DistinctPaths F) (separators : KeepsSeparators host)
    {p scope role : String} (here : (p, scope) ∈ allPairs F) (trimmed : Str.trim p = p) :
    resolveSignalPath host F p role = .ok (p, scope) ↔
      ∀ e ∈ allPairs F, host.toLowercase e.1 = host.toLowercase p → e.1 = p := by
  have single : sortDedupPairs (alikePairs host F p) = [(p, scope)] ↔
      ∀ e ∈ allPairs F, host.toLowercase e.1 = host.toLowercase p → e.1 = p := by
    rw [sortDedupPairs_eq_singleton]
    simp only [alikePairs, List.mem_filter, beq_iff_eq]
    constructor
    · intro only e member alike
      exact congrArg Prod.fst ((only e).mp ⟨member, alike⟩)
    · intro alone e
      constructor
      · rintro ⟨member, alike⟩
        obtain ⟨q, scope'⟩ := e
        obtain rfl : q = p := alone _ member alike
        rw [table.scope_eq member here]
      · rintro rfl
        exact ⟨here, rfl⟩
  rw [resolveSignalPath_eq_ok, trimmed, ← single, or_iff_left_iff_imp]
  rintro ⟨several, filters, parsed, only⟩
  rw [single]
  intro e member alike
  rw [sortDedupPairs_eq_singleton] at only
  have matched := (only (p, scope)).mpr rfl
  simp only [matchingPairs, List.mem_filter] at matched only
  have : e = (p, scope) := (only e).mp ⟨member, by
    rw [matchesPathLeaf_alike separators parsed trimmed alike]
    exact matched.2⟩
  exact congrArg Prod.fst this

/-- A path of the table names its own signal to both resolvers just when no other path is spelled
alike and, if it holds a wildcard, it is a pattern that singles out its signal within the
selection. -/
theorem fullPath_resolves_iff (table : DistinctPaths F) (separators : KeepsSeparators host)
    {s : F.Sid} {p scope role role' : String} {sel : Selection} {mode : MatchMode}
    (own : (p, scope) ∈ (F.signal s).aliasPairs) (trimmed : Str.trim p = p) :
    (resolveOneSignal host F sel p role mode = .ok s ∧
        resolveSignalPath host F p role' = .ok (p, scope)) ↔
      (∀ sid, ∀ q ∈ (F.signal sid).aliases, host.toLowercase q = host.toLowercase p → q = p) ∧
        (Str.containsChar isWildcard p → ∃ filters, Filters.parseMode host [p] mode = .ok filters ∧
          ∀ sid, sel.keepsSignalMatching host (F.signal sid) filters = true ↔ sid = s) := by
  have alone : (∀ e ∈ allPairs F, host.toLowercase e.1 = host.toLowercase p → e.1 = p) ↔
      ∀ sid, ∀ q ∈ (F.signal sid).aliases, host.toLowercase q = host.toLowercase p → q = p := by
    simp only [mem_allPairs, table.mem_aliases, Prod.forall, forall_exists_index]
    exact ⟨fun h sid q scope' own' => h q scope' sid own', fun h q scope' sid own' => h sid q scope' own'⟩
  rw [resolveOneSignal_path table own trimmed,
    resolveSignalPath_path table separators (mem_allPairs.mpr ⟨s, own⟩) trimmed, alone, and_comm]
  refine and_congr_right fun unique => ?_
  split
  · rename_i wild
    simp only [wild, true_imp_iff]
  · rename_i plain
    refine iff_of_true (fun sid => ?_) (absurd · plain)
    constructor
    · rintro ⟨q, member, alike⟩
      obtain rfl := unique sid q member alike
      obtain ⟨scope', own'⟩ := table.mem_aliases.mp member
      exact table.sid_eq own' own
    · rintro rfl
      exact ⟨p, table.mem_aliases.mpr ⟨scope, own⟩, rfl⟩

/-! ## A file whose names are alike -/

theorem keepsSeparators_mock : KeepsSeparators MockBackend.host := by
  intro s
  have lower (c : Char) : isSeparator c.toLower = isSeparator c := by
    by_cases upper : c.isUpper = true
    · have small : c.toNat < 128 := by
        simp only [Char.isUpper, decide_eq_true_eq, UInt32.le_iff_toNat_le] at upper
        exact Nat.lt_of_le_of_lt upper.2 (by decide)
      exact Str.ascii_induction (p := fun c => isSeparator c.toLower = isSeparator c)
        (by decide) small
    · rw [Char.toLower_eq_of_not_isUpper upper]
  change (String.ofList (s.toList.map Char.toLower)).toList.any isSeparator = s.toList.any isSeparator
  rw [String.toList_ofList, List.any_map]
  exact congrArg (s.toList.any ·) (funext lower)

/-- The first two signals differ in case, and the third has a wildcard in its name. -/
def alikeFile : File :=
  let signal (path : String) (i : Nat) : SignalInfo :=
    { path, aliases := [path], width := 1, typeStr := "wire", kind := .bits, aliasScopes := ["top"]
      declOrder := i, backendSid := i }
  { MockBackend.file ⟨[], false, false⟩ with
    signals := [signal "top.req" 0, signal "top.REQ" 1, signal "top.d*" 2, signal "top.dat" 3] }

theorem alikeFile_distinct : DistinctPaths alikeFile := ⟨by decide, by decide⟩

/-- A name no other is spelled like finds its signal, also outside the selection. -/
theorem fullPath_resolves_dat :
    resolveOneSignal MockBackend.host alikeFile ⟨none, none, none, some ⟨[⟨.leaf, .substr "dat"⟩]⟩⟩
        "top.dat" "condition signal" .substring = .ok ⟨3, by decide⟩ ∧
      resolveSignalPath MockBackend.host alikeFile "top.dat" "--of" = .ok ("top.dat", "top") :=
  (fullPath_resolves_iff alikeFile_distinct keepsSeparators_mock (by decide)
    (by decide)).mpr ⟨by decide, fun wild => absurd wild (by decide)⟩

/-- A name with a sibling in another case is called ambiguous, and so is one with a wildcard. -/
theorem fullPath_ambiguous :
    DistinctPaths alikeFile ∧
    ("top.req", "top") ∈ (alikeFile.signal ⟨0, by decide⟩).aliasPairs ∧
    Str.trim "top.req" = "top.req" ∧
    resolveOneSignal MockBackend.host alikeFile ⟨none, none, none, none⟩ "top.req" "condition signal"
        .substring =
      .error ("condition signal pattern 'top.req' exactly matches 2 signals; use list to choose a " ++
        "more specific name, examples: top.REQ, top.req") ∧
    resolveSignalPath MockBackend.host alikeFile "top.req" "--of" =
      .error ("--of 'top.req' matches 2 signals; give the full hierarchical path. Examples: " ++
        "top.REQ, top.req") ∧
    resolveOneSignal MockBackend.host alikeFile ⟨none, none, none, none⟩ "top.d*" "condition signal"
        .substring =
      .error ("condition signal pattern 'top.d*' matches 2 signals; narrow it with --scope or " ++
        "--exclude, or give the full hierarchical path, examples: top.d*, top.dat") := by
  refine ⟨alikeFile_distinct, by decide, by decide, by decide,
    by decide +kernel, by decide +kernel⟩

end RWave.Commands
