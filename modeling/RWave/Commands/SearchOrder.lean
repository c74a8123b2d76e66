import RWave.Cli.Inherit
import RWave.Commands.SearchDedup
import RWave.Select.Gates

/-!
# The order of conditions

Two `search` commands whose `--condition` texts have the same terms, in any order and any number of
times, resolve to setups that differ in labels only, and collect the same rows.
-/

namespace RWave.Commands

open RWave.Backend RWave.Model RWave.Misc RWave.Format RWave.Filter RWave.Select RWave.Cli
  RWave.Condition

variable {F : File}

/-! ## Setups that ask the same -/

/-- Two setups that differ in how their clauses are written, at most. -/
structure SearchSetup.Alike (s s' : SearchSetup F) : Prop where
  answers : ∀ state changed,
    anyClauseHolds state changed s.clauses = anyClauseHolds state changed s'.clauses
  showSids : s.showSids = s'.showSids
  changedSids : s.changedSids = s'.changedSids
  selRef : s.selRef = s'.selRef
  t0 : s.t0 = s'.t0
  t1 : s.t1 = s'.t1
  limit : s.limit = s'.limit
  verbose : s.verbose = s'.verbose
  ts : s.ts = s'.ts

namespace SearchSetup.Alike

variable {s s' : SearchSetup F} (alike : s.Alike s')
include alike

theorem stream (host : Host) (w : Wave F) (H : BinaryHeap (HeapEntry.key (F := F))) :
    searchStream host w H s = searchStream host w H s' := by
  simp only [searchStream, alike.t1, alike.selRef]

theorem processGroup (state : State F) (group : List (F.Sid × String)) (gt : Int) :
    Commands.processGroup s state group gt = Commands.processGroup s' state group gt := by
  simp only [Commands.processGroup, alike.answers]

theorem fired (host : Host) (state : State F) (gt : Int) :
    Commands.fired host s state gt = Commands.fired host s' state gt := by
  simp only [Commands.fired, alike.ts, alike.showSids, alike.verbose]

theorem eventGroup (host : Host) (c : EventCollector F) (gt : Int) :
    Commands.eventGroup host s c gt = Commands.eventGroup host s' c gt := by
  rw [Commands.eventGroup, Commands.eventGroup, alike.processGroup, alike.limit]
  simp only [alike.fired]

theorem eventLoop (host : Host) (stream : List (Int × F.Sid × String)) (c : EventCollector F) :
    Commands.eventLoop host s c stream = Commands.eventLoop host s' c stream := by
  induction stream generalizing c with
  | nil => rfl
  | cons x rest ih => simp only [Commands.eventLoop, alike.t0, ih, alike.eventGroup]

theorem eventCollect (host : Host) (w : Wave F) (H : BinaryHeap (HeapEntry.key (F := F))) :
    searchEventCollect host w H s = searchEventCollect host w H s' := by
  simp only [searchEventCollect, eventFinish, alike.stream, alike.eventLoop, alike.eventGroup]

theorem hasShow : s.hasShow = s'.hasShow := by simp only [SearchSetup.hasShow, alike.showSids]

theorem initCheck (c : IntervalCollector F) : Commands.initCheck s c = Commands.initCheck s' c := by
  simp only [Commands.initCheck, alike.answers, alike.t0, alike.hasShow, alike.showSids,
    alike.verbose]

theorem closed (c : IntervalCollector F) (ct : Int) :
    appendResult s c (openRow s c ct) = appendResult s' c (openRow s' c ct) := by
  simp only [appendResult, openRow, alike.limit, alike.hasShow]

theorem intervalGroup (last : Bool) (c : IntervalCollector F) (ct : Int) :
    Commands.intervalGroup s last c ct = Commands.intervalGroup s' last c ct := by
  simp only [Commands.intervalGroup, alike.answers, alike.hasShow, alike.closed, alike.showSids,
    alike.verbose]

theorem intervalLoop (stream : List (Int × F.Sid × String)) (c : IntervalCollector F) :
    Commands.intervalLoop s c stream = Commands.intervalLoop s' c stream := by
  induction stream generalizing c with
  | nil => rfl
  | cons x rest ih =>
    simp only [Commands.intervalLoop, alike.t0, ih, alike.intervalGroup, alike.initCheck]

theorem intervalFinish (c : IntervalCollector F) :
    Commands.intervalFinish s c = Commands.intervalFinish s' c := by
  simp only [Commands.intervalFinish, alike.intervalGroup, alike.initCheck, alike.closed, alike.t0,
    alike.t1]

theorem intervalCollect (host : Host) (w : Wave F) (H : BinaryHeap (HeapEntry.key (F := F))) :
    searchIntervalCollect host w H s = searchIntervalCollect host w H s' := by
  simp only [searchIntervalCollect, alike.stream, alike.intervalLoop, alike.intervalFinish]

end SearchSetup.Alike

/-- A setup under the labels of another. -/
def SearchSetup.labelled (s other : SearchSetup F) : SearchSetup F :=
  { s with condLabel := other.condLabel, condText := other.condText }

namespace SearchSetup.Alike

variable {s s' : SearchSetup F} (alike : s.Alike s')
include alike

theorem labelled : s.Alike (s'.labelled s) where
  answers := alike.answers
  showSids := alike.showSids
  changedSids := alike.changedSids
  selRef := alike.selRef
  t0 := alike.t0
  t1 := alike.t1
  limit := alike.limit
  verbose := alike.verbose
  ts := alike.ts

theorem searchJson (host : Host) (mode : String) (changed : List F.Sid) (rows : List Json)
    (total : Nat) (truncated : Bool) :
    Commands.searchJson host s mode changed rows total truncated =
      Commands.searchJson host (s'.labelled s) mode changed rows total truncated := by
  have showSids : s.showSids = (s'.labelled s).showSids := alike.showSids
  have t0 : s.t0 = (s'.labelled s).t0 := alike.t0
  have t1 : s.t1 = (s'.labelled s).t1 := alike.t1
  have ts : s.ts = (s'.labelled s).ts := alike.ts
  have label : s.condLabel = (s'.labelled s).condLabel := rfl
  have text : s.condText = (s'.labelled s).condText := rfl
  unfold Commands.searchJson noMatchReason
  rw [showSids, t0, t1, ts, label, text]

/-- But for the labels, one report is the other. -/
theorem searchCollect (env : Env F) (w : Wave F) :
    Commands.searchCollect env s w = Commands.searchCollect env (s'.labelled s) w := by
  have same := alike.labelled
  simp only [Commands.searchCollect, same.changedSids, same.eventCollect, same.intervalCollect,
    searchEventJson, searchIntervalJson, alike.searchJson, same.hasShow, same.ts, same.verbose]

theorem searchLines (env : Env F) (w : Wave F) :
    Commands.searchLines env s w = Commands.searchLines env (s'.labelled s) w := by
  have same := alike.labelled
  have text : s.condText = (s'.labelled s).condText := rfl
  simp only [Commands.searchLines, same.changedSids, same.eventCollect, same.intervalCollect,
    searchEventText, searchIntervalText, noneFound, same.hasShow, same.t0, same.t1, same.ts, text]

end SearchSetup.Alike

/-! ## The terms of a text -/

/-- The terms of a condition text. -/
def termTexts (text : String) : List String :=
  ((Str.split (· == ',') text).map Str.trim).filter (· ≠ "")

/-- Two texts with the same terms, in any order and any number of times. -/
def SameTerms (text text' : String) : Prop := ∀ t, t ∈ termTexts text ↔ t ∈ termTexts text'

/-- A blank text is all white space, so it has no comma and no term. -/
theorem termTexts_of_blank {text : String} (blank : Str.trim text = "") : termTexts text = [] := by
  have space := isWhitespace_of_blank (s := text) (by simp [Str.isEmpty, blank])
  have whole : Str.split (· == ',') text = [text] := by
    rw [Str.split, List.splitOnP_eq_singleton, List.map_singleton, String.ofList_toList]
    intro c member
    rw [beq_eq_false_iff_ne]
    rintro rfl
    cases space _ member
  rw [termTexts, whole, List.map_singleton, blank]
  rfl

/-- The terms are read one by one; a text without any is refused. -/
theorem parseConditions_eq_ok {host : Host} {text : String} {parsed : List ParsedCondition} :
    parseConditions host text = .ok parsed ↔
      termTexts text ≠ [] ∧ (termTexts text).mapM (parseItem host) = .ok parsed := by
  rw [parseConditions]
  split
  · rename_i blank
    simp [termTexts_of_blank blank]
  · change (do
      let out ← (termTexts text).mapM (parseItem host)
      if out.isEmpty then .error "search requires at least one condition" else return out) =
        Except.ok parsed ↔ _
    rw [bind_eq_ok]
    constructor
    · rintro ⟨out, each, found⟩
      split at found
      · cases found
      · rename_i nonempty
        cases found
        refine ⟨fun none => nonempty ?_, each⟩
        rw [none] at each
        cases each
        rfl
    · rintro ⟨some, each⟩
      refine ⟨parsed, each, if_neg fun none => some ?_⟩
      have length := (mapM_eq_ok.mp each).length_eq
      rwa [List.isEmpty_iff.mp none, List.length_nil, List.length_eq_zero_iff] at length

/-! ## Resolving the terms -/

/-- `resolve_conditions` before repeated terms are dropped. -/
def resolveTerms (host : Host) (F : File) (sel : Selection) (mode : MatchMode) (text : String) :
    Except String (List (ResolvedCond F)) := do
  let parsed ← parseConditions host text
  parsed.mapM (resolveCondition host F sel mode)

variable {host : Host} {sel : Selection} {mode : MatchMode}

theorem resolveConditions_eq_ok {text : String} {clause : List (ResolvedCond F)} :
    resolveConditions host F sel mode text = .ok clause ↔
      ∃ full, resolveTerms host F sel mode text = .ok full ∧ dedupFirst termKey full = clause := by
  simp only [resolveConditions, resolveTerms, bind_eq_ok]
  constructor
  · rintro ⟨parsed, read, full, each, found⟩
    exact ⟨full, ⟨parsed, read, each⟩, Except.ok.inj found⟩
  · rintro ⟨full, ⟨parsed, read, each⟩, rfl⟩
    exact ⟨parsed, read, full, each, rfl⟩

theorem resolveTerms_eq_ok {text : String} {full : List (ResolvedCond F)} :
    resolveTerms host F sel mode text = .ok full ↔
      termTexts text ≠ [] ∧
        (termTexts text).mapM (fun t => parseItem host t >>= resolveCondition host F sel mode) =
          .ok full := by
  simp only [resolveTerms, bind_eq_ok, parseConditions_eq_ok, ← mapM_mapM_eq_ok]
  constructor
  · rintro ⟨parsed, ⟨some, read⟩, each⟩
    exact ⟨some, parsed, read, each⟩
  · rintro ⟨some, parsed, read, each⟩
    exact ⟨parsed, ⟨some, read⟩, each⟩

theorem parseChangedTerm_changed {item : String} {c : ParsedCondition}
    (parsed : parseChangedTerm item = .ok (some c)) : c.term = .changed := by
  rw [parseChangedTerm] at parsed
  split at parsed
  · cases parsed
  dsimp only at parsed
  split at parsed
  · split at parsed
    · cases parsed
    · rw [← Option.some.inj (Except.ok.inj parsed)]
  · split at parsed <;> cases parsed

/-- The target of a comparison comes from the parser of targets. -/
theorem parseItem_target {item : String} {c : ParsedCondition} {op : Op} {target : Target}
    {valueText : String} (parsed : parseItem host item = .ok c)
    (level : c.term = .level op target valueText) :
    ∃ text, parseTargetValue host text = .ok target := by
  obtain ⟨changed, changedTerm, rest⟩ := bind_eq_ok.mp parsed
  cases changed with
  | some c' =>
    cases rest
    rw [parseChangedTerm_changed changedTerm] at level
    cases level
  | none =>
    dsimp only at rest
    split at rest
    · cases rest
    · rename_i sig op' val _
      split at rest
      · cases rest
      · obtain ⟨target', read, made⟩ := bind_eq_ok.mp rest
        cases made
        cases level
        exact ⟨_, read⟩

/-- Resolving a term binds it to its signal. -/
theorem resolveCondition_bound {item : String} {c : ParsedCondition} {r : ResolvedCond F}
    (parsed : parseItem host item = .ok c)
    (resolved : resolveCondition host F sel mode c = .ok r) : r.Bound host := by
  obtain ⟨sid, -, rest⟩ := bind_eq_ok.mp resolved
  split at rest
  · rename_i op target valueText level
    dsimp only at rest
    split at rest
    · cases rest
    · cases rest
      exact ⟨rfl, rfl, parseItem_target parsed level⟩
  · cases rest
    trivial

theorem resolveTerms_bound {text : String} {full : List (ResolvedCond F)}
    (resolved : resolveTerms host F sel mode text = .ok full) : ∀ c ∈ full, c.Bound host := by
  intro r member
  obtain ⟨-, each⟩ := resolveTerms_eq_ok.mp resolved
  obtain ⟨t, -, r', done, rfl⟩ := (exists_mem_of_mapM each (· = r)).mp ⟨r, member, rfl⟩
  obtain ⟨c, parsed, resolved⟩ := bind_eq_ok.mp done
  exact resolveCondition_bound parsed resolved

/-- Texts with the same terms resolve together, to terms with the same keys. -/
theorem resolveTerms_same {text text' : String} (same : SameTerms text text')
    {full : List (ResolvedCond F)} (resolved : resolveTerms host F sel mode text = .ok full) :
    ∃ full', resolveTerms host F sel mode text' = .ok full' ∧ termKeys full' = termKeys full := by
  obtain ⟨some, each⟩ := resolveTerms_eq_ok.mp resolved
  have some' : termTexts text' ≠ [] := by
    intro none
    obtain ⟨t, member⟩ := List.exists_mem_of_ne_nil _ some
    rw [same, none] at member
    cases member
  have resolves (t : String) (member : t ∈ termTexts text') :
      ∃ r, (parseItem host t >>= resolveCondition host F sel mode) = .ok r :=
    (ok_of_mem_of_mapM each ((same t).mpr member)).imp fun r found => found.2
  obtain ⟨full', each'⟩ := exists_mapM_eq_ok resolves
  refine ⟨full', resolveTerms_eq_ok.mpr ⟨some', each'⟩, ?_⟩
  ext k
  exact (exists_mem_of_mapM each' _).trans
    ((exists_congr fun t => and_congr_left' (same t).symm).trans (exists_mem_of_mapM each _).symm)

theorem resolveConditions_same {text text' : String} (same : SameTerms text text')
    {clause : List (ResolvedCond F)}
    (resolved : resolveConditions host F sel mode text = .ok clause) :
    ∃ clause', resolveConditions host F sel mode text' = .ok clause' ∧
      termKeys clause' = termKeys clause := by
  obtain ⟨full, terms, rfl⟩ := resolveConditions_eq_ok.mp resolved
  obtain ⟨full', terms', keys⟩ := resolveTerms_same same terms
  refine ⟨_, resolveConditions_eq_ok.mpr ⟨full', terms', rfl⟩, ?_⟩
  rw [termKeys_dedup, termKeys_dedup, keys]

/-! ## Resolving the texts -/

/-- Conditions with the same clauses, in any order and any number of times. -/
def SameConditions (texts texts' : List String) : Prop :=
  (∀ text ∈ texts, ∃ text' ∈ texts', SameTerms text text') ∧
    ∀ text' ∈ texts', ∃ text ∈ texts, SameTerms text text'

theorem mapM_resolveConditions {texts : List String} {full : List (List (ResolvedCond F))}
    (resolved : texts.mapM (resolveTerms host F sel mode) = .ok full) :
    texts.mapM (resolveConditions host F sel mode) = .ok (full.map (dedupFirst termKey)) := by
  rw [mapM_eq_ok] at resolved ⊢
  rw [List.forall₂_map_right_iff]
  exact resolved.imp fun _ _ terms => resolveConditions_eq_ok.mpr ⟨_, terms, rfl⟩

theorem resolveTerms_allBound {texts : List String} {full : List (List (ResolvedCond F))}
    (resolved : texts.mapM (resolveTerms host F sel mode) = .ok full) : AllBound host full := by
  intro clause member
  obtain ⟨text, -, clause', terms, rfl⟩ :=
    (exists_mem_of_mapM resolved (· = clause)).mp ⟨clause, member, rfl⟩
  exact resolveTerms_bound terms

theorem resolveConditions_allBound {texts : List String} {clauses : List (List (ResolvedCond F))}
    (resolved : texts.mapM (resolveConditions host F sel mode) = .ok clauses) :
    AllBound host clauses := by
  intro clause member
  obtain ⟨text, -, clause', found, rfl⟩ :=
    (exists_mem_of_mapM resolved (· = clause)).mp ⟨clause, member, rfl⟩
  obtain ⟨full, terms, rfl⟩ := resolveConditions_eq_ok.mp found
  exact fun c inClause => resolveTerms_bound terms c (mem_of_mem_dedupFirst inClause)

/-- The same conditions resolve together, to clauses with the same sets of keys. -/
theorem mapM_same {texts texts' : List String} (same : SameConditions texts texts')
    {clauses : List (List (ResolvedCond F))}
    (resolved : texts.mapM (resolveConditions host F sel mode) = .ok clauses) :
    ∃ clauses', texts'.mapM (resolveConditions host F sel mode) = .ok clauses' ∧
      keySets clauses' = keySets clauses := by
  have resolves : ∀ text' ∈ texts', ∃ clause, resolveConditions host F sel mode text' = .ok clause := by
    intro text' member'
    obtain ⟨text, member, terms⟩ := same.2 text' member'
    obtain ⟨clause, -, found⟩ := ok_of_mem_of_mapM resolved member
    exact (resolveConditions_same terms found).imp fun _ found' => found'.1
  obtain ⟨clauses', resolved'⟩ := exists_mapM_eq_ok resolves
  refine ⟨clauses', resolved', ?_⟩
  ext k
  refine (exists_mem_of_mapM resolved' _).trans (Iff.trans ?_ (exists_mem_of_mapM resolved _).symm)
  constructor
  · rintro ⟨text', member', clause', found', rfl⟩
    obtain ⟨text, member, terms⟩ := same.2 text' member'
    obtain ⟨clause, found, keys⟩ := resolveConditions_same (fun t => (terms t).symm) found'
    exact ⟨text, member, clause, found, keys⟩
  · rintro ⟨text, member, clause, found, rfl⟩
    obtain ⟨text', member', terms⟩ := same.1 text member
    obtain ⟨clause', found', keys⟩ := resolveConditions_same terms found
    exact ⟨text', member', clause', found', keys⟩

/-! ## Resolving the setup -/

/-- Some clause has a `changed()` term and some has none. -/
def Mixed (clauses : List (List (ResolvedCond F))) : Prop :=
  ∃ clause ∈ clauses, ∃ clause' ∈ clauses,
    clause.any ResolvedCond.isChanged ∧ ¬ clause'.any ResolvedCond.isChanged

theorem mixed_iff {clauses : List (List (ResolvedCond F))} :
    (0 < clauses.countP (fun clause => clause.any ResolvedCond.isChanged) ∧
      clauses.countP (fun clause => clause.any ResolvedCond.isChanged) < clauses.length) ↔
      Mixed clauses := by
  rw [List.countP_pos_iff, List.countP_lt_length_iff]
  constructor
  · rintro ⟨⟨clause, member, some⟩, clause', member', none⟩
    exact ⟨clause, member, clause', member', some, by simpa using none⟩
  · rintro ⟨clause, member, clause', member', some, none⟩
    exact ⟨⟨clause, member, some⟩, clause', member', by simpa using none⟩

theorem mixed_of_keySets {clauses clauses' : List (List (ResolvedCond F))}
    (same : keySets clauses = keySets clauses') (mixed : Mixed clauses) : Mixed clauses' := by
  obtain ⟨some, inside, none, inside', changed, level⟩ := mixed
  obtain ⟨some', member, keys⟩ := exists_of_keySets same inside
  obtain ⟨none', member', keys'⟩ := exists_of_keySets same inside'
  refine ⟨some', member, none', member', ?_, ?_⟩
  · rwa [anyChanged_of_termKeys keys]
  · rwa [anyChanged_of_termKeys keys']

theorem searchClauses_eq_ok {args : Args} {clauses : List (List (ResolvedCond F))} :
    searchClauses host F sel mode args = .ok clauses ↔
      ∃ found, args.condition.mapM (resolveConditions host F sel mode) = .ok found ∧
        dedupFirst clauseKey found = clauses ∧ ¬ Mixed clauses := by
  rw [searchClauses, bind_eq_ok]
  refine exists_congr fun found => and_congr_right fun _ => ?_
  dsimp only
  split
  · rename_i mixed
    constructor
    · intro thrown
      cases thrown
    · rintro ⟨rfl, apart⟩
      exact absurd (mixed_iff.mp mixed) apart
  · rename_i apart
    constructor
    · intro kept
      cases kept
      exact ⟨rfl, fun mixed => apart (mixed_iff.mpr mixed)⟩
    · rintro ⟨rfl, -⟩
      rfl

/-- The same conditions give clauses with the same sets of keys. -/
theorem searchClauses_same {args : Args} {texts : List String}
    (same : SameConditions args.condition texts) {clauses : List (List (ResolvedCond F))}
    (found : searchClauses host F sel mode args = .ok clauses) :
    ∃ clauses', searchClauses host F sel mode { args with condition := texts } = .ok clauses' ∧
      keySets clauses' = keySets clauses := by
  obtain ⟨resolved, each, rfl, apart⟩ := searchClauses_eq_ok.mp found
  obtain ⟨resolved', each', keys⟩ := mapM_same same each
  have keys' : keySets (dedupFirst clauseKey resolved') =
      keySets (dedupFirst clauseKey resolved) := by
    rw [keySets_dedup, keySets_dedup, keys]
  exact ⟨_, searchClauses_eq_ok.mpr
    ⟨resolved', each', rfl, fun mixed => apart (mixed_of_keySets keys' mixed)⟩, keys'⟩

theorem searchClauses_allBound {args : Args} {clauses : List (List (ResolvedCond F))}
    (found : searchClauses host F sel mode args = .ok clauses) : AllBound host clauses := by
  obtain ⟨resolved, each, rfl, -⟩ := searchClauses_eq_ok.mp found
  exact (resolveConditions_allBound each).dedup

theorem ascending_congr {sids sids' : List F.Sid} (same : ∀ sid, sid ∈ sids ↔ sid ∈ sids') :
    ascending sids = ascending sids' := by
  rw [ascending, ascending]
  congr 1
  funext sid
  rw [Bool.eq_iff_iff, List.contains_iff_mem, List.contains_iff_mem, same]

/-- The signals of the terms that pass a test of their keys. -/
theorem mem_sids_of_keySets {clauses clauses' : List (List (ResolvedCond F))}
    (same : keySets clauses = keySets clauses') (p : ResolvedCond F → Bool)
    (key : ∀ c c', termKey c = termKey c' → p c = p c') (sid : F.Sid) :
    sid ∈ (clauses.flatten.filter p).map ResolvedCond.sid ↔
      sid ∈ (clauses'.flatten.filter p).map ResolvedCond.sid := by
  have half {clauses clauses' : List (List (ResolvedCond F))}
      (same : keySets clauses = keySets clauses')
      (member : sid ∈ (clauses.flatten.filter p).map ResolvedCond.sid) :
      sid ∈ (clauses'.flatten.filter p).map ResolvedCond.sid := by
    obtain ⟨c, inside, rfl⟩ := List.mem_map.mp member
    obtain ⟨inside, passes⟩ := List.mem_filter.mp inside
    obtain ⟨c', inside', keys⟩ := exists_flatten_of_keySets same inside
    exact List.mem_map.mpr
      ⟨c', List.mem_filter.mpr ⟨inside', (key c' c keys).trans passes⟩, sid_of_key keys⟩
  exact ⟨half same, half same.symm⟩

/-- The same conditions resolve together, to setups that ask the same. -/
theorem resolveSetup_same {args : Args} {texts : List String}
    (same : SameConditions args.condition texts) {s : SearchSetup F}
    (resolved : resolveSetup host F args = .ok s) :
    ∃ s', resolveSetup host F { args with condition := texts } = .ok s' ∧ s.Alike s' := by
  obtain ⟨⟨t0, t1⟩, window, rest⟩ := bind_eq_ok.mp resolved
  dsimp only at rest
  split at rest
  · cases rest
  rename_i some
  obtain ⟨sel, chosen, rest⟩ := bind_eq_ok.mp rest
  obtain ⟨clauses, found, rest⟩ := bind_eq_ok.mp rest
  obtain ⟨shown, named, rest⟩ := bind_eq_ok.mp rest
  cases rest
  obtain ⟨clauses', found', keys⟩ := searchClauses_same same found
  have some' : ¬ texts.isEmpty := by
    intro none
    obtain ⟨text, member⟩ :=
      List.exists_mem_of_ne_nil _ fun none => some (List.isEmpty_iff.mpr none)
    obtain ⟨text', member', -⟩ := same.1 text member
    rw [List.isEmpty_iff.mp none] at member'
    cases member'
  have changed : ascending ((clauses.flatten.filter ResolvedCond.isChanged).map ResolvedCond.sid) =
      ascending ((clauses'.flatten.filter ResolvedCond.isChanged).map ResolvedCond.sid) :=
    ascending_congr (mem_sids_of_keySets keys.symm _ fun _ _ => isChanged_of_key)
  have signals (shown : List F.Sid) : ascending (clauses.flatten.map ResolvedCond.sid ++ shown) =
      ascending (clauses'.flatten.map ResolvedCond.sid ++ shown) := by
    refine ascending_congr fun sid => ?_
    have all := mem_sids_of_keySets keys.symm (fun _ => true) (fun _ _ _ => rfl) sid
    rw [List.filter_true, List.filter_true] at all
    rw [List.mem_append, List.mem_append, all]
  refine ⟨_, bind_eq_ok.mpr ⟨(t0, t1), window, (if_neg some').trans <| bind_eq_ok.mpr ⟨sel, chosen,
    bind_eq_ok.mpr ⟨clauses', found', bind_eq_ok.mpr ⟨shown, named, rfl⟩⟩⟩⟩, ?_⟩
  constructor
  case answers =>
    exact anyClauseHolds_of_keySets (searchClauses_allBound found) (searchClauses_allBound found')
      keys.symm
  case changedSids => exact congrArg sortByPath changed
  case showSids => simp only [changed]
  case selRef => simp only [changed, signals]
  all_goals rfl

/-- De-duplication changes no answer. Two targets with one key match the same values; dropping the
repeated terms of the clauses, and then the repeated clauses, leaves what holds in every state; and
conditions with the same terms, in whatever order and however often, collect the same rows. -/
theorem dedup_answers (env : Env F) :
    (∀ text text' target target', parseTargetValue env.host text = .ok target →
      parseTargetValue env.host text' = .ok target' → target.dedupKey = target'.dedupKey →
        ∀ bits raw width,
          valueMatches bits raw target width = valueMatches bits raw target' width) ∧
    (∀ sel mode (texts : List String) (full : List (List (ResolvedCond F))),
      texts.mapM (resolveTerms env.host F sel mode) = .ok full → ∃ clauses,
        texts.mapM (resolveConditions env.host F sel mode) = .ok clauses ∧
        clauses = full.map (dedupFirst termKey) ∧
        ∀ state changed, anyClauseHolds state changed clauses = anyClauseHolds state changed full ∧
          anyClauseHolds state changed (dedupFirst clauseKey clauses) =
            anyClauseHolds state changed full) ∧
    ∀ args texts s, SameConditions args.condition texts → resolveSetup env.host F args = .ok s →
      ∃ s', resolveSetup env.host F { args with condition := texts } = .ok s' ∧
        s'.selRef = s.selRef ∧ ∀ w H,
          searchEventCollect env.host w H s' = searchEventCollect env.host w H s ∧
          searchIntervalCollect env.host w H s' = searchIntervalCollect env.host w H s ∧
          searchCollect env (s'.labelled s) w = searchCollect env s w ∧
          searchLines env (s'.labelled s) w = searchLines env s w := by
  refine ⟨?_, ?_, ?_⟩
  · intro text text' target target' parsed parsed' same bits raw width
    rw [dedupKey_inj parsed parsed' same]
  · intro sel mode texts full resolved
    have bound := resolveTerms_allBound resolved
    refine ⟨_, mapM_resolveConditions resolved, rfl, fun state changed => ⟨?_, ?_⟩⟩
    · exact anyClauseHolds_of_keySets bound.map_dedup bound (keySets_map_dedup full) state changed
    · exact anyClauseHolds_of_keySets bound.map_dedup.dedup bound
        ((keySets_dedup _).trans (keySets_map_dedup full)) state changed
  · intro args texts s same resolved
    obtain ⟨s', resolved', alike⟩ := resolveSetup_same same resolved
    exact ⟨s', resolved', alike.selRef.symm, fun w H =>
      ⟨(alike.eventCollect env.host w H).symm, (alike.intervalCollect env.host w H).symm,
        (alike.searchCollect env w).symm, (alike.searchLines env w).symm⟩⟩

end RWave.Commands
