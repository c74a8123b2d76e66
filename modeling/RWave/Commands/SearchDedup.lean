import RWave.Commands.SearchCommand
import RWave.Condition.Key
import RWave.Misc.Outcome

/-!
# Repeated conditions

`search` drops the terms of a clause that repeat a key, and then the clauses that do. A key says all
that a term asks of a state, so no answer changes; and what a search works on depends on the terms
of its clauses as sets, so neither does it on their order.
-/

namespace RWave.Commands

open RWave.Backend RWave.Model RWave.Misc RWave.Format RWave.Select RWave.Cli RWave.Condition

variable {F : File}

/-! ## The first of each key -/

section DedupFirst

variable {α κ : Type} [DecidableEq κ] {key : α → κ}

theorem foldl_first (l kept : List α) :
    let kept' := l.foldl (fun kept a =>
      if (kept.map key).contains (key a) then kept else kept ++ [a]) kept
    (∀ a ∈ kept', a ∈ kept ∨ a ∈ l) ∧ ∀ a, a ∈ kept ∨ a ∈ l → ∃ b ∈ kept', key b = key a := by
  induction l generalizing kept with
  | nil => exact ⟨fun a member => .inl member, fun a member => ⟨a, by simpa using member, rfl⟩⟩
  | cons x rest ih =>
    rw [List.foldl_cons]
    by_cases seen : (kept.map key).contains (key x)
    · rw [if_pos seen]
      obtain ⟨only, all⟩ := ih kept
      refine ⟨fun a member => (only a member).imp_right (List.mem_cons_of_mem _), ?_⟩
      rintro a (old | new)
      · exact all a (.inl old)
      · rcases List.mem_cons.mp new with rfl | later
        · obtain ⟨b, old, same⟩ := List.mem_map.mp (List.contains_iff_mem.mp seen)
          obtain ⟨b', member, same'⟩ := all b (.inl old)
          exact ⟨b', member, same'.trans same⟩
        · exact all a (.inr later)
    · rw [if_neg seen]
      obtain ⟨only, all⟩ := ih (kept ++ [x])
      constructor
      · intro a member
        rcases only a member with old | later
        · rcases List.mem_append.mp old with old | here
          · exact .inl old
          · exact .inr (List.mem_singleton.mp here ▸ List.mem_cons_self)
        · exact .inr (List.mem_cons_of_mem _ later)
      · rintro a (old | new)
        · exact all a (.inl (List.mem_append_left _ old))
        · rcases List.mem_cons.mp new with rfl | later
          · exact all a (.inl (List.mem_append_right _ (List.mem_singleton_self _)))
          · exact all a (.inr later)

theorem mem_of_mem_dedupFirst {l : List α} {a : α} (member : a ∈ dedupFirst key l) : a ∈ l := by
  simpa using (foldl_first l []).1 a member

/-- Every key keeps one of its elements. -/
theorem exists_mem_dedupFirst {l : List α} {a : α} (member : a ∈ l) :
    ∃ b ∈ dedupFirst key l, key b = key a := (foldl_first l []).2 a (.inr member)

end DedupFirst

/-! ## What a key says -/

/-- A term bound to its signal, as `resolve_conditions` makes it. -/
def ResolvedCond.Bound (host : Host) (c : ResolvedCond F) : Prop :=
  match c.term with
  | .level _ target width kind _ =>
    width = (F.signal c.sid).width ∧ kind = (F.signal c.sid).kind ∧
      ∃ text, parseTargetValue host text = .ok target
  | .changed => True

theorem asStr_injective : Function.Injective Op.asStr := by
  intro a b same
  cases a <;> cases b <;> first | rfl | exact absurd same (by decide)

theorem asStr_ne_changed (op : Op) : op.asStr ≠ "changed" := by
  cases op <;> decide

/-- Two terms with one key ask the same of every state. -/
theorem termHolds_of_key {host : Host} {c c' : ResolvedCond F} (bound : c.Bound host)
    (bound' : c'.Bound host) (same : termKey c = termKey c') (state : State F)
    (changed : Finset F.Sid) : termHolds state changed c = termHolds state changed c' := by
  obtain ⟨sid, term, original, path⟩ := c
  obtain ⟨sid', term', original', path'⟩ := c'
  cases term with
  | changed =>
    cases term' with
    | changed =>
      obtain rfl : sid = sid' := congrArg (fun k => (ofLex k).1) same
      rfl
    | level op =>
      exact absurd (congrArg (fun k => (ofLex (ofLex k).2).1) same).symm (asStr_ne_changed op)
  | level op target width kind =>
    cases term' with
    | changed => exact absurd (congrArg (fun k => (ofLex (ofLex k).2).1) same) (asStr_ne_changed op)
    | level op' target' width' kind' =>
      obtain rfl : sid = sid' := congrArg (fun k => (ofLex k).1) same
      simp only [ResolvedCond.Bound] at bound bound'
      obtain ⟨rfl, rfl, text, parsed⟩ := bound
      obtain ⟨rfl, rfl, text', parsed'⟩ := bound'
      obtain rfl : op = op' := asStr_injective (congrArg (fun k => (ofLex (ofLex k).2).1) same)
      obtain rfl : target = target' :=
        dedupKey_inj parsed parsed' (congrArg (fun k => (ofLex (ofLex k).2).2) same)
      rfl

/-- The key of a term names its signal. -/
theorem sid_of_key {c c' : ResolvedCond F} (same : termKey c = termKey c') : c.sid = c'.sid := by
  have signal (c : ResolvedCond F) : (ofLex (termKey c)).1 = c.sid := by
    rw [termKey]
    cases c.term <;> rfl
  rw [← signal c, ← signal c', same]

/-- The key of a term tells `changed()` from a comparison. -/
theorem isChanged_of_key {c c' : ResolvedCond F} (same : termKey c = termKey c') :
    c.isChanged = c'.isChanged := by
  have slot (c : ResolvedCond F) :
      c.isChanged = decide ((ofLex (ofLex (termKey c)).2).1 = "changed") := by
    obtain ⟨sid, term, original, path⟩ := c
    cases term with
    | changed => rfl
    | level op => exact (decide_eq_false (asStr_ne_changed op)).symm
  rw [slot c, slot c', same]

/-! ## Clauses as sets of keys -/

/-- The keys of the terms of a clause. -/
def termKeys (clause : List (ResolvedCond F)) : Set (F.Sid ×ₗ String ×ₗ String) :=
  {k | ∃ c ∈ clause, termKey c = k}

/-- The sets of keys of the clauses. -/
def keySets (clauses : List (List (ResolvedCond F))) : Set (Set (F.Sid ×ₗ String ×ₗ String)) :=
  {k | ∃ clause ∈ clauses, termKeys clause = k}

theorem termKeys_dedup (clause : List (ResolvedCond F)) :
    termKeys (dedupFirst termKey clause) = termKeys clause := by
  ext k
  constructor
  · rintro ⟨c, member, rfl⟩
    exact ⟨c, mem_of_mem_dedupFirst member, rfl⟩
  · rintro ⟨c, member, rfl⟩
    exact exists_mem_dedupFirst member

/-- Sorting the keys of a clause forgets no key. -/
theorem termKeys_of_clauseKey {clause clause' : List (ResolvedCond F)}
    (same : clauseKey clause = clauseKey clause') : termKeys clause = termKeys clause' := by
  have sorted (clause : List (ResolvedCond F)) (k) :
      k ∈ clauseKey clause ↔ k ∈ termKeys clause := by
    rw [clauseKey, mem_sortByKey, List.mem_map]
    rfl
  ext k
  rw [← sorted, ← sorted, same]

theorem keySets_map_dedup (clauses : List (List (ResolvedCond F))) :
    keySets (clauses.map (dedupFirst termKey)) = keySets clauses := by
  ext k
  simp only [keySets, Set.mem_ofPred_eq, List.mem_map, exists_exists_and_eq_and, termKeys_dedup]

theorem keySets_dedup (clauses : List (List (ResolvedCond F))) :
    keySets (dedupFirst clauseKey clauses) = keySets clauses := by
  ext k
  constructor
  · rintro ⟨clause, member, rfl⟩
    exact ⟨clause, mem_of_mem_dedupFirst member, rfl⟩
  · rintro ⟨clause, member, rfl⟩
    obtain ⟨clause', kept, same⟩ := @exists_mem_dedupFirst _ _ _ clauseKey _ _ member
    exact ⟨clause', kept, termKeys_of_clauseKey same⟩

/-- What the keys decide of one clause, they decide of the other. -/
theorem exists_of_termKeys {clause clause' : List (ResolvedCond F)}
    (same : termKeys clause = termKeys clause') {c : ResolvedCond F} (member : c ∈ clause) :
    ∃ c' ∈ clause', termKey c' = termKey c := by
  have here : termKey c ∈ termKeys clause := ⟨c, member, rfl⟩
  rwa [same] at here

theorem exists_of_keySets {clauses clauses' : List (List (ResolvedCond F))}
    (same : keySets clauses = keySets clauses') {clause : List (ResolvedCond F)}
    (member : clause ∈ clauses) : ∃ clause' ∈ clauses', termKeys clause' = termKeys clause := by
  have here : termKeys clause ∈ keySets clauses := ⟨clause, member, rfl⟩
  rwa [same] at here

/-! ## What the keys decide -/

/-- Every term of every clause is bound to its signal. -/
def AllBound (host : Host) (clauses : List (List (ResolvedCond F))) : Prop :=
  ∀ clause ∈ clauses, ∀ c ∈ clause, c.Bound host

theorem AllBound.dedup {host : Host} {clauses : List (List (ResolvedCond F))}
    (bound : AllBound host clauses) : AllBound host (dedupFirst clauseKey clauses) :=
  fun clause member => bound clause (mem_of_mem_dedupFirst member)

theorem AllBound.map_dedup {host : Host} {clauses : List (List (ResolvedCond F))}
    (bound : AllBound host clauses) : AllBound host (clauses.map (dedupFirst termKey)) := by
  intro clause member c inClause
  obtain ⟨full, inFull, rfl⟩ := List.mem_map.mp member
  exact bound full inFull c (mem_of_mem_dedupFirst inClause)

theorem conditionsHold_of_termKeys {host : Host} {clause clause' : List (ResolvedCond F)}
    (bound : ∀ c ∈ clause, c.Bound host) (bound' : ∀ c ∈ clause', c.Bound host)
    (same : termKeys clause = termKeys clause') {state : State F} {changed : Finset F.Sid}
    (holds : conditionsHold state changed clause) : conditionsHold state changed clause' := by
  rw [conditionsHold, List.all_eq_true] at holds ⊢
  intro c' member'
  obtain ⟨c, member, key⟩ := exists_of_termKeys same.symm member'
  rw [← termHolds_of_key (bound c member) (bound' c' member') key]
  exact holds c member

/-- Clauses with one family of key sets hold in the same states. -/
theorem anyClauseHolds_of_keySets {host : Host} {clauses clauses' : List (List (ResolvedCond F))}
    (bound : AllBound host clauses) (bound' : AllBound host clauses')
    (same : keySets clauses = keySets clauses') (state : State F) (changed : Finset F.Sid) :
    anyClauseHolds state changed clauses = anyClauseHolds state changed clauses' := by
  have half {clauses clauses' : List (List (ResolvedCond F))} (bound : AllBound host clauses)
      (bound' : AllBound host clauses') (same : keySets clauses = keySets clauses')
      (holds : anyClauseHolds state changed clauses) : anyClauseHolds state changed clauses' := by
    obtain ⟨clause, member, holds⟩ := List.any_eq_true.mp holds
    obtain ⟨clause', member', key⟩ := exists_of_keySets same member
    exact List.any_eq_true.mpr ⟨clause', member',
      conditionsHold_of_termKeys (bound clause member) (bound' clause' member') key.symm holds⟩
  rw [Bool.eq_iff_iff]
  exact ⟨half bound bound' same, half bound' bound same.symm⟩

/-- A clause with a `changed()` term has it by its keys. -/
theorem anyChanged_of_termKeys {clause clause' : List (ResolvedCond F)}
    (same : termKeys clause = termKeys clause') :
    clause.any ResolvedCond.isChanged = clause'.any ResolvedCond.isChanged := by
  have half {clause clause' : List (ResolvedCond F)} (same : termKeys clause = termKeys clause')
      (some : clause.any ResolvedCond.isChanged) : clause'.any ResolvedCond.isChanged := by
    obtain ⟨c, member, changed⟩ := List.any_eq_true.mp some
    obtain ⟨c', member', key⟩ := exists_of_termKeys same member
    exact List.any_eq_true.mpr ⟨c', member', (isChanged_of_key key).trans changed⟩
  rw [Bool.eq_iff_iff]
  exact ⟨half same, half same.symm⟩

/-- The terms of the clauses, by their keys. -/
theorem exists_flatten_of_keySets {clauses clauses' : List (List (ResolvedCond F))}
    (same : keySets clauses = keySets clauses') {c : ResolvedCond F}
    (member : c ∈ clauses.flatten) : ∃ c' ∈ clauses'.flatten, termKey c' = termKey c := by
  obtain ⟨clause, inside, here⟩ := List.mem_flatten.mp member
  obtain ⟨clause', inside', key⟩ := exists_of_keySets same inside
  obtain ⟨c', here', key⟩ := exists_of_termKeys key.symm here
  exact ⟨c', List.mem_flatten_of_mem inside' here', key⟩

end RWave.Commands
