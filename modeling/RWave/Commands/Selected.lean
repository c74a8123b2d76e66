import RWave.Select.Gates
import RWave.Commands.Info

/-!
# What a selection selects

`match_selection`, the rows of `list`, `matched_alias` and the gates on the alias paths go over the
signal table each on its own. They select the same signals.
-/

namespace RWave.Commands

open RWave.Cli RWave.Model RWave.Filter RWave.Select

variable {F : File} {host : Host} {sel : Selection}

/-- An alias path of the signal clears every gate. -/
def Kept (host : Host) (sel : Selection) (F : File) (sid : F.Sid) : Prop :=
  ∃ p ∈ (F.signal sid).aliasPairs, sel.keepsAlias host p.1 p.2 = true

theorem keepsAlias_of_isAll (all : sel.isAll = true) (path scope : String) :
    sel.keepsAlias host path scope = true := by
  obtain ⟨sc, d, inc, exc⟩ := sel
  simp only [Selection.isAll, Bool.and_eq_true, Option.isNone_iff_eq_none] at all
  obtain ⟨⟨⟨rfl, rfl⟩, rfl⟩, rfl⟩ := all
  simp [Selection.keepsAlias, Selection.structuralOk]

theorem displaysAlias_of_keepsAlias {path scope : String}
    (kept : sel.keepsAlias host path scope = true) :
    sel.displaysAlias host path scope = true := by
  rw [sel.keepsAlias_eq, Bool.and_eq_true, Bool.and_eq_true] at kept
  rw [sel.displaysAlias_eq, Bool.and_eq_true]
  exact ⟨kept.1.1, kept.2⟩

theorem keepsSignal_iff {sid : F.Sid} :
    sel.keepsSignal host (F.signal sid) = true ↔ Kept host sel F sid := by
  rw [Selection.keepsSignal, List.any_eq_true]
  rfl

/-- Without an option every signal is kept. -/
theorem kept_of_isAll {sid : F.Sid} (named : (F.signal sid).aliasPairs ≠ [])
    (all : sel.isAll = true) : Kept host sel F sid := by
  obtain ⟨p, member⟩ := List.exists_mem_of_ne_nil _ named
  exact ⟨p, member, keepsAlias_of_isAll all p.1 p.2⟩

theorem mem_matchSelection {sid : F.Sid} (named : (F.signal sid).aliasPairs ≠ []) :
    sid ∈ F.selected (matchSelection host F sel) ↔ Kept host sel F sid := by
  rw [matchSelection]
  split
  next all =>
    have kept : Kept host sel F sid := kept_of_isAll named all
    simp [File.selected, File.allSids, kept]
  next => simp [File.selected, sidsWhere, File.allSids, keepsSignal_iff]

theorem isSome_matchedAlias {sid : F.Sid} :
    (sel.matchedAlias host (F.signal sid)).isSome = true ↔ Kept host sel F sid := by
  rw [Selection.matchedAlias, Option.isSome_map, List.find?_isSome]
  rfl

/-- A row of a signal is one of its aliases that the selection does not hide. -/
theorem mem_signalEntries {sid : F.Sid} {e : ListEntry} (member : e ∈ signalEntries host sel sid) :
    e.sid = sid ∧ ∃ scope, (e.path, scope) ∈ (F.signal sid).aliasPairs ∧
      sel.displaysAlias host e.path scope = true := by
  rw [signalEntries] at member
  dsimp only at member
  split at member
  next => cases member
  next =>
    obtain ⟨p, shown, rfl⟩ := List.mem_map.mp member
    obtain ⟨own, visible⟩ := List.mem_filter.mp shown
    refine ⟨rfl, p.2, own, ?_⟩
    cases Bool.or_eq_true_iff.mp visible with
    | inl all => exact displaysAlias_of_keepsAlias (keepsAlias_of_isAll all p.1 p.2)
    | inr displayed => exact displayed

/-- A signal has a row if it is kept, the kept path at least. -/
theorem signalEntries_ne_nil {sid : F.Sid} (named : (F.signal sid).aliasPairs ≠ []) :
    signalEntries host sel sid ≠ [] ↔ Kept host sel F sid := by
  rw [signalEntries]
  dsimp only
  split
  next hidden =>
    rw [Bool.and_eq_true, Bool.not_eq_true', Bool.not_eq_true'] at hidden
    rw [← keepsSignal_iff, hidden.2]
    simp
  next visible =>
    have kept : Kept host sel F sid := by
      cases all : sel.isAll with
      | true => exact kept_of_isAll named all
      | false =>
        rw [all] at visible
        rw [← keepsSignal_iff]
        simpa using visible
    obtain ⟨p, member, clear⟩ := kept
    refine ⟨fun _ => ⟨p, member, clear⟩, fun _ => ?_⟩
    apply List.ne_nil_of_mem
    refine List.mem_map.mpr ⟨p, List.mem_filter.mpr ⟨member, ?_⟩, rfl⟩
    rw [displaysAlias_of_keepsAlias clear, Bool.or_true]

/-- The rows of `list` are those of the signals. -/
theorem listEntries_eq {args : Args} (parsed : selectionOf host args = .ok sel) :
    ∃ entries shown trunc selective,
      listEntries host F args = .ok (entries, shown, trunc, selective) ∧
        ∀ e, e ∈ entries ↔ ∃ sid, e ∈ signalEntries (F := F) host sel sid := by
  rw [listEntries, parsed]
  refine ⟨_, _, _, _, rfl, ?_⟩
  intro e
  simp [Misc.mem_sortByKey, File.allSids]

/-- The commands select the same signals: an alias path is kept if each option alone keeps it, a
list of patterns keeps or drops what its items do, as long as no level of a path is taken for another
modulo `2 ^ 32`, and the selected signals, those with a row, those with a matched alias and those
with a kept alias are the same. -/
theorem selections_agree {args : Args} (parsed : selectionOf host args = .ok sel)
    (named : ∀ sid, (F.signal sid).aliasPairs ≠ []) :
    ∃ byScope byFilter byExclude,
      Selection.parseMode host args.scope args.depth none none (matchMode args) = .ok byScope ∧
      Selection.parseMode host none none args.filter none (matchMode args) = .ok byFilter ∧
      Selection.parseMode host none none none args.exclude (matchMode args) = .ok byExclude ∧
      (∀ path scope, sel.keepsAlias host path scope =
        (byScope.keepsAlias host path scope && byFilter.keepsAlias host path scope &&
          byExclude.keepsAlias host path scope)) ∧
      (∀ raw, args.filter = some raw → (∃ item ∈ listItems raw, Filled item) → ∀ path scope,
        (byFilter.keepsAlias host path scope = true ↔ ∃ item ∈ listItems raw, Filled item ∧
          ∃ s, Selection.parseMode host none none (some item) none (matchMode args) = .ok s ∧
            s.keepsAlias host path scope = true)) ∧
      (∀ raw, args.exclude = some raw → ∀ path scope,
        (byExclude.keepsAlias host path scope = false ↔ ∃ item ∈ listItems raw, Filled item ∧
          ∃ s, Selection.parseMode host none none none (some item) (matchMode args) = .ok s ∧
            s.keepsAlias host path scope = false)) ∧
      (∀ raw, args.scope = some raw → (∃ item ∈ listItems raw, NamesScope item) →
        ∀ path scope,
        ((byScope.keepsAlias host path scope = true ↔ ∃ item ∈ listItems raw, NamesScope item ∧
            ∃ s, Selection.parseMode host (some item) args.depth none none (matchMode args) = .ok s ∧
              s.keepsAlias host path scope = true) ↔
          UnionUnwrapped host (scopeValues raw) (levels args.depth) scope) ∧
        ((segments scope).length < 2 ^ 32 →
          UnionUnwrapped host (scopeValues raw) (levels args.depth) scope)) ∧
      ∃ entries shown trunc selective,
        listEntries host F args = .ok (entries, shown, trunc, selective) ∧
        (∀ e ∈ entries, ∃ sid : F.Sid, ∃ scope, e.sid = sid ∧
          (e.path, scope) ∈ (F.signal sid).aliasPairs ∧
          byScope.keepsAlias host e.path scope = true ∧
          byExclude.keepsAlias host e.path scope = true) ∧
        ∀ sid,
          (sid ∈ F.selected (matchSelection host F sel) ↔ Kept host sel F sid) ∧
          ((∃ e ∈ entries, e.sid = sid) ↔ Kept host sel F sid) ∧
          ((sel.matchedAlias host (F.signal sid)).isSome = true ↔ Kept host sel F sid) := by
  obtain ⟨scopeParsed, filterParsed, excludeParsed⟩ := Selection.parseMode_parts parsed
  refine ⟨_, _, _, scopeParsed, filterParsed, excludeParsed, sel.keepsAlias_eq host, ?_, ?_, ?_, ?_⟩
  · intro raw given filled
    rw [given] at filterParsed
    exact Selection.filter_union filterParsed filled
  · intro raw given
    rw [given] at excludeParsed
    exact Selection.exclude_union excludeParsed
  · intro raw given filled path scope
    rw [given] at scopeParsed
    exact ⟨Selection.scope_union_iff scopeParsed filled path scope, unionUnwrapped_of_short _ _⟩
  · obtain ⟨entries, shown, trunc, selective, listed, rows⟩ := listEntries_eq (F := F) parsed
    refine ⟨entries, shown, trunc, selective, listed, ?_, ?_⟩
    · intro e member
      obtain ⟨sid, own⟩ := (rows e).mp member
      obtain ⟨id, scope, declared, displayed⟩ := mem_signalEntries own
      rw [sel.displaysAlias_eq, Bool.and_eq_true] at displayed
      exact ⟨sid, scope, id, declared, displayed⟩
    · intro sid
      refine ⟨mem_matchSelection (named sid), ?_, isSome_matchedAlias⟩
      rw [← signalEntries_ne_nil (named sid)]
      constructor
      · intro ⟨e, member, id⟩
        obtain ⟨sid', own⟩ := (rows e).mp member
        obtain rfl : sid' = sid := Fin.ext ((mem_signalEntries own).1.symm.trans id)
        exact List.ne_nil_of_mem own
      · intro nonempty
        obtain ⟨e, own⟩ := List.exists_mem_of_ne_nil _ nonempty
        exact ⟨e, (rows e).mpr ⟨sid, own⟩, (mem_signalEntries own).1⟩

/-- One net under two names, and a second net. -/
def syncFile : File :=
  let signal (aliases scopes : List String) (i : Nat) : SignalInfo :=
    { path := aliases.headD "", aliases, width := 1, typeStr := "wire", kind := .bits
      aliasScopes := scopes, declOrder := i, backendSid := i }
  { MockBackend.file ⟨[], false, false⟩ with
    signals := [signal ["top.status", "top.u_sync.d_p"] ["top", "top.u_sync"] 0,
      signal ["top.u_dma.q"] ["top.u_dma"] 1] }

/-- `list FILE --scope top,u_dma --depth 1 --exclude *_sync*.*`. -/
def listArgs : Args :=
  { command := .list, file := "sync.vcd", json := false, limit := none, verbose := false
    beginAt := none, endAt := none, scope := some "top,u_dma", depth := some 1, filter := none
    exclude := some "*_sync*.*", exact := false, at_ := none, condition := [], show_ := none
    target := none, load := false, control := false, kdb := none, top := none, of_ := none }

theorem selections_agree_sync :
    ∃ sel entries shown trunc selective,
      selectionOf MockBackend.host listArgs = .ok sel ∧
      listEntries MockBackend.host syncFile listArgs = .ok (entries, shown, trunc, selective) ∧
      ∀ sid : syncFile.Sid, (∃ e ∈ entries, e.sid = sid) ↔ Kept MockBackend.host sel syncFile sid := by
  obtain ⟨_, _, _, _, _, _, _, _, _, _, entries, shown, trunc, selective, listed, _, same⟩ :=
    @selections_agree syncFile MockBackend.host
      { scope := some [.instanceName (.lit "top"), .instanceName (.lit "u_dma")]
        depth := some 1
        included := none
        excluded := some ⟨[⟨.path, .glob [.star, .lit "_sync", .star, .lit ".", .star]⟩]⟩ }
      listArgs (by decide) (by decide)
  exact ⟨_, entries, shown, trunc, selective, by decide, listed, fun sid => (same sid).2.1⟩

/-! ## A path too deep for a list -/

/-- `--scope top,top.a --depth 1`. -/
def topBelow : Selection :=
  { topScope with
    scope := some [.instanceName (.lit "top"), .suffix [.lit "top", .lit "a"]] }

theorem topBelow_compiled : Compiled MockBackend.host ["top", "top.a"] (some 1) topBelow :=
  ⟨⟨_, rfl, List.Forall₂.cons (by decide) (List.Forall₂.cons (by decide) List.Forall₂.nil)⟩, rfl⟩

theorem names_top_a (scope : List String) :
    Names MockBackend.host "top.a" scope ↔ ∃ above, scope = above ++ ["top", "a"] := by
  rw [names_iff, show scopeSegments MockBackend.host "top.a" = ["top", "a"] by decide]
  have top (seg : String) : Misc.Fits (globItems "top") seg.toList ↔ seg = "top" := by
    rw [← globMatch_iff, globMatch_plain seg (by decide)]
  have below (seg : String) : Misc.Fits (globItems "a") seg.toList ↔ seg = "a" := by
    rw [← globMatch_iff, globMatch_plain seg (by decide)]
  constructor
  · intro ⟨above, named, cut, matched⟩
    cases matched with
    | cons first rest =>
      cases rest with
      | cons second rest =>
        cases rest
        exact ⟨above, by rw [cut, (top _).mp first, (below _).mp second]⟩
  · intro ⟨above, cut⟩
    exact ⟨above, _, cut, List.Forall₂.cons ((top _).mpr rfl)
      (List.Forall₂.cons ((below _).mpr rfl) List.Forall₂.nil)⟩

theorem deepest_topBelow (m : Nat) :
    Deepest MockBackend.host ["top", "top.a"] (scopeSegments MockBackend.host (deepPath (m + 1)))
      2 := by
  rw [scopeSegments_deepPath]
  constructor
  · refine ⟨by decide, by simp, "top.a", by simp, (names_top_a _).mpr ⟨[], ?_⟩⟩
    rw [List.replicate_succ]
    rfl
  · intro j deeper hit
    obtain ⟨positive, within, value, member, named⟩ := hit
    obtain ⟨i, rfl⟩ : ∃ i, j = i + 3 := ⟨j - 3, by omega⟩
    have fits : min (i + 2) (m + 1) = i + 2 := by
      simp only [List.length_cons, List.length_replicate] at within
      omega
    rw [List.take_succ_cons, List.take_replicate, fits] at named
    have ends : ("top" :: List.replicate (i + 2) "a") =
        ("top" :: List.replicate i "a") ++ ["a", "a"] := by
      rw [List.replicate_add]
      rfl
    rw [ends] at named
    rcases List.mem_pair.mp member with rfl | rfl
    · obtain ⟨above, cut⟩ := (names_top _).mp named
      rw [show ["a", "a"] = ["a"] ++ ["a"] from rfl, ← List.append_assoc] at cut
      have last := (List.append_inj' cut rfl).2
      simp at last
    · obtain ⟨above, cut⟩ := (names_top_a _).mp named
      have last := (List.append_inj' cut rfl).2
      simp at last

/-- At `2 ^ 32` levels `top` keeps a path that `top` and `top.a` together drop. -/
theorem scopeList_drops :
    ∃ both one,
      Selection.parseMode MockBackend.host (some "top,top.a") (some 1) none none .substring =
        .ok both ∧
      "top" ∈ listItems "top,top.a" ∧ NamesScope "top" ∧
      Selection.parseMode MockBackend.host (some "top") (some 1) none none .substring = .ok one ∧
      one.keepsAlias MockBackend.host (deepPath (2 ^ 32 - 1) ++ ".q") (deepPath (2 ^ 32 - 1)) =
        true ∧
      both.keepsAlias MockBackend.host (deepPath (2 ^ 32 - 1) ++ ".q") (deepPath (2 ^ 32 - 1)) =
        false := by
  have count := length_deepPath (2 ^ 32 - 1)
  refine ⟨topBelow, topScope, by decide, by decide, by decide, by decide, ?_, ?_⟩
  · have passed : topScope.structuralOk MockBackend.host (deepPath (2 ^ 32 - 1)) = true := by
      refine (topScope_compiled.structuralOk_iff _).mpr ⟨1, deepest_deepPath _, ?_⟩
      intro n member
      obtain rfl := Option.some.inj member
      rw [count]
      norm_num
    rw [Selection.keepsAlias, passed]
    rfl
  · have dropped : topBelow.structuralOk MockBackend.host (deepPath (2 ^ 32 - 1)) = false := by
      rw [← Bool.not_eq_true, topBelow_compiled.structuralOk_iff]
      rintro ⟨k, deepest, low⟩
      have level := low 1 rfl
      have second := deepest_topBelow (2 ^ 32 - 2)
      rw [show 2 ^ 32 - 2 + 1 = 2 ^ 32 - 1 by norm_num] at second
      rw [deepest.unique second, count] at level
      norm_num at level
    rw [Selection.keepsAlias, dropped]
    rfl

end RWave.Commands
