import RWave.Backend.FoldChange
import RWave.Misc.Runs

/-!
# The net changes of a stream of emissions

What `fold_change` is for, said of the stream as a whole: the last value of each tick, without the
ticks whose net value is the one before. The fold finds it emission by emission, although a tick
may be dropped and come back before it is over.
-/

namespace RWave.Backend

open RWave.Misc

/-- The last value of every tick. -/
def SignalTrace.lastPerTick (stream : SignalTrace) : SignalTrace := lastOfRuns Change.tick stream

/-- The two changes differ in value. -/
def Differ (a b : Change) : Prop := valuesEqual a.value b.value = false

instance : DecidableRel Differ := fun _ _ => inferInstanceAs (Decidable (_ = false))

/-- The net changes: the last value of every tick, less the ticks whose net value equals the one
kept before. -/
def SignalTrace.netChanges (stream : SignalTrace) : SignalTrace :=
  stream.lastPerTick.destutter Differ

theorem differ_iff {a b : Change} : Differ a b ↔ a.value ≠ b.value := by
  rw [Differ, ← Bool.not_eq_true, valuesEqual_iff]

/-- After the changes of earlier ticks an emission is kept when it differs from the last of them. -/
theorem foldChange_earlier {kind : ValueKind} (level : kind ≠ .event) {tr : SignalTrace}
    {c : Change} (earlier : ∀ d ∈ tr, d.tick < c.tick) :
    foldChange kind tr c =
      match tr.getLast? with
      | some last => if Differ last c then tr ++ [c] else tr
      | none => [c] := by
  rw [foldChange, if_neg level]
  cases found : tr.getLast? with
  | none => rw [List.getLast?_eq_none_iff.mp found, List.nil_append]
  | some last =>
    have before : last.tick ≠ c.tick := (earlier last (List.mem_of_getLast? found)).ne
    dsimp only
    rw [if_neg before]
    by_cases redundant : last.value = c.value
    · simp [differ_iff, redundant]
    · simp [differ_iff, redundant]

/-- What its tick had so far does not matter to an emission. -/
theorem foldChange_overwrites {kind : ValueKind} (level : kind ≠ .event) {tr : SignalTrace}
    {c d : Change} (earlier : ∀ d ∈ tr, d.tick < c.tick) (same : d.tick = c.tick) :
    foldChange kind (tr ++ [d]) c = foldChange kind tr c := by
  have written : ({ d with value := c.value } : Change) = c := by cases c; cases same; rfl
  rw [foldChange_earlier level earlier, foldChange, if_neg level, List.getLast?_concat,
    List.dropLast_concat]
  dsimp only
  rw [if_pos same, written]
  cases found : tr.getLast? with
  | none => rw [List.getLast?_eq_none_iff.mp found, List.nil_append]
  | some last =>
    dsimp only
    by_cases redundant : last.value = c.value
    · simp [differ_iff, redundant]
    · simp [differ_iff, redundant, Ne.symm redundant]

/-- One more emission opens a tick or overwrites what the last tick has. -/
theorem lastPerTick_step {stream : SignalTrace} (strict : stream.lastPerTick.Strict)
    (ordered : stream.Ordered) {c : Change} (le : ∀ d ∈ stream, d.tick ≤ c.tick) :
    ∃ kept : SignalTrace, (∀ d ∈ kept, d.tick < c.tick) ∧
      SignalTrace.lastPerTick (stream ++ [c]) = kept ++ [c] ∧
      (stream.lastPerTick = kept ∨
        ∃ d : Change, d.tick = c.tick ∧ stream.lastPerTick = kept ++ [d]) := by
  rcases @lastOfRuns_concat _ _ _ Change.tick stream c with
    ⟨added, fresh⟩ | ⟨kept, d, eq, same, replaced⟩
  · refine ⟨stream.lastPerTick, ?_, added, .inl rfl⟩
    intro e member
    have inStream := (lastOfRuns_sublist stream).subset member
    obtain rfl | ⟨init, last, rfl⟩ := List.eq_nil_or_concat' stream
    · cases inStream
    have other : last.tick ≠ c.tick := fresh last List.getLast?_concat
    have lastLe : last.tick ≤ c.tick := le last (by simp)
    rcases List.mem_append.mp inStream with old | own
    · have := (List.pairwise_append.mp ordered).2.2 e old last (by simp)
      omega
    · obtain rfl := List.mem_singleton.mp own
      omega
  · refine ⟨kept, ?_, replaced, .inr ⟨d, same, eq⟩⟩
    intro e member
    rw [SignalTrace.lastPerTick, eq] at strict
    have := (List.pairwise_append.mp strict).2.2 e member d (by simp)
    omega

/-- The last values of the ticks of a stream in time order are in strict time order. -/
theorem lastPerTick_strict {stream : SignalTrace} (ordered : stream.Ordered) :
    stream.lastPerTick.Strict := by
  induction stream using SignalTrace.snocInduction with
  | nil => exact List.Pairwise.nil
  | snoc stream c ih =>
    obtain ⟨ordered, -, le⟩ := List.pairwise_append.mp ordered
    have strict := ih ordered
    obtain ⟨kept, earlier, eq, old⟩ :=
      lastPerTick_step strict ordered fun d member => le d member c (by simp)
    have keptStrict : kept.Strict := by
      rcases old with same | ⟨d, -, same⟩
      · rwa [same] at strict
      · rw [same] at strict
        exact (List.pairwise_append.mp strict).1
    rw [eq]
    refine List.pairwise_append.mpr ⟨keptStrict, List.pairwise_singleton _ c, ?_⟩
    intro d member e own
    obtain rfl := List.mem_singleton.mp own
    exact earlier d member

/-- The fold of a stream in time order is its net changes. -/
theorem foldStream_eq {kind : ValueKind} (level : kind ≠ .event) {stream : SignalTrace}
    (ordered : stream.Ordered) : foldStream kind stream = stream.netChanges := by
  induction stream using SignalTrace.snocInduction with
  | nil => rfl
  | snoc stream c ih =>
    obtain ⟨ordered, -, le⟩ := List.pairwise_append.mp ordered
    obtain ⟨kept, earlier, eq, old⟩ := lastPerTick_step (lastPerTick_strict ordered) ordered
      fun d member => le d member c (by simp)
    have keptEarlier : ∀ d ∈ kept.destutter Differ, d.tick < c.tick := fun d member =>
      earlier d ((List.destutter_sublist Differ kept).subset member)
    have folded : foldChange kind stream.netChanges c = foldChange kind (kept.destutter Differ) c := by
      rcases old with same | ⟨d, tick, same⟩
      · rw [SignalTrace.netChanges, same]
      · -- What the tick has so far was kept or dropped; either way the emission decides.
        have overwrites := foldChange_overwrites level keptEarlier tick
        rw [SignalTrace.netChanges, same, destutter_concat]
        cases found : (kept.destutter Differ).getLast? with
        | none => simpa [List.getLast?_eq_none_iff.mp found] using overwrites
        | some last =>
          dsimp only
          split
          next => exact overwrites
          next => rfl
    rw [foldStream, List.foldl_append, List.foldl_cons, List.foldl_nil, ← foldStream, ih ordered,
      folded, foldChange_earlier level keptEarlier, SignalTrace.netChanges, eq, destutter_concat]
    cases (kept.destutter Differ).getLast? with
    | none => rfl
    | some last => rfl

/-- Partial updates of a tick before an update of it leave the stream in time order. -/
theorem ordered_partials {before partials after : SignalTrace} {c : Change}
    (ordered : SignalTrace.Ordered (before ++ c :: after))
    (same : ∀ p ∈ partials, p.tick = c.tick) :
    SignalTrace.Ordered (before ++ (partials ++ c :: after)) := by
  obtain ⟨first, later, across⟩ := List.pairwise_append.mp ordered
  have fromTick : ∀ d ∈ c :: after, c.tick ≤ d.tick := by
    intro d member
    rcases List.mem_cons.mp member with rfl | member
    · exact le_rfl
    · exact (List.pairwise_cons.mp later).1 d member
  refine List.pairwise_append.mpr ⟨first, List.pairwise_append.mpr ⟨?_, later, ?_⟩, ?_⟩
  · refine List.pairwise_of_forall_mem_list ?_
    intro p hp q hq
    rw [same p hp, same q hq]
  · intro p hp d hd
    rw [same p hp]
    exact fromTick d hd
  · intro a ha d hd
    rcases List.mem_append.mp hd with hd | hd
    · rw [same d hd]
      exact across a ha c List.mem_cons_self
    · exact across a ha d hd

/-- `fold_change` computes the net changes of a stream in time order: one a tick, each another value
than the one before, however a tick's value was put together. Events are all kept. -/
theorem foldStream_netChanges :
    (∀ kind stream, kind ≠ .event → SignalTrace.Ordered stream →
      foldStream kind stream = stream.netChanges ∧
      (foldStream kind stream).times.Pairwise (· < ·) ∧
      (foldStream kind stream).IsChain Differ) ∧
    (∀ kind before partials c after, kind ≠ .event →
      SignalTrace.Ordered (before ++ c :: after) → (∀ p ∈ partials, p.tick = c.tick) →
      foldStream kind (before ++ (partials ++ c :: after)) = foldStream kind (before ++ c :: after)) ∧
    ∀ stream, foldStream .event stream = stream := by
  refine ⟨?_, ?_, foldStream_event⟩
  · intro kind stream level ordered
    have strict := (lastPerTick_strict ordered).sublist (List.destutter_sublist Differ _)
    rw [foldStream_eq level ordered]
    exact ⟨rfl, List.pairwise_map.mpr strict, List.isChain_destutter Differ _⟩
  · intro kind before partials c after level ordered same
    rw [foldStream_eq level (ordered_partials ordered same), foldStream_eq level ordered]
    exact congrArg (List.destutter Differ) (lastOfRuns_partials before c after same)

/-- A tick whose value comes back and leaves again before it is over. -/
theorem foldStream_netChanges_glitch :
    SignalTrace.netChanges
        [⟨1, .bits "0"⟩, ⟨7, .bits "1"⟩, ⟨7, .bits "0"⟩, ⟨7, .bits "1"⟩, ⟨9, .bits "1"⟩] =
      [⟨1, .bits "0"⟩, ⟨7, .bits "1"⟩] ∧
    foldStream .bits
        [⟨1, .bits "0"⟩, ⟨7, .bits "1"⟩, ⟨7, .bits "0"⟩, ⟨7, .bits "1"⟩, ⟨9, .bits "1"⟩] =
      SignalTrace.netChanges
        [⟨1, .bits "0"⟩, ⟨7, .bits "1"⟩, ⟨7, .bits "0"⟩, ⟨7, .bits "1"⟩, ⟨9, .bits "1"⟩] ∧
    foldStream .bits ([⟨1, .bits "0"⟩] ++ ([⟨7, .bits "1"⟩, ⟨7, .bits "0"⟩] ++
        ⟨7, .bits "1"⟩ :: [⟨9, .bits "1"⟩])) =
      foldStream .bits ([⟨1, .bits "0"⟩] ++ ⟨7, .bits "1"⟩ :: [⟨9, .bits "1"⟩]) := by
  refine ⟨by decide, ?_, ?_⟩
  · exact (foldStream_netChanges.1 .bits _ (by decide) (by simp [SignalTrace.Ordered])).1
  · exact foldStream_netChanges.2.1 .bits _ _ _ _ (by decide) (by simp [SignalTrace.Ordered])
      (by simp)

end RWave.Backend
