import RWave.Backend.Window

/-!
# Folding emitted changes into a trace

`fold_change` of `plugin_backend.rs`: the emissions of a plugin, several to a tick and redundant
ones among them, become a trace with at most one entry a tick and no entry equal to the one
before. `Folded` says which entries those are: a tick has one exactly when the last emission up to
it differs in value from the last emission before it. `folded_foldStream` proves it of every
stream in time order.
-/

namespace RWave.Backend

/-- `fold_change`: the last write of a tick wins, and a tick whose net value equals the entry
before is no change at all. Events are exempt. -/
def foldChange (kind : ValueKind) (trace : SignalTrace) (c : Change) : SignalTrace :=
  if kind = .event then
    trace ++ [c]
  else
    match trace.getLast? with
    | some last =>
      if last.tick = c.tick then
        match trace.dropLast.getLast? with
        | some before =>
          if valuesEqual c.value before.value then trace.dropLast
          else trace.dropLast ++ [{ last with value := c.value }]
        | none => trace.dropLast ++ [{ last with value := c.value }]
      else if valuesEqual last.value c.value then
        trace
      else
        trace ++ [c]
    | none => trace ++ [c]

/-- The trace of a stream of emissions. -/
def foldStream (kind : ValueKind) (stream : SignalTrace) : SignalTrace :=
  stream.foldl (foldChange kind) []

/-- Events are never folded. -/
theorem foldStream_event (stream : SignalTrace) : foldStream .event stream = stream := by
  induction stream using SignalTrace.snocInduction with
  | nil => rfl
  | snoc stream c ih =>
    rw [foldStream, List.foldl_append, List.foldl_cons, List.foldl_nil]
    change foldChange .event (foldStream .event stream) c = _
    rw [ih]
    rfl

namespace SignalTrace

/-- The value at or before `t`. -/
def valueAt (tr : SignalTrace) (t : Int) : Option RawValue := (tr.lastBefore t).map Change.value

theorem lastBefore_append_singleton (tr : SignalTrace) (c : Change) (t : Int) :
    SignalTrace.lastBefore (tr ++ [c]) t = if c.tick ≤ t then some c else tr.lastBefore t := by
  rw [lastBefore_eq, upTo_append, upTo_singleton, List.getLast?_append, lastBefore_eq]
  split <;> rfl

theorem lastBefore_append_of_le (tr : SignalTrace) {c : Change} {t : Int} (le : c.tick ≤ t) :
    SignalTrace.lastBefore (tr ++ [c]) t = some c := by
  rw [lastBefore_append_singleton, if_pos le]

theorem lastBefore_append_of_lt (tr : SignalTrace) {c : Change} {t : Int} (lt : t < c.tick) :
    SignalTrace.lastBefore (tr ++ [c]) t = tr.lastBefore t := by
  rw [lastBefore_append_singleton, if_neg (not_le.mpr lt)]

theorem valueAt_append_of_le (tr : SignalTrace) {c : Change} {t : Int} (le : c.tick ≤ t) :
    SignalTrace.valueAt (tr ++ [c]) t = some c.value := by
  rw [valueAt, lastBefore_append_of_le tr le]
  rfl

theorem valueAt_append_of_lt (tr : SignalTrace) {c : Change} {t : Int} (lt : t < c.tick) :
    SignalTrace.valueAt (tr ++ [c]) t = tr.valueAt t := by
  rw [valueAt, lastBefore_append_of_lt tr lt, valueAt]

theorem lastBefore_mem {tr : SignalTrace} {t : Int} {c : Change} (h : tr.lastBefore t = some c) :
    c ∈ tr ∧ c.tick ≤ t := by
  have := List.mem_filter.mp (List.mem_of_getLast? h)
  exact ⟨this.1, by simpa using this.2⟩

/-- When nothing is later than `t`, the last change at or before `t` is the last change. -/
theorem lastBefore_of_le {tr : SignalTrace} {t : Int} (le : ∀ c ∈ tr, c.tick ≤ t) :
    tr.lastBefore t = tr.getLast? := by
  rw [lastBefore_eq, upTo, List.filter_eq_self.mpr fun c hc => by simpa using le c hc]

/-- The ticks increase. -/
def Strict (tr : SignalTrace) : Prop := tr.Pairwise fun a b => a.tick < b.tick

/-- Traces with increasing ticks are equal when they have the same changes. -/
theorem Strict.ext {tr₁ tr₂ : SignalTrace} (h₁ : tr₁.Strict) (h₂ : tr₂.Strict)
    (same : ∀ c, c ∈ tr₁ ↔ c ∈ tr₂) : tr₁ = tr₂ := by
  have nodup : ∀ {tr : SignalTrace}, tr.Strict → tr.Nodup := fun h =>
    h.imp fun lt => by rintro rfl; exact lt_irrefl _ lt
  have perm : tr₁.Perm tr₂ := (List.perm_ext_iff_of_nodup (nodup h₁) (nodup h₂)).mpr same
  refine perm.eq_of_pairwise (fun a b _ _ lt gt => ?_) h₁ h₂
  exact absurd (lt.trans gt) (lt_irrefl _)

theorem Strict.ordered {tr : SignalTrace} (h : tr.Strict) : tr.Ordered := h.imp le_of_lt

theorem Strict.filter {tr : SignalTrace} (h : tr.Strict) (p : Change → Bool) :
    SignalTrace.Strict (List.filter p tr) :=
  List.Pairwise.filter p h

end SignalTrace

/-- `tr` is the folded form of a stream of emissions. -/
structure Folded (stream tr : SignalTrace) : Prop where
  strict : tr.Strict
  mem : ∀ c, c ∈ tr ↔
    stream.lastBefore c.tick = some c ∧ stream.valueAt (c.tick - 1) ≠ some c.value
  value : ∀ t, tr.valueAt t = stream.valueAt t

/-- One step of the fold keeps what is before the tick, and adds the change unless the value
before the tick equals it. -/
theorem foldChange_eq {kind : ValueKind} (level : kind ≠ .event) {tr : SignalTrace}
    (strict : tr.Strict) {c : Change} (le : ∀ d ∈ tr, d.tick ≤ c.tick) :
    foldChange kind tr c =
      if tr.valueAt (c.tick - 1) = some c.value then tr.upTo (c.tick - 1)
      else tr.upTo (c.tick - 1) ++ [c] := by
  rw [foldChange, if_neg level]
  induction tr using SignalTrace.snocInduction with
  | nil => rfl
  | snoc tr last _ =>
    obtain ⟨-, -, before⟩ := List.pairwise_append.mp strict
    have earlier : ∀ d ∈ tr, d.tick ≤ c.tick - 1 := fun d hd => by
      have := before d hd last (by simp)
      have := le last (by simp)
      omega
    have kept : tr.upTo (c.tick - 1) = tr :=
      List.filter_eq_self.mpr fun d hd => by simpa using earlier d hd
    simp only [List.getLast?_append, List.getLast?_singleton, Option.some_or,
      List.dropLast_concat]
    by_cases same : last.tick = c.tick
    · -- The tick is overwritten: what counts is the entry before.
      have out : ¬ last.tick ≤ c.tick - 1 := by omega
      have left : SignalTrace.upTo (tr ++ [last]) (c.tick - 1) = tr := by
        rw [SignalTrace.upTo_append, kept, SignalTrace.upTo_singleton, if_neg out, List.append_nil]
      have value : SignalTrace.valueAt (tr ++ [last]) (c.tick - 1) =
          tr.getLast?.map Change.value := by
        rw [SignalTrace.valueAt_append_of_lt tr (not_le.mp out), SignalTrace.valueAt,
          SignalTrace.lastBefore_of_le earlier]
      have written : ({ last with value := c.value } : Change) = c := by cases c; cases same; rfl
      rw [if_pos same, left, value, written]
      cases tr.getLast? with
      | none => simp
      | some p =>
        by_cases redundant : p.value = c.value
        · simp [redundant]
        · simp [redundant, Ne.symm redundant]
    · have inside : last.tick ≤ c.tick - 1 := by
        have := le last (by simp)
        omega
      have all : SignalTrace.upTo (tr ++ [last]) (c.tick - 1) = tr ++ [last] := by
        rw [SignalTrace.upTo_append, kept, SignalTrace.upTo_singleton, if_pos inside]
      have value := SignalTrace.valueAt_append_of_le tr inside
      simp [same, all, value]

/-- Every change up to `t` is one of the trace; a strict trace has one at a tick at most. -/
theorem SignalTrace.mem_upTo {tr : SignalTrace} {t : Int} {c : Change} :
    c ∈ tr.upTo t ↔ c ∈ tr ∧ c.tick ≤ t := by
  simp [upTo]

theorem SignalTrace.lastBefore_upTo (tr : SignalTrace) {t u : Int} (le : t ≤ u) :
    SignalTrace.lastBefore (tr.upTo u) t = tr.lastBefore t := by
  rw [lastBefore, lastBefore, upTo, List.filter_filter]
  congr 1
  refine List.filter_congr ?_
  intro c _
  rw [Bool.eq_iff_iff]
  simp only [Bool.and_eq_true, decide_eq_true_eq]
  omega

theorem Folded.tick_le {stream tr : SignalTrace} (h : Folded stream tr) {t : Int}
    (le : ∀ c ∈ stream, c.tick ≤ t) : ∀ c ∈ tr, c.tick ≤ t := fun c hc =>
  le c (SignalTrace.lastBefore_mem ((h.mem c).mp hc).1).1

/-- One emission keeps the folded form. -/
theorem Folded.step {kind : ValueKind} (level : kind ≠ .event) {stream tr : SignalTrace}
    (h : Folded stream tr) {c : Change} (le : ∀ d ∈ stream, d.tick ≤ c.tick) :
    Folded (stream ++ [c]) (foldChange kind tr c) := by
  rw [foldChange_eq level h.strict (h.tick_le le), h.value]
  have before : (tr.upTo (c.tick - 1)).Strict := h.strict.filter _
  have earlier : ∀ d ∈ tr.upTo (c.tick - 1), d.tick ≤ c.tick - 1 := fun d hd =>
    (SignalTrace.mem_upTo.mp hd).2
  -- The entries before the tick are decided as they were.
  have mem_older : ∀ d, d.tick < c.tick → (d ∈ tr.upTo (c.tick - 1) ↔
      SignalTrace.lastBefore (stream ++ [c]) d.tick = some d ∧
        SignalTrace.valueAt (stream ++ [c]) (d.tick - 1) ≠ some d.value) := by
    intro d lt
    rw [SignalTrace.lastBefore_append_of_lt stream lt,
      SignalTrace.valueAt_append_of_lt stream (by omega), SignalTrace.mem_upTo, h.mem]
    exact and_iff_left (by omega)
  have mem_at : ∀ d, SignalTrace.lastBefore (stream ++ [c]) d.tick = some d → ¬ d.tick < c.tick →
      d = c := by
    intro d found late
    rw [SignalTrace.lastBefore_append_of_le stream (not_lt.mp late)] at found
    exact (Option.some.inj found).symm
  have value_older : ∀ t, t < c.tick → SignalTrace.valueAt (tr.upTo (c.tick - 1)) t =
      stream.valueAt t := by
    intro t lt
    rw [SignalTrace.valueAt, SignalTrace.lastBefore_upTo tr (by omega)]
    exact h.value t
  split
  next redundant =>
    refine ⟨before, ?_, ?_⟩
    · intro d
      by_cases lt : d.tick < c.tick
      · exact mem_older d lt
      · refine iff_of_false (fun hd => lt (by have := earlier d hd; omega)) ?_
        rintro ⟨found, new⟩
        obtain rfl := mem_at d found lt
        rw [SignalTrace.valueAt_append_of_lt stream (by omega)] at new
        exact new redundant
    · intro t
      by_cases lt : t < c.tick
      · rw [SignalTrace.valueAt_append_of_lt stream lt]
        exact value_older t lt
      · have kept : SignalTrace.lastBefore (tr.upTo (c.tick - 1)) t = tr.lastBefore (c.tick - 1) := by
          rw [SignalTrace.lastBefore_of_le fun d hd => by have := earlier d hd; omega]
          rfl
        rw [SignalTrace.valueAt_append_of_le stream (not_lt.mp lt), SignalTrace.valueAt, kept,
          ← redundant, ← h.value]
        rfl
  next new =>
    have pushed : SignalTrace.Strict (tr.upTo (c.tick - 1) ++ [c]) := by
      refine List.pairwise_append.mpr ⟨before, List.pairwise_singleton _ c, ?_⟩
      intro d hd e he
      obtain rfl := List.mem_singleton.mp he
      have := earlier d hd
      omega
    refine ⟨pushed, ?_, ?_⟩
    · intro d
      rw [List.mem_append, List.mem_singleton]
      by_cases lt : d.tick < c.tick
      · rw [← mem_older d lt]
        exact or_iff_left (by rintro rfl; exact lt_irrefl _ lt)
      · constructor
        · rintro (hd | rfl)
          · exact absurd (earlier d hd) (by omega)
          · refine ⟨SignalTrace.lastBefore_append_of_le stream le_rfl, ?_⟩
            rwa [SignalTrace.valueAt_append_of_lt stream (by omega)]
        · rintro ⟨found, -⟩
          exact .inr (mem_at d found lt)
    · intro t
      by_cases lt : t < c.tick
      · rw [SignalTrace.valueAt_append_of_lt _ lt, SignalTrace.valueAt_append_of_lt _ lt]
        exact value_older t lt
      · rw [SignalTrace.valueAt_append_of_le _ (not_lt.mp lt),
          SignalTrace.valueAt_append_of_le _ (not_lt.mp lt)]

/-- Folding a stream in time order gives its folded form. -/
theorem folded_foldStream {kind : ValueKind} (level : kind ≠ .event) {stream : SignalTrace}
    (ordered : stream.Ordered) : Folded stream (foldStream kind stream) := by
  induction stream using SignalTrace.snocInduction with
  | nil => exact ⟨List.Pairwise.nil, by simp [foldStream, SignalTrace.lastBefore], fun _ => rfl⟩
  | snoc stream c ih =>
    obtain ⟨ordered, -, le⟩ := List.pairwise_append.mp ordered
    rw [foldStream, List.foldl_append, List.foldl_cons, List.foldl_nil]
    exact (ih ordered).step level fun d hd => le d hd c (by simp)

/-- Two streams that agree on the changes that count inside a window fold to the same entries
there. -/
theorem Folded.within_eq {stream₁ stream₂ tr₁ tr₂ : SignalTrace} (h₁ : Folded stream₁ tr₁)
    (h₂ : Folded stream₂ tr₂) {frm : Int} {upto : Option Int}
    (same : ∀ c, inWindow frm upto c.tick = true →
      (stream₁.lastBefore c.tick = some c ∧ stream₁.valueAt (c.tick - 1) ≠ some c.value ↔
        stream₂.lastBefore c.tick = some c ∧ stream₂.valueAt (c.tick - 1) ≠ some c.value)) :
    tr₁.within frm upto = tr₂.within frm upto := by
  refine (h₁.strict.filter _).ext (h₂.strict.filter _) ?_
  intro c
  simp only [SignalTrace.within, List.mem_filter, h₁.mem, h₂.mem]
  exact and_congr_left fun inside => same c inside

/-! ## Point queries -/

/-- A reduction of traces that keeps their order and the value at every instant. -/
def KeepsValues (f : SignalTrace → SignalTrace) : Prop :=
  ∀ tr : SignalTrace, tr.Ordered → (f tr).Ordered ∧ ∀ t, (f tr).valueAt t = tr.valueAt t

theorem keepsValues_foldStream (kind : ValueKind) : KeepsValues (foldStream kind) := by
  intro tr ordered
  by_cases event : kind = .event
  · rw [event, foldStream_event]
    exact ⟨ordered, fun _ => rfl⟩
  · have folded := folded_foldStream event ordered
    exact ⟨folded.strict.ordered, folded.value⟩

/-- A window that answers point queries of a stream does so after both went through a reduction. -/
theorem PointExact.reduce {f : SignalTrace → SignalTrace} (keeps : KeepsValues f)
    {whole answer : SignalTrace} {frm : Int} {upto : Option Int} (ordered : whole.Ordered)
    (pointExact : PointExact whole answer frm upto) : PointExact (f whole) (f answer) frm upto := by
  obtain ⟨answerOrdered, answerValue⟩ := keeps answer pointExact.ordered
  refine ⟨answerOrdered, fun t from_le le_to => ?_⟩
  have value := pointExact.value t from_le le_to
  exact (answerValue t).trans (value.trans ((keeps whole ordered).2 t).symm)

end RWave.Backend
