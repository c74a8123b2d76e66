import RWave.Wellen.Load
import RWave.Wellen.VcdLines

/-!
# Reading in chunks

Every time of a body belongs to the chunk in which the newline in front of it lies, and its chunk
reads on up to the next time that belongs to another chunk. The encoders of the chunks, one appended
to the other, give back what a single encoder gives back for the whole body.
-/

namespace RWave.Wellen

open RWave.Misc

/-! ## Lines by chunk -/

section DropWhile

variable {α : Type} {p q : α → Bool}

theorem dropWhile_dropWhile_of_imp (imp : ∀ a, p a → q a) (l : List α) :
    (l.dropWhile p).dropWhile q = l.dropWhile q := by
  induction l with
  | nil => rfl
  | cons a l ih =>
    by_cases h : p a
    · rw [List.dropWhile_cons_of_pos h, List.dropWhile_cons_of_pos (imp a h), ih]
    · rw [List.dropWhile_cons_of_neg h]

theorem dropWhile_takeWhile_of_imp (imp : ∀ a, p a → q a) (l : List α) :
    (l.takeWhile q).dropWhile p = (l.dropWhile p).takeWhile q := by
  induction l with
  | nil => rfl
  | cons a l ih =>
    by_cases h : p a
    · rw [List.takeWhile_cons_of_pos (imp a h), List.dropWhile_cons_of_pos h,
        List.dropWhile_cons_of_pos h, ih]
    · rw [List.dropWhile_cons_of_neg h]
      by_cases g : q a
      · rw [List.takeWhile_cons_of_pos g, List.dropWhile_cons_of_neg h]
      · rw [List.takeWhile_cons_of_neg g]
        rfl

theorem dropWhile_congr {l : List α} (same : ∀ a ∈ l, p a = q a) :
    l.dropWhile p = l.dropWhile q := by
  induction l with
  | nil => rfl
  | cons a l ih =>
    rw [List.dropWhile_cons, List.dropWhile_cons, same a List.mem_cons_self,
      ih fun b member => same b (.tail _ member)]

end DropWhile

namespace BodyLine

theorem le_of_mem_place {newline : Nat} {lines : List BodyLine} {l : Nat × BodyLine}
    (member : l ∈ place newline lines) : newline ≤ l.1 := by
  induction lines generalizing newline with
  | nil => cases member
  | cons m lines ih =>
    rcases List.mem_cons.mp member with rfl | later
    · exact le_rfl
    · have := ih later
      omega

/-- Behind the first newline of a chunk, the first time is the chunk's own. -/
theorem dropWhile_place (start newline : Nat) (lines : List BodyLine) :
    ((place newline lines).dropWhile fun l => l.1 < start).dropWhile (fun l => !l.2.time.isSome) =
      fromTime start (place newline lines) := by
  induction lines generalizing newline with
  | nil => rfl
  | cons l lines ih =>
    rw [place, fromTime]
    by_cases before : newline < start
    · rw [List.dropWhile_cons_of_pos (by simpa using before),
        List.dropWhile_cons_of_pos (by simp; omega)]
      exact ih (newline + l.text.length + 1)
    · rw [List.dropWhile_cons_of_neg (by simpa using before)]
      refine dropWhile_congr fun m member => ?_
      have placed : m ∈ place newline (l :: lines) := member
      have inside : start ≤ m.1 := (Nat.le_of_not_lt before).trans (le_of_mem_place placed)
      simp [inside]

/-- What a later chunk records: the lines from its first time on. -/
theorem dropWhile_untilTime {start stop newline : Nat} {lines : List BodyLine} :
    (untilTime stop ((place newline lines).dropWhile fun l => l.1 < start)).dropWhile
        (fun l => !l.2.time.isSome) =
      untilTime stop (fromTime start (place newline lines)) := by
  rw [← dropWhile_place]
  refine dropWhile_takeWhile_of_imp (fun l plain => ?_) _
  rw [Bool.not_eq_true'] at plain
  simp [plain]

/-- The next chunk begins where a chunk ends. -/
theorem untilTime_fromTime {start stop : Nat} (le : start ≤ stop) (lines : List (Nat × BodyLine)) :
    fromTime start lines = untilTime stop (fromTime start lines) ++ fromTime stop lines := by
  have next : (fromTime start lines).dropWhile (fun l => !(l.2.time.isSome && stop ≤ l.1)) =
      fromTime stop lines := by
    refine dropWhile_dropWhile_of_imp (fun l before => ?_) _
    simp only [Bool.not_eq_true', Bool.and_eq_false_iff, decide_eq_false_iff_not] at before ⊢
    exact before.imp id fun early late => early (le.trans late)
  rw [← next, untilTime, List.takeWhile_append_dropWhile]

/-- The lines of the chunks from the one that begins at `i * size` on. -/
theorem fromTime_chunks (lines : List (Nat × BodyLine)) (size i count : Nat) :
    fromTime (i * size) lines =
      ((List.range' i count).flatMap fun k => untilTime ((k + 1) * size) (fromTime (k * size) lines)) ++
        fromTime ((i + count) * size) lines := by
  induction count generalizing i with
  | zero => rfl
  | succ count ih =>
    have step : i * size ≤ (i + 1) * size := Nat.mul_le_mul_right size (Nat.le_succ i)
    have last : i + 1 + count = i + (count + 1) := by omega
    rw [untilTime_fromTime step, ih (i + 1), List.range'_succ, List.flatMap_cons, List.append_assoc,
      last]

/-! ## Operations of a line -/

/-- The value of a line as the encoder takes it. -/
def valueOp (lookup : IdLookup) (v : List UInt8 × List UInt8 × Bool) : DumpOp :=
  .value ((VcdEncoder.numId lookup v.2.1).toOption.getD 0)
    (if v.2.2 then unescapeVcdValue v.1 else v.1)

/-- What a line makes the encoder do. -/
def ops (lookup : IdLookup) (l : BodyLine) : List DumpOp :=
  (l.time.map .time).toList ++ l.values.map (valueOp lookup)

/-- Every value of the line has an identifier with a number. -/
def Named (lookup : IdLookup) (l : BodyLine) : Prop :=
  ∀ v ∈ l.values, ∃ n, VcdEncoder.numId lookup v.2.1 = .ok n

end BodyLine

/-- A dump without a time at its beginning begins at zero. -/
def withStart : List DumpOp → List DumpOp
  | .value id text :: ops => .time 0 :: .value id text :: ops
  | ops => ops

/-! ## The encoder of a chunk -/

namespace VcdEncoder

variable {c : Crates} {lookup : IdLookup}

/-- The encoder behind a run of its own encoder. -/
def ofRun (e : VcdEncoder) : Option Encoder → Except BodyFailure VcdEncoder
  | some enc => .ok { e with enc, foundFirstTimeStep := true }
  | none => .error .panic

theorem value_eq {e : VcdEncoder} (found : e.foundFirstTimeStep = true)
    {v : List UInt8 × List UInt8 × Bool} (named : ∃ n, numId lookup v.2.1 = .ok n) :
    e.value c lookup v.1 v.2.1 v.2.2 = e.ofRun (e.enc.step c (BodyLine.valueOp lookup v)) := by
  obtain ⟨n, number⟩ := named
  obtain ⟨enc, first, _⟩ := e
  cases found
  simp only [value, Bool.not_true, Bool.and_false, Bool.false_eq_true, if_false,
    BodyLine.valueOp, number, Encoder.step]
  dsimp only [bind, Except.bind, Except.toOption, Option.getD]
  cases enc.vcdValueChange c n (if v.2.2 = true then unescapeVcdValue v.1 else v.1) <;> rfl

theorem foldlM_value {e : VcdEncoder} (found : e.foundFirstTimeStep = true)
    {values : List (List UInt8 × List UInt8 × Bool)}
    (named : ∀ v ∈ values, ∃ n, numId lookup v.2.1 = .ok n) :
    values.foldlM (fun e v => (output c lookup).value e v.1 v.2.1 v.2.2) e =
      e.ofRun (e.enc.run c (values.map (BodyLine.valueOp lookup))) := by
  induction values generalizing e with
  | nil =>
    obtain ⟨enc, first, _⟩ := e
    cases found
    rfl
  | cons v values ih =>
    have here : (output c lookup).value e v.1 v.2.1 v.2.2 =
        e.ofRun (e.enc.step c (BodyLine.valueOp lookup v)) :=
      value_eq found (named v List.mem_cons_self)
    rw [List.foldlM_cons, here, List.map_cons, Encoder.run, List.foldlM_cons]
    cases e.enc.step c (BodyLine.valueOp lookup v) with
    | none => rfl
    | some enc => exact ih rfl fun v member => named v (.tail _ member)

/-- A line behind the first time, or with a time, is recorded. -/
theorem send_eq {e : VcdEncoder} {l : BodyLine}
    (starts : e.foundFirstTimeStep = true ∨ l.time.isSome) (named : l.Named lookup) :
    l.send (output c lookup) e = e.ofRun (e.enc.run c (l.ops lookup)) := by
  rw [BodyLine.send, BodyLine.ops]
  cases time : l.time with
  | none =>
    have found := starts.resolve_right (by simp [time])
    exact foldlM_value found named
  | some t =>
    have here : (output c lookup).time e t = e.ofRun (e.enc.step c (.time t)) := by
      simp only [output, VcdEncoder.time, Encoder.step]
      cases e.enc.timeChange c t <;> rfl
    rw [Option.map_some, Option.toList_some, List.singleton_append, Encoder.run, List.foldlM_cons]
    dsimp only
    rw [here]
    cases e.enc.step c (.time t) with
    | none => rfl
    | some enc => exact foldlM_value rfl named

/-- Lines from a time on are recorded. -/
theorem foldlM_send {e : VcdEncoder} {lines : List BodyLine}
    (named : ∀ l ∈ lines, l.Named lookup)
    (starts : e.foundFirstTimeStep = true ∨ ∃ l rest, lines = l :: rest ∧ l.time.isSome) :
    BodyLine.sendAll (output c lookup) lines e =
      e.ofRun (e.enc.run c (lines.flatMap (BodyLine.ops lookup))) := by
  induction lines generalizing e with
  | nil =>
    obtain ⟨enc, first, _⟩ := e
    cases starts.resolve_right (by simp)
    rfl
  | cons l lines ih =>
    have here : e.foundFirstTimeStep = true ∨ l.time.isSome := by
      refine starts.imp id ?_
      rintro ⟨l', rest, whole, timed⟩
      cases whole
      exact timed
    rw [BodyLine.sendAll, List.foldlM_cons, send_eq here (named l List.mem_cons_self),
      List.flatMap_cons, Encoder.run_append]
    cases e.enc.run c (l.ops lookup) with
    | none => rfl
    | some enc => exact ih (fun l member => named l (.tail _ member)) (.inl rfl)

theorem map_ofRun (e : VcdEncoder) (r : Option Encoder) : (e.ofRun r).map (·.enc) = orPanic r := by
  cases r <;> rfl

theorem foldlM_value_later (enc : Encoder) (values : List (List UInt8 × List UInt8 × Bool)) :
    values.foldlM (fun e v => (output c lookup).value e v.1 v.2.1 v.2.2) ⟨enc, false, false⟩ =
      .ok ⟨enc, false, false⟩ := by
  induction values with
  | nil => rfl
  | cons v values ih => exact ih

/-- In a later chunk, the lines in front of the first time are left to the chunk before. -/
theorem sendAll_later (encodings : List (Option SignalEncoding)) {lines : List BodyLine}
    (named : ∀ l ∈ lines, l.Named lookup) :
    (BodyLine.sendAll (output c lookup) lines (new encodings false)).map (·.enc) =
      orPanic ((Encoder.new encodings).run c
        ((lines.dropWhile fun l => !l.time.isSome).flatMap (BodyLine.ops lookup))) := by
  induction lines with
  | nil => rfl
  | cons l lines ih =>
    cases time : l.time with
    | none =>
      have stay : l.send (output c lookup) (new encodings false) = .ok (new encodings false) := by
        rw [BodyLine.send, time]
        exact foldlM_value_later _ l.values
      rw [BodyLine.sendAll, List.foldlM_cons, stay, List.dropWhile_cons_of_pos (by simp [time])]
      exact ih fun l member => named l (.tail _ member)
    | some t =>
      have starts : l.time.isSome := by simp [time]
      rw [List.dropWhile_cons_of_neg (by simp [time]), foldlM_send named (.inr ⟨l, lines, rfl, starts⟩),
        map_ofRun]
      rfl

/-- In the first chunk, a value in front of the first time comes after a time of zero. -/
theorem value_first (enc : Encoder) (v : List UInt8 × List UInt8 × Bool) :
    (output c lookup).value ⟨enc, true, false⟩ v.1 v.2.1 v.2.2 =
      (time c ⟨enc, true, false⟩ 0).bind fun e => (output c lookup).value e v.1 v.2.1 v.2.2 := by
  simp only [output, value, time, Bool.not_false, Bool.and_true, if_true]
  cases enc.timeChange c 0 <;> rfl

/-- In the first chunk, values in front of the first time are at zero. -/
theorem sendAll_first (encodings : List (Option SignalEncoding)) {lines : List BodyLine}
    (named : ∀ l ∈ lines, l.Named lookup) :
    (BodyLine.sendAll (output c lookup) lines (new encodings true)).map (·.enc) =
      orPanic ((Encoder.new encodings).run c (withStart (lines.flatMap (BodyLine.ops lookup)))) := by
  induction lines with
  | nil => rfl
  | cons l lines ih =>
    cases time : l.time with
    | some t =>
      have starts : l.time.isSome := by simp [time]
      rw [foldlM_send named (.inr ⟨l, lines, rfl, starts⟩), map_ofRun, List.flatMap_cons,
        BodyLine.ops, time]
      rfl
    | none =>
      cases values : l.values with
      | nil =>
        have noOps : l.ops lookup = [] := by rw [BodyLine.ops, time, values]; rfl
        have stay : l.send (output c lookup) (new encodings true) = .ok (new encodings true) := by
          rw [BodyLine.send, time, values]
          rfl
        rw [BodyLine.sendAll, List.foldlM_cons, stay, List.flatMap_cons, noOps]
        exact ih fun l member => named l (.tail _ member)
      | cons v vs =>
        have zero : VcdEncoder.time c (new encodings true) 0 =
            (new encodings true).ofRun ((Encoder.new encodings).step c (.time 0)) := by
          simp only [VcdEncoder.time, Encoder.step, new]
          cases (Encoder.new encodings).timeChange c 0 <;> rfl
        have first : BodyLine.sendAll (output c lookup) (l :: lines) (new encodings true) =
            (VcdEncoder.time c (new encodings true) 0).bind
              (BodyLine.sendAll (output c lookup) (l :: lines)) := by
          have here : (output c lookup).value (new encodings true) v.1 v.2.1 v.2.2 =
              (VcdEncoder.time c (new encodings true) 0).bind fun e =>
                (output c lookup).value e v.1 v.2.1 v.2.2 := value_first (Encoder.new encodings) v
          rw [BodyLine.sendAll, List.foldlM_cons, BodyLine.send, time, values]
          simp only [List.foldlM_cons, bind, Except.bind, here]
          cases VcdEncoder.time c (new encodings true) 0 with
          | error e => rfl
          | ok e =>
            simp only [BodyLine.sendAll, List.foldlM_cons, BodyLine.send, time, values]
            rfl
        have start : withStart ((l :: lines).flatMap (BodyLine.ops lookup)) =
            .time 0 :: (l :: lines).flatMap (BodyLine.ops lookup) := by
          rw [List.flatMap_cons, BodyLine.ops, time, values]
          rfl
        rw [first, zero, start, Encoder.run, List.foldlM_cons]
        cases (Encoder.new encodings).step c (.time 0) with
        | none => rfl
        | some enc =>
          refine (congrArg (Except.map (·.enc)) (foldlM_send (e := ⟨enc, true, true⟩) named (.inl rfl))).trans ?_
          exact map_ofRun _ _

end VcdEncoder

end RWave.Wellen
