import RWave.Wellen.Block
import RWave.Wellen.Timeline

/-!
# The store records what the dump says

An encoder holds the recording in segments, one for each closed block and one for the block that is
being filled. In a segment a change has the number of its time step in place of the time. A block
stores a segment (`Stored`), and an encoder that represents a recording still does after the next line
of the dump (`Represents.step`).
-/

namespace RWave.Wellen

open RWave.Misc

/-- A stretch of a recording: its time steps, and the signal, the number of the time step and the
value of each change. -/
structure Segment where
  times : List Nat
  changes : List (Nat × Nat × VcdValue)

namespace Segment

/-- The number of the time step and the value of the changes of one signal. -/
def of (seg : Segment) (id : Nat) : List (Nat × VcdValue) :=
  seg.changes.filterMap fun change => if change.1 = id then some change.2 else none

/-- The time of a time step. -/
def time (seg : Segment) (timeIdx : Nat) : Nat := seg.times.getD timeIdx 0

/-- The segment with its times. -/
def timeline (seg : Segment) : Timeline :=
  ⟨seg.times, seg.changes.map fun change => (change.1, seg.time change.2.1, change.2.2)⟩

/-- A segment that a block has room for. -/
structure Ok (seg : Segment) : Prop where
  length : seg.times.length ≤ Encoder.blockTimeIdxMax
  inside : ∀ change ∈ seg.changes, change.2.1 < seg.times.length
  ordered : seg.changes.Pairwise fun a b => a.2.1 ≤ b.2.1

theorem mem_of {seg : Segment} {id : Nat} {k : Nat × VcdValue} (member : k ∈ seg.of id) :
    (id, k) ∈ seg.changes := by
  obtain ⟨change, inside, same⟩ := List.mem_filterMap.mp member
  split at same
  next own =>
    cases same
    rw [← own]
    exact inside
  next => cases same

theorem of_timeline (seg : Segment) (id : Nat) :
    seg.timeline.of id = (seg.of id).map fun k => (seg.time k.1, k.2) := by
  unfold Timeline.of timeline of
  rw [List.filterMap_map, List.map_filterMap]
  refine List.filterMap_congr fun change _ => ?_
  dsimp only [Function.comp]
  split <;> rfl

theorem Ok.of_ordered {seg : Segment} (ok : seg.Ok) (id : Nat) :
    ((seg.of id).map Prod.fst).Pairwise (· ≤ ·) := by
  refine List.pairwise_map.mpr (ok.ordered.filterMap _ fun a b le k own k' own' => ?_)
  split at own
  · split at own'
    · cases own
      cases own'
      exact le
    · cases own'
  · cases own

end Segment

section Store

variable (c : Crates)

/-- The data of a signal in a block hold these changes. -/
structure Written (tpe : SignalEncoding) (changes : List (Nat × VcdValue)) (dataBlock : List UInt8)
    (md : SignalEncodingMetaData) : Prop where
  data : uncompressed c dataBlock md = some ((deltas 0 changes).flatMap (VcdValue.write c))
  values : ∀ k ∈ changes, k.2.In md.maxStates tpe ∧ (k.2.body c).length < 2 ^ 32

/-- What a reader finds of a signal in a block. -/
def Found (block : Block) (id : Nat) (tpe : SignalEncoding) (changes : List (Nat × VcdValue)) :
    Prop :=
  (changes = [] ∧ block.getOffsetAndLength id = some none) ∨
  ∃ place dataBlock md, block.getOffsetAndLength id = some (some place) ∧
    Reader.signalData c block place.1 place.2 = some (dataBlock, md) ∧
    Written c tpe changes dataBlock md

variable (encodings : List (Option SignalEncoding))

/-- A signal that can be loaded with this encoding: one of the dump, or one that is derived from
others, of which the dump says nothing. -/
def Loadable (id : Nat) (tpe : SignalEncoding) : Prop :=
  encodings[id]? = some (some tpe) ∨ encodings[id]? = some none

/-- A block that stores a segment. -/
structure Stored (seg : Segment) (block : Block) : Prop where
  ok : seg.Ok
  timeTable : block.timeTable = seg.times
  startTime : seg.times.head? = some block.startTime
  found : ∀ id tpe, Loadable encodings id tpe → Found c block id tpe (seg.of id)

/-- An encoder that holds the changes of a signal in the current segment. -/
structure Holds (tpe : SignalEncoding) (changes : List (Nat × VcdValue)) (enc : SignalEncoder) :
    Prop where
  encoding : enc.tpe = tpe
  data : enc.data = (deltas 0 changes).flatMap (VcdValue.write c)
  prevTimeIdx : enc.prevTimeIdx = lastKey 0 changes
  values : ∀ k ∈ changes, k.2.In enc.maxStates tpe

variable {c encodings}

/-- One more change of the signal. -/
theorem Holds.addVcdChange {tpe : SignalEncoding} {changes : List (Nat × VcdValue)}
    {enc : SignalEncoder} (holds : Holds c tpe changes enc) {text : List UInt8} {v : VcdValue}
    (parse : VcdValue.parse c tpe text = some v) (timeIdx : Nat) :
    ∃ enc', enc.addVcdChange c timeIdx text = some enc' ∧
      Holds c tpe (changes ++ [(timeIdx, v)]) enc' := by
  obtain ⟨rfl, data, prev, values⟩ := holds
  rw [SignalEncoder.addVcdChange_eq, parse, Option.map_some]
  refine ⟨_, rfl, rfl, ?_, ?_, ?_⟩
  · rw [deltas_append, List.flatMap_append, ← data, ← prev]
    simp [deltas]
  · rw [lastKey_concat]
  · intro k member
    rcases List.mem_append.mp member with old | new
    · exact ⟨(values k old).1, UInt8.le_trans (values k old).2 (States.le_join_left ..)⟩
    · rw [List.mem_singleton.mp new]
      exact ⟨VcdValue.parse_of c parse, States.le_join_right ..⟩

/-- A closed signal holds nothing. -/
theorem Holds.restart {tpe : SignalEncoding} {changes : List (Nat × VcdValue)} {enc : SignalEncoder}
    (holds : Holds c tpe changes enc) : Holds c tpe [] enc.restart :=
  ⟨holds.encoding, rfl, rfl, by simp⟩

/-- What `finish_block` writes of a signal is found again. -/
theorem Holds.found {tpe : SignalEncoding} {changes : List (Nat × VcdValue)} {enc : SignalEncoder}
    (holds : Holds c tpe changes enc) (indices : ∀ k ∈ changes, k.1 < 2 ^ 16)
    (small : enc.data.length + 31 < 2 ^ 32)
    {signals : List (Option SignalEncoder)} {id : Nat} (entry : signals[id]? = some (some enc))
    {block : Block} (data : block.data = signals.flatMap (chunk c))
    (place : locate block.offsets block.data.length id =
      some ((enc.finish c).map fun _ =>
        (((signals.take id).flatMap (chunk c)).length, (chunk c (some enc)).length))) :
    Found c block id tpe changes := by
  have body {k : Nat × VcdValue} (member : k ∈ changes) :
      (k.2.body c).length < enc.data.length := by
    rw [holds.data]
    exact VcdValue.length_body
      (fun k member => ⟨indices k member, (holds.values k member).1⟩) member
  rw [← Block.getOffsetAndLength_eq] at place
  rcases enc.finish_spec (c := c) small with
    ⟨empty, unchanged⟩ | ⟨dataBlock, md, finished, full, encodes, states, back, -⟩
  · refine .inl ⟨List.eq_nil_iff_forall_not_mem.mpr fun k member => ?_, by rw [place, unchanged]; rfl⟩
    have length := body member
    rw [empty] at length
    exact absurd length (Nat.not_lt_zero _)
  · rw [finished, Option.map_some] at place
    refine .inr ⟨_, dataBlock, md, place, ?_, ?_, ?_⟩
    · obtain ⟨room, slice⟩ := slice_flatMap (f := chunk c) entry
      have own : chunk c (some enc) = c.leb128.write md.encode ++ dataBlock := by
        simp only [chunk, Option.bind_some, finished]
      have small := (SignalEncodingMetaData.encode_lt encodes).trans_le c.leb128_bound
      rw [Reader.signalData, data, if_pos room, slice, own, c.leb128.read_write _ small]
      simp only [Option.bind_eq_bind, Option.bind_some, SignalEncodingMetaData.decode_encode encodes]
      rfl
    · rw [back, holds.data]
    · intro k member
      rw [states]
      exact ⟨holds.values k member, (body member).trans (by omega)⟩

/-! ## Encoders -/

/-- The data that the block being filled would have without compression. -/
def Encoder.size (e : Encoder) : Nat :=
  (e.signals.map fun signal => signal.elim 0 fun enc => enc.data.length + 10).sum

/-- The block being filled stays below 4 GiB, which is what its offsets and lengths can tell. -/
def Encoder.Small (e : Encoder) : Prop := e.size + 31 < 2 ^ 32

theorem Encoder.Small.signal {e : Encoder} (small : e.Small) {enc : SignalEncoder}
    (member : some enc ∈ e.signals) : enc.data.length + 31 < 2 ^ 32 := by
  have part : enc.data.length + 10 ≤ e.size :=
    List.single_le_sum (fun _ _ => Nat.zero_le _) _ (List.mem_map.mpr ⟨_, member, rfl⟩)
  unfold Small at small
  omega

theorem Encoder.Small.chunks {e : Encoder} (small : e.Small) :
    (e.signals.flatMap (chunk c)).length ≤ e.size := by
  rw [List.length_flatMap]
  refine List.sum_le_sum fun signal member => ?_
  cases signal with
  | none => exact le_rfl
  | some enc =>
    rcases enc.finish_spec (c := c) (small.signal member) with
      ⟨-, unchanged⟩ | ⟨dataBlock, md, finished, -, encodes, -, -, length⟩
    · simp [chunk, unchanged]
    · have number := c.length_leb128 _ (SignalEncodingMetaData.encode_lt encodes)
      simp only [chunk, Option.bind_some, finished, List.length_append, Option.elim_some]
      omega

/-- What an encoder has of a signal. -/
def Matches (c : Crates) (changes : List (Nat × VcdValue)) :
    Option (Option SignalEncoding) → Option (Option SignalEncoder) → Prop
  | some (some tpe), some (some enc) => Holds c tpe changes enc
  | some none, some none => changes = []
  | none, none => True
  | _, _ => False

theorem Matches.known {changes : List (Nat × VcdValue)} {tpe : SignalEncoding}
    {encoding : Option (Option SignalEncoding)} {signal : Option (Option SignalEncoder)}
    (own : Matches c changes encoding signal) (known : encoding = some (some tpe)) :
    ∃ enc, signal = some (some enc) ∧ Holds c tpe changes enc := by
  match encoding, signal, own, known with
  | some (some _), some (some enc), own, rfl => exact ⟨enc, rfl, own⟩

theorem Matches.derived {changes : List (Nat × VcdValue)}
    {encoding : Option (Option SignalEncoding)} {signal : Option (Option SignalEncoder)}
    (own : Matches c changes encoding signal) (derived : encoding = some none) :
    signal = some none ∧ changes = [] := by
  match encoding, signal, own, derived with
  | some none, some none, own, _ => exact ⟨rfl, own⟩

/-- The segments' time lines in a row. -/
def timelineOf (segs : List Segment) : Timeline := .join (segs.map Segment.timeline)

theorem timelineOf_concat (segs : List Segment) (seg : Segment) :
    timelineOf (segs ++ [seg]) = (timelineOf segs).append seg.timeline := by
  rw [timelineOf, List.map_append, List.map_singleton, Timeline.join_concat]
  rfl

theorem timelineOf_append (segs segs' : List Segment) :
    timelineOf (segs ++ segs') = (timelineOf segs).append (timelineOf segs') := by
  rw [timelineOf, List.map_append, Timeline.join_append]
  rfl

/-- An encoder that holds the segments `segs` in closed blocks and `cur` in the one being filled. -/
structure Represents (c : Crates) (encodings : List (Option SignalEncoding)) (segs : List Segment)
    (cur : Segment) (e : Encoder) : Prop where
  blocks : List.Forall₂ (Stored c encodings) segs e.blocks
  timeTable : e.timeTable = cur.times
  ok : cur.Ok
  signals : ∀ id, Matches c (cur.of id) encodings[id]? e.signals[id]?
  new : e.hasNewData = true → cur.times ≠ []
  old : e.hasNewData = false → cur.changes = [] ∧
    ((segs = [] ∧ cur.times = []) ∨
      ∃ last, cur.times = [last] ∧ (timelineOf segs).times.getLast? = some last)

theorem Represents.empty (c : Crates) (encodings : List (Option SignalEncoding)) :
    Represents c encodings [] ⟨[], []⟩ (.new encodings) := by
  refine ⟨.nil, rfl, ⟨Nat.zero_le _, by simp, .nil⟩, fun id => ?_, nofun, fun _ => ⟨rfl, .inl ⟨rfl, rfl⟩⟩⟩
  simp only [Encoder.new, List.getElem?_map]
  cases encodings[id]? with
  | none => trivial
  | some tpe =>
    cases tpe with
    | none => rfl
    | some tpe => exact ⟨rfl, rfl, rfl, by simp [Segment.of]⟩

/-- A block being filled without new data adds nothing. -/
theorem Represents.timelineOf_old {segs : List Segment} {cur : Segment} {e : Encoder}
    (rep : Represents c encodings segs cur e) (old : e.hasNewData = false) :
    timelineOf (segs ++ [cur]) = timelineOf segs := by
  obtain ⟨unchanged, times⟩ := rep.old old
  have own : cur.timeline = ⟨cur.times, []⟩ := by rw [Segment.timeline, unchanged]; rfl
  rw [timelineOf_concat, own, Timeline.append, List.append_nil]
  rcases times with ⟨-, empty⟩ | ⟨last, one, ends⟩
  · rw [empty, overlap_nil]
  · rw [one, overlap_last ends]

/-- Closing a block stores its segment. -/
theorem Represents.stored {segs : List Segment} {cur : Segment} {e : Encoder}
    (rep : Represents c encodings segs cur e) (small : e.Small) {startTime : Nat}
    (start : cur.times.head? = some startTime) :
    ∃ offsets, Encoder.finishSignals c e.signals [] = some (offsets, e.signals.flatMap (chunk c)) ∧
      Stored c encodings cur
        ⟨startTime, cur.times, offsets, e.signals.flatMap (chunk c)⟩ := by
  have room := small.chunks (c := c)
  unfold Encoder.Small at small
  obtain ⟨offsets, all, -, each⟩ := finishSignals_spec (c := c) e.signals []
    (by rw [List.length_nil]; omega)
  rw [List.nil_append] at all each
  refine ⟨offsets, all, rep.ok, rfl, start, fun id tpe loadable => ?_⟩
  rcases loadable with known | derived
  · obtain ⟨enc, entry, holds⟩ := (rep.signals id).known known
    refine holds.found (fun k member => ?_) (Encoder.Small.signal small (List.mem_of_getElem? entry))
      entry rfl ?_
    · have inside : k.1 < cur.times.length := rep.ok.inside _ (Segment.mem_of member)
      have length := rep.ok.length
      unfold Encoder.blockTimeIdxMax at length
      omega
    · refine (each id (some enc) entry).trans ?_
      rw [List.length_nil, Nat.zero_add]
      rfl
  · obtain ⟨entry, unchanged⟩ := (rep.signals id).derived derived
    exact .inl ⟨unchanged, (Block.getOffsetAndLength_eq ..).trans (each id none entry)⟩

/-- Closing a block does not change what is represented. -/
theorem Represents.finishBlock {segs : List Segment} {cur : Segment} {e : Encoder}
    (rep : Represents c encodings segs cur e) (small : e.Small) :
    ∃ (e' : Encoder) (segs' : List Segment) (cur' : Segment), e.finishBlock c = some e' ∧
      Represents c encodings segs' cur' e' ∧ e'.hasNewData = false ∧
      e'.skippingTimeStep = e.skippingTimeStep ∧ cur'.times.length ≤ 1 ∧
      cur'.times.getLast? = cur.times.getLast? ∧
      timelineOf segs' = timelineOf (segs ++ [cur]) := by
  cases new : e.hasNewData with
  | false =>
    refine ⟨e, segs, cur, ?_, rep, new, rfl, ?_, rfl, (rep.timelineOf_old new).symm⟩
    · rw [Encoder.finishBlock, new]
      rfl
    · rcases (rep.old new).2 with ⟨-, empty⟩ | ⟨last, one, -⟩
      · rw [empty]; exact Nat.zero_le _
      · rw [one]; exact le_rfl
  | true =>
    have nonempty := rep.new new
    obtain ⟨startTime, start⟩ := Option.isSome_iff_exists.mp (List.isSome_head?.mpr nonempty)
    obtain ⟨last, ends⟩ : ∃ last, cur.times.getLast? = some last :=
      ⟨_, List.getLast?_eq_some_getLast nonempty⟩
    obtain ⟨offsets, all, stored⟩ := rep.stored small start
    let block : Block := ⟨startTime, cur.times, offsets, e.signals.flatMap (chunk c)⟩
    refine ⟨⟨[last], e.signals.map (·.map SignalEncoder.restart), false, e.skippingTimeStep,
      e.blocks ++ [block]⟩, segs ++ [cur], ⟨[last], []⟩, ?_,
      ⟨?_, rfl, ?_, ?_, nofun, fun _ => ⟨rfl, .inr ⟨last, rfl, ?_⟩⟩⟩, rfl, rfl, le_rfl, ?_, rfl⟩
    · rw [Encoder.finishBlock, new, if_pos rfl, all, rep.timeTable, start, ends]
      rfl
    · exact List.rel_append rep.blocks (.cons stored .nil)
    · exact ⟨by simp [Encoder.blockTimeIdxMax], by simp, .nil⟩
    · intro id
      have own := rep.signals id
      rw [List.getElem?_map]
      match encodings[id]?, e.signals[id]?, own with
      | some (some tpe), some (some enc), own => exact own.restart
      | some none, some none, _ => rfl
      | none, none, _ => trivial
    · rw [timelineOf_concat, Timeline.append]
      exact (getLast?_overlap nonempty).trans ends
    · exact ends.symm

/-- The recording ends where the block being filled does. -/
theorem Represents.getLast?_times {segs : List Segment} {cur : Segment} {e : Encoder}
    (rep : Represents c encodings segs cur e) :
    (timelineOf (segs ++ [cur])).times.getLast? = cur.times.getLast? := by
  rw [timelineOf_concat, Timeline.append]
  by_cases empty : cur.times = []
  · have new : e.hasNewData = false := by
      by_contra new
      exact rep.new (by simpa using new) empty
    rcases (rep.old new).2 with ⟨rfl, -⟩ | ⟨last, one, -⟩
    · exact congrArg List.getLast? (nil_overlap cur.times)
    · rw [empty] at one; cases one
  · exact getLast?_overlap empty

/-- A time step behind those of the block being filled. -/
theorem Represents.addTime {segs : List Segment} {cur : Segment} {e : Encoder}
    (rep : Represents c encodings segs cur e) (room : cur.times.length < Encoder.blockTimeIdxMax)
    (time : Nat) :
    Represents c encodings segs ⟨cur.times ++ [time], cur.changes⟩
        { e with timeTable := e.timeTable ++ [time], hasNewData := true, skippingTimeStep := false } ∧
      timelineOf (segs ++ [⟨cur.times ++ [time], cur.changes⟩]) =
        ⟨(timelineOf (segs ++ [cur])).times ++ [time], (timelineOf (segs ++ [cur])).changes⟩ := by
  refine ⟨⟨rep.blocks, congrArg (· ++ [time]) rep.timeTable, ⟨?_, ?_, rep.ok.ordered⟩, rep.signals,
    fun _ => by simp, nofun⟩, ?_⟩
  · rw [List.length_append]
    exact room
  · intro change member
    rw [List.length_append]
    exact Nat.lt_add_right 1 (rep.ok.inside change member)
  · have times : overlap (timelineOf segs).times (cur.times ++ [time]) =
        overlap (timelineOf segs).times cur.times ++ [time] := by
      by_cases empty : cur.times = []
      · have new : e.hasNewData = false := by
          by_contra new
          exact rep.new (by simpa using new) empty
        rcases (rep.old new).2 with ⟨rfl, -⟩ | ⟨last, one, -⟩
        · rw [empty, List.nil_append]
          rfl
        · rw [empty] at one; cases one
      · exact overlap_append _ empty [time]
    have changes : (Segment.timeline ⟨cur.times ++ [time], cur.changes⟩).changes =
        cur.timeline.changes := by
      refine List.map_congr_left fun change member => ?_
      simp only [Segment.time, List.getD_append _ _ _ _ (rep.ok.inside change member)]
    simp only [timelineOf_concat, Timeline.append, changes]
    exact congrArg (Timeline.mk · _) times

theorem Represents.pushTime {segs : List Segment} {cur : Segment} {e : Encoder}
    (rep : Represents c encodings segs cur e) (small : e.Small) (time : Nat) :
    ∃ (e' : Encoder) (segs' : List Segment) (cur' : Segment), e.pushTime c time = some e' ∧
      Represents c encodings segs' cur' e' ∧ e'.skippingTimeStep = false ∧
      timelineOf (segs' ++ [cur']) =
        ⟨(timelineOf (segs ++ [cur])).times ++ [time], (timelineOf (segs ++ [cur])).changes⟩ := by
  by_cases full : Encoder.blockTimeIdxMax ≤ e.timeTable.length
  · obtain ⟨e', segs', cur', finish, rep', old, -, short, -, same⟩ := rep.finishBlock small
    have room : cur'.times.length < Encoder.blockTimeIdxMax := by
      unfold Encoder.blockTimeIdxMax
      omega
    obtain ⟨next, timeline⟩ := rep'.addTime room time
    refine ⟨_, _, _, ?_, next, rfl, ?_⟩
    · rw [Encoder.pushTime, if_pos full, finish]
      rfl
    · rw [timeline, rep'.timelineOf_old old, same]
  · have room : cur.times.length < Encoder.blockTimeIdxMax := by
      rw [← rep.timeTable]
      omega
    obtain ⟨next, timeline⟩ := rep.addTime room time
    refine ⟨_, _, _, ?_, next, rfl, timeline⟩
    rw [Encoder.pushTime, if_neg full]
    rfl

theorem Segment.of_concat (times : List Nat) (changes : List (Nat × Nat × VcdValue))
    (change : Nat × Nat × VcdValue) (id : Nat) :
    (Segment.mk times (changes ++ [change])).of id =
      (Segment.mk times changes).of id ++ if change.1 = id then [change.2] else [] := by
  unfold Segment.of
  rw [List.filterMap_append]
  congr 1
  simp only [List.filterMap_cons, List.filterMap_nil]
  split <;> simp_all

/-- A change at the last time step of the block being filled. -/
theorem Represents.vcdValueChange {segs : List Segment} {cur : Segment} {e : Encoder}
    (rep : Represents c encodings segs cur e) (recording : e.skippingTimeStep = false)
    {id time : Nat} {tpe : SignalEncoding} {text : List UInt8} {v : VcdValue}
    (last : cur.times.getLast? = some time) (known : encodings[id]? = some (some tpe))
    (parse : VcdValue.parse c tpe text = some v) :
    ∃ (e' : Encoder) (cur' : Segment), e.vcdValueChange c id text = some e' ∧
      Represents c encodings segs cur' e' ∧ e'.skippingTimeStep = false ∧
      timelineOf (segs ++ [cur']) = ⟨(timelineOf (segs ++ [cur])).times,
        (timelineOf (segs ++ [cur])).changes ++ [(id, time, v)]⟩ := by
  obtain ⟨init, times⟩ := List.getLast?_eq_some_iff.mp last
  have length : cur.times.length = init.length + 1 := by rw [times, List.length_append]; rfl
  have room := rep.ok.length
  unfold Encoder.blockTimeIdxMax at room
  have timeIdx : (e.timeTable.length - 1) % 2 ^ 32 = init.length := by
    rw [rep.timeTable, length, Nat.add_sub_cancel]
    exact Nat.mod_eq_of_lt (by omega)
  have nonempty : e.timeTable.isEmpty = false := by rw [rep.timeTable, times]; simp
  obtain ⟨enc, entry, holds⟩ := (rep.signals id).known known
  obtain ⟨enc', added, holds'⟩ := holds.addVcdChange parse init.length
  refine ⟨{ e with signals := e.signals.set id (some enc'), hasNewData := true },
    ⟨cur.times, cur.changes ++ [(id, init.length, v)]⟩, ?_,
    ⟨rep.blocks, rep.timeTable, ⟨rep.ok.length, ?_, ?_⟩, ?_, fun _ => ?_, nofun⟩, recording, ?_⟩
  · simp only [Encoder.vcdValueChange, recording, nonempty, Bool.false_eq_true, if_false, timeIdx,
      entry, Option.join_some, Option.bind_eq_bind, Option.bind_some, added]
    rfl
  · intro change member
    rcases List.mem_append.mp member with old | new
    · exact rep.ok.inside change old
    · rw [List.mem_singleton.mp new, length]
      exact Nat.lt_succ_self _
  · refine List.pairwise_append.mpr ⟨rep.ok.ordered, List.pairwise_singleton .., ?_⟩
    intro change old change' new
    have inside := rep.ok.inside change old
    rw [List.mem_singleton.mp new]
    dsimp only
    omega
  · intro other
    rw [Segment.of_concat]
    by_cases same : id = other
    · subst same
      have bound := (List.getElem?_eq_some_iff.mp entry).1
      rw [if_pos rfl, known, List.getElem?_set_self bound]
      exact holds'
    · rw [if_neg same, List.append_nil, List.getElem?_set_ne same]
      exact rep.signals other
  · rw [times]
    simp
  · have own : cur.time init.length = time := by simp [Segment.time, times]
    simp only [timelineOf_concat, Timeline.append, Segment.timeline, List.map_append,
      List.map_singleton, List.append_assoc]
    exact congrArg (fun t => Timeline.mk _ (_ ++ (_ ++ [(id, t, v)]))) own

/-! ## Recordings -/

theorem Encoder.run_append (e : Encoder) (ops ops' : List DumpOp) :
    e.run c (ops ++ ops') = (e.run c ops).bind fun e => e.run c ops' :=
  List.foldlM_append ..

/-- An encoder that has recorded `r`. -/
def Refines (c : Crates) (encodings : List (Option SignalEncoding)) (r : Recording) (e : Encoder) :
    Prop :=
  ∃ segs cur, Represents c encodings segs cur e ∧ r.timeline = timelineOf (segs ++ [cur]) ∧
    r.skipping = e.skippingTimeStep

theorem Refines.empty (c : Crates) (encodings : List (Option SignalEncoding)) :
    Refines c encodings .empty (.new encodings) :=
  ⟨[], ⟨[], []⟩, .empty c encodings, rfl, rfl⟩

/-- What a call records is what the encoder has recorded after it. -/
theorem Refines.step {r r' : Recording} {e : Encoder} (refines : Refines c encodings r e)
    (small : e.Small) {op : DumpOp} (step : r.step c encodings op = some r') :
    ∃ e', e.step c op = some e' ∧ Refines c encodings r' e' := by
  obtain ⟨segs, cur, rep, timeline, skipping⟩ := refines
  have last : r.timeline.times.getLast? = e.timeTable.getLast? := by
    rw [timeline, rep.getLast?_times, rep.timeTable]
  have push (t : Nat) (next : r' = ⟨⟨r.timeline.times ++ [t], r.timeline.changes⟩, false⟩) :
      ∃ e', e.pushTime c t = some e' ∧ Refines c encodings r' e' := by
    obtain ⟨e', segs', cur', pushed, rep', recording, timeline'⟩ := rep.pushTime small t
    refine ⟨e', pushed, segs', cur', rep', ?_, ?_⟩
    · rw [next, timeline', timeline]
    · rw [next, recording]
  cases op with
  | time t =>
    rw [Recording.step, last] at step
    simp only [Encoder.step, Encoder.timeChange]
    cases prev : e.timeTable.getLast? with
    | none =>
      rw [prev] at step
      exact push t (Option.some.inj step).symm
    | some prevTime =>
      rw [prev] at step
      dsimp only at step ⊢
      split at step
      next same =>
        cases step
        rw [if_pos same]
        exact ⟨e, rfl, segs, cur, rep, timeline, skipping⟩
      next other =>
        rw [if_neg other]
        split at step
        next back =>
          cases step
          rw [if_pos back]
          exact ⟨_, rfl, segs, cur, { rep with }, timeline, rfl⟩
        next on =>
          rw [if_neg on]
          exact push t (Option.some.inj step).symm
  | value id text =>
    rw [Recording.step] at step
    split at step
    next skip =>
      cases step
      refine ⟨e, ?_, segs, cur, rep, timeline, skipping⟩
      rw [Encoder.step, Encoder.vcdValueChange, ← skipping, if_pos skip]
    next record =>
      simp only [Option.bind_eq_bind, Option.bind_eq_some_iff] at step
      obtain ⟨t, now, tpe, known, v, parse, next⟩ := step
      have recording : e.skippingTimeStep = false := by rw [← skipping]; simpa using record
      have here : cur.times.getLast? = some t := by rw [← rep.timeTable, ← last, now]
      obtain ⟨e', cur', changed, rep', on, timeline'⟩ :=
        rep.vcdValueChange recording here (Option.join_eq_some_iff.mp known) parse
      refine ⟨e', changed, segs, cur', rep', ?_, ?_⟩
      · rw [← Option.some.inj next, timeline', timeline]
      · rw [← Option.some.inj next, on]
        exact skipping.trans recording

/-- What a run records is what the encoder has recorded after it, as long as no block grows too
large. -/
theorem Refines.run {ops : List DumpOp} {r r' : Recording} {e : Encoder}
    (refines : Refines c encodings r e) (run : r.run c encodings ops = some r')
    (small : ∀ n e', e.run c (ops.take n) = some e' → e'.Small) :
    ∃ e', e.run c ops = some e' ∧ Refines c encodings r' e' ∧ e'.Small := by
  induction ops generalizing r e with
  | nil =>
    cases run
    exact ⟨e, rfl, refines, small 0 e rfl⟩
  | cons op ops ih =>
    rw [Recording.run, List.foldlM_cons, Option.bind_eq_bind, Option.bind_eq_some_iff] at run
    obtain ⟨next, step, rest⟩ := run
    obtain ⟨e', stepped, refines'⟩ := refines.step (small 0 e rfl) step
    have on (n : Nat) : e.run c ((op :: ops).take (n + 1)) = e'.run c (ops.take n) := by
      rw [Encoder.run, List.take_succ_cons, List.foldlM_cons, stepped]
      rfl
    obtain ⟨e'', all, last⟩ := ih refines' rest fun n e'' reached => small (n + 1) e'' (by rw [on, reached])
    refine ⟨e'', ?_, last⟩
    rw [Encoder.run, List.foldlM_cons, stepped]
    exact all

end Store

end RWave.Wellen
