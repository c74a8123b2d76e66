import RWave.Wellen.Store

/-!
# What is loaded is what was recorded

A reader goes through the blocks twice: for the meta-data of a signal, which also give each block the
place of its time steps in the whole time table, and for its data. Blocks that store the segments of a
time line give back the changes of that time line (`loadSignal_stored`), and so does an encoder that
has recorded a dump (`Closes.finish`).
-/

namespace RWave.Wellen

open RWave.Misc

section Load

variable {c : Crates} {encodings : List (Option SignalEncoding)}

/-! ## The time table -/

theorem Stored.times_ne_nil {seg : Segment} {block : Block} (stored : Stored c encodings seg block) :
    seg.times ≠ [] := by
  intro empty
  have start := stored.startTime
  rw [empty] at start
  cases start

theorem combineBlock_eq {table : List Nat} {block : Block} (nonempty : block.timeTable ≠ []) :
    Encoder.combineBlock (table, table.getLast?) block =
      some (overlap table block.timeTable, block.timeTable.getLast?) := by
  obtain ⟨startTime, rest, times⟩ := List.exists_cons_of_ne_nil nonempty
  obtain ⟨endTime, ends⟩ : ∃ endTime, (startTime :: rest).getLast? = some endTime :=
    ⟨_, List.getLast?_eq_some_getLast (by simp)⟩
  rw [Encoder.combineBlock, times, List.head?_cons, ends, overlap, List.head?_cons]
  split <;> simp_all

theorem foldlM_combineBlock {segs : List Segment} {blocks : List Block}
    (stored : List.Forall₂ (Stored c encodings) segs blocks) (before : List Segment) :
    blocks.foldlM Encoder.combineBlock
        ((timelineOf before).times, (timelineOf before).times.getLast?) =
      some ((timelineOf (before ++ segs)).times, (timelineOf (before ++ segs)).times.getLast?) := by
  induction stored generalizing before with
  | nil => rw [List.append_nil]; rfl
  | cons first rest ih =>
    rename_i seg block segs blocks
    have nonempty := first.times_ne_nil
    have here : (timelineOf (before ++ [seg])).times =
        overlap (timelineOf before).times block.timeTable := by
      rw [timelineOf_concat, first.timeTable]
      rfl
    have last : (timelineOf (before ++ [seg])).times.getLast? = block.timeTable.getLast? := by
      rw [here, getLast?_overlap (by rwa [first.timeTable])]
    have next := ih (before ++ [seg])
    rw [List.append_assoc, List.singleton_append, here, ← here, last] at next
    rw [List.foldlM_cons, combineBlock_eq (by rwa [first.timeTable]), ← here]
    exact next

theorem combineTimeTables_stored {segs : List Segment} {blocks : List Block}
    (stored : List.Forall₂ (Stored c encodings) segs blocks) :
    Encoder.combineTimeTables blocks = some (timelineOf segs).times := by
  have all := foldlM_combineBlock stored []
  rw [List.nil_append] at all
  exact congrArg (Option.map Prod.fst) all

/-! ## Meta-data -/

/-- What is collected of a block that holds these changes of the signal. -/
structure Collected (c : Crates) (tpe : SignalEncoding) (entry : Nat × List (Nat × VcdValue))
    (block : Nat × List UInt8 × SignalEncodingMetaData) : Prop where
  offset : block.1 = entry.1
  written : Written c tpe entry.2 block.2.1 block.2.2
  indices : ∀ k ∈ entry.2, k.1 < 2 ^ 16
  ordered : (entry.2.map Prod.fst).Pairwise (· ≤ ·)

/-- What is known after the blocks of `segs`: of each block that has the signal, where its time steps
begin in the whole time table, and its changes. -/
structure Collects (c : Crates) (tpe : SignalEncoding) (id : Nat) (segs : List Segment)
    (entries : List (Nat × List (Nat × VcdValue))) (collected : Reader.Collected) : Prop where
  offset : collected.timeIdxOffset = (timelineOf segs).times.length
  prev : collected.prevEndTime = (timelineOf segs).times.getLast?
  blocks : List.Forall₂ (Collected c tpe) entries collected.blockMetaData
  inside : ∀ entry ∈ entries, ∀ k ∈ entry.2, entry.1 + k.1 < (timelineOf segs).times.length
  changes : (entries.flatMap fun entry => entry.2.map fun k =>
      ((timelineOf segs).times[entry.1 + k.1]?, k.2)) =
    ((timelineOf segs).of id).map fun k => (some k.1, k.2)

theorem Collects.empty (c : Crates) (tpe : SignalEncoding) (id : Nat) :
    Collects c tpe id [] [] ⟨0, none, []⟩ := by
  refine ⟨rfl, rfl, .nil, by simp, rfl⟩

section Step

variable {tpe : SignalEncoding} {id : Nat} {before : List Segment} {seg : Segment} {block : Block}
  {entries : List (Nat × List (Nat × VcdValue))} {collected : Reader.Collected}

theorem times_concat (before : List Segment) (seg : Segment) :
    (timelineOf (before ++ [seg])).times = overlap (timelineOf before).times seg.times := by
  rw [timelineOf_concat]
  rfl

theorem Stored.length_concat (stored : Stored c encodings seg block) (before : List Segment) :
    (timelineOf (before ++ [seg])).times.length =
      overlapOffset (timelineOf before).times seg.times + seg.times.length := by
  rw [times_concat, length_overlap stored.times_ne_nil]

theorem Stored.getLast?_concat (stored : Stored c encodings seg block) (before : List Segment) :
    (timelineOf (before ++ [seg])).times.getLast? = seg.times.getLast? := by
  rw [times_concat, getLast?_overlap stored.times_ne_nil]

/-- Where a block's time steps begin in the whole time table, as the reader computes it. -/
theorem Collects.begins (collects : Collects c tpe id before entries collected)
    (stored : Stored c encodings seg block)
    (steps : (timelineOf (before ++ [seg])).times.length < 2 ^ 32) :
    (if collected.prevEndTime = some block.startTime then
      (collected.timeIdxOffset + (2 ^ 32 - 1)) % 2 ^ 32 else collected.timeIdxOffset) =
      overlapOffset (timelineOf before).times seg.times := by
  rw [stored.length_concat] at steps
  rw [collects.offset, collects.prev, ← stored.startTime, overlapOffset] at *
  split
  next same =>
    rw [if_pos same] at steps
    have positive : (timelineOf before).times.length ≠ 0 := by
      intro zero
      rw [List.length_eq_zero_iff.mp zero, stored.startTime] at same
      cases same
    omega
  next => rfl

/-- The changes collected before are where they were in the longer time table. -/
theorem Collects.inside_concat (collects : Collects c tpe id before entries collected) :
    ∀ entry ∈ entries, ∀ k ∈ entry.2,
      entry.1 + k.1 < (timelineOf (before ++ [seg])).times.length := by
  intro entry member k inside
  rw [times_concat]
  exact (collects.inside entry member k inside).trans_le (length_le_overlap ..)

theorem Collects.changes_concat (collects : Collects c tpe id before entries collected) :
    (entries.flatMap fun entry => entry.2.map fun k =>
        ((timelineOf (before ++ [seg])).times[entry.1 + k.1]?, k.2)) =
      ((timelineOf before).of id).map fun k => (some k.1, k.2) := by
  rw [← collects.changes, times_concat]
  refine List.flatMap_congr fun entry member => List.map_congr_left fun k inside => ?_
  rw [getElem?_overlap_left _ (collects.inside entry member k inside)]

/-- A block that does not have the signal. -/
theorem Collects.skip (collects : Collects c tpe id before entries collected)
    (stored : Stored c encodings seg block) (unchanged : seg.of id = []) :
    Collects c tpe id (before ++ [seg]) entries
      ⟨(timelineOf (before ++ [seg])).times.length, seg.times.getLast?, collected.blockMetaData⟩ := by
  refine ⟨rfl, (stored.getLast?_concat before).symm, collects.blocks, collects.inside_concat, ?_⟩
  rw [collects.changes_concat, timelineOf_concat, Timeline.of_append, Segment.of_timeline, unchanged,
    List.map_nil, List.append_nil]

/-- A block that has changes of the signal. -/
theorem Collects.add (collects : Collects c tpe id before entries collected)
    (stored : Stored c encodings seg block) {dataBlock : List UInt8} {md : SignalEncodingMetaData}
    (written : Written c tpe (seg.of id) dataBlock md) :
    Collects c tpe id (before ++ [seg])
      (entries ++ [(overlapOffset (timelineOf before).times seg.times, seg.of id)])
      ⟨(timelineOf (before ++ [seg])).times.length, seg.times.getLast?, collected.blockMetaData ++
        [(overlapOffset (timelineOf before).times seg.times, dataBlock, md)]⟩ := by
  have small : ∀ k ∈ seg.of id, k.1 < seg.times.length := fun k member =>
    stored.ok.inside _ (Segment.mem_of member)
  refine ⟨rfl, (stored.getLast?_concat before).symm, ?_, ?_, ?_⟩
  · refine List.rel_append collects.blocks (.cons ⟨rfl, written, ?_, stored.ok.of_ordered id⟩ .nil)
    intro k member
    have inside := small k member
    have room := stored.ok.length
    unfold Encoder.blockTimeIdxMax at room
    omega
  · intro entry member k inside
    rcases List.mem_append.mp member with old | new
    · exact collects.inside_concat entry old k inside
    · rw [List.mem_singleton.mp new] at inside ⊢
      rw [stored.length_concat]
      exact Nat.add_lt_add_left (small k inside) _
  · rw [List.flatMap_append, collects.changes_concat, timelineOf_concat, Timeline.of_append,
      Segment.of_timeline, List.map_append, List.flatMap_singleton, List.map_map,
      ← timelineOf_concat, times_concat]
    refine congrArg _ (List.map_congr_left fun k member => ?_)
    have inside := small k member
    rw [getElem?_overlap_right stored.times_ne_nil, Function.comp, Segment.time]
    simp [inside]

theorem Collects.step (loadable : Loadable encodings id tpe)
    (collects : Collects c tpe id before entries collected)
    (stored : Stored c encodings seg block)
    (steps : (timelineOf (before ++ [seg])).times.length < 2 ^ 32) :
    ∃ entries' collected', Reader.collectBlock c id collected block = some collected' ∧
      Collects c tpe id (before ++ [seg]) entries' collected' := by
  obtain ⟨endTime, ends⟩ : ∃ endTime, seg.times.getLast? = some endTime :=
    ⟨_, List.getLast?_eq_some_getLast stored.times_ne_nil⟩
  have begins := collects.begins stored steps
  have next : (overlapOffset (timelineOf before).times seg.times + seg.times.length) % 2 ^ 32 =
      (timelineOf (before ++ [seg])).times.length := by
    rw [stored.length_concat] at steps ⊢
    exact Nat.mod_eq_of_lt steps
  rcases stored.found id tpe loadable with
    ⟨unchanged, nothing⟩ | ⟨found, dataBlock, md, entry, data, written⟩
  · refine ⟨entries, _, ?_, collects.skip stored unchanged⟩
    simp only [Reader.collectBlock, stored.timeTable, ends, nothing, Option.bind_eq_bind,
      Option.bind_some, begins, next]
    rfl
  · refine ⟨_, _, ?_, collects.add stored written⟩
    simp only [Reader.collectBlock, stored.timeTable, ends, entry, data, Option.bind_eq_bind,
      Option.bind_some, begins, next]
    rfl

end Step

/-- All blocks. -/
theorem Collects.run {tpe : SignalEncoding} {id : Nat} {segs : List Segment} {blocks : List Block}
    (loadable : Loadable encodings id tpe)
    (stored : List.Forall₂ (Stored c encodings) segs blocks) {before : List Segment}
    {entries : List (Nat × List (Nat × VcdValue))} {collected : Reader.Collected}
    (collects : Collects c tpe id before entries collected)
    (steps : (timelineOf (before ++ segs)).times.length < 2 ^ 32) :
    ∃ entries' collected', blocks.foldlM (Reader.collectBlock c id) collected = some collected' ∧
      Collects c tpe id (before ++ segs) entries' collected' := by
  induction stored generalizing before entries collected with
  | nil =>
    rw [List.append_nil]
    exact ⟨entries, collected, rfl, collects⟩
  | cons first rest ih =>
    rename_i seg block segs blocks
    rw [List.append_cons] at steps ⊢
    have fewer : (timelineOf (before ++ [seg])).times.length < 2 ^ 32 := by
      refine lt_of_le_of_lt ?_ steps
      rw [timelineOf_append (before ++ [seg])]
      exact length_le_overlap ..
    obtain ⟨entries', collected', step, next⟩ := collects.step loadable first fewer
    obtain ⟨entries'', collected'', all, last⟩ := ih next steps
    refine ⟨entries'', collected'', ?_, last⟩
    rw [List.foldlM_cons, step]
    exact all

/-! ## Data -/

theorem States.le_foldl_join {first state : States} {states : List States}
    (member : state ∈ first :: states) : state.toByte ≤ (states.foldl States.join first).toByte := by
  induction states generalizing first state with
  | nil =>
    rw [List.mem_singleton.mp member]
    exact UInt8.le_refl _
  | cons next states ih =>
    rw [List.foldl_cons]
    rcases List.mem_cons.mp member with rfl | member
    · exact UInt8.le_trans (States.le_join_left _ next) (ih List.mem_cons_self)
    · rcases List.mem_cons.mp member with rfl | later
      · exact UInt8.le_trans (States.le_join_right first _) (ih List.mem_cons_self)
      · exact ih (List.mem_cons_of_mem _ later)

/-- The changes of the blocks with their places in the whole time table. -/
def placed (entries : List (Nat × List (Nat × VcdValue))) : List (Nat × VcdValue) :=
  entries.flatMap fun entry => entry.2.map fun k => (entry.1 + k.1, k.2)

/-- The blocks are loaded one behind the other. -/
theorem foldlM_loadBlock {tpe : SignalEncoding} {maxStates : States}
    {entries : List (Nat × List (Nat × VcdValue))}
    {blocks : List (Nat × List UInt8 × SignalEncodingMetaData)}
    (collected : List.Forall₂ (Collected c tpe) entries blocks)
    (states : ∀ block ∈ blocks, block.2.2.maxStates.toByte ≤ maxStates.toByte)
    (inside : ∀ entry ∈ entries, ∀ k ∈ entry.2, entry.1 + k.1 < 2 ^ 32)
    (kept : List (Nat × VcdValue)) (before : ∀ k ∈ kept, k.2.In maxStates tpe) :
    blocks.foldlM (loadBlock c tpe maxStates) (Loaded.of c maxStates kept) =
        some (Loaded.of c maxStates ((placed entries).foldl (destutterStep (Differ c)) kept)) ∧
      ∀ k ∈ (placed entries).foldl (destutterStep (Differ c)) kept, k.2.In maxStates tpe := by
  induction collected generalizing kept with
  | nil => exact ⟨rfl, before⟩
  | cons first rest ih =>
    rename_i entry block entries blocks
    obtain ⟨offset, dataBlock, md⟩ := block
    obtain ⟨rfl, written, indices, ordered⟩ := first
    have le : md.maxStates.toByte ≤ maxStates.toByte := states _ List.mem_cons_self
    have fits : ∀ k ∈ entry.2, k.1 < 2 ^ 16 ∧ k.2.In maxStates tpe ∧
        (k.2.body c).length < 2 ^ 32 := by
      intro k member
      obtain ⟨own, body⟩ := written.values k member
      exact ⟨indices k member, ⟨own.1, UInt8.le_trans own.2 le⟩, body⟩
    have here := loadData_write before fits ordered (inside entry List.mem_cons_self)
    have kept' : ∀ k ∈ (entry.2.map fun k => (entry.1 + k.1, k.2)).foldl
        (destutterStep (Differ c)) kept, k.2.In maxStates tpe := by
      refine fun k member => ?_
      rcases mem_foldl_destutterStep member with old | new
      · exact before k old
      · obtain ⟨k', own, rfl⟩ := List.mem_map.mp new
        exact (fits k' own).2.1
    obtain ⟨rest, all⟩ := ih (fun block member => states block (.tail _ member))
      (fun entry member => inside entry (.tail _ member)) _ kept'
    rw [placed, List.flatMap_cons, List.foldl_append]
    refine ⟨?_, all⟩
    rw [List.foldlM_cons, loadBlock_eq, written.data, Option.bind_some, here]
    exact rest

/-! ## Signals -/

theorem VcdValue.value_eq_event {v : VcdValue} : v.value c = .event ↔ v = .event := by
  cases v <;> simp [VcdValue.value]

/-- Blocks that store the segments of a time line give back what is seen of it. -/
theorem loadSignal_stored {segs : List Segment} {blocks : List Block}
    (stored : List.Forall₂ (Stored c encodings) segs blocks)
    (steps : (timelineOf segs).times.length < 2 ^ 32) {id : Nat} {tpe : SignalEncoding}
    (loadable : Loadable encodings id tpe) :
    ∃ signal changes, Reader.loadSignal c ⟨blocks⟩ id tpe = some signal ∧
      signal.iterChanges = some changes ∧
      changes.map (fun k => ((timelineOf segs).times[k.1]?, k.2.value)) =
        ((timelineOf segs).signal c id).map fun k => (some k.1, k.2) := by
  obtain ⟨entries, collected, all, collects⟩ := Collects.run loadable stored (.empty c tpe id) steps
  rw [List.nil_append] at collects
  obtain ⟨maxStates, metaData, states⟩ : ∃ maxStates,
      Reader.collectSignalMetaData c ⟨blocks⟩ id = some ⟨maxStates, collected.blockMetaData⟩ ∧
      ∀ block ∈ collected.blockMetaData, block.2.2.maxStates.toByte ≤ maxStates.toByte := by
    rw [Reader.collectSignalMetaData, all]
    refine ⟨_, rfl, fun block member => ?_⟩
    have inside := List.mem_map_of_mem (f := fun block => block.2.2.maxStates) member
    generalize collected.blockMetaData.map (fun block => block.2.2.maxStates) = states at inside
    cases states with
    | nil => cases inside
    | cons first states => exact States.le_foldl_join inside
  obtain ⟨folded, inside⟩ := foldlM_loadBlock collects.blocks states
    (fun entry member k inside => (collects.inside entry member k inside).trans steps)
    [] (by simp)
  rw [foldl_destutterStep] at folded inside
  obtain ⟨signal, changes, loaded, iter, values⟩ :=
    loadCompressedSignal_of ⟨maxStates, collected.blockMetaData⟩ inside folded
  refine ⟨signal, changes, ?_, iter, ?_⟩
  · rw [Reader.loadSignal, metaData]
    exact loaded
  · -- Times do not decide which changes are seen, so they may be looked up before or after.
    let seen (a b : Option Nat × SignalValue) : Prop := a.2 ≠ b.2 ∨ b.2 = .event
    have byPlace : ((placed entries).destutter (Differ c)).map
          (fun k => ((timelineOf segs).times[k.1]?, k.2.value c)) =
        ((placed entries).map fun k => ((timelineOf segs).times[k.1]?, k.2.value c)).destutter seen :=
      List.map_destutter fun a _ b _ => by simp [Differ, seen, VcdValue.value_eq_event]
    have byTime : ((timelineOf segs).signal c id).map (fun k => (some k.1, k.2)) =
        (((timelineOf segs).of id).map fun k => (some k.1, k.2.value c)).destutter seen := by
      have commute (l : List (Nat × SignalValue)) :
          (l.destutter SignalValue.Differ).map (fun k => (some k.1, k.2)) =
            (l.map fun k => (some k.1, k.2)).destutter seen :=
        List.map_destutter fun a _ b _ => Iff.rfl
      rw [Timeline.signal, commute, List.map_map]
      rfl
    have same := congrArg (List.map fun k => (k.1, k.2.value c)) collects.changes
    have looked : changes.map (fun k => ((timelineOf segs).times[k.1]?, k.2.value)) =
        (changes.map fun k => (k.1, k.2.value)).map fun k => ((timelineOf segs).times[k.1]?, k.2) := by
      rw [List.map_map]
      rfl
    rw [looked, values, List.map_map, byTime]
    refine byPlace.trans (congrArg (List.destutter seen) ?_)
    simpa [placed, List.map_flatMap, Function.comp_def] using same

/-! ## Encoders -/

/-- An encoder whose blocks, once the last of them is closed, store the time line. -/
def Closes (c : Crates) (encodings : List (Option SignalEncoding)) (tl : Timeline) (e : Encoder) :
    Prop :=
  ∃ e' segs, e.finishBlock c = some e' ∧ e'.hasNewData = false ∧
    List.Forall₂ (Stored c encodings) segs e'.blocks ∧ timelineOf segs = tl

theorem Refines.closes {r : Recording} {e : Encoder} (refines : Refines c encodings r e)
    (small : e.Small) : Closes c encodings r.timeline e := by
  obtain ⟨segs, cur, rep, timeline, -⟩ := refines
  obtain ⟨e', segs', cur', finish, rep', old, -, -, -, same⟩ := rep.finishBlock small
  exact ⟨e', segs', finish, old, rep'.blocks, same.trans timeline.symm⟩

/-- Appending an encoder puts its time line behind the other. -/
theorem Closes.append {tl tl' : Timeline} {e other : Encoder} (closes : Closes c encodings tl e)
    (nonempty : tl.times ≠ []) (closes' : Closes c encodings tl' other) :
    ∃ both, e.append c other = some both ∧ Closes c encodings (tl.append tl') both := by
  obtain ⟨e', segs, finish, old, stored, rfl⟩ := closes
  obtain ⟨other', segs', finish', old', stored', rfl⟩ := closes'
  have again (both : Encoder) (old : both.hasNewData = false) : both.finishBlock c = some both := by
    rw [Encoder.finishBlock, old]
    rfl
  simp only [Encoder.append, finish, finish', Option.bind_eq_bind, Option.bind_some]
  generalize other'.blocks = blocks' at stored'
  cases stored' with
  | nil =>
    refine ⟨e', rfl, e', segs, again e' old, old, stored, ?_⟩
    exact (Timeline.append_empty _).symm
  | cons first rest =>
    have some' : e'.blocks.isEmpty = false := by
      rw [List.isEmpty_eq_false_iff]
      intro empty
      rw [empty, List.forall₂_nil_right_iff] at stored
      exact nonempty (by rw [stored]; rfl)
    rw [some']
    exact ⟨_, rfl, _, _, again _ old, old, List.rel_append stored (.cons first rest),
      timelineOf_append ..⟩

/-- What a reader gives back of a time line. -/
def Gives (c : Crates) (encodings : List (Option SignalEncoding)) (tl : Timeline) (reader : Reader) :
    Prop :=
  ∀ id tpe, Loadable encodings id tpe → ∃ signal changes,
    reader.loadSignal c id tpe = some signal ∧ signal.iterChanges = some changes ∧
    changes.map (fun k => (tl.times[k.1]?, k.2.value)) =
      (tl.signal c id).map fun k => (some k.1, k.2)

theorem Closes.finish {tl : Timeline} {e : Encoder} (closes : Closes c encodings tl e)
    (steps : tl.times.length < 2 ^ 32) :
    ∃ reader, e.finish c = some (reader, tl.times) ∧ Gives c encodings tl reader := by
  obtain ⟨e', segs, finish, old, stored, rfl⟩ := closes
  refine ⟨⟨e'.blocks⟩, ?_, fun id tpe loadable => loadSignal_stored stored steps loadable⟩
  rw [Encoder.finish, finish]
  simp only [Option.bind_eq_bind, Option.bind_some, combineTimeTables_stored stored]
  rfl

/-- An encoder that has taken a dump gives it back: the time table has the time steps that were
recorded, and a signal has the changes that were recorded of it, each at its time, without those that
change nothing. The block being filled is never to grow beyond 4 GiB, and time indices are `u32`. -/
theorem Encoder.finish_run {ops : List DumpOp} {r : Recording}
    (run : Recording.empty.run c encodings ops = some r)
    (small : ∀ n e, (Encoder.new encodings).run c (ops.take n) = some e → e.Small)
    (steps : r.timeline.times.length < 2 ^ 32) :
    ∃ e reader, (Encoder.new encodings).run c ops = some e ∧
      e.finish c = some (reader, r.timeline.times) ∧ Gives c encodings r.timeline reader := by
  obtain ⟨e, ran, refines, least⟩ := (Refines.empty c encodings).run run small
  obtain ⟨reader, finish, gives⟩ := (refines.closes least).finish steps
  exact ⟨e, reader, ran, finish, gives⟩

end Load

/-- Crates of which only `leb128` is used, as for a dump without strings and reals whose blocks are
too short to be compressed. -/
def plainCrates : Crates where
  leb128 := Leb128.code 9
  leb128_bound := by decide
  length_leb128 n _ := Leb128.length_write 9 n
  compress := id
  decompress data _ := some data
  decompress_compress _ _ _ := rfl
  fromUtf8Lossy bytes := .ofList (bytes.map fun b => Char.ofNat b.toNat)
  parseReal _ := none
  wholeReal _ := none

/-- A dump that goes back once and sets a value twice. -/
def shortDump : List DumpOp :=
  [.time 0, .value 0 [ascii '1'], .value 1 [ascii 'b', ascii 'x', ascii '1'], .time 5,
    .value 0 [ascii '0'], .time 3, .value 0 [ascii '1'], .time 7, .value 0 [ascii '0'],
    .value 1 [ascii 'b', ascii '1']]

/-- The third signal is derived from others. -/
def shortEncodings : List (Option SignalEncoding) := [some (.bitVector 1), some (.bitVector 4), none]

/-- What it records. -/
def shortRecording : Recording :=
  ⟨⟨[0, 5, 7], [(0, 0, .bits [1]), (1, 0, .bits [2, 2, 2, 1]), (0, 5, .bits [0]),
    (0, 7, .bits [0]), (1, 7, .bits [0, 0, 0, 1])]⟩, false⟩

instance (e : Encoder) : Decidable e.Small := inferInstanceAs (Decidable (_ < _))

theorem shortDump_finish_run : ∃ e reader,
    (Encoder.new shortEncodings).run plainCrates shortDump = some e ∧
      e.finish plainCrates = some (reader, [0, 5, 7]) ∧
      Gives plainCrates shortEncodings shortRecording.timeline reader := by
  have recorded : Recording.empty.run plainCrates shortEncodings shortDump = some shortRecording := by
    decide +kernel
  have small : ∀ n ≤ shortDump.length, ∀ e ∈ (Encoder.new shortEncodings).run plainCrates
      (shortDump.take n), e.Small := by
    decide +kernel
  refine Encoder.finish_run recorded (fun n e reached => ?_) (by decide)
  rcases Nat.le_total n shortDump.length with before | behind
  · exact small n before e reached
  · rw [List.take_of_length_le behind] at reached
    exact small _ le_rfl e (by rw [List.take_length]; exact reached)

end RWave.Wellen
