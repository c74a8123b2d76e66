import RWave.Wellen.Parts
import RWave.Wellen.VcdChunks
import RWave.Wellen.VcdText

/-!
# A body read in chunks

`read_values` cuts a body into chunks of bytes wherever it may be and reads them by themselves. The
chunks' lines are the lines of the body, each in one chunk (`flatten_chunkOps`), so that what is read
does not depend on the number of threads (`readValues_recorded`), and a dump that is written is read
back (`readValues_written`).
-/

namespace RWave.Wellen

open RWave.Misc

/-! ## The chunks -/

theorem le_mul_divCeil (a : Nat) {b : Nat} (pos : 0 < b) : a ≤ b * divCeil a b := by
  have cut := Nat.div_add_mod (a + (b - 1)) b
  have rest := Nat.mod_lt (a + (b - 1)) pos
  unfold divCeil
  omega

theorem mul_divCeil_lt (a : Nat) {b : Nat} (pos : 0 < b) : b * divCeil a b < a + b := by
  have cut := Nat.div_add_mod (a + (b - 1)) b
  unfold divCeil
  omega

/-- How a body is cut by `determine_thread_chunks`. -/
structure Cut (len count size : Nat) : Prop where
  positive : 0 < count
  full : 0 < size
  covers : len ≤ count * size
  inside : ∀ k < count, k * size ≤ len
  long : count = 1 ∨ 4096 < size

/-- With at most 8193 threads every chunk begins in the body, and if there are several, a chunk is
longer than 4 KiB. -/
theorem cut_determineThreadChunks {maxThreads len : Nat} (threads : 0 < maxThreads)
    (few : maxThreads ≤ 8193) (positive : 0 < len) :
    ∃ count size, Cut len count size ∧
      determineThreadChunks maxThreads len =
        (List.range count).map fun k => (k * size, size) := by
  refine ⟨min maxThreads (divCeil len minChunkSize),
    divCeil len (min maxThreads (divCeil len minChunkSize)), ?_, rfl⟩
  have most : minChunkSize * divCeil len minChunkSize < len + minChunkSize :=
    mul_divCeil_lt len (by decide)
  have least : len ≤ minChunkSize * divCeil len minChunkSize := le_mul_divCeil len (by decide)
  unfold minChunkSize at most least ⊢
  obtain ⟨n, count⟩ : ∃ n, min maxThreads (divCeil len (8 * 1024)) = n + 1 :=
    ⟨_, (Nat.succ_pred_eq_of_pos (by omega)).symm⟩
  have bound : 8192 * n < len := by omega
  have small : n ≤ 8192 := by omega
  rw [count]
  have covers : len ≤ (n + 1) * divCeil len (n + 1) := le_mul_divCeil len n.succ_pos
  have tight : (n + 1) * divCeil len (n + 1) < len + (n + 1) := mul_divCeil_lt len n.succ_pos
  generalize divCeil len (n + 1) = size at covers tight
  have full : 0 < size := by
    rcases Nat.eq_zero_or_pos size with rfl | pos
    · omega
    · exact pos
  have enough : n ≤ size := by
    by_contra less
    have squared : (n + 1) * size ≤ (n + 1) * (n - 1) := Nat.mul_le_mul_left _ (by omega)
    have linear : n * n ≤ 8192 * n := Nat.mul_le_mul_right n small
    have product : (n + 1) * (n - 1) + 1 = n * n := by
      obtain ⟨m, rfl⟩ : ∃ m, n = m + 1 := ⟨n - 1, by omega⟩
      rw [Nat.add_sub_cancel]
      ring
    omega
  refine ⟨n.succ_pos, full, covers, fun k before => ?_, ?_⟩
  · have le : k * size ≤ n * size := Nat.mul_le_mul_right size (by omega)
    rw [Nat.succ_mul] at tight
    omega
  · rcases Nat.eq_zero_or_pos n with rfl | several
    · exact .inl rfl
    · refine .inr (by_contra fun short => ?_)
      have product : (n + 1) * size ≤ (n + 1) * 4096 := Nat.mul_le_mul_left _ (by omega)
      omega

/-! ## The lines of the chunks -/

namespace BodyLine

theorem lt_of_mem_place {newline : Nat} {lines : List BodyLine} {l : Nat × BodyLine}
    (member : l ∈ place newline lines) : l.1 < newline + (render lines).length := by
  induction lines generalizing newline with
  | nil => cases member
  | cons m lines ih =>
    have length : (render (m :: lines)).length = m.text.length + 1 + (render lines).length := by
      rw [render, List.flatMap_cons, List.length_append, List.length_append]
      rfl
    rw [length]
    rcases List.mem_cons.mp member with rfl | later
    · omega
    · have := ih later
      omega

theorem fromTime_eq_nil {start : Nat} {lines : List (Nat × BodyLine)}
    (before : ∀ l ∈ lines, l.1 < start) : fromTime start lines = [] := by
  refine List.dropWhile_eq_nil_iff.mpr fun l member => ?_
  have := before l member
  simp [this]

theorem isSome_of_fromTime {start : Nat} {lines rest : List (Nat × BodyLine)} {l : Nat × BodyLine}
    (begins : fromTime start lines = l :: rest) : l.2.time.isSome := by
  have nonempty : fromTime start lines ≠ [] := by simp [begins]
  have head : (fromTime start lines).head nonempty = l := by simp [begins]
  have stopped := List.head_dropWhile_not _ nonempty
  rw [Bool.not_eq_false', Bool.and_eq_true] at stopped
  rw [← head]
  exact stopped.1

/-- The lines in front of the stop belong to a chunk. -/
theorem mem_untilTime {stop newline : Nat} {lines : List BodyLine} {l : Nat × BodyLine}
    (member : l ∈ place newline lines) (before : l.1 < stop) :
    l ∈ untilTime stop (place newline lines) := by
  induction lines generalizing newline with
  | nil => cases member
  | cons m lines ih =>
    have le := le_of_mem_place member
    rw [place, untilTime, List.takeWhile_cons, if_pos (by simp; omega)]
    rcases List.mem_cons.mp member with rfl | later
    · exact List.mem_cons_self
    · exact .tail _ (ih later)

theorem map_snd_place (newline : Nat) (lines : List BodyLine) :
    (place newline lines).map Prod.snd = lines := by
  induction lines generalizing newline with
  | nil => rfl
  | cons l lines ih => exact congrArg (l :: ·) (ih _)

end BodyLine

open BodyLine (place untilTime fromTime)

variable (lookup : IdLookup)

/-- What some lines make the encoder do. -/
def opsOf (lines : List (Nat × BodyLine)) : List DumpOp := lines.flatMap fun l => l.2.ops lookup

/-- What the `k`th chunk makes its encoder do. -/
def chunkOps (lines : List (Nat × BodyLine)) (size k : Nat) : List DumpOp :=
  if k = 0 then withStart (opsOf lookup (untilTime size lines))
  else opsOf lookup (untilTime ((k + 1) * size) (fromTime (k * size) lines))

variable {lookup}

theorem withStart_append {ops : List DumpOp} (nonempty : ops ≠ []) (ops' : List DumpOp) :
    withStart (ops ++ ops') = withStart ops ++ ops' := by
  obtain ⟨op, ops, rfl⟩ := List.exists_cons_of_ne_nil nonempty
  cases op <;> rfl

theorem starts_withStart (ops : List DumpOp) : Recording.Starts (withStart ops) := by
  cases ops with
  | nil => exact .inl rfl
  | cons op ops =>
    cases op with
    | time t => exact .inr ⟨t, ops, rfl⟩
    | value id text => exact .inr ⟨0, .value id text :: ops, rfl⟩

/-- A chunk behind the first one begins with a time. -/
theorem starts_chunkOps (lines : List (Nat × BodyLine)) (size k : Nat) :
    Recording.Starts (chunkOps lookup lines size k) := by
  rw [chunkOps]
  split
  · exact starts_withStart _
  · cases own : untilTime ((k + 1) * size) (fromTime (k * size) lines) with
    | nil => exact .inl rfl
    | cons l rest =>
      obtain ⟨tail, begins⟩ : l :: rest <+: fromTime (k * size) lines := own ▸ List.takeWhile_prefix _
      obtain ⟨t, time⟩ := Option.isSome_iff_exists.mp (BodyLine.isSome_of_fromTime begins.symm)
      refine .inr ⟨t, l.2.values.map (BodyLine.valueOp lookup) ++ opsOf lookup rest, ?_⟩
      rw [opsOf, List.flatMap_cons, BodyLine.ops, time]
      rfl

/-- Each line of the body is in one chunk. -/
theorem flatten_chunkOps {lines : List (Nat × BodyLine)} {count size : Nat} (positive : 0 < count)
    (inside : ∀ l ∈ lines, l.1 < count * size) (first : opsOf lookup (untilTime size lines) ≠ []) :
    ((List.range count).map (chunkOps lookup lines size)).flatten =
      withStart (opsOf lookup lines) := by
  obtain ⟨n, rfl⟩ : ∃ n, count = n + 1 := ⟨count - 1, by omega⟩
  have later : ∀ k ∈ List.range' 1 n, chunkOps lookup lines size k =
      opsOf lookup (untilTime ((k + 1) * size) (fromTime (k * size) lines)) := by
    intro k member
    rw [List.mem_range'_1] at member
    exact if_neg (by omega)
  have rest := BodyLine.fromTime_chunks lines size 1 n
  rw [Nat.one_mul, Nat.add_comm 1 n, BodyLine.fromTime_eq_nil inside, List.append_nil] at rest
  have whole : lines = untilTime size lines ++ fromTime size lines :=
    List.takeWhile_append_dropWhile.symm
  have all : opsOf lookup lines = opsOf lookup (untilTime size lines) ++
      opsOf lookup (fromTime size lines) := by
    conv_lhs => rw [whole]
    exact List.flatMap_append
  rw [List.range_eq_range', List.range'_succ, List.map_cons, List.flatten_cons,
    List.map_congr_left later, all, withStart_append first, rest]
  refine congrArg (chunkOps lookup lines size 0 ++ ·) ?_
  rw [opsOf, List.flatMap_assoc, List.flatMap_def]
  rfl

/-! ## The encoders of the chunks -/

section

variable {c : Crates} {encodings : List (Option SignalEncoding)} {skip : List UInt8}
  {lines : List BodyLine}

theorem readSingleStreamOfValues_chunk (noNewline : ascii '\n' ∉ skip) (ok : ∀ l ∈ lines, l.Ok c)
    (named : ∀ l ∈ lines, l.Named lookup) {size : Nat} (full : 0 < size) (k : Nat) :
    readSingleStreamOfValues c lookup encodings
        ((skip ++ ascii '\n' :: BodyLine.render lines).drop (k * size)) (size - 1) (k * size = 0) =
      orPanic ((Encoder.new encodings).run c
        (chunkOps lookup (place skip.length lines) size k)) := by
  have stop : k * size + (size - 1) + 1 = (k + 1) * size := by
    rw [Nat.succ_mul]
    omega
  have named' {own : List (Nat × BodyLine)} (sub : own.Sublist (place skip.length lines)) :
      ∀ l ∈ own.map Prod.snd, l.Named lookup := by
    intro l member
    have whole := (sub.map Prod.snd).subset member
    rw [BodyLine.map_snd_place] at whole
    exact named l whole
  have read (first : Bool) := (VcdEncoder.output c lookup).parseBody_drop ok noNewline (size - 1)
    (k * size) (.new encodings first)
  rw [stop] at read
  have body (first : Bool) : readSingleStreamOfValues c lookup encodings
      ((skip ++ ascii '\n' :: BodyLine.render lines).drop (k * size)) (size - 1) first =
      Except.map (·.enc) (BodyLine.sendAll (VcdEncoder.output c lookup)
        ((untilTime ((k + 1) * size)
          ((place skip.length lines).dropWhile fun l => l.1 < k * size)).map Prod.snd)
        (.new encodings first)) := by
    rw [← read, readSingleStreamOfValues]
    cases (VcdEncoder.output c lookup).parseBody c (size - 1) (.new encodings first)
      ((skip ++ ascii '\n' :: BodyLine.render lines).drop (k * size)) <;> rfl
  have sub : (untilTime ((k + 1) * size)
      ((place skip.length lines).dropWhile fun l => l.1 < k * size)).Sublist
        (place skip.length lines) :=
    (List.takeWhile_prefix _).sublist.trans (List.dropWhile_suffix _).sublist
  rw [body]
  cases k with
  | zero =>
    have all : (place skip.length lines).dropWhile (fun l => decide (l.1 < 0 * size)) =
        place skip.length lines := by
      rw [Nat.zero_mul]
      cases place skip.length lines <;> rfl
    have first : decide (0 * size = 0) = true := by simp
    rw [first, VcdEncoder.sendAll_first encodings (named' sub), all, Nat.zero_add, Nat.one_mul,
      List.flatMap_map]
    rfl
  | succ k =>
    have later : decide ((k + 1) * size = 0) = false := by
      have : 0 < (k + 1) * size := Nat.mul_pos k.succ_pos full
      exact decide_eq_false (by omega)
    rw [later, VcdEncoder.sendAll_later encodings (named' sub), List.dropWhile_map,
      Function.comp_def, BodyLine.dropWhile_untilTime, List.flatMap_map]
    rfl

/-- A body that is recorded: each of its lines can be read by itself and names signals only, there is
a time or a value in the first 4 KiB, the times do not go back, and no block grows beyond 4 GiB. -/
structure Readable (c : Crates) (lookup : IdLookup) (encodings : List (Option SignalEncoding))
    (skip : List UInt8) (lines : List BodyLine) (r : Recording) : Prop where
  no_newline : ascii '\n' ∉ skip
  ok : ∀ l ∈ lines, l.Ok c
  named : ∀ l ∈ lines, l.Named lookup
  early : ∃ l ∈ place skip.length lines, l.1 < 4096 ∧ l.2.ops lookup ≠ []
  recorded : Recording.empty.run c encodings
    (withStart (lines.flatMap (BodyLine.ops lookup))) = some r
  ordered : (opTimes (withStart (lines.flatMap (BodyLine.ops lookup)))).Pairwise (· ≤ ·)
  small : ∀ part, part <:+: withStart (lines.flatMap (BodyLine.ops lookup)) →
    ∀ e, (Encoder.new encodings).run c part = some e → e.Small
  steps : r.timeline.times.length < 2 ^ 32

theorem length_body (skip : List UInt8) (lines : List BodyLine) :
    (skip ++ ascii '\n' :: BodyLine.render lines).length =
      skip.length + (BodyLine.render lines).length + 1 := by
  rw [List.length_append, List.length_cons, ← Nat.add_assoc]

theorem opsOf_place (newline : Nat) (lines : List BodyLine) :
    opsOf lookup (place newline lines) = lines.flatMap (BodyLine.ops lookup) := by
  conv_rhs => rw [← BodyLine.map_snd_place newline lines, List.flatMap_map]
  rfl

theorem opsOf_untilTime_ne_nil {len count size : Nat} (cut : Cut len count size)
    (inside : ∀ l ∈ place skip.length lines, l.1 < len)
    (early : ∃ l ∈ place skip.length lines, l.1 < 4096 ∧ l.2.ops lookup ≠ []) :
    opsOf lookup (untilTime size (place skip.length lines)) ≠ [] := by
  obtain ⟨l, member, soon, opsOf⟩ := early
  have before : l.1 < size := by
    rcases cut.long with rfl | long
    · have covers := cut.covers
      have := inside l member
      omega
    · omega
  intro empty
  exact opsOf (List.flatMap_eq_nil_iff.mp empty l (BodyLine.mem_untilTime member before))

/-- The chunks of a body, read by themselves and put behind one another. -/
theorem Readable.read_cut {r : Recording} (readable : Readable c lookup encodings skip lines r)
    {count size : Nat}
    (cut : Cut (skip ++ ascii '\n' :: BodyLine.render lines).length count size) :
    ∃ e es all reader,
      List.Forall₂ (fun k e => readSingleStreamOfValues c lookup encodings
        ((skip ++ ascii '\n' :: BodyLine.render lines).drop (k * size)) (size - 1) (k * size = 0) =
          .ok e) (List.range count) (e :: es) ∧
      es.foldlM (Encoder.append c) e = some all ∧
      all.finish c = some (reader, r.timeline.times) ∧ Gives c encodings r.timeline reader := by
  have inside : ∀ l ∈ place skip.length lines,
      l.1 < (skip ++ ascii '\n' :: BodyLine.render lines).length := by
    intro l member
    have := BodyLine.lt_of_mem_place member
    rw [length_body]
    omega
  obtain ⟨noNewline, ok, named, early, recorded, ordered, small, steps⟩ := readable
  have first := opsOf_untilTime_ne_nil cut inside early
  have flat := flatten_chunkOps cut.positive (fun l member => (inside l member).trans_le cut.covers) first
  obtain ⟨n, rfl⟩ : ∃ n, count = n + 1 := ⟨count - 1, by have := cut.positive; omega⟩
  have parts : (List.range (n + 1)).map (chunkOps lookup (place skip.length lines) size) =
      chunkOps lookup (place skip.length lines) size 0 ::
        (List.range' 1 n).map (chunkOps lookup (place skip.length lines) size) := by
    rw [List.range_eq_range', List.range'_succ, List.map_cons]
  rw [opsOf_place] at flat
  rw [← flat] at recorded ordered small
  have small' : ∀ own ∈ (List.range (n + 1)).map (chunkOps lookup (place skip.length lines) size),
      ∀ m e, (Encoder.new encodings).run c (own.take m) = some e → e.Small :=
    fun own member m e => small _ ((List.take_prefix m own).isInfix.trans
      (List.infix_of_mem_flatten member)) e
  have starts : ∀ own ∈ (List.range (n + 1)).map (chunkOps lookup (place skip.length lines) size),
      Recording.Starts own := by
    intro own member
    obtain ⟨k, -, rfl⟩ := List.mem_map.mp member
    exact starts_chunkOps _ size k
  rw [parts] at recorded ordered small' starts
  have nonempty : chunkOps lookup (place skip.length lines) size 0 ≠ [] := by
    obtain ⟨op, ops, whole⟩ := List.exists_cons_of_ne_nil first
    rw [chunkOps, if_pos rfl, whole]
    cases op <;> exact List.cons_ne_nil _ _
  obtain ⟨e, es, all, reader, ran, rans, appended, finish, gives⟩ :=
    finish_parts starts nonempty ordered recorded small' steps
  have ranAll : List.Forall₂ (fun own e => (Encoder.new encodings).run c own = some e)
      ((List.range (n + 1)).map (chunkOps lookup (place skip.length lines) size)) (e :: es) := by
    rw [parts]
    exact .cons ran rans
  rw [List.forall₂_map_left_iff] at ranAll
  refine ⟨e, es, all, reader, ranAll.imp fun k e ran => ?_, appended, finish, gives⟩
  rw [readSingleStreamOfValues_chunk noNewline ok named cut.full, ran]
  rfl

/-- A readable body gives back what is recorded of it, whatever the number of threads. -/
theorem readValues_recorded {r : Recording} (readable : Readable c lookup encodings skip lines r)
    {threads : Option Nat} (few : ∀ n, threads = some n → 0 < n ∧ n ≤ 8193) :
    ∃ reader, readValues c lookup encodings (skip ++ ascii '\n' :: BodyLine.render lines) threads =
        .ok (reader, r.timeline.times) ∧ Gives c encodings r.timeline reader := by
  have positive : 0 < (skip ++ ascii '\n' :: BodyLine.render lines).length := by
    rw [length_body]
    exact Nat.succ_pos _
  have full : (skip ++ ascii '\n' :: BodyLine.render lines).isEmpty = false := by
    rw [List.isEmpty_eq_false_iff]
    exact List.ne_nil_of_length_pos positive
  cases threads with
  | none =>
    have cut : Cut (skip ++ ascii '\n' :: BodyLine.render lines).length 1
        (skip ++ ascii '\n' :: BodyLine.render lines).length :=
      ⟨Nat.one_pos, positive, by omega, fun k before => by simp [Nat.lt_one_iff.mp before], .inl rfl⟩
    obtain ⟨e, es, all, reader, read, appended, finish, gives⟩ :=
      readable.read_cut cut
    cases read with
    | cons first rest =>
      cases rest
      cases appended
      refine ⟨reader, ?_, gives⟩
      rw [Nat.zero_mul, List.drop_zero] at first
      rw [readValues, full]
      dsimp only [bind, Except.bind]
      have one : decide (0 = 0) = true := rfl
      rw [one] at first
      rw [if_neg Bool.false_ne_true, first]
      dsimp only
      rw [finish]
      rfl
  | some n =>
    obtain ⟨pos, most⟩ := few n rfl
    obtain ⟨count, size, cut, chunks⟩ := cut_determineThreadChunks pos most positive
    obtain ⟨e, es, all, reader, read, appended, finish, gives⟩ :=
      readable.read_cut cut
    have each : (determineThreadChunks n
        (skip ++ ascii '\n' :: BodyLine.render lines).length).mapM (fun chunk =>
          if chunk.1 ≤ (skip ++ ascii '\n' :: BodyLine.render lines).length then
            readSingleStreamOfValues c lookup encodings
              ((skip ++ ascii '\n' :: BodyLine.render lines).drop chunk.1) (chunk.2 - 1) (chunk.1 = 0)
          else .error .panic) = .ok (e :: es) := by
      rw [chunks, mapM_eq_ok, List.forall₂_map_left_iff]
      obtain ⟨length, pairs⟩ := List.forall₂_iff_zip.mp read
      refine List.forall₂_iff_zip.mpr ⟨length, fun {k e} member => ?_⟩
      rw [if_pos (cut.inside k (List.mem_range.mp (List.of_mem_zip member).1))]
      exact pairs member
    refine ⟨reader, ?_, gives⟩
    rw [readValues, full, if_neg Bool.false_ne_true]
    dsimp only
    rw [each]
    dsimp only [bind, Except.bind]
    rw [appended]
    dsimp only [orPanic]
    rw [finish]

/-- What a written dump makes the encoder do. -/
def dumpOps (lookup : IdLookup) (dump : List DumpLine) : List DumpOp :=
  withStart (dump.flatMap fun l => l.bodyLine.ops lookup)

/-- The text of a written dump behind its header, with the rest of the header's last line in front. -/
def bodyText (skip : List UInt8) (dump : List DumpLine) : List UInt8 :=
  skip ++ ascii '\n' :: BodyLine.render (dump.map DumpLine.bodyLine)

/-- A dump that can be written and recorded. -/
structure Writable (c : Crates) (lookup : IdLookup) (encodings : List (Option SignalEncoding))
    (skip : List UInt8) (dump : List DumpLine) (r : Recording) : Prop where
  no_newline : ascii '\n' ∉ skip
  ok : ∀ l ∈ dump, l.Ok
  named : ∀ l ∈ dump, l.bodyLine.Named lookup
  early : ∃ l ∈ place skip.length (dump.map DumpLine.bodyLine), l.1 < 4096 ∧ l.2.ops lookup ≠ []
  recorded : Recording.empty.run c encodings (dumpOps lookup dump) = some r
  ordered : (opTimes (dumpOps lookup dump)).Pairwise (· ≤ ·)
  small : ∀ part, part <:+: dumpOps lookup dump →
    ∀ e, (Encoder.new encodings).run c part = some e → e.Small
  steps : r.timeline.times.length < 2 ^ 32

theorem Writable.readable {dump : List DumpLine} {r : Recording}
    (writable : Writable c lookup encodings skip dump r) :
    Readable c lookup encodings skip (dump.map DumpLine.bodyLine) r := by
  obtain ⟨noNewline, ok, named, early, recorded, ordered, small, steps⟩ := writable
  have ops : dumpOps lookup dump =
      withStart ((dump.map DumpLine.bodyLine).flatMap (BodyLine.ops lookup)) := by
    rw [List.flatMap_map]
    rfl
  rw [ops] at recorded ordered small
  exact ⟨noNewline, List.forall_mem_map.mpr fun l member => (ok l member).bodyLine,
    List.forall_mem_map.mpr named, early, recorded, ordered, small, steps⟩

/-- A dump that is written is read back, with any number of threads: the time steps, and for each
signal its changes, as far as they change it. -/
theorem readValues_written {dump : List DumpLine} {r : Recording}
    (writable : Writable c lookup encodings skip dump r) {threads : Option Nat}
    (few : ∀ n, threads = some n → 0 < n ∧ n ≤ 8193) :
    ∃ reader, readValues c lookup encodings (bodyText skip dump) threads =
        .ok (reader, r.timeline.times) ∧ Gives c encodings r.timeline reader :=
  readValues_recorded writable.readable few

end

/-- A word of more than two chunks. -/
def longWord : List UInt8 := List.replicate 20000 (ascii 'a')

/-- A dump with a value before its first time and a long comment. -/
def longDump : List DumpLine :=
  [⟨none, [.command (asciiBytes "$dumpvars"), .bit (ascii '1') [ascii '!'],
      .word (asciiBytes "bx1") [ascii '"'], .command (asciiBytes "$end")]⟩,
    ⟨some 5, [.bit (ascii '0') [ascii '!']]⟩,
    ⟨none, [.comment [longWord]]⟩,
    ⟨none, [.word (asciiBytes "b0011") [ascii '"']]⟩,
    ⟨some 7, []⟩,
    ⟨none, [.bit (ascii '0') [ascii '!'], .word (asciiBytes "b1") [ascii '"']]⟩]

/-- What it records. -/
def longRecording : Recording :=
  ⟨⟨[0, 5, 7], [(0, 0, .bits [1]), (1, 0, .bits [2, 2, 2, 1]), (0, 5, .bits [0]),
    (1, 5, .bits [0, 0, 1, 1]), (0, 7, .bits [0]), (1, 7, .bits [0, 0, 0, 1])]⟩, false⟩

theorem longDump_ok : ∀ l ∈ longDump, l.Ok := by
  have comment : (BodyItem.comment [longWord]).Ok := by
    intro word member
    rw [List.mem_singleton.mp member, longWord]
    have length : (List.replicate 20000 (ascii 'a')).length = 20000 := List.length_replicate
    refine ⟨⟨List.ne_nil_of_length_pos (by omega), fun b inside => ?_⟩, fun same => ?_⟩
    · rw [List.eq_of_mem_replicate inside]
      rfl
    · rw [same] at length
      exact absurd length (by decide)
  intro l member
  simp only [longDump, List.mem_cons, List.not_mem_nil, or_false] at member
  rcases member with rfl | rfl | rfl | rfl | rfl | rfl
  · decide +kernel
  · decide +kernel
  · exact ⟨nofun, fun item inside => List.mem_singleton.mp inside ▸ comment⟩
  · decide +kernel
  · decide +kernel
  · decide +kernel

theorem longDump_writable :
    Writable plainCrates none shortEncodings (asciiBytes " $end") longDump longRecording := by
  have named : ∀ l ∈ longDump, ∀ v ∈ l.bodyLine.values,
      ((VcdEncoder.numId none v.2.1).toOption).isSome := by
    decide +kernel
  have small : ∀ i ≤ (dumpOps none longDump).length, ∀ n ≤ (dumpOps none longDump).length,
      ∀ e ∈ (Encoder.new shortEncodings).run plainCrates (((dumpOps none longDump).drop i).take n),
        e.Small := by
    decide +kernel
  refine ⟨by decide +kernel, longDump_ok, fun l member v inside => ?_,
    ⟨_, List.mem_cons_self, by decide, List.cons_ne_nil _ _⟩, by decide +kernel, by decide +kernel,
    fun part within e ran => ?_, by decide⟩
  · have numbered := named l member v inside
    cases number : VcdEncoder.numId none v.2.1 with
    | ok n => exact ⟨n, rfl⟩
    | error e =>
      rw [number] at numbered
      cases numbered
  · obtain ⟨before, behind, whole⟩ := within
    have length := congrArg List.length whole
    rw [List.length_append, List.length_append] at length
    have own : ((dumpOps none longDump).drop before.length).take part.length = part := by
      rw [← whole, List.append_assoc, List.drop_left, List.take_left]
    exact small before.length (by omega) part.length (by omega) e (by rw [own]; exact ran)

theorem longDump_readValues_written :
    ∃ reader, readValues plainCrates none shortEncodings (bodyText (asciiBytes " $end") longDump)
        (some 3) = .ok (reader, [0, 5, 7]) ∧
      Gives plainCrates shortEncodings longRecording.timeline reader :=
  readValues_written longDump_writable fun n own => by
    cases own
    decide

end RWave.Wellen
