import RWave.Commands.Dump
import RWave.Commands.Snapshot
import RWave.Commands.SummaryRows
import RWave.Condition.RoundTrip

/-!
# The prefix of an unknown value

A displayed value begins with `b` where a bit of it is unknown, and `summary` flags a signal with
such a value. The prefix belongs to the text that is displayed, the flag to the recorded one: a bit
string that is longer than its signal is wide is displayed as unknown although none of its bits is,
a text may begin with the letter, and an event is displayed as one word whatever its bits are.
-/

namespace RWave.Commands

open RWave.Backend RWave.Model RWave.Misc RWave.Format RWave.Condition

/-! ## One value -/

theorem startsWith_b {s : String} : Str.startsWith "b" s = true ↔ s.toList.head? = some 'b' := by
  rw [Str.startsWith, List.isPrefixOf_iff_prefix]
  cases s.toList with
  | nil => simp
  | cons c rest => simp [eq_comm]

/-- What `bits_have_unknown` makes of the bytes of one character. -/
theorem unknown_bytes (c : Char) :
    ((String.utf8EncodeChar c).any fun b =>
      !("01hl".toList.map Char.toUInt8).contains (Str.byteLower b)) = (readBit c).isUnknown := by
  by_cases ascii : c.toNat < 128
  · rw [Str.utf8EncodeChar_of_lt ascii]
    exact Str.ascii_induction (p := fun c => ([c.toUInt8].any fun b =>
      !("01hl".toList.map Char.toUInt8).contains (Str.byteLower b)) = (readBit c).isUnknown)
      (by decide) ascii
  · have far := Nat.le_of_not_lt ascii
    have strange : (readBit c).isUnknown = true := by
      have same : c.toLower = c := by
        rw [Char.toLower, dif_neg]
        rintro ⟨-, upper⟩
        have small : c.toNat ≤ 90 := UInt32.le_iff_toNat_le.mp upper
        omega
      rw [isUnknown_readBit, same, Bool.not_eq_true', ← Bool.not_eq_true, List.contains_iff_mem]
      intro member
      have small : ∀ d ∈ "01hl".toList, d.toNat < 128 := by simp
      exact ascii (small c member)
    have bytes : ∀ b ∈ String.utf8EncodeChar c,
        (!("01hl".toList.map Char.toUInt8).contains (Str.byteLower b)) = true := by
      intro b member
      have high := Str.high_bytes far b member
      have same : Str.byteLower b = b := by
        rw [Str.byteLower, if_neg]
        rintro ⟨-, upper⟩
        have small : b.toNat ≤ 90 := UInt8.le_iff_toNat_le.mp upper
        omega
      rw [same, Bool.not_eq_true', ← Bool.not_eq_true, List.contains_iff_mem]
      intro known
      have small : ∀ d ∈ "01hl".toList.map Char.toUInt8, d.toNat < 128 := by decide +kernel
      have := small b known
      omega
    have some : String.utf8EncodeChar c ≠ [] := by
      apply List.ne_nil_of_length_pos
      rw [String.length_utf8EncodeChar]
      exact c.utf8Size_pos
    obtain ⟨b, member⟩ := List.exists_mem_of_ne_nil _ some
    rw [strange, List.any_eq_true]
    exact ⟨b, member, bytes b member⟩

theorem bitsHaveUnknown_iff {v : String} : bitsHaveUnknown v = true ↔ HasUnknownBit v := by
  simp only [bitsHaveUnknown, Str.bytes, List.any_flatMap, unknown_bytes, List.any_eq_true,
    HasUnknownBit, readBits, List.mem_map, exists_exists_and_eq_and]

/-- The prefix says that the displayed vector has an unknown bit: the recorded one has one, or is too
long. -/
theorem fmtBits_prefix {v : String} {w : Nat} (wide : 1 ≤ w) :
    Str.startsWith "b" (fmtBits v w) = true ↔ w < v.length ∨ HasUnknownBit v := by
  have fit : (∃ b ∈ Bits.fit w (readBits v), b.isUnknown) ↔ w < v.length ∨ HasUnknownBit v := by
    rw [Bits.unknown_fit wide, length_readBits]
    rfl
  rw [← fit, startsWith_b]
  rcases fmtBits_cases v wide with ⟨unknown, text⟩ | ⟨known, -, text⟩ | ⟨known, -, ds, text, -⟩
  · rw [text]
    simpa using unknown
  · rw [text, toList_render]
    refine iff_of_false ?_ (by simpa using known)
    intro first
    obtain ⟨b, -, letter⟩ := List.mem_map.mp (List.mem_of_mem_head? first)
    cases b <;> exact absurd letter (by decide)
  · rw [text]
    exact iff_of_false (by simp) (by simpa using known)

/-- A bit string is displayed with the prefix exactly where `bits_have_unknown` holds, unless it is
longer than its signal is wide without having an unknown bit. -/
theorem prefix_iff_unknown (v : String) {w : Nat} (wide : 1 ≤ w) :
    (Str.startsWith "b" (fmtVal v .bits w) = true ↔ bitsHaveUnknown v = true) ↔
      (v.length ≤ w ∨ HasUnknownBit v) := by
  rw [fmtVal, fmtBits_prefix wide, bitsHaveUnknown_iff]
  by_cases unknown : HasUnknownBit v
  · simp [unknown]
  · simp [unknown]

/-! ## The values of a signal -/

/-- A value with an unknown bit. -/
def Unknown : RawValue → Prop
  | .bits b => HasUnknownBit b
  | .real _ | .str _ | .event => False

/-- A value that is displayed with the prefix although none of its bits is unknown: a bit string
longer than the signal is wide, or a text that begins with the letter. -/
def Spurious (host : Host) (info : SignalInfo) : RawValue → Prop
  | .bits b => info.kind = .bits ∧ max info.width 1 < b.length ∧ ¬ HasUnknownBit b
  | .real r => Str.startsWith "b" (host.display r) = true
  | .str s => Str.startsWith "b" s = true
  | .event => False

/-- A value with an unknown bit that is not displayed as a bit string. -/
def Hidden (info : SignalInfo) : RawValue → Prop
  | .bits b => HasUnknownBit b ∧
      (info.kind = .event ∨ (info.kind ≠ .bits ∧ Str.startsWith "b" b = false))
  | .real _ | .str _ | .event => False

theorem unknownValue_iff {v : RawValue} : unknownValue v = true ↔ Unknown v := by
  cases v with
  | bits b => simpa [unknownValue, bitsView, Unknown] using bitsHaveUnknown_iff
  | real | str | event => simp [unknownValue, bitsView, Unknown]

/-- What the prefix of a displayed value says of the recorded one. -/
theorem fmtValue_cut (host : Host) (info : SignalInfo) (v : RawValue) :
    Str.startsWith "b" (fmtValue host v info.kind info.width) = true ↔
      (Unknown v ∧ ¬ Hidden info v) ∨ Spurious host info v := by
  cases v with
  | event => simp [fmtValue, startsWith_b, Unknown, Spurious]
  | real r => simp [fmtValue, fmtVal, RawValue.rawStr, Unknown, Spurious]
  | str s => simp [fmtValue, fmtVal, RawValue.rawStr, Unknown, Spurious]
  | bits b =>
    -- A text with a `b` has an unknown bit.
    have letter (starts : Str.startsWith "b" b = true) : HasUnknownBit b := by
      have member : 'b' ∈ b.toList := List.mem_of_mem_head? (startsWith_b.mp starts)
      exact ⟨readBit 'b', List.mem_map_of_mem member, by decide⟩
    cases kind : info.kind with
    | bits =>
      have bits : Str.startsWith "b" (fmtBits b info.width) = true ↔
          max info.width 1 < b.length ∨ HasUnknownBit b := by
        rw [fmtBits_max, fmtBits_prefix (le_max_right _ _)]
      simp only [fmtValue, fmtVal, RawValue.rawStr, bits, Unknown, Hidden, Spurious, kind]
      by_cases unknown : HasUnknownBit b
      · simp [unknown]
      · simp [unknown]
    | real | str =>
      simp only [fmtValue, fmtVal, RawValue.rawStr, Unknown, Hidden, Spurious, kind]
      by_cases starts : Str.startsWith "b" b = true
      · simp [starts, letter starts]
      · simp [starts]
    | event => simp [fmtValue, fmtVal, startsWith_b, Unknown, Hidden, Spurious, kind]

/-- The values among which the flag finds an unknown bit exactly where the prefix shows one. -/
def PrefixTells (host : Host) (info : SignalInfo) (values : List RawValue) : Prop :=
  (∃ v ∈ values, Unknown v ∧ ¬ Hidden info v) ∨
    ((∃ v ∈ values, Hidden info v) ↔ ∃ v ∈ values, Spurious host info v)

theorem hidden_unknown {info : SignalInfo} {v : RawValue} (hidden : Hidden info v) : Unknown v := by
  cases v with
  | bits b => exact hidden.1
  | real | str | event => exact hidden

theorem flag_iff_prefix (host : Host) (info : SignalInfo) (values : List RawValue) :
    ((∃ v ∈ values, unknownValue v = true) ↔
      ∃ v ∈ values, Str.startsWith "b" (fmtValue host v info.kind info.width) = true) ↔
    PrefixTells host info values := by
  have flagged : (∃ v ∈ values, unknownValue v = true) ↔
      (∃ v ∈ values, Unknown v ∧ ¬ Hidden info v) ∨ ∃ v ∈ values, Hidden info v := by
    constructor
    · rintro ⟨v, member, unknown⟩
      by_cases hidden : Hidden info v
      · exact .inr ⟨v, member, hidden⟩
      · exact .inl ⟨v, member, unknownValue_iff.mp unknown, hidden⟩
    · rintro (⟨v, member, unknown, -⟩ | ⟨v, member, hidden⟩)
      · exact ⟨v, member, unknownValue_iff.mpr unknown⟩
      · exact ⟨v, member, unknownValue_iff.mpr (hidden_unknown hidden)⟩
  have shown : (∃ v ∈ values, Str.startsWith "b" (fmtValue host v info.kind info.width) = true) ↔
      (∃ v ∈ values, Unknown v ∧ ¬ Hidden info v) ∨ ∃ v ∈ values, Spurious host info v := by
    simp only [fmtValue_cut, and_or_left, exists_or]
  rw [flagged, shown, PrefixTells]
  by_cases told : ∃ v ∈ values, Unknown v ∧ ¬ Hidden info v
  · simp only [told, true_or]
  · simp only [told, false_or]

/-- Of the bit strings of a vector, one has an unknown bit or none is too long. -/
theorem prefixTells_bits (host : Host) {info : SignalInfo} (vector : info.kind = .bits)
    (bits : List String) :
    PrefixTells host info (bits.map .bits) ↔
      (∃ b ∈ bits, HasUnknownBit b) ∨ ∀ b ∈ bits, b.length ≤ max info.width 1 := by
  by_cases unknown : ∃ b ∈ bits, HasUnknownBit b
  · have told : ∃ v ∈ bits.map RawValue.bits, Unknown v ∧ ¬ Hidden info v := by
      obtain ⟨b, member, some⟩ := unknown
      exact ⟨_, List.mem_map_of_mem member, some, by simp [Hidden, vector]⟩
    exact iff_of_true (.inl told) (.inl unknown)
  · have clean : ∀ b ∈ bits, ¬ HasUnknownBit b := by simpa using unknown
    have spurious : (∃ v ∈ bits.map RawValue.bits, Spurious host info v) ↔
        ¬ ∀ b ∈ bits, b.length ≤ max info.width 1 := by
      simp only [List.mem_map, exists_exists_and_eq_and, Spurious, vector, true_and]
      push Not
      refine exists_congr fun b => and_congr_right fun member => ?_
      exact and_iff_left (clean b member)
    have told : ¬ ∃ v ∈ bits.map RawValue.bits, Unknown v ∧ ¬ Hidden info v := by
      simpa [Unknown] using fun b member unknown => absurd unknown (clean b member)
    have hidden : ¬ ∃ v ∈ bits.map RawValue.bits, Hidden info v := by
      simp [Hidden, vector]
    simp only [PrefixTells, told, hidden, spurious, unknown, false_or, false_iff, not_not]

/-! ## The rows of `summary` -/

variable {F : File}

/-- What is displayed of a signal: by `snapshot` at the tick before the window, and by `dump` in the
window. -/
def displayedValues (host : Host) (H : BinaryHeap (HeapEntry.key (F := F))) (w : Wave F)
    (selected : List F.Sid) (t0 : Int) (t1 : Option Int) (sid : F.Sid) : List String :=
  (snapRows host (w.snapshot (initBoundary t0) (some selected)) [sid] [] false).filterMap
      SnapRow.value ++
    (eventsOf sid (w.forEachEvent H (initBoundary t0 + 1) t1 (some selected))).map
      fun (tick, sid, v) => (dumpRow host tick sid v).value

section Rows

variable {w : Wave F} {selected : List F.Sid} {t0 : Int} {t1 : Option Int}

theorem displayedValues_eq {host : Host} (consistent : w.Consistent) (ordered : F.TracesOrdered)
    (nodup : selected.Nodup) (H : BinaryHeap (HeapEntry.key (F := F))) {sid : F.Sid}
    (member : sid ∈ selected) :
    displayedValues host H (w.ensureLoaded selected) selected t0 t1 sid =
      (windowValues (w.ensureLoaded selected) selected t0 t1 sid).map fun v =>
        fmtValue host v (F.signal sid).kind (F.signal sid).width := by
  rw [displayedValues, eventsOf_window consistent ordered nodup H member, windowValues,
    List.map_append, List.map_map, List.map_map]
  congr 1
  cases known : (w.ensureLoaded selected).snapshot (initBoundary t0) (some selected) sid with
  | none => simp [snapRows, known]
  | some v => simp [snapRows, known]

/-- The `b` prefix as the unknown predicate. For a bit string it is the predicate exactly where the
string is no longer than its signal is wide or has an unknown bit. The flag of a row says whether a
value of the window is displayed with the prefix exactly where the prefix tells. -/
theorem prefix_tells_unknown (env : Env F) (consistent : w.Consistent) (ordered : F.TracesOrdered)
    (le : ∀ t ∈ t1, t0 ≤ t) (nodup : selected.Nodup) :
    (∀ (v : String) (width : Nat), 1 ≤ width →
      ((Str.startsWith "b" (fmtVal v .bits width) = true ↔ bitsHaveUnknown v = true) ↔
        (v.length ≤ width ∨ HasUnknownBit v))) ∧
    ∃ (row : F.Sid → SummaryRow) (undefined : List F.Sid) (counts : SummaryCounts),
      (summaryRows env t0 t1 selected).result w =
        .ok (sortByKey SummaryRow.path
          ((selected.filter fun sid => !(changesUpTo (F.traceOf sid) t1).isEmpty).map row),
          undefined, counts) ∧
      ∀ sid ∈ selected, changesUpTo (F.traceOf sid) t1 ≠ [] →
        (row sid).path = (F.signal sid).path ∧
        (((row sid).unknown = true ↔
          ∃ s ∈ displayedValues env.host env.mergeHeap (w.ensureLoaded selected) selected t0 t1 sid,
            Str.startsWith "b" s = true) ↔
        PrefixTells env.host (F.signal sid)
          (windowValues (w.ensureLoaded selected) selected t0 t1 sid)) := by
  refine ⟨fun v width wide => prefix_iff_unknown v wide, ?_⟩
  refine ⟨fun sid => statsRow (statsOf env.host t0 t1 sid (F.traceOf sid)), _, _,
    summaryRows_result env consistent ordered le selected, ?_⟩
  intro sid member _
  have report : Reports env.host (w.ensureLoaded selected) selected t0 t1 sid _ :=
    statsRow_reports env.host consistent ordered member
  refine ⟨report.path, ?_⟩
  rw [report.unknown, displayedValues_eq consistent ordered nodup env.mergeHeap member,
    ← flag_iff_prefix]
  simp only [List.mem_map, exists_exists_and_eq_and]

end Rows

/-- A counter that two bits never overflow: its flag and its prefixes agree. -/
theorem prefix_tells_unknown_counter :
    ∃ (row : counterFile.Sid → SummaryRow) (undefined : List counterFile.Sid)
      (counts : SummaryCounts),
      (summaryRows (bareEnv counterFile) 0 (some 9) [counterFile.count]).result
        (Wave.fresh counterFile) = .ok ([row counterFile.count], undefined, counts) ∧
      ((row counterFile.count).unknown = true ↔
        ∃ s ∈ displayedValues MockBackend.host (stdHeap _) ((Wave.fresh counterFile).ensureLoaded
          [counterFile.count]) [counterFile.count] 0 (some 9) counterFile.count,
          Str.startsWith "b" s = true) := by
  have fresh := Wave.consistent_fresh counterFile
  have member : counterFile.count ∈ [counterFile.count] := List.mem_singleton_self _
  obtain ⟨row, undefined, counts, result, rows⟩ :=
    (@prefix_tells_unknown counterFile _ [counterFile.count] 0 (some 9) (bareEnv counterFile) fresh
      counterFile_ordered (by decide) (List.nodup_singleton _)).2
  refine ⟨row, undefined, counts, result, ?_⟩
  refine (rows _ member (by decide)).2.mpr ?_
  rw [windowValues_eq fresh counterFile_ordered member]
  exact (prefixTells_bits _ (by decide) ["00", "01"]).mpr (.inr (by decide))

/-- Five known bits of a signal that is four bits wide. -/
theorem prefix_overLong : ¬ ∀ (w : Nat) (v : String), 1 ≤ w →
    (Str.startsWith "b" (fmtVal v .bits w) = true ↔ bitsHaveUnknown v = true) := by
  intro all
  have both := all 4 "10110" (by decide)
  exact absurd both (by decide)

end RWave.Commands
