import RWave.Condition.Match
import RWave.Format

/-!
# Values as they are displayed

`fmt_bits` prints the vector a recorded value stands for: all its bits where one is unknown, its
number otherwise. A printed value reads back as a condition the value satisfies. A number, though,
is compared with the recorded value itself and not with the vector, which tells where a value is
longer than its signal is wide.
-/

namespace RWave.Condition

open RWave.Misc RWave.Format

/-- The text of a bit string. -/
def render (bits : List Bit) : String := .ofList (bits.map Bit.toChar)

@[simp] theorem toList_render (bits : List Bit) : (render bits).toList = bits.map Bit.toChar :=
  String.toList_ofList

theorem render_append (high low : List Bit) : render (high ++ low) = render high ++ render low := by
  rw [← String.toList_inj]
  simp

theorem ascii_render (bits : List Bit) : Str.IsAscii (render bits) := by
  intro c member
  rw [toList_render] at member
  obtain ⟨b, -, rfl⟩ := List.mem_map.mp member
  cases b <;> decide

@[simp] theorem len_render (bits : List Bit) : Str.len (render bits) = bits.length := by
  rw [Str.len_of_ascii (ascii_render bits), toList_render, List.length_map]

theorem bytes_render (bits : List Bit) : Str.bytes (render bits) = bits.map bitByte := by
  rw [Str.bytes_of_ascii (ascii_render bits), toList_render, List.map_map]
  rfl

theorem normalizeBit_eq (c : Char) : normalizeBit c = (readBit c).toChar := by
  rw [normalizeBit, readBit]
  split <;> simp_all [Bit.toChar]

theorem normalizeBits_eq (v : String) : normalizeBits v = render (readBits v) := by
  rw [normalizeBits, render, readBits, List.map_map]
  exact congrArg String.ofList (List.map_congr_left fun c _ => normalizeBit_eq c)

theorem normalize4state_eq {v : String} (ascii : Str.IsAscii v) :
    normalize4state v = render (readBits v) := by
  have char (b : Bit) : Char.ofUInt8 (bitByte b) = b.toChar := by
    cases b <;> decide
  rw [normalize4state, Str.bytes_of_ascii ascii, List.map_map, render, readBits, List.map_map]
  refine congrArg String.ofList (List.map_congr_left fun c member => ?_)
  simp only [Function.comp_apply, normBit_toUInt8 (ascii c member), char]

theorem is4state_render {bits : List Bit} (nonempty : bits ≠ []) : is4state (render bits) = true := by
  simp only [is4state, toList_render, Bool.and_eq_true, Bool.not_eq_true', List.all_map,
    List.all_eq_true]
  refine ⟨by simpa using nonempty, ?_⟩
  intro b _
  cases b <;> decide

/-! ## Hexadecimal text -/

theorem nibble_eq (bits : List Bit) :
    nibble (bits.map Bit.toChar) = Numeral.value 2 (bits.map Bit.toNat) := by
  have digit (b : Bit) : (if b.toChar = '1' then 1 else 0) = b.toNat := by
    cases b <;> decide
  simp only [nibble, Numeral.value, List.foldl_map, digit]

/-- Four bits are a digit. -/
theorem hexDigits_eq (bits : List Bit) (whole : bits.length % 4 = 0) :
    ∃ ds : List Nat, hexDigits (bits.map Bit.toChar) = ds.map Nat.digitChar ∧ (∀ d ∈ ds, d < 16) ∧
      4 * ds.length = bits.length ∧ Numeral.value 16 ds = Bits.toNat bits := by
  match bits, whole with
  | [], _ => exact ⟨[], rfl, by simp, rfl, rfl⟩
  | [_], whole | [_, _], whole | [_, _, _], whole => exact absurd whole (by simp)
  | a :: b :: c :: d :: rest, whole =>
    obtain ⟨ds, digits, small, length, number⟩ :=
      hexDigits_eq rest (by simp only [List.length_cons] at whole; omega)
    refine ⟨Numeral.value 2 ([a, b, c, d].map Bit.toNat) :: ds, ?_, ?_, ?_, ?_⟩
    · rw [List.map_cons (f := Nat.digitChar), ← nibble_eq, ← digits]
      rfl
    · intro d' member
      rcases List.mem_cons.mp member with rfl | member
      · cases a <;> cases b <;> cases c <;> cases d <;> decide
      · exact small d' member
    · simp only [List.length_cons, ← length]
      omega
    · have weight : 16 ^ ds.length = 2 ^ rest.length := by
        rw [← length, pow_mul]
        norm_num
      rw [Numeral.value_cons, weight, number, Bits.toNat, Bits.toNat]
      exact (by simpa using (@Numeral.value_append 2 ([a, b, c, d].map Bit.toNat)
        (rest.map Bit.toNat)).symm)

theorem dropWhile_digitChar (ds : List Nat) (small : ∀ d ∈ ds, d < 16) :
    (ds.map Nat.digitChar).dropWhile (· == '0') = (ds.dropWhile (· == 0)).map Nat.digitChar := by
  induction ds with
  | nil => rfl
  | cons d rest ih =>
    have digit : (Nat.digitChar d == '0') = (d == 0) := by
      have below := small d List.mem_cons_self
      interval_cases d <;> decide
    rw [List.map_cons, List.dropWhile_cons, List.dropWhile_cons, digit]
    split
    · exact ih fun d member => small d (List.mem_cons_of_mem _ member)
    · rfl

/-- The hexadecimal text of a vector without unknown bits denotes its number. -/
theorem binaryToHexUnpadded_render {bits : List Bit} (nonempty : bits ≠ [])
    (known : ∀ b ∈ bits, b.isUnknown = false) :
    ∃ ds : List Nat, binaryToHexUnpadded (render bits) = some (.ofList (ds.map Nat.digitChar)) ∧
      ds ≠ [] ∧ (∀ d ∈ ds, d < 16) ∧ ds.length ≤ (bits.length + 3) / 4 ∧
      Numeral.value 16 ds = Bits.toNat bits ∧ (ds = [0] ∨ ds.head? ≠ some 0) := by
  have clean : (bits.map Bit.toChar).all (fun c => c == '0' || c == '1') = true := by
    rw [List.all_map, List.all_eq_true]
    intro b member
    have := known b member
    cases b with
    | zero | one => rfl
    | x | z => cases this
  let pad := (4 - bits.length % 4) % 4
  obtain ⟨ds, digits, small, length, number⟩ :=
    hexDigits_eq (List.replicate pad .zero ++ bits) (by
      rw [List.length_append, List.length_replicate]
      omega)
  have padded : List.replicate pad '0' ++ bits.map Bit.toChar =
      (List.replicate pad Bit.zero ++ bits).map Bit.toChar := by
    rw [List.map_append, List.map_replicate]
    rfl
  have extended : Bits.toNat (List.replicate pad .zero ++ bits) = Bits.toNat bits := by
    rw [Bits.toNat, List.map_append, List.map_replicate]
    exact Numeral.value_replicate_append _ _
  have bound : ds.length ≤ (bits.length + 3) / 4 := by
    rw [List.length_append, List.length_replicate] at length
    omega
  have digit : 0 < (bits.length + 3) / 4 := by
    have := List.length_pos_of_ne_nil nonempty
    omega
  have read : binaryToHexUnpadded (render bits) =
      some (if (ds.dropWhile (· == 0)).isEmpty then "0"
        else .ofList ((ds.dropWhile (· == 0)).map Nat.digitChar)) := by
    rw [binaryToHexUnpadded, if_neg (by simpa [nonempty, or_iff_not_imp_left] using clean)]
    simp only [toList_render, List.length_map]
    rw [padded, digits, dropWhile_digitChar ds small, List.isEmpty_map]
  rw [read]
  cases trimmed : ds.dropWhile (· == 0) with
  | nil =>
    have zero := @Numeral.value_dropWhile_zero 16 ds
    rw [trimmed, number, extended] at zero
    exact ⟨[0], rfl, by simp, by simp, digit, zero, .inl rfl⟩
  | cons d rest =>
    have suffix : d :: rest <:+ ds := trimmed ▸ List.dropWhile_suffix _
    have lead : d ≠ 0 := by
      have := List.head?_dropWhile_not (· == 0) ds
      simpa [trimmed] using this
    refine ⟨d :: rest, rfl, by simp, fun d member => small d (suffix.subset member),
      suffix.length_le.trans bound, ?_, .inr (by simpa using lead)⟩
    rw [← trimmed, Numeral.value_dropWhile_zero, number, extended]

/-- It is the numeral of its number. -/
theorem binaryToHexUnpadded_eq {bits : List Bit} (nonempty : bits ≠ [])
    (known : ∀ b ∈ bits, b.isUnknown = false) :
    binaryToHexUnpadded (render bits) = some (.ofList (Nat.toDigits 16 (Bits.toNat bits))) := by
  obtain ⟨ds, text, digits, small, -, number, zero | lead⟩ :=
    binaryToHexUnpadded_render nonempty known
  · rw [text, ← number, zero]
    rfl
  · obtain ⟨d, ds, rfl⟩ := List.exists_cons_of_ne_nil digits
    rw [text, ← number, Numeral.toDigits_value (by decide) (by simpa using lead) small]

/-! ## The three forms -/

theorem contains_render (bits : List Bit) :
    ((render bits).toList.contains 'x' || (render bits).toList.contains 'z') =
      bits.any Bit.isUnknown := by
  rw [toList_render]
  induction bits with
  | nil => rfl
  | cons b rest ih =>
    rw [List.map_cons, List.contains_cons, List.contains_cons, List.any_cons, ← ih]
    cases b <;> simp [Bit.toChar, Bit.isUnknown]

/-- The replacement of an over-long value and the extension of a short one make the vector. -/
theorem render_fit (v : String) (w : Nat) :
    let value := render (readBits v)
    let value := if Str.len value > w ∧ is4state value = true then Str.replicate w 'x' else value
    (if Str.len value < w then
      let msb := value.toList.head?.getD '0'
      let pad := if msb = 'x' ∨ msb = 'z' then msb else '0'
      Str.replicate (w - Str.len value) pad ++ value
    else value) = render (Bits.fit w (readBits v)) := by
  have replicate (n : Nat) (b : Bit) : Str.replicate n b.toChar = render (List.replicate n b) := by
    rw [Str.replicate, render, List.map_replicate]
  intro value
  by_cases long : w < (readBits v).length
  · have bits : readBits v ≠ [] := List.ne_nil_of_length_pos (by omega)
    have tooLong : Str.len value > w ∧ is4state value = true :=
      ⟨by simpa [value] using long, is4state_render bits⟩
    have whole : Str.len (Str.replicate w 'x') = w := by
      rw [show 'x' = Bit.x.toChar from rfl, replicate, len_render, List.length_replicate]
    simp only [if_pos tooLong, whole, lt_irrefl, if_false, Bits.fit_of_lt long]
    exact replicate w .x
  · have short : ¬ (Str.len value > w ∧ is4state value = true) := by simp [value, long]
    simp only [if_neg short, Bits.fit_of_le (Nat.le_of_not_lt long)]
    simp only [value, len_render]
    split
    · have pad : (if (render (readBits v)).toList.head?.getD '0' = 'x' ∨
            (render (readBits v)).toList.head?.getD '0' = 'z'
          then (render (readBits v)).toList.head?.getD '0' else '0') =
          (Bits.fill (readBits v)).toChar := by
        rw [toList_render]
        cases readBits v with
        | nil => rfl
        | cons b rest => cases b <;> rfl
      rw [pad, replicate, ← render_append]
    · have whole : w - (readBits v).length = 0 := by omega
      rw [whole]
      rfl

/-- A signal has at least one bit. -/
theorem fmtBits_max (v : String) (w : Nat) : fmtBits v w = fmtBits v (max w 1) := by
  simp only [fmtBits, max_assoc, max_self]

/-- What `fmt_bits` makes of the bits of the signal. -/
theorem fmtBits_eq (v : String) {w : Nat} (wide : 1 ≤ w) :
    fmtBits v w =
      if (Bits.fit w (readBits v)).any Bit.isUnknown then "b" ++ render (Bits.fit w (readBits v))
      else if w = 1 then render (Bits.fit w (readBits v))
      else match binaryToHexUnpadded (render (Bits.fit w (readBits v))) with
        | some hex => "0x" ++ hex
        | none => "b" ++ render (Bits.fit w (readBits v)) := by
  have value := render_fit v w
  simp only at value
  cases read : binaryToHexUnpadded (render (Bits.fit w (readBits v))) <;>
    simp only [fmtBits, max_eq_left wide, normalizeBits_eq, value, contains_render, read]

/-- The forms of a printed vector: its bits, where one of them is unknown, else a single bit or a
number in hexadecimal. -/
theorem fmtBits_cases (v : String) {w : Nat} (wide : 1 ≤ w) :
    ((∃ b ∈ Bits.fit w (readBits v), b.isUnknown) ∧
      fmtBits v w = "b" ++ render (Bits.fit w (readBits v))) ∨
    ((∀ b ∈ Bits.fit w (readBits v), b.isUnknown = false) ∧ w = 1 ∧
      fmtBits v w = render (Bits.fit w (readBits v))) ∨
    ((∀ b ∈ Bits.fit w (readBits v), b.isUnknown = false) ∧ 1 < w ∧
      ∃ ds : List Nat, fmtBits v w = "0x" ++ .ofList (ds.map Nat.digitChar) ∧ ds ≠ [] ∧
        (∀ d ∈ ds, d < 16) ∧ ds.length ≤ (w + 3) / 4 ∧
        Numeral.value 16 ds = Bits.toNat (Bits.fit w (readBits v))) := by
  rw [fmtBits_eq v wide]
  by_cases unknown : (Bits.fit w (readBits v)).any Bit.isUnknown = true
  · exact .inl ⟨List.any_eq_true.mp unknown, if_pos unknown⟩
  · have known : ∀ b ∈ Bits.fit w (readBits v), b.isUnknown = false := by
      simpa using unknown
    rw [if_neg unknown]
    by_cases bit : w = 1
    · exact .inr (.inl ⟨known, bit, if_pos bit⟩)
    · have bits : Bits.fit w (readBits v) ≠ [] := by
        apply List.ne_nil_of_length_pos
        rw [Bits.length_fit]
        exact wide
      obtain ⟨ds, text, digits, small, length, number, -⟩ :=
        binaryToHexUnpadded_render bits known
      rw [Bits.length_fit] at length
      refine .inr (.inr ⟨known, by omega, ds, ?_, digits, small, length, number⟩)
      rw [if_neg bit, text]

theorem render_injective : Function.Injective render := by
  intro bits bits' same
  have chars : Function.Injective Bit.toChar := by
    intro a b letter
    cases a <;> cases b <;> first | rfl | exact absurd letter (by decide)
  exact List.map_injective_iff.mpr chars (String.ofList_injective same)

end RWave.Condition
