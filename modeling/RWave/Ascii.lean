import RWave.Str

/-!
# ASCII text

In ASCII text a byte is a character: the byte functions of `Str` go over the characters.
-/

namespace RWave

namespace Str

/-- `is_ascii`. -/
def IsAscii (s : String) : Prop := ∀ c ∈ s.toList, c.toNat < 128

theorem utf8EncodeChar_of_lt {c : Char} (small : c.toNat < 128) :
    String.utf8EncodeChar c = [c.toUInt8] := by
  rw [String.utf8EncodeChar]
  have : c.val.toNat ≤ 127 := Nat.le_of_lt_succ small
  simp only [this, ↓reduceIte, List.cons.injEq, and_true]
  rfl

theorem bytes_of_ascii {s : String} (ascii : IsAscii s) : bytes s = s.toList.map Char.toUInt8 := by
  rw [bytes, List.map_eq_flatMap]
  exact List.flatMap_congr fun c member => utf8EncodeChar_of_lt (ascii c member)

theorem len_of_ascii {s : String} (ascii : IsAscii s) : len s = s.toList.length := by
  rw [len, bytes_of_ascii ascii, List.length_map]

@[simp] theorem bytes_append (s t : String) : bytes (s ++ t) = bytes s ++ bytes t := by
  rw [bytes, String.toList_append, List.flatMap_append]
  rfl

@[simp] theorem len_append (s t : String) : len (s ++ t) = len s + len t := by
  rw [len, bytes_append, List.length_append]
  rfl

/-- The bytes of a character past the ASCII range are all past it. -/
theorem high_bytes {c : Char} (high : 128 ≤ c.toNat) :
    ∀ b ∈ String.utf8EncodeChar c, 128 ≤ b.toNat := by
  have high' : ¬ c.val.toNat ≤ 127 := by
    change 128 ≤ c.val.toNat at high
    omega
  rw [String.utf8EncodeChar]
  simp only [high', if_false]
  split_ifs
  all_goals
    simp only [List.forall_mem_cons, List.not_mem_nil, false_imp_iff, implies_true, and_true,
      UInt8.toNat_ofNat']
    omega

theorem bytes_ne_nil {s : String} (nonempty : s ≠ "") : bytes s ≠ [] := by
  intro empty
  cases chars : s.toList with
  | nil => exact nonempty (String.toList_eq_nil_iff.mp chars)
  | cons c rest =>
    rw [bytes, chars, List.flatMap_cons, List.append_eq_nil_iff] at empty
    have := String.length_utf8EncodeChar c
    rw [empty.1, List.length_nil] at this
    exact absurd this.symm c.utf8Size_pos.ne'

/-- Text is ASCII if all its bytes are. -/
theorem ascii_of_bytes {s : String} (small : ∀ b ∈ bytes s, b.toNat < 128) : IsAscii s := by
  intro c member
  by_contra high
  have some : String.utf8EncodeChar c ≠ [] := by
    apply List.ne_nil_of_length_pos
    rw [String.length_utf8EncodeChar]
    exact c.utf8Size_pos
  obtain ⟨b, inside⟩ := List.exists_mem_of_ne_nil _ some
  have := small b (List.mem_flatMap.mpr ⟨c, member, inside⟩)
  have := high_bytes (Nat.le_of_not_lt high) b inside
  omega

/-- A property of the ASCII characters is checked on each of them. -/
theorem ascii_induction {p : Char → Prop} (all : ∀ n < 128, p (Char.ofNat n)) {c : Char}
    (small : c.toNat < 128) : p c := by
  have := all c.toNat small
  rwa [Char.ofNat_toNat] at this

/-! ## Text that no normalization changes -/

theorem trim_of_plain {s : String} (plain : ∀ c ∈ s.toList, isWhitespace c = false) : trim s = s := by
  have keep (l : List Char) (plain : ∀ c ∈ l, isWhitespace c = false) :
      l.dropWhile isWhitespace = l := by
    cases l with
    | nil => rfl
    | cons c rest => rw [List.dropWhile_cons, plain c List.mem_cons_self, if_neg Bool.false_ne_true]
  rw [trim, trimMatches, trimStartMatches, trimEndMatches, keep _ plain, String.toList_ofList, keep,
    List.reverse_reverse, String.ofList_toList]
  intro c member
  exact plain c (List.mem_reverse.mp member)

theorem toAsciiLowercase_of_lower {s : String} (lower : ∀ c ∈ s.toList, c.toLower = c) :
    toAsciiLowercase s = s := by
  rw [toAsciiLowercase, List.map_congr_left lower, List.map_id', String.ofList_toList]

theorem stripPrefix_append (pat s : String) : stripPrefix pat (pat ++ s) = some s := by
  have start : startsWith pat (pat ++ s) = true := by
    rw [startsWith, String.toList_append, List.isPrefixOf_iff_prefix]
    exact List.prefix_append _ _
  rw [stripPrefix, if_pos start, String.toList_append, List.drop_left, String.ofList_toList]

end Str

/-- `to_lowercase` of ASCII text goes letter by letter. -/
def Host.LowersAscii (host : Host) : Prop :=
  ∀ s, Str.IsAscii s → host.toLowercase s = Str.toAsciiLowercase s

end RWave
