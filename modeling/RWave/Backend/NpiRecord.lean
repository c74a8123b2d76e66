import RWave.Ascii
import RWave.Str.Pattern

/-!
# The records of a trace dump

`split_location` and `parse_record` of `npi_dump.rs`. A record is a type, a text and the place of
the text in the sources, and it is cut from both ends: the type at the first comma, the place at
the last `, {`. So the text comes back whatever commas, braces and colons it has inside.
-/

namespace RWave.Backend.NpiDump

open RWave.Str

/-- What stands in front of a place. -/
def openPlace : List Char := [',', ' ', '{']

/-- `split_location`: what is left of a record, the file and the line. -/
def splitLocation (s : String) : String × Option String × Option Nat :=
  let t := trimEnd s
  let located : Option (String × Option String × Option Nat) :=
    if t.toList.getLast? = some '}' then do
      let (head, rest) ← rfind openPlace t.toList
      let inner := rest.dropLast
      let (file, number) ← rfind [' ', ':', ' '] inner
      let line ← parseUnsigned 32 (trim (.ofList number))
      return (trim (.ofList head), some (trim (.ofList file)), some line)
    else none
  let head := trim (trimEndMatches (· == ',') (trimEnd (trimEndMatchesStr "(null)" t)))
  located.getD (head, none, none)

/-- `parse_record`: type, text, file and line. -/
def parseRecord (s : String) : String × String × Option String × Option Nat :=
  let (head, file, line) := splitLocation s
  match splitOnce [','] head.toList with
  | some (type_, rest) =>
    (trim (.ofList type_), trim (trimEndMatches (· == ',') (trim (.ofList rest))), file, line)
  | none => (trim head, "", file, line)

/-! ## The place -/

theorem isWhitespace_of_digit {c : Char} (digit : c.isDigit = true) : isWhitespace c = false := by
  simp only [Char.isDigit, Bool.and_eq_true, decide_eq_true_eq] at digit
  have ascii : c.toNat < 128 := Nat.lt_of_le_of_lt (UInt32.le_iff_toNat_le.mp digit.2) (by decide)
  have least : 48 ≤ c.toNat := UInt32.le_iff_toNat_le.mp digit.1
  revert least
  exact ascii_induction (p := fun c => 48 ≤ c.toNat → isWhitespace c = false) (by decide) ascii

theorem digit_of_mem_repr {n : Nat} {c : Char} (member : c ∈ n.repr.toList) : c.isDigit = true := by
  rw [Nat.toList_repr] at member
  exact Nat.isDigit_of_mem_toDigits (by decide) (by decide) member

theorem not_mem_repr {n : Nat} {c : Char} (other : c.isDigit = false) : c ∉ n.repr.toList := by
  intro member
  rw [digit_of_mem_repr member] at other
  exact absurd other (by decide)

/-- What stands between the braces of a place. -/
def placeChars (file : String) (line : Nat) : List Char :=
  file.toList ++ ([' ', ':', ' '] ++ line.repr.toList)

theorem rfind_place {file : String} {line : Nat} (plain : ¬ openPlace <:+: file.toList)
    (head : List Char) :
    rfind openPlace (head ++ (openPlace ++ (placeChars file line ++ ['}']))) =
      some (head, placeChars file line ++ ['}']) := by
  refine rfind_append ?_ head
  have absent : '{' ∉ [' ', ':', ' '] ++ line.repr.toList ++ ['}'] := by
    simpa using not_mem_repr (n := line) (c := '{') (by decide)
  intro inside
  rw [placeChars, List.cons_append, List.infix_cons_iff, List.cons_append,
    List.infix_cons_iff, List.nil_append, List.append_assoc] at inside
  rcases inside with first | first | inside
  · exact absurd (List.cons_prefix_cons.mp first).1 (by decide)
  · exact absurd (List.cons_prefix_cons.mp first).1 (by decide)
  · exact plain (@infix_of_infix_append [',', ' '] _ _ _ absent inside)

theorem rfind_number (file : String) (line : Nat) :
    rfind [' ', ':', ' '] (placeChars file line) = some (file.toList, line.repr.toList) := by
  refine rfind_append ?_ file.toList
  intro inside
  have absent : ' ' ∉ line.repr.toList := not_mem_repr (by decide)
  have short := (@infix_of_infix_append [' ', ':'] _ _ _ absent inside).length_le
  exact absurd short (by decide)

/-- A place that is written out is split off. -/
theorem splitLocation_located {s head file : String} {line : Nat}
    (chars : s.toList = head.toList ++ (openPlace ++ (placeChars file line ++ ['}'])))
    (plain : ¬ openPlace <:+: file.toList) (fits : line < 2 ^ 32) :
    splitLocation s = (trim head, some (trim file), some line) := by
  have last : s.toList.getLast? = some '}' := by
    rw [List.getLast?_eq_some_iff]
    exact ⟨head.toList ++ (openPlace ++ placeChars file line), by rw [chars]; simp⟩
  have whole : trimEnd s = s := trimEndMatches_of_solid last (by decide)
  have number : parseUnsigned 32 (trim line.repr) = some line := by
    rw [trim_of_plain fun c member => isWhitespace_of_digit (digit_of_mem_repr member),
      parseUnsigned_repr fits]
  rw [chars] at last
  simp only [splitLocation, whole, last, if_true, chars, rfind_place plain, List.dropLast_concat,
    rfind_number, String.ofList_toList, number, Option.bind_eq_bind, Option.bind_some,
    Option.pure_def, Option.getD_some]

/-- Without a place nothing but an absent one is taken off. -/
theorem splitLocation_unlocated {s : String}
    (unlocated : (trimEnd s).toList.getLast? = some '}' → ¬ openPlace <:+: (trimEnd s).toList) :
    splitLocation s =
      (trim (trimEndMatches (· == ',') (trimEnd (trimEndMatchesStr "(null)" (trimEnd s)))),
        none, none) := by
  by_cases last : (trimEnd s).toList.getLast? = some '}'
  · have absent : rfind openPlace (trimEnd s).toList = none :=
      rfind_eq_none (by decide) (unlocated last)
    simp only [splitLocation, last, if_true, absent, Option.bind_eq_bind, Option.bind_none,
      Option.getD_none]
  · simp only [splitLocation, last, if_false, Option.getD_none]

/-! ## Type and text -/

/-- The rest of `parse_record`, behind `split_location`. -/
def fields (head : String) : String × String :=
  match splitOnce [','] head.toList with
  | some (type_, rest) =>
    (trim (.ofList type_), trim (trimEndMatches (· == ',') (trim (.ofList rest))))
  | none => (trim head, "")

theorem parseRecord_eq {s head : String} {place : Option String × Option Nat}
    (split : splitLocation s = (head, place)) :
    parseRecord s = ((fields head).1, (fields head).2, place) := by
  rw [parseRecord, split, fields]
  dsimp only
  cases splitOnce [','] head.toList <;> rfl

theorem trimEnd_comma (s : String) : trimEnd (s ++ ",") = s ++ "," := by
  have last : (s ++ ",").toList.getLast? = some ',' := by
    rw [String.toList_append, List.getLast?_append]
    rfl
  exact trimEndMatches_of_solid last (by decide)

theorem trimEnd_separator (s : String) : trimEnd (s ++ ", ") = s ++ "," := by
  have apart : s ++ ", " = s ++ "," ++ " " := String.toList_inj.mp (by simp)
  have blank : ∀ c ∈ " ".toList, isWhitespace c = true := List.forall_mem_singleton.mpr rfl
  rw [apart, trimEnd, trimEndMatches_append blank]
  exact trimEnd_comma s

section Fields

variable {type_ text : String} (typed : Trimmed type_) (filled : type_ ≠ "")
  (plain : ',' ∉ type_.toList) (trimmed : Trimmed text)
  (noComma : text.toList.getLast? ≠ some ',')

include typed plain in
/-- A type alone, with or without its comma. -/
theorem fields_bare : fields type_ = (type_, "") ∧ fields (type_ ++ ",") = (type_, "") := by
  have cut : splitOnce [','] (type_ ++ ",").toList = some (type_.toList, []) := by
    rw [String.toList_append]
    exact splitOnce_append plain []
  constructor
  · rw [fields, splitOnce_eq_none plain]
    dsimp only
    rw [typed]
  · rw [fields, cut]
    dsimp only
    rw [String.ofList_toList, typed]
    rfl

include typed plain trimmed noComma in
theorem fields_joined : fields (type_ ++ ", " ++ text) = (type_, text) := by
  have cut : splitOnce [','] (type_ ++ ", " ++ text).toList =
      some (type_.toList, ' ' :: text.toList) := by
    have := splitOnce_append plain (' ' :: text.toList)
    simpa using this
  have inner : trim (.ofList (' ' :: text.toList)) = text := by
    have blank : trimStartMatches isWhitespace (.ofList (' ' :: text.toList)) =
        trimStartMatches isWhitespace text := by
      rw [trimStartMatches, String.toList_ofList, List.dropWhile_cons, if_pos (by decide)]
      rfl
    rw [trim, trimMatches, blank]
    exact trimmed
  have kept : trimEndMatches (· == ',') text = text := by
    apply trimEndMatches_of_last
    intro c last
    exact beq_false_of_ne fun same => noComma (same ▸ last)
  rw [fields, cut]
  dsimp only
  rw [String.ofList_toList, typed, inner, kept, trimmed]

include typed filled in
theorem head_not_blank (rest : String) :
    ∀ c ∈ (type_ ++ rest).toList.head?, isWhitespace c = false := by
  intro c first
  rw [String.toList_append, List.head?_append_of_ne_nil _ (mt String.toList_eq_nil_iff.mp filled)]
    at first
  exact typed.head c first

include trimmed noComma in
/-- The last character of the two together is the text's, or the blank in front of it. -/
theorem last_joined : (text = "" ∧ (type_ ++ ", " ++ text).toList.getLast? = some ' ') ∨
    ∃ c, (type_ ++ ", " ++ text).toList.getLast? = some c ∧ text.toList.getLast? = some c ∧
      isWhitespace c = false ∧ c ≠ ',' := by
  cases last : text.toList.getLast? with
  | none =>
    have empty : text = "" := String.toList_eq_nil_iff.mp (List.getLast?_eq_none_iff.mp last)
    exact .inl ⟨empty, by rw [empty]; simp⟩
  | some c =>
    refine .inr ⟨c, ?_, rfl, trimmed.last c last, fun same => noComma (same ▸ last)⟩
    rw [String.toList_append, List.getLast?_append, last]
    rfl

include typed filled trimmed noComma in
theorem trim_joined : (text = "" ∧ trim (type_ ++ ", " ++ text) = type_ ++ ",") ∨
    (text ≠ "" ∧ Trimmed (type_ ++ ", " ++ text)) := by
  have first := head_not_blank typed filled
  obtain ⟨empty, -⟩ | ⟨c, last, own, solid, -⟩ := @last_joined type_ text trimmed noComma
  · refine .inl ⟨empty, ?_⟩
    rw [empty, String.append_empty, trim, trimMatches, trimStartMatches_of_head (first _)]
    exact trimEnd_separator type_
  · refine .inr ⟨?_, trimmed_of_ends ?_ ?_⟩
    · intro empty
      rw [empty] at own
      cases own
    · rw [String.append_assoc]
      exact first _
    · rw [last]
      rintro c ⟨⟩
      exact solid

include typed filled plain trimmed noComma in
theorem fields_trim_joined : fields (trim (type_ ++ ", " ++ text)) = (type_, text) := by
  obtain ⟨rfl, bare⟩ | ⟨-, whole⟩ := trim_joined typed filled trimmed noComma
  · rw [bare]
    exact (fields_bare typed plain).2
  · rw [whole]
    exact fields_joined typed plain trimmed noComma

include trimmed noComma in
theorem trimCommas_joined :
    trimEndMatches (· == ',') (type_ ++ ", " ++ text) = type_ ++ ", " ++ text := by
  obtain ⟨-, last⟩ | ⟨c, last, -, -, other⟩ := @last_joined type_ text trimmed noComma
  · exact trimEndMatches_of_solid last rfl
  · exact trimEndMatches_of_solid last (beq_false_of_ne other)

include plain in
/-- Neither the separator behind the type nor the text opens a place. -/
theorem joined_unlocated (inside : ¬ openPlace <:+: text.toList)
    (brace : text.toList.head? ≠ some '{') :
    ¬ openPlace <:+: (type_ ++ ", " ++ text).toList := by
  have chars : (type_ ++ ", " ++ text).toList = type_.toList ++ ',' :: ' ' :: text.toList := by simp
  intro found
  rw [chars] at found
  have later := @infix_of_absent_front [' ', '{'] _ _ _ plain found
  rcases List.infix_cons_iff.mp later with first | later
  · obtain ⟨rest, same⟩ := (List.cons_prefix_cons.mp (List.cons_prefix_cons.mp first).2).2
    exact brace (by rw [← same]; rfl)
  · rcases List.infix_cons_iff.mp later with first | later
    · exact absurd (List.cons_prefix_cons.mp first).1 (by decide)
    · exact inside later

include plain in
theorem trimCommas_type : trimEndMatches (· == ',') (type_ ++ ",") = type_ := by
  have comma : ∀ c ∈ ",".toList, (c == ',') = true := List.forall_mem_singleton.mpr rfl
  rw [trimEndMatches_append comma, trimEndMatches_of_last]
  intro c last
  exact beq_false_of_ne fun same => plain (same ▸ List.mem_of_getLast? last)

include typed filled plain trimmed noComma in
/-- The record without a place. -/
theorem parseRecord_bare (inside : ¬ openPlace <:+: text.toList)
    (brace : text.toList.head? ≠ some '{') (present : ¬ "(null)".toList <:+ text.toList) :
    parseRecord (type_ ++ ", " ++ text) = (type_, text, none, none) := by
  obtain ⟨rfl, -⟩ | ⟨-, whole⟩ := trim_joined typed filled trimmed noComma
  · have kept : trimEndMatchesStr "(null)" (type_ ++ ",") = type_ ++ "," := by
      apply trimEndMatchesStr_of_not_suffix
      intro suffix
      rw [String.toList_append] at suffix
      have := @suffix_of_suffix_append _ _ [] _ (by decide) suffix
      simp at this
    have split : splitLocation (type_ ++ ", ") = (type_, none, none) := by
      rw [splitLocation_unlocated, trimEnd_separator, kept, trimEnd_comma, trimCommas_type plain,
        typed]
      intro last
      rw [trimEnd_separator, String.toList_append, List.getLast?_append] at last
      cases last
    rw [String.append_empty, parseRecord_eq split, (fields_bare typed plain).1]
  · have trimmedEnd : trimEnd (type_ ++ ", " ++ text) = type_ ++ ", " ++ text :=
      trimEndMatches_of_last whole.last
    have kept : trimEndMatchesStr "(null)" (type_ ++ ", " ++ text) = type_ ++ ", " ++ text := by
      apply trimEndMatchesStr_of_not_suffix
      intro suffix
      have chars : (type_ ++ ", " ++ text).toList =
          (type_ ++ ",").toList ++ ' ' :: text.toList := by simp
      rw [chars] at suffix
      exact present (suffix_of_suffix_append (by decide) suffix)
    have split : splitLocation (type_ ++ ", " ++ text) = (type_ ++ ", " ++ text, none, none) := by
      rw [splitLocation_unlocated, trimmedEnd, kept, trimmedEnd, trimCommas_joined trimmed noComma, whole]
      intro _
      rw [trimmedEnd]
      exact joined_unlocated plain inside brace
    rw [parseRecord_eq split, fields_joined typed plain trimmed noComma]

include typed filled plain trimmed noComma in
/-- The record with an absent place. -/
theorem parseRecord_null :
    parseRecord (type_ ++ ", " ++ text ++ ", (null)") = (type_, text, none, none) := by
  set joined := type_ ++ ", " ++ text with written
  have apart : joined ++ ", (null)" = joined ++ ", " ++ "(null)" :=
    String.toList_inj.mp (by simp)
  have last : (joined ++ ", (null)").toList.getLast? = some ')' := by
    rw [String.toList_append, List.getLast?_append]
    rfl
  have trimmedEnd : trimEnd (joined ++ ", (null)") = joined ++ ", (null)" :=
    trimEndMatches_of_solid last (by decide)
  have absent : ¬ "(null)".toList <:+ (joined ++ ", ").toList := by
    intro suffix
    rw [show (joined ++ ", ").toList = (joined ++ ",").toList ++ ' ' :: [] by simp] at suffix
    have := suffix_of_suffix_append (by decide) suffix
    simp at this
  have comma : ∀ c ∈ ",".toList, (c == ',') = true := List.forall_mem_singleton.mpr rfl
  have split : splitLocation (joined ++ ", (null)") = (trim joined, none, none) := by
    rw [splitLocation_unlocated, trimmedEnd, apart, trimEndMatchesStr_append (by decide) absent,
      trimEnd_separator, trimEndMatches_append comma, trimCommas_joined trimmed noComma]
    rw [trimmedEnd, last]
    intro brace
    exact absurd brace (by decide)
  rw [parseRecord_eq split, fields_trim_joined typed filled plain trimmed noComma]

end Fields

/-- A record that is written out is read back, with a place, without one and with an absent one. -/
theorem parseRecord_written {type_ text : String} (typed : Trimmed type_) (filled : type_ ≠ "")
    (plain : ',' ∉ type_.toList) (trimmed : Trimmed text)
    (noComma : text.toList.getLast? ≠ some ',') :
    (∀ (file : String) (line : Nat), Trimmed file → ¬ openPlace <:+: file.toList → line < 2 ^ 32 →
      parseRecord (type_ ++ ", " ++ text ++ ", \x7b" ++ file ++ " : " ++ toString line ++ "\x7d") =
        (type_, text, some file, some line)) ∧
    (¬ openPlace <:+: text.toList → text.toList.head? ≠ some '{' →
      ¬ "(null)".toList <:+ text.toList →
      parseRecord (type_ ++ ", " ++ text) = (type_, text, none, none) ∧
        parseRecord (type_ ++ ", " ++ text ++ ", (null)") = (type_, text, none, none)) := by
  constructor
  · intro file line known inside fits
    have chars : (type_ ++ ", " ++ text ++ ", \x7b" ++ file ++ " : " ++ toString line ++
        "\x7d").toList =
        (type_ ++ ", " ++ text).toList ++ (openPlace ++ (placeChars file line ++ ['}'])) := by
      simp [openPlace, placeChars]
    rw [parseRecord_eq (splitLocation_located chars inside fits), known,
      fields_trim_joined typed filled plain trimmed noComma]
  · intro inside brace present
    exact ⟨parseRecord_bare typed filled plain trimmed noComma inside brace present,
      parseRecord_null typed filled plain trimmed noComma⟩

/-- A statement that ends in a brace, with its place and without. -/
theorem parseRecord_written_brace :
    parseRecord ("npiAssignment" ++ ", " ++ "q = '\x7bdefault : 0\x7d" ++ ", \x7b" ++ "/p/dut.sv" ++
        " : " ++ toString 27 ++ "\x7d") =
      ("npiAssignment", "q = '\x7bdefault : 0\x7d", some "/p/dut.sv", some 27) ∧
    parseRecord ("npiAssignment" ++ ", " ++ "q = '\x7bdefault : 0\x7d") =
      ("npiAssignment", "q = '\x7bdefault : 0\x7d", none, none) ∧
    parseRecord ("npiAssignment" ++ ", " ++ "q = '\x7bdefault : 0\x7d" ++ ", (null)") =
      ("npiAssignment", "q = '\x7bdefault : 0\x7d", none, none) :=
  have written := @parseRecord_written "npiAssignment" "q = '\x7bdefault : 0\x7d" (by decide)
    (by decide) (by decide) (by decide) (by decide)
  ⟨written.1 "/p/dut.sv" 27 (by decide) (by decide) (by decide),
    written.2 (by decide) (by decide) (by decide)⟩

end RWave.Backend.NpiDump
