import RWave.Format
import RWave.Misc.Numeral
import RWave.Model.Mock

/-!
# Bare ticks

`parse_time` reads a time without a unit in two ways: `match_time` finds a sign and digits, and
what it does not match goes to the integer reader, which also knows digit separators. Here the
texts both ways accept are one grammar, `Ticks`, and the number returned is the one the digits
denote.
-/

namespace RWave.Format

open Misc

/-! ## The grammar -/

/-- Decimal digits, with single underscores between two of them. -/
inductive Grouped : List Char → Prop
  | last {c : Char} (digit : c.isDigit = true) : Grouped [c]
  | digit {c : Char} {rest : List Char} (digit : c.isDigit = true) (more : Grouped rest) :
      Grouped (c :: rest)
  | underscore {c : Char} {rest : List Char} (digit : c.isDigit = true) (more : Grouped rest) :
      Grouped (c :: '_' :: rest)

/-- The number a decimal digit stands for. -/
def digitValue (c : Char) : Nat := c.toNat - '0'.toNat

/-- The number the digits of a text denote. -/
def denoted (text : List Char) : Nat :=
  Numeral.value 10 ((text.filter Char.isDigit).map digitValue)

theorem zero_le_digit {c : Char} (digit : c.isDigit = true) : '0'.toNat ≤ c.toNat := by
  simp only [Char.isDigit, Bool.and_eq_true, decide_eq_true_eq] at digit
  exact digit.1

theorem digitValue_eq_zero {c : Char} (digit : c.isDigit = true) : digitValue c = 0 ↔ c = '0' := by
  have least := zero_le_digit digit
  constructor
  · intro none
    rw [digitValue] at none
    exact Char.toNat_inj.mp (by omega)
  · rintro rfl
    rfl

/-- `Ticks text n`: digits that denote `n`, with or without a sign. -/
inductive Ticks : List Char → Int → Prop
  | plain {text : List Char} (grouped : Grouped text) : Ticks text (denoted text)
  | plus {text : List Char} (grouped : Grouped text) : Ticks ('+' :: text) (denoted text)
  | minus {text : List Char} (grouped : Grouped text) : Ticks ('-' :: text) (-(denoted text : Int))

theorem grouped_head {text : List Char} (grouped : Grouped text) :
    ∃ c rest, text = c :: rest ∧ c.isDigit = true := by
  cases grouped with
  | last digit => exact ⟨_, _, rfl, digit⟩
  | digit digit _ => exact ⟨_, _, rfl, digit⟩
  | underscore digit _ => exact ⟨_, _, rfl, digit⟩

theorem grouped_of_digits {text : List Char} (nonempty : text ≠ [])
    (digits : ∀ c ∈ text, c.isDigit = true) : Grouped text := by
  induction text with
  | nil => contradiction
  | cons c rest ih =>
    obtain ⟨digit, others⟩ := List.forall_mem_cons.mp digits
    cases rest with
    | nil => exact .last digit
    | cons d rest => exact .digit digit (ih (List.cons_ne_nil _ _) others)

theorem grouped_chars {text : List Char} (grouped : Grouped text) :
    ∀ c ∈ text, c.isDigit = true ∨ c = '_' := by
  induction grouped with
  | last digit => simp [digit]
  | digit digit _ ih => simpa [digit] using ih
  | underscore digit _ ih => simpa [digit] using ih

/-! ## The sign -/

/-- The number behind a sign. -/
def signed (sign : List Char) (n : Nat) : Int := if sign = ['-'] then -n else n

/-- The sign a text starts with, if any, and what follows it. -/
structure Parted (sign body : List Char) : Prop where
  form : sign = [] ∨ sign = ['+'] ∨ sign = ['-']
  head : sign = [] → ∀ c rest, body = c :: rest → c ≠ '-' ∧ c ≠ '+'

theorem exists_parted (text : List Char) : ∃ sign body, Parted sign body ∧ text = sign ++ body := by
  cases text with
  | nil => exact ⟨[], [], ⟨by simp, by simp⟩, rfl⟩
  | cons c rest =>
    by_cases minus : c = '-'
    · exact ⟨['-'], rest, ⟨by simp, by simp⟩, by rw [minus]; rfl⟩
    · by_cases plus : c = '+'
      · exact ⟨['+'], rest, ⟨by simp, by simp⟩, by rw [plus]; rfl⟩
      · exact ⟨[], c :: rest, ⟨by simp, by simp [minus, plus]⟩, rfl⟩

theorem not_grouped_sign {c : Char} {rest : List Char} (grouped : Grouped (c :: rest)) :
    c ≠ '-' ∧ c ≠ '+' := by
  obtain ⟨d, others, same, digit⟩ := grouped_head grouped
  obtain ⟨rfl, rfl⟩ := List.cons.inj same
  constructor <;> rintro rfl <;> simp at digit

theorem parted_of_grouped {sign body : List Char} (form : sign = [] ∨ sign = ['+'] ∨ sign = ['-'])
    (grouped : Grouped body) : Parted sign body := by
  refine ⟨form, fun _ c rest same => ?_⟩
  rw [same] at grouped
  exact not_grouped_sign grouped

theorem ticks_signed {sign body : List Char} (form : sign = [] ∨ sign = ['+'] ∨ sign = ['-'])
    (grouped : Grouped body) : Ticks (sign ++ body) (signed sign (denoted body)) := by
  obtain rfl | rfl | rfl := form
  · exact .plain grouped
  · exact .plus grouped
  · exact .minus grouped

theorem ticks_parted {sign body : List Char} {n : Int} (parted : Parted sign body) :
    Ticks (sign ++ body) n ↔ Grouped body ∧ n = signed sign (denoted body) := by
  constructor
  · intro ticks
    obtain ⟨form, head⟩ := parted
    obtain rfl | rfl | rfl := form
    · rw [List.nil_append] at ticks
      cases ticks with
      | plain grouped => exact ⟨grouped, rfl⟩
      | plus grouped => exact absurd rfl (head rfl _ _ rfl).2
      | minus grouped => exact absurd rfl (head rfl _ _ rfl).1
    · rw [List.singleton_append] at ticks
      cases ticks with
      | plain grouped => exact absurd rfl (not_grouped_sign grouped).2
      | plus grouped => exact ⟨grouped, rfl⟩
    · rw [List.singleton_append] at ticks
      cases ticks with
      | plain grouped => exact absurd rfl (not_grouped_sign grouped).1
      | minus grouped => exact ⟨grouped, rfl⟩
  · rintro ⟨grouped, rfl⟩
    exact ticks_signed parted.form grouped

/-! ## The integer reader -/

theorem stripUnderscores_grouped {text : List Char} (grouped : Grouped text) (prevWasDigit : Bool) :
    stripUnderscores prevWasDigit text = some (text.filter Char.isDigit) := by
  have separator : Char.isDigit '_' = false := by decide
  induction grouped generalizing prevWasDigit with
  | last digit => simp [stripUnderscores, digit]
  | digit digit _ ih => simp [stripUnderscores, digit, ih]
  | underscore digit more ih =>
    obtain ⟨d, rest, rfl, next⟩ := grouped_head more
    have read := ih false
    simpa [stripUnderscores, digit, separator, next] using read

/-- What the reader of digits accepts behind a digit, or at the start. -/
theorem stripUnderscores_sound {text digits : List Char} {prevWasDigit : Bool}
    (accepted : stripUnderscores prevWasDigit text = some digits) :
    text = [] ∨ Grouped text ∨ prevWasDigit = true ∧ ∃ rest, text = '_' :: rest ∧ Grouped rest := by
  induction text generalizing prevWasDigit digits with
  | nil => exact .inl rfl
  | cons c rest ih =>
    rw [stripUnderscores] at accepted
    split at accepted
    · rename_i digit
      obtain ⟨tail, read, rfl⟩ := Option.map_eq_some_iff.mp accepted
      obtain rfl | more | ⟨-, rest, rfl, more⟩ := ih read
      · exact .inr (.inl (.last digit))
      · exact .inr (.inl (.digit digit more))
      · exact .inr (.inl (.underscore digit more))
    · split at accepted
      · rename_i separator
        split at accepted
        · rename_i between
          rw [Bool.and_eq_true] at between
          obtain ⟨prev, next⟩ := between
          obtain rfl | more | ⟨impossible, -⟩ := ih accepted
          · simp at next
          · exact .inr (.inr ⟨prev, rest, by rw [separator], more⟩)
          · contradiction
        · contradiction
      · contradiction

theorem readDigits {digits : List Char} (all : ∀ c ∈ digits, c.isDigit = true) (start : Nat) :
    digits.foldl (fun (n : Int) c => n * 10 + ((c.toNat : Int) - ('0'.toNat : Int))) start =
      ((digits.map digitValue).foldl (fun n d => n * 10 + d) start : Nat) := by
  induction digits generalizing start with
  | nil => rfl
  | cons c rest ih =>
    obtain ⟨digit, others⟩ := List.forall_mem_cons.mp all
    have least := zero_le_digit digit
    have step : (start : Int) * 10 + ((c.toNat : Int) - ('0'.toNat : Int)) =
        ((start * 10 + digitValue c : Nat) : Int) := by
      rw [digitValue]
      omega
    rw [List.foldl_cons, List.map_cons, List.foldl_cons, step, ih others]

/-- `parse::<i64>` of digits behind a sign or none. -/
theorem parseI64_parted {sign digits : List Char} (parted : Parted sign digits)
    (nonempty : digits ≠ []) (all : ∀ c ∈ digits, c.isDigit = true) :
    Str.parseI64 (.ofList (sign ++ digits)) =
      let v := signed sign (denoted digits)
      if -2 ^ 63 ≤ v ∧ v < 2 ^ 63 then some v else none := by
  have value := readDigits all 0
  have same : digits.filter Char.isDigit = digits := List.filter_eq_self.mpr all
  have read : (digits.isEmpty || !digits.all Char.isDigit) = false := by
    simpa [nonempty] using all
  obtain ⟨form, head⟩ := parted
  obtain rfl | rfl | rfl := form
  · rw [Str.parseI64, String.toList_ofList, List.nil_append]
    split
    rename_i split
    split at split
    · exact absurd rfl (head rfl _ _ rfl).1
    · exact absurd rfl (head rfl _ _ rfl).2
    · obtain ⟨rfl, rfl⟩ := Prod.mk.inj split
      simp only [read, signed, denoted, same, Numeral.value, value]
      simp
  · simp only [Str.parseI64, String.toList_ofList, List.cons_append, List.nil_append, read, signed,
      denoted, same, Numeral.value, value]
    simp
  · simp only [Str.parseI64, String.toList_ofList, List.cons_append, List.nil_append, read, signed,
      denoted, same, Numeral.value, value]
    simp

theorem stripIntUnderscores_parted {sign body : List Char} (parted : Parted sign body) :
    stripIntUnderscores (.ofList (sign ++ body)) =
      if body.isEmpty then none
      else (stripUnderscores false body).map fun digits => .ofList (sign ++ digits) := by
  obtain ⟨form, head⟩ := parted
  obtain rfl | rfl | rfl := form
  · rw [stripIntUnderscores, String.toList_ofList, List.nil_append]
    split
    rename_i split
    split at split
    · exact absurd rfl (head rfl _ _ rfl).2
    · exact absurd rfl (head rfl _ _ rfl).1
    · obtain ⟨rfl, rfl⟩ := Prod.mk.inj split
      rfl
  · simp only [stripIntUnderscores, String.toList_ofList, List.cons_append, List.nil_append]
  · simp only [stripIntUnderscores, String.toList_ofList, List.cons_append, List.nil_append]

/-- `strip_int_underscores` accepts an integer in groups, and drops its separators. -/
theorem stripIntUnderscores_iff {sign body : List Char} {cleaned : String}
    (parted : Parted sign body) :
    stripIntUnderscores (.ofList (sign ++ body)) = some cleaned ↔
      Grouped body ∧ cleaned = .ofList (sign ++ body.filter Char.isDigit) := by
  rw [stripIntUnderscores_parted parted]
  constructor
  · intro accepted
    split at accepted
    · contradiction
    · rename_i nonempty
      obtain ⟨digits, read, rfl⟩ := Option.map_eq_some_iff.mp accepted
      obtain rfl | grouped | ⟨impossible, -⟩ := stripUnderscores_sound read
      · simp at nonempty
      · rw [stripUnderscores_grouped grouped, Option.some_inj] at read
        exact ⟨grouped, by rw [read]⟩
      · contradiction
  · rintro ⟨grouped, rfl⟩
    obtain ⟨c, rest, rfl, digit⟩ := grouped_head grouped
    rw [stripUnderscores_grouped grouped]
    rfl

theorem digits_of_grouped {body : List Char} (grouped : Grouped body) :
    body.filter Char.isDigit ≠ [] ∧ denoted (body.filter Char.isDigit) = denoted body := by
  obtain ⟨c, rest, rfl, digit⟩ := grouped_head grouped
  constructor
  · simp [digit]
  · rw [denoted, List.filter_filter]
    simp [denoted]

/-- `parse_ticks_decimal` returns the number an integer denotes, if it is an `i64`. -/
theorem parseTicksDecimal_iff {sign body : List Char} (parted : Parted sign body)
    (original : String) (n : Int) :
    parseTicksDecimal (.ofList (sign ++ body)) original = .ok n ↔
      Ticks (sign ++ body) n ∧ -2 ^ 63 ≤ n ∧ n < 2 ^ 63 := by
  rw [ticks_parted parted]
  have accepts := @stripIntUnderscores_iff sign body
  rw [parseTicksDecimal]
  cases read : stripIntUnderscores (.ofList (sign ++ body)) with
  | none =>
    have refused : ¬ Grouped body := by
      intro grouped
      have accepted := (accepts parted).mpr ⟨grouped, rfl⟩
      rw [read] at accepted
      contradiction
    simp [refused]
  | some cleaned =>
    obtain ⟨grouped, rfl⟩ := (accepts parted).mp read
    obtain ⟨nonempty, same⟩ := digits_of_grouped grouped
    have digits : ∀ c ∈ body.filter Char.isDigit, c.isDigit = true := fun c member =>
      (List.mem_filter.mp member).2
    have clean := parted_of_grouped parted.form (grouped_of_digits nonempty digits)
    have number := parseI64_parted clean nonempty digits
    rw [same] at number
    simp only [number, grouped, true_and]
    by_cases fits : -2 ^ 63 ≤ signed sign (denoted body) ∧ signed sign (denoted body) < 2 ^ 63
    · rw [if_pos fits, Except.ok.injEq]
      constructor
      · rintro rfl
        exact ⟨rfl, fits⟩
      · rintro ⟨rfl, -⟩
        rfl
    · rw [if_neg fits]
      constructor
      · intro accepted
        dsimp only at accepted
        split at accepted <;> contradiction
      · rintro ⟨rfl, range⟩
        contradiction

theorem checkTimeRange_iff (v n : Int) (original : String) :
    checkTimeRange v original = .ok n ↔ v = n ∧ 0 ≤ n := by
  rw [checkTimeRange]
  split
  · constructor
    · intro accepted
      contradiction
    · rintro ⟨rfl, nonneg⟩
      omega
  · rw [Except.ok.injEq]
    constructor
    · rintro rfl
      omega
    · exact And.left

theorem readTicks_iff {sign body : List Char} (parted : Parted sign body) (original : String)
    (n : Int) :
    (do
      let v ← parseTicksDecimal (.ofList (sign ++ body)) original
      checkTimeRange v original) = .ok n ↔
      Ticks (sign ++ body) n ∧ 0 ≤ n ∧ n ≤ maxTimeTicks := by
  have reads := parseTicksDecimal_iff parted original
  cases read : parseTicksDecimal (.ofList (sign ++ body)) original with
  | error message =>
    have refused := reads n
    rw [read] at refused
    constructor
    · intro accepted
      contradiction
    · rintro ⟨ticks, nonneg, most⟩
      have impossible := refused.mpr ⟨ticks, by omega, by unfold maxTimeTicks at most; omega⟩
      contradiction
  | ok v =>
    have range := (reads v).mp read
    change checkTimeRange v original = .ok n ↔ _
    rw [checkTimeRange_iff]
    constructor
    · rintro ⟨rfl, nonneg⟩
      exact ⟨range.1, nonneg, by unfold maxTimeTicks; omega⟩
    · rintro ⟨ticks, nonneg, -⟩
      have same := ((ticks_parted parted).mp ticks).2
      exact ⟨by rw [same, ((ticks_parted parted).mp range.1).2], nonneg⟩

/-! ## The matcher -/

theorem numberSpan_append (sawDot : Bool) (text : List Char) :
    (numberSpan sawDot text).1 ++ (numberSpan sawDot text).2 = text ∧
      ∀ c ∈ (numberSpan sawDot text).1, c.isDigit = true ∨ c = '.' := by
  induction text generalizing sawDot with
  | nil => simp [numberSpan]
  | cons c rest ih =>
    rw [numberSpan]
    split
    · rename_i digit
      simpa [digit] using ih sawDot
    · split
      · rename_i dot
        simpa [dot.1] using ih true
      · simp

/-- The sign `match_time` reports. -/
def signChar (signs : List Char) : Char := if signs = ['-'] then '-' else '+'

theorem signChar_minus (signs : List Char) : signChar signs = '-' ↔ signs = ['-'] := by
  rw [signChar]
  split
  · simp_all
  · simp_all

theorem matchTime_parted {signs body : List Char} (parted : Parted signs body) :
    matchTime (.ofList (signs ++ body)) =
      let (num, rest) := numberSpan false body
      if num.any Char.isDigit || (num.contains '.' && num.length > 1) then
        if rest.isEmpty then some (signChar signs, .ofList num, none)
        else if (unitFactor (.ofList rest)).isSome then
          some (signChar signs, .ofList num, some (.ofList rest))
        else none
      else none := by
  obtain ⟨form, head⟩ := parted
  obtain rfl | rfl | rfl := form
  · rw [matchTime, String.toList_ofList, List.nil_append]
    cases body with
    | nil => rfl
    | cons c rest =>
      obtain ⟨minus, plus⟩ := head rfl c rest rfl
      simp [minus, plus, signChar]
  · rw [matchTime, String.toList_ofList]
    simp [signChar]
  · rw [matchTime, String.toList_ofList]
    simp [signChar]

/-- What `match_time` has matched when it found no unit. -/
theorem matchTime_bare {signs body : List Char} (parted : Parted signs body) {num : String}
    {sign : Char} (matched : matchTime (.ofList (signs ++ body)) = some (sign, num, none)) :
    num = .ofList body ∧ (sign = '-' ↔ signs = ['-']) ∧ body ≠ [] ∧
      ∀ c ∈ body, c.isDigit = true ∨ c = '.' := by
  obtain ⟨whole, chars⟩ := numberSpan_append false body
  rw [matchTime_parted parted] at matched
  cases span : numberSpan false body with
  | mk number rest =>
    rw [span] at whole chars matched
    dsimp only at whole chars matched
    split at matched
    · rename_i numeral
      split at matched
      · rename_i bare
        obtain rfl := List.isEmpty_iff.mp bare
        rw [List.append_nil] at whole
        obtain ⟨rfl, rfl, -⟩ : signChar signs = sign ∧ String.ofList number = num ∧ True := by
          simpa using matched
        subst whole
        refine ⟨rfl, signChar_minus signs, ?_, chars⟩
        rintro rfl
        simp at numeral
      · split at matched <;> simp at matched
    · contradiction

/-- Nothing is left of a text when all of it is trimmed. -/
theorem trimMatches_empty (p : Char → Bool) (text : List Char) :
    Str.trimMatches p (.ofList text) = "" ↔ ∀ c ∈ text, p c = true := by
  have start : text.dropWhile p = [] ↔ ∀ c ∈ text, p c = true := List.dropWhile_eq_nil_iff
  rw [Str.trimMatches, Str.trimEndMatches, Str.trimStartMatches, String.toList_ofList,
    String.toList_ofList, ← start]
  cases rest : text.dropWhile p with
  | nil => simp
  | cons c others =>
    have stops : p c = false := by
      have head := List.head?_dropWhile_not p text
      rw [rest] at head
      simpa using head
    simp [stops]

theorem denoted_eq_zero {body : List Char} (digits : ∀ c ∈ body, c.isDigit = true) :
    denoted body = 0 ↔ ∀ c ∈ body, c = '0' := by
  rw [denoted, Numeral.value_eq_zero (by decide), List.filter_eq_self.mpr digits,
    List.forall_mem_map]
  exact forall₂_congr fun c member => digitValue_eq_zero (digits c member)

/-- What follows in `parse_time` when `match_time` has found no unit. A number behind a minus sign
is refused unless it is zero, so the sign can be left out of what is read. -/
theorem readMatched_iff {signs body : List Char} (parted : Parted signs body) (nonempty : body ≠ [])
    (chars : ∀ c ∈ body, c.isDigit = true ∨ c = '.') (original message : String) (n : Int) :
    (if signs = ['-'] ∧ ¬ ∀ c ∈ body, (c == '0' || c == '.') = true then
        .error (timeNegative original)
      else if '.' ∈ body then .error message
      else do
        let v ← parseTicksDecimal (.ofList body) original
        checkTimeRange v original) = Except.ok n ↔
      Ticks (signs ++ body) n ∧ 0 ≤ n ∧ n ≤ maxTimeTicks := by
  rw [ticks_parted parted]
  by_cases dotted : '.' ∈ body
  · have refused : ¬ Grouped body := by
      intro grouped
      obtain digit | separator := grouped_chars grouped '.' dotted <;> contradiction
    rw [if_pos dotted]
    constructor
    · intro accepted
      split at accepted <;> contradiction
    · rintro ⟨⟨grouped, -⟩, -⟩
      contradiction
  · have digits : ∀ c ∈ body, c.isDigit = true := by
      intro c member
      refine (chars c member).resolve_right ?_
      rintro rfl
      exact dotted member
    have grouped := grouped_of_digits nonempty digits
    have zero : (∀ c ∈ body, (c == '0' || c == '.') = true) ↔ denoted body = 0 := by
      rw [denoted_eq_zero digits]
      refine forall₂_congr fun c member => ?_
      have noDot : c ≠ '.' := by
        rintro rfl
        exact dotted member
      simp [noDot]
    have unsigned := parted_of_grouped (.inl rfl) grouped
    have reads := readTicks_iff unsigned original n
    rw [ticks_parted unsigned, List.nil_append] at reads
    rw [if_neg dotted]
    simp only [zero]
    split
    · rename_i negative
      obtain ⟨minus, nonzero⟩ := negative
      constructor
      · intro accepted
        contradiction
      · rintro ⟨⟨-, same⟩, nonneg, -⟩
        rw [signed, if_pos minus] at same
        omega
    · rename_i accepted
      have same : signed signs (denoted body) = denoted body := by
        rw [signed]
        split
        · rename_i minus
          rw [show denoted body = 0 by tauto]
          rfl
        · rfl
      rw [reads, same, signed, if_neg (by simp)]

/-- `match_time` reads a unit. -/
def CarriesUnit (s : String) : Prop := ∃ sign num unit, matchTime s = some (sign, num, some unit)

/-- A text that carries a unit ends in the name of one. -/
theorem carriesUnit_suffix {s : String} (carries : CarriesUnit s) :
    ∃ u ∈ units, u.1.toList <:+ s.toList := by
  obtain ⟨sign, num, unit, matched⟩ := carries
  obtain ⟨signs, body, parted, text⟩ := exists_parted s.toList
  obtain ⟨whole, -⟩ := numberSpan_append false body
  rw [← String.ofList_toList (s := s), text, matchTime_parted parted] at matched
  cases span : numberSpan false body with
  | mk number rest =>
    rw [span] at whole matched
    dsimp only at whole matched
    split at matched
    · split at matched
      · simp at matched
      · split at matched
        · rename_i known
          rw [unitFactor, Option.isSome_map, List.find?_isSome] at known
          obtain ⟨u, member, same⟩ := known
          refine ⟨u, member, signs ++ number, ?_⟩
          rw [eq_of_beq same, String.toList_ofList, text, ← whole, List.append_assoc]
        · contradiction
    · contradiction

/-- A time without a unit is read as the number of ticks it denotes, when that is not negative and
fits an `i64`, and is refused otherwise. -/
theorem parseTime_ticks (host : Host) (s : String) (tsSec : F64) (n : Int)
    (short : Str.len s ≤ maxTimeArgLen) (bare : ¬ CarriesUnit (Str.trim s)) :
    parseTime host s tsSec = .ok n ↔
      Ticks (Str.trim s).toList n ∧ 0 ≤ n ∧ n ≤ maxTimeTicks := by
  obtain ⟨signs, body, parted, text⟩ := exists_parted (Str.trim s).toList
  have trimmed : Str.trim s = .ofList (signs ++ body) := by rw [← text, String.ofList_toList]
  rw [parseTime, if_neg (by omega), text]
  dsimp only
  cases matched : matchTime (Str.trim s) with
  | none =>
    rw [trimmed]
    exact readTicks_iff parted s n
  | some found =>
    obtain ⟨sign, num, unit⟩ := found
    cases unit with
    | some unit => exact absurd ⟨sign, num, unit, matched⟩ bare
    | none =>
      rw [trimmed] at matched
      obtain ⟨rfl, minus, nonempty, chars⟩ := matchTime_bare parted matched
      simp only [ne_eq, trimMatches_empty, minus, String.toList_ofList, List.contains_iff_mem]
      exact readMatched_iff parted nonempty chars s _ n

theorem parseTime_ticks_grouped :
    parseTime Model.MockBackend.host " +1_000 " zero = .ok 1000 := by
  have bare : ¬ CarriesUnit (Str.trim " +1_000 ") := by
    rintro ⟨sign, num, unit, matched⟩
    have unmatched : matchTime (Str.trim " +1_000 ") = none := by decide
    rw [unmatched] at matched
    contradiction
  have text : (Str.trim " +1_000 ").toList = ['+', '1', '_', '0', '0', '0'] := by decide
  have ticks : Ticks (Str.trim " +1_000 ").toList 1000 := by
    rw [text]
    exact .plus (.underscore rfl (.digit rfl (.digit rfl (.last rfl))))
  exact (parseTime_ticks _ _ _ _ (by decide) bare).mpr ⟨ticks, by decide, by decide⟩

end RWave.Format
