import Mathlib

/-!
# The grammar of JSON texts

RFC 8259 rule by rule, over the characters of a text, with the value each phrase has. A number is
the rational that its digits denote. A string is a sequence of UTF-16 code units, since a `\u`
escape writes one of those. The members of an object are kept in order, repeated names included.

The grammar is unambiguous: a text has at most one value (`IsText.unique`). The blanks around the
structural characters may go to either side of a cut, so two derivations are compared up to the
blanks in front of what they leave.
-/

namespace RWave.Misc.JsonText

/-- A JSON value. -/
inductive Value where
  | null
  | bool (b : Bool)
  | number (q : ℚ)
  | string (units : List Nat)
  | array (items : List Value)
  | object (members : List (List Nat × Value))

/-! ## Blanks and structural characters -/

/-- A character of `ws`. -/
def isBlank (c : Char) : Bool := c = ' ' || c = '\t' || c = '\n' || c = '\r'

/-- A text without the blanks in front. -/
def skip (s : List Char) : List Char := s.dropWhile isBlank

/-- A structural character: `c` with blanks around it. -/
def IsStructural (c : Char) (s : List Char) : Prop :=
  ∃ before after, (∀ x ∈ before, isBlank x) ∧ (∀ x ∈ after, isBlank x) ∧ s = before ++ c :: after

variable {c : Char} {r r' s s' t t' : List Char}

theorem skip_blanks (blank : ∀ x ∈ s, isBlank x) : skip (s ++ r) = skip r :=
  List.dropWhile_append_of_pos blank

theorem skip_cons (visible : isBlank c = false) : skip (c :: r) = c :: r :=
  List.dropWhile_cons_of_neg (by simp [visible])

namespace IsStructural

theorem bare (c : Char) : IsStructural c [c] := ⟨[], [], by simp, by simp, rfl⟩

theorem skip_eq (h : IsStructural c s) (visible : isBlank c = false) (r : List Char) :
    ∃ u, skip (s ++ r) = c :: u ∧ skip u = skip r := by
  obtain ⟨before, after, blankBefore, blankAfter, rfl⟩ := h
  refine ⟨after ++ r, ?_, skip_blanks blankAfter⟩
  rw [List.append_assoc, skip_blanks blankBefore, List.cons_append, skip_cons visible]

/-- What stands behind a structural character is the same, blanks apart. -/
theorem skip_inj (h : IsStructural c s) (h' : IsStructural c s') (visible : isBlank c = false)
    (same : skip (s ++ r) = skip (s' ++ r')) : skip r = skip r' := by
  obtain ⟨u, cut, rest⟩ := h.skip_eq visible r
  obtain ⟨u', cut', rest'⟩ := h'.skip_eq visible r'
  rw [cut, cut'] at same
  rw [← rest, ← rest', (List.cons.inj same).2]

end IsStructural

/-! ## Numbers -/

/-- Where a run of characters ends is determined, if what follows does not go on with it. -/
theorem run_inj {p : Char → Bool} (run : ∀ x ∈ s, p x) (run' : ∀ x ∈ s', p x)
    (ends : ∀ x ∈ r.head?, p x = false) (ends' : ∀ x ∈ r'.head?, p x = false)
    (same : s ++ r = s' ++ r') : s = s' ∧ r = r' := by
  have take {s r : List Char} (run : ∀ x ∈ s, p x) (ends : ∀ x ∈ r.head?, p x = false) :
      (s ++ r).takeWhile p = s := by
    rw [List.takeWhile_append_of_pos run]
    cases r with
    | nil => simp
    | cons x r => rw [List.takeWhile_cons_of_neg (by simp [ends x rfl]), List.append_nil]
  have first : s = s' := by rw [← take run ends, same, take run' ends']
  exact ⟨first, List.append_cancel_left (first ▸ same)⟩

/-- `1*DIGIT`. -/
def IsDigits (s : List Char) : Prop := s ≠ [] ∧ ∀ x ∈ s, x.isDigit

/-- The number that digits denote. -/
def digitsValue (s : List Char) : Nat := Nat.ofDigitChars 10 s 0

/-- `int`: no leading zeros. -/
def IsInt (s : List Char) : Prop := IsDigits s ∧ (s.head? = some '0' → s = ['0'])

/-- `[ frac ]`. -/
inductive IsFrac : List Char → ℚ → Prop
  | absent : IsFrac [] 0
  | digits {ds : List Char} (h : IsDigits ds) : IsFrac ('.' :: ds) (digitsValue ds / 10 ^ ds.length)

/-- `[ exp ]`. -/
inductive IsExp : List Char → ℤ → Prop
  | absent : IsExp [] 0
  | plain {e : Char} {ds : List Char} (mark : e = 'e' ∨ e = 'E') (h : IsDigits ds) :
      IsExp (e :: ds) (digitsValue ds)
  | plus {e : Char} {ds : List Char} (mark : e = 'e' ∨ e = 'E') (h : IsDigits ds) :
      IsExp (e :: '+' :: ds) (digitsValue ds)
  | minus {e : Char} {ds : List Char} (mark : e = 'e' ∨ e = 'E') (h : IsDigits ds) :
      IsExp (e :: '-' :: ds) (-digitsValue ds)

/-- `int [ frac ] [ exp ]`. -/
inductive IsUnsigned : List Char → ℚ → Prop
  | mk {i f x : List Char} {q : ℚ} {e : ℤ} (int : IsInt i) (frac : IsFrac f q) (exp : IsExp x e) :
      IsUnsigned (i ++ (f ++ x)) ((digitsValue i + q) * 10 ^ e)

/-- `number`. -/
inductive IsNumber : List Char → ℚ → Prop
  | plain {s : List Char} {q : ℚ} (h : IsUnsigned s q) : IsNumber s q
  | minus {s : List Char} {q : ℚ} (h : IsUnsigned s q) : IsNumber ('-' :: s) (-q)

/-- A character that a number can have. -/
def isNumberChar (c : Char) : Bool :=
  c.isDigit || c = '-' || c = '+' || c = '.' || c = 'e' || c = 'E'

/-- No number goes on here. -/
def Stop (r : List Char) : Prop := ∀ x ∈ r.head?, isNumberChar x = false

theorem IsExp.head {e : ℤ} (h : IsExp s e) : ∀ x ∈ s.head?, x = 'e' ∨ x = 'E' := by
  cases h with
  | absent => simp
  | plain mark | plus mark | minus mark => simpa using mark

theorem IsExp.unique {e e' : ℤ} (h : IsExp s e) (h' : IsExp s e') : e = e' := by
  have signed {d : Char} {ds : List Char} (h : IsDigits (d :: ds)) : d.isDigit :=
    h.2 d List.mem_cons_self
  cases h with
  | absent => cases h'; rfl
  | plain _ h =>
    cases h' with
    | plain => rfl
    | plus => exact absurd (signed h) (by decide)
    | minus => exact absurd (signed h) (by decide)
  | plus =>
    cases h' with
    | plain _ h' => exact absurd (signed h') (by decide)
    | plus => rfl
  | minus =>
    cases h' with
    | plain _ h' => exact absurd (signed h') (by decide)
    | minus => rfl

theorem IsFrac.unique {q q' : ℚ} {e e' : ℤ} (h : IsFrac s q) (h' : IsFrac s' q') (exp : IsExp t e)
    (exp' : IsExp t' e') (same : s ++ t = s' ++ t') : q = q' ∧ t = t' := by
  have ends {t : List Char} {e : ℤ} (exp : IsExp t e) : ∀ x ∈ t.head?, x.isDigit = false := by
    intro x first
    rcases exp.head x first with rfl | rfl <;> decide
  have point {t u : List Char} {e : ℤ} (exp : IsExp t e) : t ≠ '.' :: u := by
    rintro rfl
    exact absurd (exp.head '.' rfl) (by decide)
  cases h with
  | absent =>
    cases h' with
    | absent => exact ⟨rfl, same⟩
    | digits => exact absurd same (point exp)
  | digits h =>
    cases h' with
    | absent => exact absurd same.symm (point exp')
    | digits h' =>
      obtain ⟨rfl, rest⟩ := run_inj h.2 h'.2 (ends exp) (ends exp') (List.cons.inj same).2
      exact ⟨rfl, rest⟩

theorem IsFrac.head {q : ℚ} {e : ℤ} (h : IsFrac s q) (exp : IsExp t e) :
    ∀ x ∈ (s ++ t).head?, x = '.' ∨ x = 'e' ∨ x = 'E' := by
  intro x first
  cases h with
  | absent => exact .inr (exp.head x first)
  | digits => exact .inl (Option.some.inj first).symm

theorem IsUnsigned.unique {q q' : ℚ} (h : IsUnsigned s q) (h' : IsUnsigned s' q') (same : s = s') :
    q = q' := by
  obtain ⟨int, frac, exp⟩ := h
  obtain ⟨int', frac', exp'⟩ := h'
  have ends {f x : List Char} {q : ℚ} {e : ℤ} (frac : IsFrac f q) (exp : IsExp x e) :
      ∀ c ∈ (f ++ x).head?, c.isDigit = false := by
    intro c first
    rcases frac.head exp c first with rfl | rfl | rfl <;> decide
  obtain ⟨rfl, rest⟩ := run_inj int.1.2 int'.1.2 (ends frac exp) (ends frac' exp') same
  obtain ⟨rfl, rfl⟩ := frac.unique frac' exp exp' rest
  rw [exp.unique exp']

theorem IsUnsigned.head {q : ℚ} (h : IsUnsigned s q) : ∃ d u, s = d :: u ∧ d.isDigit := by
  obtain ⟨int, _, _⟩ := h
  obtain ⟨d, u, rfl⟩ := List.exists_cons_of_ne_nil int.1.1
  exact ⟨d, _, rfl, int.1.2 d List.mem_cons_self⟩

theorem IsNumber.unique {q q' : ℚ} (h : IsNumber s q) (h' : IsNumber s q') : q = q' := by
  cases h with
  | plain h =>
    cases h' with
    | plain h' => exact h.unique h' rfl
    | minus =>
      obtain ⟨d, u, cut, digit⟩ := h.head
      exact absurd ((List.cons.inj cut).1 ▸ digit) (by decide)
  | minus h =>
    cases h' with
    | plain h' =>
      obtain ⟨d, u, cut, digit⟩ := h'.head
      exact absurd ((List.cons.inj cut).1 ▸ digit) (by decide)
    | minus h' => rw [h.unique h' rfl]

theorem IsNumber.head {q : ℚ} (h : IsNumber s q) : ∃ d u, s = d :: u ∧ (d = '-' ∨ d.isDigit) := by
  cases h with
  | plain h =>
    obtain ⟨d, u, cut, digit⟩ := h.head
    exact ⟨d, u, cut, .inr digit⟩
  | minus => exact ⟨_, _, rfl, .inl rfl⟩

theorem IsNumber.skip_eq {q : ℚ} (h : IsNumber s q) (r : List Char) : skip (s ++ r) = s ++ r := by
  obtain ⟨d, t, rfl, first⟩ := h.head
  refine skip_cons ?_
  rcases first with rfl | digit
  · decide
  · have ne (x : Char) (other : x.isDigit = false) : d ≠ x := by
      rintro rfl
      simp [digit] at other
    simp [isBlank, ne ' ' (by decide), ne '\t' (by decide), ne '\n' (by decide),
      ne '\r' (by decide)]

theorem IsNumber.chars {q : ℚ} (h : IsNumber s q) : ∀ x ∈ s, isNumberChar x := by
  have digits {ds : List Char} (h : IsDigits ds) : ∀ x ∈ ds, isNumberChar x := by
    intro x member
    simp [isNumberChar, h.2 x member]
  have exponent {s : List Char} {e : ℤ} (h : IsExp s e) : ∀ x ∈ s, isNumberChar x := by
    cases h with
    | absent => simp
    | plain mark h => rcases mark with rfl | rfl <;> simpa using ⟨rfl, digits h⟩
    | plus mark h => rcases mark with rfl | rfl <;> simpa using ⟨rfl, rfl, digits h⟩
    | minus mark h => rcases mark with rfl | rfl <;> simpa using ⟨rfl, rfl, digits h⟩
  have fraction {s : List Char} {q : ℚ} (h : IsFrac s q) : ∀ x ∈ s, isNumberChar x := by
    cases h with
    | absent => simp
    | digits h => simpa using ⟨rfl, digits h⟩
  have unsigned {s : List Char} {q : ℚ} (h : IsUnsigned s q) : ∀ x ∈ s, isNumberChar x := by
    obtain ⟨int, frac, exp⟩ := h
    simp only [List.mem_append]
    rintro x (member | member | member)
    · exact digits int.1 x member
    · exact fraction frac x member
    · exact exponent exp x member
  cases h with
  | plain h => exact unsigned h
  | minus h => simpa using ⟨rfl, unsigned h⟩

/-! ### Decimal numerals -/

theorem toDigits_head {n : Nat} (zero : (Nat.toDigits 10 n).head? = some '0') : n = 0 := by
  induction n using Nat.strong_induction_on with
  | _ n ih =>
    rw [Nat.toDigits_eq_if (by decide)] at zero
    split at zero
    next small => simpa using zero
    next large =>
      obtain ⟨d, ds, digits⟩ := List.exists_cons_of_ne_nil (Nat.toDigits_ne_nil (n := n / 10) (b := 10))
      have none := ih (n / 10) (by omega) (by simpa [digits] using zero)
      omega

theorem isInt_toDigits (n : Nat) : IsInt (Nat.toDigits 10 n) := by
  refine ⟨⟨Nat.toDigits_ne_nil, fun x => Nat.isDigit_of_mem_toDigits (by decide) (by decide)⟩, ?_⟩
  intro zero
  rw [toDigits_head zero]
  rfl

theorem isUnsigned_toDigits (n : Nat) : IsUnsigned (Nat.toDigits 10 n) n := by
  have number := IsUnsigned.mk (isInt_toDigits n) .absent .absent
  rw [digitsValue, Nat.ofDigitChars_ten_toDigits] at number
  simpa using number

/-- A numeral of an integer is a number of the grammar, with that value. -/
theorem isNumber_toString (n : ℤ) : IsNumber (toString n).toList n := by
  have unsigned (m : Nat) : IsUnsigned m.repr.toList m := by
    rw [Nat.toList_repr]
    exact isUnsigned_toDigits m
  rw [Int.toString_eq_repr, Int.repr_eq_if]
  split
  next positive =>
    have value : ((n.toNat : Nat) : ℚ) = n := by exact_mod_cast Int.toNat_of_nonneg positive
    exact value ▸ .plain (unsigned _)
  next negative =>
    have value : -(((-n).toNat : Nat) : ℚ) = n := by
      have magnitude : ((-n).toNat : ℤ) = -n := Int.toNat_of_nonneg (by omega)
      have cast : (((-n).toNat : Nat) : ℚ) = -n := by exact_mod_cast magnitude
      rw [cast, neg_neg]
    rw [String.toList_append]
    exact value ▸ .minus (unsigned _)

/-! ## Strings -/

/-- The UTF-16 code units of a character. -/
def utf16 (c : Char) : List Nat :=
  if c.toNat < 0x10000 then [c.toNat]
  else [0xD800 + (c.toNat - 0x10000) / 0x400, 0xDC00 + (c.toNat - 0x10000) % 0x400]

/-- The number of a hexadecimal digit. -/
def hexValue (c : Char) : Option Nat :=
  if '0' ≤ c ∧ c ≤ '9' then some (c.toNat - '0'.toNat)
  else if 'a' ≤ c ∧ c ≤ 'f' then some (c.toNat - 'a'.toNat + 10)
  else if 'A' ≤ c ∧ c ≤ 'F' then some (c.toNat - 'A'.toNat + 10)
  else none

/-- The characters that an escape of two characters writes, with what stands behind the
backslash. -/
def shortEscapes : List (Char × Nat) :=
  [('"', 0x22), ('\\', 0x5C), ('/', 0x2F), ('b', 0x08), ('f', 0x0C), ('n', 0x0A), ('r', 0x0D),
    ('t', 0x09)]

/-- `char`. -/
inductive IsChar : List Char → List Nat → Prop
  | unescaped {c : Char} (printable : 0x20 ≤ c.toNat) (quote : c ≠ '"') (backslash : c ≠ '\\') :
      IsChar [c] (utf16 c)
  | short {c : Char} {u : Nat} (escape : (c, u) ∈ shortEscapes) : IsChar ['\\', c] [u]
  | unicode {c₁ c₂ c₃ c₄ : Char} {d₁ d₂ d₃ d₄ : Nat} (h₁ : hexValue c₁ = some d₁)
      (h₂ : hexValue c₂ = some d₂) (h₃ : hexValue c₃ = some d₃) (h₄ : hexValue c₄ = some d₄) :
      IsChar ['\\', 'u', c₁, c₂, c₃, c₄] [((d₁ * 16 + d₂) * 16 + d₃) * 16 + d₄]

/-- `*char`. -/
inductive IsChars : List Char → List Nat → Prop
  | nil : IsChars [] []
  | cons {s t : List Char} {u v : List Nat} (char : IsChar s u) (rest : IsChars t v) :
      IsChars (s ++ t) (u ++ v)

/-- `string`. -/
inductive IsString : List Char → List Nat → Prop
  | mk {s : List Char} {u : List Nat} (h : IsChars s u) : IsString ('"' :: (s ++ ['"'])) u

/-- A code point below U+D800 or above U+DFFF. -/
theorem toNat_cases (c : Char) : c.toNat < 0xD800 ∨ (0xDFFF < c.toNat ∧ c.toNat < 0x110000) :=
  c.valid

theorem utf16_inj {d : Char} {v w : List Nat} (same : utf16 c ++ v = utf16 d ++ w) :
    c = d ∧ v = w := by
  have code : c.toNat = d.toNat ∧ v = w := by
    have valid := toNat_cases c
    have valid' := toNat_cases d
    unfold utf16 at same
    split at same <;> split at same <;> simp at same <;> grind
  exact ⟨Char.toNat_inj.mp code.1, code.2⟩

/-- The code units determine the characters. -/
theorem flatMap_utf16_inj {cs ds : List Char} (same : cs.flatMap utf16 = ds.flatMap utf16) :
    cs = ds := by
  have nonempty (c : Char) : utf16 c ≠ [] := by
    unfold utf16
    split <;> simp
  induction cs generalizing ds with
  | nil =>
    cases ds with
    | nil => rfl
    | cons d ds => simp [nonempty] at same
  | cons c cs ih =>
    cases ds with
    | nil => simp [nonempty] at same
    | cons d ds =>
      obtain ⟨rfl, rest⟩ := utf16_inj same
      rw [ih rest]

variable {u u' : List Nat}

/-- Every character of a string says by itself where it ends. -/
theorem IsChar.unique (h : IsChar s u) (h' : IsChar s' u') (same : s ++ r = s' ++ r') :
    u = u' ∧ r = r' := by
  cases h with
  | unescaped _ _ backslash =>
    cases h' with
    | unescaped => simpa [(List.cons.inj same).1] using same
    | short | unicode => exact absurd (List.cons.inj same).1 backslash
  | short escape =>
    cases h' with
    | unescaped _ _ backslash => exact absurd (List.cons.inj same).1.symm backslash
    | short escape' =>
      simp only [List.cons_append, List.nil_append, List.cons.injEq, true_and] at same
      obtain ⟨rfl, rfl⟩ := same
      have marks : (shortEscapes.map Prod.fst).Nodup := by decide
      have one := List.inj_on_of_nodup_map marks escape escape' rfl
      exact ⟨by rw [(Prod.mk.inj one).2], rfl⟩
    | unicode =>
      obtain ⟨rfl, -⟩ : _ = 'u' ∧ _ := by simpa using same
      simp [shortEscapes] at escape
  | unicode h₁ h₂ h₃ h₄ =>
    cases h' with
    | unescaped _ _ backslash => exact absurd (List.cons.inj same).1.symm backslash
    | short escape =>
      obtain ⟨rfl, -⟩ : 'u' = _ ∧ _ := by simpa using same
      simp [shortEscapes] at escape
    | unicode h₁' h₂' h₃' h₄' =>
      simp only [List.cons_append, List.nil_append, List.cons.injEq, true_and] at same
      obtain ⟨rfl, rfl, rfl, rfl, rfl⟩ := same
      simp_all

theorem IsChar.head (h : IsChar s u) : ∃ x t, s = x :: t ∧ x ≠ '"' := by
  cases h with
  | unescaped _ quote => exact ⟨_, _, rfl, quote⟩
  | short | unicode => exact ⟨_, _, rfl, by decide⟩

theorem IsChars.unique (h : IsChars s u) (h' : IsChars s' u')
    (same : s ++ '"' :: r = s' ++ '"' :: r') : u = u' ∧ r = r' := by
  induction h generalizing s' u' with
  | nil =>
    cases h' with
    | nil => exact ⟨rfl, (List.cons.inj same).2⟩
    | cons char =>
      obtain ⟨x, t, rfl, quote⟩ := char.head
      exact absurd (List.cons.inj same).1.symm quote
  | cons char _ ih =>
    cases h' with
    | nil =>
      obtain ⟨x, t, rfl, quote⟩ := char.head
      exact absurd (List.cons.inj same).1 quote
    | cons char' rest' =>
      rw [List.append_assoc, List.append_assoc] at same
      obtain ⟨rfl, rest⟩ := char.unique char' same
      obtain ⟨rfl, rest⟩ := ih rest' rest
      exact ⟨rfl, rest⟩

theorem IsString.skip_inj (h : IsString s u) (h' : IsString s' u')
    (same : skip (s ++ r) = skip (s' ++ r')) : u = u' ∧ r = r' := by
  obtain ⟨h⟩ := h
  obtain ⟨h'⟩ := h'
  simp only [List.cons_append, List.append_assoc, List.nil_append] at same
  rw [skip_cons (by decide), skip_cons (by decide)] at same
  exact h.unique h' (List.cons.inj same).2

/-- A string begins with a quotation mark. -/
theorem IsString.skip_eq (h : IsString s u) (r : List Char) : ∃ t, skip (s ++ r) = '"' :: t := by
  obtain ⟨h⟩ := h
  exact ⟨_, skip_cons (by decide)⟩

/-! ## Values -/

/-- A phrase of the grammar: the nonterminal, with what the phrase denotes. -/
inductive Phrase where
  | value (v : Value)
  | values (vs : List Value)
  | member (name : List Nat) (v : Value)
  | members (ms : List (List Nat × Value))

/-- The rules of the grammar. -/
inductive Derives : Phrase → List Char → Prop
  | null : Derives (.value .null) ['n', 'u', 'l', 'l']
  | true : Derives (.value (.bool .true)) ['t', 'r', 'u', 'e']
  | false : Derives (.value (.bool .false)) ['f', 'a', 'l', 's', 'e']
  | number {s : List Char} {q : ℚ} (h : IsNumber s q) : Derives (.value (.number q)) s
  | string {s : List Char} {u : List Nat} (h : IsString s u) : Derives (.value (.string u)) s
  | emptyArray {left right : List Char} (begins : IsStructural '[' left)
      (ends : IsStructural ']' right) : Derives (.value (.array [])) (left ++ right)
  | array {left s right : List Char} {vs : List Value} (begins : IsStructural '[' left)
      (body : Derives (.values vs) s) (ends : IsStructural ']' right) :
      Derives (.value (.array vs)) (left ++ (s ++ right))
  | emptyObject {left right : List Char} (begins : IsStructural '\x7b' left)
      (ends : IsStructural '\x7d' right) : Derives (.value (.object [])) (left ++ right)
  | object {left s right : List Char} {ms : List (List Nat × Value)}
      (begins : IsStructural '\x7b' left) (body : Derives (.members ms) s)
      (ends : IsStructural '\x7d' right) : Derives (.value (.object ms)) (left ++ (s ++ right))
  | lastValue {s : List Char} {v : Value} (h : Derives (.value v) s) : Derives (.values [v]) s
  | moreValues {s comma t : List Char} {v : Value} {vs : List Value} (h : Derives (.value v) s)
      (separator : IsStructural ',' comma) (rest : Derives (.values vs) t) :
      Derives (.values (v :: vs)) (s ++ (comma ++ t))
  | member {s colon t : List Char} {name : List Nat} {v : Value} (key : IsString s name)
      (separator : IsStructural ':' colon) (h : Derives (.value v) t) :
      Derives (.member name v) (s ++ (colon ++ t))
  | lastMember {s : List Char} {name : List Nat} {v : Value} (h : Derives (.member name v) s) :
      Derives (.members [(name, v)]) s
  | moreMembers {s comma t : List Char} {name : List Nat} {v : Value}
      {ms : List (List Nat × Value)} (h : Derives (.member name v) s)
      (separator : IsStructural ',' comma) (rest : Derives (.members ms) t) :
      Derives (.members ((name, v) :: ms)) (s ++ (comma ++ t))

/-- `JSON-text`. -/
inductive IsText : List Char → Value → Prop
  | mk {before s after : List Char} {v : Value} (blankBefore : ∀ x ∈ before, isBlank x)
      (h : Derives (.value v) s) (blankAfter : ∀ x ∈ after, isBlank x) :
      IsText (before ++ (s ++ after)) v

/-! ## The grammar is unambiguous -/

/-- What the first character of a value says about it. -/
inductive Kind where
  | null
  | bool (b : Bool)
  | number
  | string
  | array
  | object
  deriving DecidableEq

def Value.kind : Value → Kind
  | null => .null
  | bool b => .bool b
  | number _ => .number
  | string _ => .string
  | array _ => .array
  | object _ => .object

def kindOf (c : Char) : Kind :=
  match c with
  | 'n' => .null
  | 't' => .bool true
  | 'f' => .bool false
  | '"' => .string
  | '[' => .array
  | '\x7b' => .object
  | _ => .number

variable {v v' : Value}

/-- The first character of a value. -/
theorem value_head (h : Derives (.value v) s) (r : List Char) :
    ∃ c t, skip (s ++ r) = c :: t ∧ kindOf c = v.kind ∧ c ≠ ']' := by
  cases h with
  | null | true | false => exact ⟨_, _, skip_cons (by decide), rfl, by decide⟩
  | number h =>
    rw [h.skip_eq]
    obtain ⟨d, t, rfl, first⟩ := h.head
    refine ⟨d, _, rfl, ?_⟩
    rcases first with rfl | digit
    · exact ⟨rfl, by decide⟩
    · constructor
      · unfold kindOf
        split <;> first | rfl | exact absurd digit (by decide)
      · rintro rfl
        exact absurd digit (by decide)
  | string h =>
    obtain ⟨t, cut⟩ := h.skip_eq r
    exact ⟨'"', t, cut, rfl, by decide⟩
  | emptyArray begins =>
    obtain ⟨t, cut, -⟩ := begins.skip_eq (by decide) (_ ++ r)
    exact ⟨'[', t, by rw [List.append_assoc, cut], rfl, by decide⟩
  | array begins =>
    obtain ⟨t, cut, -⟩ := begins.skip_eq (by decide) (_ ++ r)
    exact ⟨'[', t, by rw [List.append_assoc, cut], rfl, by decide⟩
  | emptyObject begins =>
    obtain ⟨t, cut, -⟩ := begins.skip_eq (by decide) (_ ++ r)
    exact ⟨'\x7b', t, by rw [List.append_assoc, cut], rfl, by decide⟩
  | object begins =>
    obtain ⟨t, cut, -⟩ := begins.skip_eq (by decide) (_ ++ r)
    exact ⟨'\x7b', t, by rw [List.append_assoc, cut], rfl, by decide⟩

theorem kind_eq (h : Derives (.value v) s) (h' : Derives (.value v') s')
    (same : skip (s ++ r) = skip (s' ++ r')) : v.kind = v'.kind := by
  obtain ⟨c, t, cut, kind, -⟩ := value_head h r
  obtain ⟨c', t', cut', kind', -⟩ := value_head h' r'
  rw [cut, cut'] at same
  rw [← kind, ← kind', (List.cons.inj same).1]

/-- What a phrase of each nonterminal must be followed by, for its end to be determined. -/
def Follows : Phrase → List Char → Prop
  | .value _, r => Stop r
  | .values _, r => ∃ t, skip r = ']' :: t
  | .member _ _, r => Stop r
  | .members _, r => ∃ t, skip r = '\x7d' :: t

/-- No other phrase of the same nonterminal stands where this one does. -/
def Unique : Phrase → List Char → Prop
  | .value v, s => ∀ v' s' r r', Derives (.value v') s' → Stop r → Stop r' →
      skip (s ++ r) = skip (s' ++ r') → v = v' ∧ skip r = skip r'
  | .values vs, s => ∀ vs' s' r r', Derives (.values vs') s' → Follows (.values vs) r →
      Follows (.values vs') r' → skip (s ++ r) = skip (s' ++ r') → vs = vs' ∧ skip r = skip r'
  | .member name v, s => ∀ name' v' s' r r', Derives (.member name' v') s' → Stop r → Stop r' →
      skip (s ++ r) = skip (s' ++ r') → (name = name' ∧ v = v') ∧ skip r = skip r'
  | .members ms, s => ∀ ms' s' r r', Derives (.members ms') s' → Follows (.members ms) r →
      Follows (.members ms') r' → skip (s ++ r) = skip (s' ++ r') → ms = ms' ∧ skip r = skip r'

/-- No number goes on at a structural character. -/
theorem stop_of_close {c : Char} (other : isNumberChar c = false) (close : ∃ t, skip r = c :: t) :
    Stop r := by
  obtain ⟨t, cut⟩ := close
  intro x first
  cases r with
  | nil => simp at first
  | cons y r =>
    obtain rfl : y = x := Option.some.inj first
    by_cases blank : isBlank y
    · simp only [isBlank, Bool.or_eq_true, decide_eq_true_eq] at blank
      rcases blank with ((rfl | rfl) | rfl) | rfl <;> decide
    · rw [skip_cons (by simpa using blank)] at cut
      rw [(List.cons.inj cut).1, other]

/-- The items of an array do not begin with the bracket that ends it. -/
theorem values_ne {vs : List Value} (h : Derives (.values vs) s)
    (close : ∃ t, skip r' = ']' :: t) : skip (s ++ r) ≠ skip r' := by
  obtain ⟨t, close⟩ := close
  rw [close]
  cases h with
  | lastValue h =>
    obtain ⟨c, u, cut, -, other⟩ := value_head h r
    rw [cut]
    exact fun same => other (List.cons.inj same).1
  | moreValues h =>
    obtain ⟨c, u, cut, -, other⟩ := value_head h (_ ++ r)
    rw [List.append_assoc, cut]
    exact fun same => other (List.cons.inj same).1

theorem member_head {name : List Nat} (h : Derives (.member name v) s) (r : List Char) :
    ∃ t, skip (s ++ r) = '"' :: t := by
  cases h with
  | member key =>
    rw [List.append_assoc]
    exact key.skip_eq (_ ++ r)

/-- The members of an object do not begin with the bracket that ends it. -/
theorem members_ne {ms : List (List Nat × Value)} (h : Derives (.members ms) s)
    (close : ∃ t, skip r' = '\x7d' :: t) : skip (s ++ r) ≠ skip r' := by
  obtain ⟨t, close⟩ := close
  rw [close]
  cases h with
  | lastMember h =>
    obtain ⟨u, cut⟩ := member_head h r
    rw [cut]
    exact fun same => absurd (List.cons.inj same).1 (by decide)
  | moreMembers h =>
    rw [List.append_assoc]
    obtain ⟨u, cut⟩ := member_head h (_ ++ r)
    rw [cut]
    exact fun same => absurd (List.cons.inj same).1 (by decide)

/-- Between brackets: two bodies that are the same phrase up to the closing bracket are the same
phrase with the brackets. -/
theorem enclosed_inj {P : Prop} {opening closing : Char} {left left' right right' : List Char}
    (visible : isBlank opening = false) (visible' : isBlank closing = false)
    (begins : IsStructural opening left) (begins' : IsStructural opening left')
    (ends : IsStructural closing right) (ends' : IsStructural closing right')
    (body : ∀ u u', (∃ t, skip u = closing :: t) → (∃ t, skip u' = closing :: t) →
      skip (s ++ u) = skip (s' ++ u') → P ∧ skip u = skip u')
    (same : skip (left ++ (s ++ (right ++ r))) = skip (left' ++ (s' ++ (right' ++ r')))) :
    P ∧ skip r = skip r' := by
  have inside := begins.skip_inj begins' visible same
  obtain ⟨t, cut, -⟩ := ends.skip_eq visible' r
  obtain ⟨t', cut', -⟩ := ends'.skip_eq visible' r'
  obtain ⟨equal, rest⟩ := body _ _ ⟨t, cut⟩ ⟨t', cut'⟩ inside
  exact ⟨equal, ends.skip_inj ends' visible' rest⟩

/-- Brackets around nothing and brackets around a body that does not begin with the closing one. -/
theorem enclosed_ne {opening closing : Char} {left left' right : List Char}
    (visible : isBlank opening = false) (visible' : isBlank closing = false)
    (begins : IsStructural opening left) (begins' : IsStructural opening left')
    (ends : IsStructural closing right)
    (body : ∀ u u', (∃ t, skip u' = closing :: t) → skip (s ++ u) ≠ skip u') :
    skip (left ++ (s ++ r)) ≠ skip (left' ++ (right ++ r')) := by
  intro same
  obtain ⟨t, cut, -⟩ := ends.skip_eq visible' r'
  exact body _ _ ⟨t, cut⟩ (begins.skip_inj begins' visible same)

section Separated

variable {P : Prop} {closing : Char} {comma comma' : List Char}
  (item : ∀ u u', Stop u → Stop u' → skip (s ++ u) = skip (s' ++ u') → P ∧ skip u = skip u')

include item

/-- The item before the closing bracket and one before a separator are not cut alike. -/
theorem last_ne_more (number : isNumberChar closing = false) (other : closing ≠ ',')
    (close : ∃ t, skip r = closing :: t) (separator : IsStructural ',' comma') :
    skip (s ++ r) ≠ skip (s' ++ (comma' ++ r')) := by
  intro same
  obtain ⟨t, close⟩ := close
  obtain ⟨t', cut, -⟩ := separator.skip_eq (by decide) r'
  obtain ⟨-, rest⟩ :=
    item _ _ (stop_of_close number ⟨t, close⟩) (stop_of_close (by decide) ⟨t', cut⟩) same
  rw [close, cut] at rest
  exact other (List.cons.inj rest).1

theorem more_ne_last (number : isNumberChar closing = false) (other : closing ≠ ',')
    (close : ∃ t, skip r' = closing :: t) (separator : IsStructural ',' comma) :
    skip (s ++ (comma ++ r)) ≠ skip (s' ++ r') := by
  intro same
  refine last_ne_more (P := P) ?_ number other close separator same.symm
  intro u u' stop stop' equal
  obtain ⟨p, rest⟩ := item _ _ stop' stop equal.symm
  exact ⟨p, rest.symm⟩

theorem more_inj (separator : IsStructural ',' comma) (separator' : IsStructural ',' comma')
    (same : skip (s ++ (comma ++ r)) = skip (s' ++ (comma' ++ r'))) : P ∧ skip r = skip r' := by
  obtain ⟨t, cut, -⟩ := separator.skip_eq (by decide) r
  obtain ⟨t', cut', -⟩ := separator'.skip_eq (by decide) r'
  obtain ⟨equal, rest⟩ :=
    item _ _ (stop_of_close (by decide) ⟨t, cut⟩) (stop_of_close (by decide) ⟨t', cut'⟩) same
  exact ⟨equal, separator.skip_inj separator' (by decide) rest⟩

end Separated

/-! ### One production at a time -/

namespace Unique

variable {left right comma : List Char} {vs : List Value} {ms : List (List Nat × Value)}
  {name : List Nat} {q : ℚ}

theorem literal (visible : isBlank c = false) (h : Derives (.value v) (c :: s))
    (only : ∀ v' s', Derives (.value v') s' → v.kind = v'.kind → v = v' ∧ s' = c :: s) :
    Unique (.value v) (c :: s) := by
  intro v' s' r r' h' _ _ same
  obtain ⟨rfl, rfl⟩ := only v' s' h' (kind_eq h h' same)
  refine ⟨rfl, ?_⟩
  rw [List.cons_append, List.cons_append, skip_cons visible, skip_cons visible] at same
  rw [List.append_cancel_left (List.cons.inj same).2]

theorem number (h : IsNumber s q) : Unique (.value (.number q)) s := by
  intro v' s' r r' h' stop stop' same
  have kind := kind_eq (.number h) h' same
  cases h' with
  | number h' =>
    rw [h.skip_eq, h'.skip_eq] at same
    obtain ⟨rfl, rfl⟩ := run_inj h.chars h'.chars stop stop' same
    exact ⟨by rw [h.unique h'], rfl⟩
  | _ => cases kind

theorem string (h : IsString s u) : Unique (.value (.string u)) s := by
  intro v' s' r r' h' stop stop' same
  have kind := kind_eq (.string h) h' same
  cases h' with
  | string h' =>
    obtain ⟨rfl, rfl⟩ := h.skip_inj h' same
    exact ⟨rfl, rfl⟩
  | _ => cases kind

theorem emptyArray (begins : IsStructural '[' left) (ends : IsStructural ']' right) :
    Unique (.value (.array [])) (left ++ right) := by
  intro v' s' r r' h' stop stop' same
  have kind := kind_eq (.emptyArray begins ends) h' same
  simp only [List.append_assoc] at same
  cases h' with
  | emptyArray begins' ends' =>
    simp only [List.append_assoc] at same
    exact ⟨rfl, ends.skip_inj ends' (by decide) (begins.skip_inj begins' (by decide) same)⟩
  | array begins' body' ends' =>
    simp only [List.append_assoc] at same
    exact absurd same.symm (enclosed_ne (by decide) (by decide) begins' begins ends
      fun _ _ => values_ne body')
  | _ => cases kind

theorem array (begins : IsStructural '[' left) (body : Derives (.values vs) s)
    (ends : IsStructural ']' right) (ih : Unique (.values vs) s) :
    Unique (.value (.array vs)) (left ++ (s ++ right)) := by
  intro v' s' r r' h' stop stop' same
  have kind := kind_eq (.array begins body ends) h' same
  simp only [List.append_assoc] at same
  cases h' with
  | emptyArray begins' ends' =>
    simp only [List.append_assoc] at same
    exact absurd same (enclosed_ne (by decide) (by decide) begins begins' ends'
      fun _ _ => values_ne body)
  | array begins' body' ends' =>
    simp only [List.append_assoc] at same
    obtain ⟨rfl, rest⟩ := enclosed_inj (by decide) (by decide) begins begins' ends ends'
      (ih _ _ · · body') same
    exact ⟨rfl, rest⟩
  | _ => cases kind

theorem emptyObject (begins : IsStructural '\x7b' left) (ends : IsStructural '\x7d' right) :
    Unique (.value (.object [])) (left ++ right) := by
  intro v' s' r r' h' stop stop' same
  have kind := kind_eq (.emptyObject begins ends) h' same
  simp only [List.append_assoc] at same
  cases h' with
  | emptyObject begins' ends' =>
    simp only [List.append_assoc] at same
    exact ⟨rfl, ends.skip_inj ends' (by decide) (begins.skip_inj begins' (by decide) same)⟩
  | object begins' body' ends' =>
    simp only [List.append_assoc] at same
    exact absurd same.symm (enclosed_ne (by decide) (by decide) begins' begins ends
      fun _ _ => members_ne body')
  | _ => cases kind

theorem object (begins : IsStructural '\x7b' left) (body : Derives (.members ms) s)
    (ends : IsStructural '\x7d' right) (ih : Unique (.members ms) s) :
    Unique (.value (.object ms)) (left ++ (s ++ right)) := by
  intro v' s' r r' h' stop stop' same
  have kind := kind_eq (.object begins body ends) h' same
  simp only [List.append_assoc] at same
  cases h' with
  | emptyObject begins' ends' =>
    simp only [List.append_assoc] at same
    exact absurd same (enclosed_ne (by decide) (by decide) begins begins' ends'
      fun _ _ => members_ne body)
  | object begins' body' ends' =>
    simp only [List.append_assoc] at same
    obtain ⟨rfl, rest⟩ := enclosed_inj (by decide) (by decide) begins begins' ends ends'
      (ih _ _ · · body') same
    exact ⟨rfl, rest⟩
  | _ => cases kind

theorem lastValue (ih : Unique (.value v) s) : Unique (.values [v]) s := by
  intro vs' s' r r' h' close close' same
  cases h' with
  | lastValue h' =>
    obtain ⟨rfl, rest⟩ := ih _ _ _ _ h' (stop_of_close (by decide) close)
      (stop_of_close (by decide) close') same
    exact ⟨rfl, rest⟩
  | moreValues h' separator' _ =>
    simp only [List.append_assoc] at same
    exact absurd same (last_ne_more (ih _ _ · · h') (by decide) (by decide) close separator')

theorem moreValues (separator : IsStructural ',' comma) (ih : Unique (.value v) s)
    (others : Unique (.values vs) t) : Unique (.values (v :: vs)) (s ++ (comma ++ t)) := by
  intro vs' s' r r' h' close close' same
  simp only [List.append_assoc] at same
  cases h' with
  | lastValue h' =>
    exact absurd same (more_ne_last (ih _ _ · · h') (by decide) (by decide) close' separator)
  | moreValues h' separator' others' =>
    simp only [List.append_assoc] at same
    obtain ⟨rfl, rest⟩ := more_inj (ih _ _ · · h') separator separator' same
    obtain ⟨rfl, rest⟩ := others _ _ _ _ others' close close' rest
    exact ⟨rfl, rest⟩

theorem member {colon : List Char} (key : IsString s name) (separator : IsStructural ':' colon)
    (ih : Unique (.value v) t) : Unique (.member name v) (s ++ (colon ++ t)) := by
  intro name' v' s' r r' h' stop stop' same
  cases h' with
  | member key' separator' h' =>
    simp only [List.append_assoc] at same
    obtain ⟨rfl, rest⟩ := key.skip_inj key' same
    have inside := separator.skip_inj separator' (by decide) (congrArg skip rest)
    obtain ⟨rfl, rest⟩ := ih _ _ _ _ h' stop stop' inside
    exact ⟨⟨rfl, rfl⟩, rest⟩

theorem lastMember (ih : Unique (.member name v) s) : Unique (.members [(name, v)]) s := by
  intro ms' s' r r' h' close close' same
  cases h' with
  | lastMember h' =>
    obtain ⟨⟨rfl, rfl⟩, rest⟩ := ih _ _ _ _ _ h' (stop_of_close (by decide) close)
      (stop_of_close (by decide) close') same
    exact ⟨rfl, rest⟩
  | moreMembers h' separator' _ =>
    simp only [List.append_assoc] at same
    exact absurd same (last_ne_more (ih _ _ _ · · h') (by decide) (by decide) close separator')

theorem moreMembers (separator : IsStructural ',' comma) (ih : Unique (.member name v) s)
    (others : Unique (.members ms) t) :
    Unique (.members ((name, v) :: ms)) (s ++ (comma ++ t)) := by
  intro ms' s' r r' h' close close' same
  simp only [List.append_assoc] at same
  cases h' with
  | lastMember h' =>
    exact absurd same (more_ne_last (ih _ _ _ · · h') (by decide) (by decide) close' separator)
  | moreMembers h' separator' others' =>
    simp only [List.append_assoc] at same
    obtain ⟨⟨rfl, rfl⟩, rest⟩ := more_inj (ih _ _ _ · · h') separator separator' same
    obtain ⟨rfl, rest⟩ := others _ _ _ _ others' close close' rest
    exact ⟨rfl, rest⟩

end Unique

theorem unique_of_derives {n : Phrase} (h : Derives n s) : Unique n s := by
  induction h with
  | null =>
    refine .literal (by decide) .null fun v' s' h' kind => ?_
    cases h' <;> first | exact ⟨rfl, rfl⟩ | cases kind
  | true =>
    refine .literal (by decide) .true fun v' s' h' kind => ?_
    cases h' <;> first | exact ⟨rfl, rfl⟩ | cases kind
  | false =>
    refine .literal (by decide) .false fun v' s' h' kind => ?_
    cases h' <;> first | exact ⟨rfl, rfl⟩ | cases kind
  | number h => exact .number h
  | string h => exact .string h
  | emptyArray begins ends => exact .emptyArray begins ends
  | array begins body ends ih => exact .array begins body ends ih
  | emptyObject begins ends => exact .emptyObject begins ends
  | object begins body ends ih => exact .object begins body ends ih
  | lastValue _ ih => exact .lastValue ih
  | moreValues _ separator _ ih others => exact .moreValues separator ih others
  | member key separator _ ih => exact .member key separator ih
  | lastMember _ ih => exact .lastMember ih
  | moreMembers _ separator _ ih others => exact .moreMembers separator ih others

/-- A text has at most one value. -/
theorem IsText.unique (h : IsText s v) (h' : IsText s v') : v = v' := by
  have one (r : List Char) (blank : ∀ x ∈ r, isBlank x) : Stop r := by
    intro x first
    have member : x ∈ r := List.mem_of_mem_head? first
    have blank := blank x member
    simp only [isBlank, Bool.or_eq_true, decide_eq_true_eq] at blank
    rcases blank with ((rfl | rfl) | rfl) | rfl <;> decide
  generalize cut : s = whole at h'
  cases h with
  | mk blankBefore h blankAfter =>
    cases h' with
    | mk blankBefore' h' blankAfter' =>
      have same := congrArg skip cut
      rw [skip_blanks blankBefore, skip_blanks blankBefore'] at same
      exact (unique_of_derives h _ _ _ _ h' (one _ blankAfter) (one _ blankAfter') same).1

end RWave.Misc.JsonText
