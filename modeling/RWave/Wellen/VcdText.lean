import RWave.Wellen.VcdLines

/-!
# The text of a body

The lines of a body as a simulator writes them: a time, values, commands and comments with a space
between them (`DumpLine`). Each can be read by itself (`DumpLine.ok_bodyLine`), so that a body reads
back as the times and values it was written from.
-/

namespace RWave.Wellen

open RWave.Misc

/-! ## Numbers -/

/-- A number in decimal digits. -/
def decimal (n : Nat) : List UInt8 := (Nat.toDigits 10 n).map ascii

theorem toNat_ascii_of_digit {d : Char} (digit : d.isDigit = true) :
    (ascii d).toNat = d.toNat ∧ 48 ≤ d.toNat ∧ d.toNat ≤ 57 := by
  simp only [Char.isDigit, Bool.and_eq_true, decide_eq_true_eq] at digit
  have least : 48 ≤ d.toNat := UInt32.le_iff_toNat_le.mp digit.1
  have most : d.toNat ≤ 57 := UInt32.le_iff_toNat_le.mp digit.2
  refine ⟨?_, least, most⟩
  rw [ascii, Nat.toUInt8_eq, UInt8.toNat_ofNat']
  omega

theorem mem_decimal {n : Nat} {b : UInt8} (member : b ∈ decimal n) :
    ∃ d : Char, d.isDigit = true ∧ b = ascii d := by
  obtain ⟨d, inside, rfl⟩ := List.mem_map.mp member
  exact ⟨d, Nat.isDigit_of_mem_toDigits (by decide) (by decide) inside, rfl⟩

theorem foldl_ascii {ds : List Char} (digits : ∀ d ∈ ds, d.isDigit = true) (n : Nat) :
    (ds.map ascii).foldl (fun n b => 10 * n + (b - ascii '0').toNat) n = Nat.ofDigitChars 10 ds n := by
  induction ds generalizing n with
  | nil => rfl
  | cons d ds ih =>
    obtain ⟨same, least, -⟩ := toNat_ascii_of_digit (digits d List.mem_cons_self)
    have zero : ascii '0' ≤ ascii d := by
      rw [UInt8.le_iff_toNat_le, same]
      exact least
    rw [List.map_cons, List.foldl_cons, ih fun d member => digits d (.tail _ member),
      Nat.ofDigitChars_cons, UInt8.toNat_sub_of_le _ _ zero, same]
    rfl

/-- A number that is written is read. -/
theorem parseU64_decimal {n : Nat} (small : n < 2 ^ 64) : parseU64 (decimal n) = some n := by
  have each : ∀ d ∈ Nat.toDigits 10 n, d.isDigit = true := fun d member =>
    Nat.isDigit_of_mem_toDigits (by decide) (by decide) member
  have bounds {b : UInt8} (member : b ∈ decimal n) : 48 ≤ b.toNat ∧ b.toNat ≤ 57 := by
    obtain ⟨d, digit, rfl⟩ := mem_decimal member
    obtain ⟨same, range⟩ := toNat_ascii_of_digit digit
    rw [same]
    exact range
  have unsigned : (decimal n).head? ≠ some (ascii '+') := by
    intro plus
    have least := (bounds (List.mem_of_head? plus)).1
    exact absurd least (by decide)
  have nonempty : (decimal n).isEmpty = false := by
    rw [List.isEmpty_eq_false_iff, decimal, ne_eq, List.map_eq_nil_iff]
    exact Nat.toDigits_ne_nil
  have digits : (decimal n).any (fun b => b < ascii '0' || ascii '9' < b) = false := by
    rw [List.any_eq_false]
    intro b member
    obtain ⟨least, most⟩ := bounds member
    simp only [Bool.or_eq_true, decide_eq_true_eq, not_or, UInt8.not_lt, UInt8.le_iff_toNat_le]
    exact ⟨least, most⟩
  have value := foldl_ascii each 0
  rw [Nat.ofDigitChars_ten_toDigits] at value
  rw [parseU64, if_neg unsigned]
  dsimp only
  rw [nonempty, digits, decimal, value]
  exact if_pos small

/-! ## Tokens -/

/-- A token stands between whitespace. -/
def IsToken (token : List UInt8) : Prop :=
  token ≠ [] ∧ ∀ b ∈ token, isAsciiWhitespace b = false

instance (token : List UInt8) : Decidable (IsToken token) := inferInstanceAs (Decidable (_ ∧ _))

namespace BodyParser

variable {c : Crates}

theorem run_append (i : Nat) (p : BodyParser) (text text' : List UInt8) :
    p.run c i (text ++ text') = (p.run c i text).bind fun r =>
      (r.1.run c (i + text.length) text').bind fun r' => .ok (r'.1, r.2 ++ r'.2) := by
  induction text generalizing i p with
  | nil =>
    dsimp only [run, Except.bind, List.nil_append, List.length_nil, Nat.add_zero]
    cases p.run c i text' <;> rfl
  | cons b text ih =>
    rw [List.cons_append, run, run, List.length_cons]
    dsimp only [bind, Except.bind]
    cases p.step c b with
    | error e => rfl
    | ok r =>
      have place : i + (text.length + 1) = i + 1 + text.length := by omega
      dsimp only
      rw [ih, place]
      dsimp only [Except.bind]
      cases r.1.run c (i + 1) text with
      | error e => rfl
      | ok r' =>
        dsimp only [pure, Except.pure]
        cases r'.1.run c (i + 1 + text.length) text' with
        | error e => rfl
        | ok r'' => exact congrArg (fun calls => Except.ok (r''.1, calls)) (List.append_assoc ..).symm

/-- A text that leads from one parser to another and has these values. -/
def Reads (c : Crates) (p : BodyParser) (text : List UInt8) (p' : BodyParser)
    (values : List (List UInt8 × List UInt8 × Bool)) : Prop :=
  ∀ i, ∃ calls, p.run c i text = .ok (p', calls) ∧
    calls.map Prod.snd = values.map BodyLine.valueCall

theorem Reads.nil (p : BodyParser) : Reads c p [] p [] := fun _ => ⟨[], rfl, rfl⟩

theorem Reads.append {p p' p'' : BodyParser} {text text' : List UInt8}
    {values values' : List (List UInt8 × List UInt8 × Bool)} (reads : Reads c p text p' values)
    (reads' : Reads c p' text' p'' values') : Reads c p (text ++ text') p'' (values ++ values') := by
  intro i
  obtain ⟨calls, ran, own⟩ := reads i
  obtain ⟨calls', ran', own'⟩ := reads' (i + text.length)
  refine ⟨calls ++ calls', ?_, ?_⟩
  · rw [run_append, ran]
    dsimp only [Except.bind]
    rw [ran']
  · rw [List.map_append, own, own', List.map_append]

/-- A byte that is no whitespace. -/
def push (p : BodyParser) (b : UInt8) : BodyParser :=
  match p.state with
  | .skippingNewLine => p
  | .parsingFirstToken =>
    { p with hasEscape := p.hasEscape || b = ascii '\\', first := p.first ++ [b] }
  | .parsingIdToken => { p with id := p.id ++ [b] }
  | .lookingForEndToken => { p with first := p.first ++ [b] }

theorem step_push {p : BodyParser} (line : p.state ≠ .skippingNewLine) {b : UInt8}
    (plain : isAsciiWhitespace b = false) : p.step c b = .ok (p.push b, none) := by
  obtain ⟨state, first, id, hasEscape⟩ := p
  cases state with
  | skippingNewLine => exact absurd rfl line
  | parsingFirstToken => simp [step, push, plain]
  | parsingIdToken => simp [step, push, plain]
  | lookingForEndToken => simp [step, push, plain]

theorem state_push (p : BodyParser) (b : UInt8) : (p.push b).state = p.state := by
  obtain ⟨state, first, id, hasEscape⟩ := p
  cases state <;> rfl

/-- A token is put together byte by byte. -/
theorem reads_token {p : BodyParser} (line : p.state ≠ .skippingNewLine) {token : List UInt8}
    (plain : ∀ b ∈ token, isAsciiWhitespace b = false) :
    Reads c p token (token.foldl push p) [] := by
  induction token generalizing p with
  | nil => exact .nil p
  | cons b token ih =>
    have first : Reads c p [b] (p.push b) [] := by
      intro i
      refine ⟨[], ?_, rfl⟩
      rw [run, step_push line (plain b List.mem_cons_self)]
      rfl
    have line' : (p.push b).state ≠ .skippingNewLine := by rwa [state_push]
    exact first.append (ih line' fun b member => plain b (.tail _ member))

theorem foldl_push_first (first token id : List UInt8) (hasEscape : Bool) :
    token.foldl push ⟨.parsingFirstToken, first, id, hasEscape⟩ =
      ⟨.parsingFirstToken, first ++ token, id, hasEscape || token.contains (ascii '\\')⟩ := by
  induction token generalizing first hasEscape with
  | nil => simp
  | cons b token ih =>
    rw [List.foldl_cons, push]
    dsimp only
    have same : decide (b = ascii '\\') = (ascii '\\' == b) := by
      rw [beq_eq_decide]
      exact decide_eq_decide.mpr eq_comm
    rw [ih, List.append_assoc, List.singleton_append, List.contains_cons, Bool.or_assoc, same]

theorem foldl_push_id (first token id : List UInt8) (hasEscape : Bool) :
    token.foldl push ⟨.parsingIdToken, first, id, hasEscape⟩ =
      ⟨.parsingIdToken, first, id ++ token, hasEscape⟩ := by
  induction token generalizing id with
  | nil => simp
  | cons b token ih =>
    rw [List.foldl_cons, push]
    dsimp only
    rw [ih, List.append_assoc, List.singleton_append]

theorem foldl_push_end (first token id : List UInt8) (hasEscape : Bool) :
    token.foldl push ⟨.lookingForEndToken, first, id, hasEscape⟩ =
      ⟨.lookingForEndToken, first ++ token, id, hasEscape⟩ := by
  induction token generalizing first with
  | nil => simp
  | cons b token ih =>
    rw [List.foldl_cons, push]
    dsimp only
    rw [ih, List.append_assoc, List.singleton_append]

/-- The whitespace behind a token. -/
theorem reads_space {p p' : BodyParser} {b : UInt8}
    (value : Option (List UInt8 × List UInt8 × Bool))
    (step : p.step c b = .ok (p', value.map BodyLine.valueCall)) :
    Reads c p [b] p' value.toList := by
  intro i
  refine ⟨(value.map fun v => (i, BodyLine.valueCall v)).toList, ?_, ?_⟩
  · rw [run, step]
    cases value <;> rfl
  · cases value <;> rfl

end BodyParser

/-! ## Items -/

/-- What stands on a line behind the time. A word is a value with its kind in front, as `b01`. -/
inductive BodyItem where
  | bit (value : UInt8) (id : List UInt8)
  | word (value id : List UInt8)
  | command (name : List UInt8)
  | comment (words : List (List UInt8))
  deriving DecidableEq, Repr

/-- Tokens with a space between them. -/
def joined : List (List UInt8) → List UInt8
  | [] => []
  | token :: tokens => token ++ tokens.flatMap fun token => ascii ' ' :: token

namespace BodyItem

def text : BodyItem → List UInt8
  | bit value id => value :: id
  | word value id => joined [value, id]
  | command name => name
  | comment words => joined (asciiBytes "$comment" :: words ++ [asciiBytes "$end"])

def values : BodyItem → List (List UInt8 × List UInt8 × Bool)
  | bit value id => [([value], id, false)]
  | word value id => [(value, id, value.contains (ascii '\\'))]
  | command _ => []
  | comment _ => []

/-- An item that can be written. -/
def Ok : BodyItem → Prop
  | bit value id => value ∈ asciiBytes "01zZxXhHuUwWlL-" ∧ ∀ b ∈ id, isAsciiWhitespace b = false
  | word value id => IsToken value ∧ value.headD 0 ∈ asciiBytes "bBrRsS" ∧ IsToken id
  | command name => name ∈ ["$dumpall", "$dumpvars", "$end", "$dumpoff", "$dumpon"].map asciiBytes
  | comment words => ∀ word ∈ words, IsToken word ∧ word ≠ asciiBytes "$end"

instance (item : BodyItem) : Decidable item.Ok :=
  match item with
  | bit _ _ => inferInstanceAs (Decidable (_ ∧ _))
  | word _ _ => inferInstanceAs (Decidable (_ ∧ _ ∧ _))
  | command _ => inferInstanceAs (Decidable (_ ∈ _))
  | comment _ => inferInstanceAs (Decidable (∀ _ ∈ _, _ ∧ _))

end BodyItem

variable {c : Crates}

theorem parseFirstToken_bit {value : UInt8} (bit : value ∈ asciiBytes "01zZxXhHuUwWlL-")
    (id : List UInt8) : parseFirstToken c (value :: id) = .ok .oneBitValue := by
  have other : value ≠ ascii '#' := by
    rintro rfl
    exact absurd bit (by decide)
  rw [parseFirstToken, if_neg other, if_pos bit]

theorem parseFirstToken_word {kind : UInt8} (word : kind ∈ asciiBytes "bBrRsS")
    (rest : List UInt8) : parseFirstToken c (kind :: rest) = .ok .multiBitValue := by
  have other : ∀ b ∈ asciiBytes "bBrRsS", b ≠ ascii '#' ∧ b ∉ asciiBytes "01zZxXhHuUwWlL-" := by
    decide +kernel
  obtain ⟨time, bit⟩ := other kind word
  rw [parseFirstToken, if_neg time, if_neg bit, if_pos word]

theorem parseFirstToken_command {name : List UInt8}
    (command : name ∈ ["$dumpall", "$dumpvars", "$end", "$dumpoff", "$dumpon"].map asciiBytes) :
    parseFirstToken c name = .ok .ignoredCmd := by
  simp only [List.map_cons, List.map_nil, List.mem_cons, List.not_mem_nil, or_false] at command
  rcases command with rfl | rfl | rfl | rfl | rfl <;> rfl

theorem parseFirstToken_comment : parseFirstToken c (asciiBytes "$comment") = .ok .commentStart := rfl

theorem parseFirstToken_time {t : Nat} (small : t < 2 ^ 64) :
    parseFirstToken c (ascii '#' :: decimal t) = .ok (.time t) := by
  rw [parseFirstToken, if_pos rfl, parseU64_decimal small]

/-- What a first token leads to, once there is whitespace behind it. -/
def afterFirst (first : List UInt8) (hasEscape : Bool) :
    FirstTokenResult → BodyParser × Option BodyCall
  | .time value => (.lineStart, some (.time value first.length))
  | .oneBitValue => (.lineStart, some (.value (first.take 1) (first.drop 1) false))
  | .multiBitValue => (⟨.parsingIdToken, first, [], hasEscape⟩, none)
  | .commentStart => (⟨.lookingForEndToken, [], [], false⟩, none)
  | .ignoredCmd => (.lineStart, none)

theorem step_first {first : List UInt8} (nonempty : first ≠ []) {b : UInt8}
    (space : isAsciiWhitespace b = true) {kind : FirstTokenResult}
    (parse : parseFirstToken c first = .ok kind) (hasEscape : Bool) :
    BodyParser.step c ⟨.parsingFirstToken, first, [], hasEscape⟩ b =
      .ok (afterFirst first hasEscape kind) := by
  have full : first.isEmpty = false := List.isEmpty_eq_false_iff.mpr nonempty
  simp only [BodyParser.step, space, if_true, full, Bool.false_eq_true, if_false, parse]
  cases kind <;> rfl

/-- A first token and the whitespace behind it. -/
theorem reads_first {first : List UInt8} (token : IsToken first) {b : UInt8}
    (space : isAsciiWhitespace b = true) {kind : FirstTokenResult}
    (parse : parseFirstToken c first = .ok kind) {p' : BodyParser}
    (value : Option (List UInt8 × List UInt8 × Bool))
    (after : afterFirst first (first.contains (ascii '\\')) kind =
      (p', value.map BodyLine.valueCall)) :
    BodyParser.Reads c .lineStart (first ++ [b]) p' value.toList := by
  have whole := BodyParser.foldl_push_first [] first [] false
  rw [List.nil_append, Bool.false_or] at whole
  have gather : BodyParser.Reads c .lineStart first _ [] :=
    BodyParser.reads_token BodyState.noConfusion token.2
  rw [BodyParser.lineStart, whole] at gather
  refine gather.append (BodyParser.reads_space _ ?_)
  rw [step_first token.1 space parse, after]

/-- An identifier and the whitespace behind it. -/
theorem reads_id {id : List UInt8} (token : IsToken id) {b : UInt8}
    (space : isAsciiWhitespace b = true) (value : List UInt8) (hasEscape : Bool) :
    BodyParser.Reads c ⟨.parsingIdToken, value, [], hasEscape⟩ (id ++ [b]) .lineStart
      [(value, id, hasEscape)] := by
  have gather : BodyParser.Reads c ⟨.parsingIdToken, value, [], hasEscape⟩ id _ [] :=
    BodyParser.reads_token BodyState.noConfusion token.2
  rw [BodyParser.foldl_push_id, List.nil_append] at gather
  refine gather.append (BodyParser.reads_space (some (value, id, hasEscape)) ?_)
  simp only [BodyParser.step, space, if_true, List.isEmpty_eq_false_iff.mpr token.1,
    Bool.false_eq_true, if_false]
  rfl

/-- A word of a comment and the whitespace behind it. -/
theorem reads_word {word : List UInt8} (token : IsToken word) {b : UInt8}
    (space : isAsciiWhitespace b = true) :
    BodyParser.Reads c ⟨.lookingForEndToken, [], [], false⟩ (word ++ [b])
      (if word = asciiBytes "$end" then .lineStart else ⟨.lookingForEndToken, [], [], false⟩) [] := by
  have gather : BodyParser.Reads c ⟨.lookingForEndToken, [], [], false⟩ word _ [] :=
    BodyParser.reads_token BodyState.noConfusion token.2
  rw [BodyParser.foldl_push_end, List.nil_append] at gather
  refine gather.append (BodyParser.reads_space none ?_)
  simp only [BodyParser.step, space, if_true, List.isEmpty_eq_false_iff.mpr token.1,
    Bool.false_eq_true, if_false]
  split <;> rfl

theorem joined_cons_cons (token next : List UInt8) (tokens : List (List UInt8)) :
    joined (token :: next :: tokens) = token ++ ascii ' ' :: joined (next :: tokens) := by
  rw [joined, joined, List.flatMap_cons]
  rfl

/-- The rest of a comment. -/
theorem reads_comment {words : List (List UInt8)}
    (plain : ∀ word ∈ words, IsToken word ∧ word ≠ asciiBytes "$end") {b : UInt8}
    (space : isAsciiWhitespace b = true) :
    BodyParser.Reads c ⟨.lookingForEndToken, [], [], false⟩
      (joined (words ++ [asciiBytes "$end"]) ++ [b]) .lineStart [] := by
  induction words with
  | nil =>
    have token : IsToken (asciiBytes "$end") := by decide +kernel
    have last := reads_word (c := c) token space
    rw [if_pos rfl] at last
    rw [List.nil_append, joined, List.flatMap_nil, List.append_nil]
    exact last
  | cons word words ih =>
    obtain ⟨token, other⟩ := plain word List.mem_cons_self
    have first := reads_word (c := c) token (b := ascii ' ') rfl
    rw [if_neg other] at first
    have rest := first.append (ih fun word member => plain word (.tail _ member))
    obtain ⟨next, tokens, whole⟩ := List.exists_cons_of_ne_nil
      (List.append_ne_nil_of_right_ne_nil words (List.cons_ne_nil (asciiBytes "$end") []))
    rw [List.cons_append, whole, joined_cons_cons, ← whole]
    simpa using rest

/-- An item and the whitespace behind it. -/
theorem BodyItem.Ok.reads {item : BodyItem} (ok : item.Ok) {b : UInt8}
    (space : isAsciiWhitespace b = true) :
    BodyParser.Reads c .lineStart (item.text ++ [b]) .lineStart item.values := by
  cases item with
  | bit value id =>
    obtain ⟨bit, plain⟩ := ok
    have plain' : ∀ b ∈ asciiBytes "01zZxXhHuUwWlL-", isAsciiWhitespace b = false := by
      decide +kernel
    have token : IsToken (value :: id) :=
      ⟨List.cons_ne_nil _ _, List.forall_mem_cons.mpr ⟨plain' value bit, plain⟩⟩
    exact reads_first token space (parseFirstToken_bit bit id) (some ([value], id, false)) rfl
  | word value id =>
    obtain ⟨token, word, named⟩ := ok
    obtain ⟨kind, rest, rfl⟩ := List.exists_cons_of_ne_nil token.1
    have first := reads_first token (b := ascii ' ') rfl (parseFirstToken_word (c := c) word rest)
      none rfl
    have whole := first.append (reads_id named space (kind :: rest) _)
    rw [BodyItem.text, BodyItem.values, joined_cons_cons, joined, List.flatMap_nil, List.append_nil]
    rw [List.append_assoc, List.singleton_append] at whole
    rw [List.append_assoc, List.cons_append]
    exact whole
  | command name =>
    have tokens : ∀ name ∈ ["$dumpall", "$dumpvars", "$end", "$dumpoff", "$dumpon"].map asciiBytes,
        IsToken name := by
      decide +kernel
    exact reads_first (tokens name ok) space (parseFirstToken_command ok) none rfl
  | comment words =>
    have token : IsToken (asciiBytes "$comment") := by decide +kernel
    have first := reads_first token (b := ascii ' ') rfl (parseFirstToken_comment (c := c)) none rfl
    have whole := first.append (reads_comment ok space)
    obtain ⟨next, tokens, cut⟩ := List.exists_cons_of_ne_nil
      (List.append_ne_nil_of_right_ne_nil words (List.cons_ne_nil (asciiBytes "$end") []))
    rw [BodyItem.text, List.cons_append, cut, joined_cons_cons, ← cut, List.append_assoc, List.cons_append]
    rw [List.append_assoc, List.singleton_append] at whole
    exact whole

/-- Items with a space between them, and the whitespace behind them. -/
theorem reads_items {items : List BodyItem} (ok : ∀ item ∈ items, item.Ok) {b : UInt8}
    (space : isAsciiWhitespace b = true) :
    BodyParser.Reads c .lineStart (joined (items.map BodyItem.text) ++ [b]) .lineStart
      (items.flatMap BodyItem.values) := by
  induction items with
  | nil =>
    refine BodyParser.reads_space none ?_
    simp [BodyParser.step, BodyParser.lineStart, space]
  | cons item items ih =>
    have own := ok item List.mem_cons_self
    have rest := ih fun item member => ok item (.tail _ member)
    cases items with
    | nil =>
      rw [List.map_cons, List.map_nil, joined, List.flatMap_nil, List.append_nil, List.flatMap_cons,
        List.flatMap_nil, List.append_nil]
      exact own.reads space
    | cons next items =>
      have whole := (own.reads (c := c) (b := ascii ' ') rfl).append rest
      rw [List.append_assoc, List.singleton_append] at whole
      rw [List.map_cons, List.map_cons, joined_cons_cons, ← List.map_cons, List.append_assoc,
        List.cons_append, List.flatMap_cons]
      exact whole

/-! ## Lines -/

/-- A line of a dump. -/
structure DumpLine where
  time : Option Nat
  items : List BodyItem
  deriving DecidableEq, Repr

namespace DumpLine

/-- The token of a time. -/
def timeToken (t : Nat) : List UInt8 := ascii '#' :: decimal t

/-- The line as it is read. -/
def bodyLine (l : DumpLine) : BodyLine where
  text := joined ((l.time.map timeToken).toList ++ l.items.map BodyItem.text)
  time := l.time
  values := l.items.flatMap BodyItem.values

/-- A line that can be written. -/
structure Ok (l : DumpLine) : Prop where
  time : ∀ t ∈ l.time, t < 2 ^ 64
  items : ∀ item ∈ l.items, item.Ok

instance (l : DumpLine) : Decidable l.Ok :=
  decidable_of_iff ((∀ t ∈ l.time, t < 2 ^ 64) ∧ ∀ item ∈ l.items, item.Ok)
    ⟨fun ok => ⟨ok.1, ok.2⟩, fun ok => ⟨ok.time, ok.items⟩⟩

end DumpLine

theorem mem_joined {tokens : List (List UInt8)} {b : UInt8} (member : b ∈ joined tokens) :
    b = ascii ' ' ∨ ∃ token ∈ tokens, b ∈ token := by
  cases tokens with
  | nil => cases member
  | cons token tokens =>
    rcases List.mem_append.mp member with first | rest
    · exact .inr ⟨token, List.mem_cons_self, first⟩
    · obtain ⟨next, inside, own⟩ := List.mem_flatMap.mp rest
      rcases List.mem_cons.mp own with space | own
      · exact .inl space
      · exact .inr ⟨next, .tail _ inside, own⟩

theorem newline_not_mem_joined {tokens : List (List UInt8)}
    (plain : ∀ token ∈ tokens, ascii '\n' ∉ token) : ascii '\n' ∉ joined tokens := by
  intro member
  rcases mem_joined member with space | ⟨token, inside, own⟩
  · exact absurd space (by decide)
  · exact plain token inside own

theorem newline_not_mem {token : List UInt8} (plain : ∀ b ∈ token, isAsciiWhitespace b = false) :
    ascii '\n' ∉ token := fun member => absurd (plain _ member) (by decide)

theorem BodyItem.Ok.newline {item : BodyItem} (ok : item.Ok) : ascii '\n' ∉ item.text := by
  cases item with
  | bit value id =>
    rintro member
    rcases List.mem_cons.mp member with rfl | inside
    · exact absurd ok.1 (by decide)
    · exact newline_not_mem ok.2 inside
  | word value id =>
    rw [BodyItem.text]
    refine newline_not_mem_joined fun token member => ?_
    rcases List.mem_pair.mp member with rfl | rfl
    · exact newline_not_mem ok.1.2
    · exact newline_not_mem ok.2.2.2
  | command name =>
    have names : ∀ name ∈ ["$dumpall", "$dumpvars", "$end", "$dumpoff", "$dumpon"].map asciiBytes,
        ascii '\n' ∉ name := by
      decide +kernel
    exact names name ok
  | comment words =>
    rw [BodyItem.text]
    refine newline_not_mem_joined fun token member => ?_
    simp only [List.cons_append, List.mem_cons, List.mem_append, List.not_mem_nil, or_false] at member
    rcases member with rfl | inside | rfl
    · decide +kernel
    · exact newline_not_mem (ok token inside).1.2
    · decide +kernel

theorem isToken_timeToken (t : Nat) : IsToken (DumpLine.timeToken t) := by
  refine ⟨List.cons_ne_nil _ _, fun b member => ?_⟩
  rcases List.mem_cons.mp member with rfl | digit
  · decide
  · obtain ⟨d, own, rfl⟩ := mem_decimal digit
    obtain ⟨value, least, most⟩ := toNat_ascii_of_digit own
    rw [← value] at least most
    simp only [isAsciiWhitespace, List.mem_cons, List.not_mem_nil, or_false, ← UInt8.toNat_inj,
      decide_eq_false_iff_not]
    have bound (n : Nat) (small : n < 48) : (ascii d).toNat ≠ n := by omega
    exact fun space => by
      rcases space with same | same | same | same | same <;> exact bound _ (by decide) same

/-- The time at the beginning of a line. -/
theorem run_timeToken {t : Nat} (small : t < 2 ^ 64) {b : UInt8} (space : isAsciiWhitespace b = true) :
    BodyParser.lineStart.run c 0 (DumpLine.timeToken t ++ [b]) =
      .ok (.lineStart, [((DumpLine.timeToken t).length, .time t (DumpLine.timeToken t).length)]) := by
  have token := isToken_timeToken t
  have gathered := BodyParser.foldl_push_first [] (DumpLine.timeToken t) [] false
  rw [List.nil_append, Bool.false_or] at gathered
  have gather : BodyParser.Reads c .lineStart (DumpLine.timeToken t) _ [] :=
    BodyParser.reads_token BodyState.noConfusion token.2
  obtain ⟨calls, ran, noCalls⟩ := gather 0
  rw [List.map_nil, List.map_eq_nil_iff] at noCalls
  rw [BodyParser.run_append, ran, noCalls, BodyParser.lineStart, gathered]
  dsimp only [Except.bind]
  rw [BodyParser.run, step_first token.1 space (parseFirstToken_time small), Nat.zero_add]
  rfl

/-- A line that is written can be read by itself. -/
theorem DumpLine.Ok.bodyLine {l : DumpLine} (ok : l.Ok) : l.bodyLine.Ok c := by
  refine ⟨?_, ?_⟩
  · refine newline_not_mem_joined fun token member => ?_
    rcases List.mem_append.mp member with own | own
    · obtain ⟨t, -, rfl⟩ := Option.map_eq_some_iff.mp (Option.mem_toList.mp own)
      exact newline_not_mem (isToken_timeToken t).2
    · obtain ⟨item, inside, rfl⟩ := List.mem_map.mp own
      exact (ok.items item inside).newline
  · have items := reads_items (c := c) ok.items (b := ascii '\n') rfl
    cases time : l.time with
    | none =>
      obtain ⟨calls, ran, values⟩ := items 0
      refine ⟨0, calls, ?_, values⟩
      rw [DumpLine.bodyLine, time]
      exact ran
    | some t =>
      rw [DumpLine.bodyLine, time]
      cases whole : l.items with
      | nil =>
        have text : joined ((Option.map DumpLine.timeToken (some t)).toList ++
            List.map BodyItem.text []) = DumpLine.timeToken t := by
          simp [joined]
        refine ⟨(DumpLine.timeToken t).length, [], ?_, rfl⟩
        rw [text, run_timeToken (ok.time t time) rfl]
        rfl
      | cons item rest =>
        obtain ⟨calls, ran, values⟩ := items ((DumpLine.timeToken t ++ [ascii ' ']).length)
        have text : joined ((Option.map DumpLine.timeToken (some t)).toList ++
            (item :: rest).map BodyItem.text) ++ [ascii '\n'] =
            (DumpLine.timeToken t ++ [ascii ' ']) ++
              (joined ((item :: rest).map BodyItem.text) ++ [ascii '\n']) := by
          rw [Option.map_some, Option.toList_some, List.singleton_append, List.map_cons,
            joined_cons_cons]
          simp
        rw [whole] at ran values
        refine ⟨(DumpLine.timeToken t).length, calls, ?_, values⟩
        rw [text, BodyParser.run_append, run_timeToken (ok.time t time) rfl]
        dsimp only [Except.bind]
        rw [Nat.zero_add, ran]
        rfl

end RWave.Wellen
