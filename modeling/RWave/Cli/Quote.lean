import RWave.Cli

/-!
# Quoting a batch line

The way to write any tokens on one line: each between single quotes, with a quote inside written as
the end of the quotes, an escaped quote, and their beginning. `split_line` reads such a line back,
whatever the tokens hold, and a label behind it.
-/

namespace RWave.Cli

/-- A token between single quotes, without the first of them. -/
def quotedFrom (cs : List Char) : List Char :=
  cs.flatMap (fun c => if c = '\'' then ['\'', '\\', '\'', '\''] else [c]) ++ ['\'']

/-- A token as a single-quoted word. -/
def quote (token : String) : String := .ofList ('\'' :: quotedFrom token.toList)

/-- Tokens as a line of single-quoted words. -/
def quoteLine (tokens : List String) : String := Str.join " " (tokens.map quote)

/-! ## Steps of the tokenizer -/

theorem splitFrom_blank (s : Tokens) (rest : List Char) :
    splitFrom .plain s (' ' :: rest) = splitFrom .plain s.flush rest := by
  rw [splitFrom.eq_def]
  rfl

theorem splitFrom_open (s : Tokens) (rest : List Char) :
    splitFrom .plain s ('\'' :: rest) = splitFrom .single { s with inToken := true } rest := by
  rw [splitFrom.eq_def]
  simp

theorem splitFrom_close (s : Tokens) (rest : List Char) :
    splitFrom .single s ('\'' :: rest) = splitFrom .plain s rest := by
  rw [splitFrom.eq_def]
  simp

theorem splitFrom_inside (s : Tokens) {c : Char} (other : c ≠ '\'') (rest : List Char) :
    splitFrom .single s (c :: rest) = splitFrom .single (s.push c) rest := by
  rw [splitFrom.eq_def]
  simp [other]

theorem splitFrom_escape (s : Tokens) (c : Char) (rest : List Char) :
    splitFrom .plain s ('\\' :: c :: rest) =
      splitFrom .plain ({ s with inToken := true }.push c) rest := by
  rw [splitFrom.eq_def]
  simp

theorem splitFrom_label (tokens : List String) (rest : List Char) :
    splitFrom .plain ⟨tokens, [], false⟩ ('#' :: rest) =
      .ok (tokens, if Str.isEmpty (Str.trim (.ofList rest)) then none
        else some (Str.trim (.ofList rest))) := by
  rw [splitFrom.eq_def]
  simp

/-! ## Quoted words -/

/-- Inside the quotes everything is taken as it is, up to the quote that ends the word. -/
theorem splitFrom_quotedFrom (cs : List Char) (done : List String) (cur rest : List Char) :
    splitFrom .single ⟨done, cur, true⟩ (quotedFrom cs ++ rest) =
      splitFrom .plain ⟨done, cur ++ cs, true⟩ rest := by
  induction cs generalizing cur with
  | nil =>
    rw [quotedFrom, List.flatMap_nil, List.nil_append, List.singleton_append, splitFrom_close,
      List.append_nil]
  | cons c cs ih =>
    have next := ih (cur ++ [c])
    rw [List.append_assoc, List.singleton_append] at next
    rw [← next]
    by_cases inner : c = '\''
    · -- The quotes end, an escaped quote follows, and they begin again.
      subst inner
      have text : quotedFrom ('\'' :: cs) ++ rest =
          '\'' :: '\\' :: '\'' :: '\'' :: (quotedFrom cs ++ rest) := by
        simp [quotedFrom]
      rw [text, splitFrom_close, splitFrom_escape, splitFrom_open]
      rfl
    · have text : quotedFrom (c :: cs) ++ rest = c :: (quotedFrom cs ++ rest) := by
        simp [quotedFrom, inner]
      rw [text, splitFrom_inside _ inner]
      rfl

/-- A single-quoted word is one token. -/
theorem splitFrom_quote (token : String) (done : List String) (rest : List Char) :
    splitFrom .plain ⟨done, [], false⟩ ((quote token).toList ++ rest) =
      splitFrom .plain ⟨done, token.toList, true⟩ rest := by
  have inside := splitFrom_quotedFrom token.toList done [] rest
  rw [List.nil_append] at inside
  rw [← inside, quote, String.toList_ofList, List.cons_append, splitFrom_open]

/-- A line of single-quoted words is read word by word. -/
theorem splitFrom_quoteLine (tokens done : List String) (rest : List Char) :
    ∃ s : Tokens, s.flush = ⟨done ++ tokens, [], false⟩ ∧
      splitFrom .plain ⟨done, [], false⟩ ((quoteLine tokens).toList ++ rest) =
        splitFrom .plain s rest := by
  induction tokens generalizing done with
  | nil => exact ⟨⟨done, [], false⟩, by simp [Tokens.flush], by simp [quoteLine, Str.join]⟩
  | cons token tokens ih =>
    cases tokens with
    | nil =>
      refine ⟨⟨done, token.toList, true⟩, by simp [Tokens.flush], ?_⟩
      rw [quoteLine, List.map_singleton, Str.join, String.intercalate_singleton, splitFrom_quote]
    | cons next tokens =>
      obtain ⟨s, flushed, read⟩ := ih (done ++ [token])
      refine ⟨s, by rw [flushed, List.append_assoc]; rfl, ?_⟩
      rw [← read]
      have line : (quoteLine (token :: next :: tokens)).toList ++ rest =
          (quote token).toList ++ ' ' :: ((quoteLine (next :: tokens)).toList ++ rest) := by
        simp [quoteLine, Str.join]
      rw [line, splitFrom_quote, splitFrom_blank]
      simp [Tokens.flush]

/-- `split_line` inverts quoting, and reads a label behind the words. -/
theorem splitLine_quoteLine (tokens : List String) :
    splitLine (quoteLine tokens) = .ok (tokens, none) ∧
      ∀ text, Str.trim text ≠ "" →
        splitLine (quoteLine tokens ++ " #" ++ text) = .ok (tokens, some (Str.trim text)) := by
  refine ⟨?_, ?_⟩
  · obtain ⟨s, flushed, read⟩ := splitFrom_quoteLine tokens [] []
    rw [List.append_nil] at read
    rw [splitLine, read, splitFrom, flushed, List.nil_append]
  · intro text filled
    obtain ⟨s, flushed, read⟩ := splitFrom_quoteLine tokens [] (" #".toList ++ text.toList)
    have label : Str.isEmpty (Str.trim text) = false := by simpa [Str.isEmpty] using filled
    rw [splitLine, String.toList_append, String.toList_append, List.append_assoc, read]
    change splitFrom .plain s (' ' :: '#' :: text.toList) = _
    rw [splitFrom_blank, flushed, List.nil_append, splitFrom_label, String.ofList_toList, label,
      if_neg Bool.false_ne_true]

/-- An empty token, quotes and backslashes, a number sign, and a label. -/
theorem splitLine_quoteLine_example :
    splitLine (quoteLine ["", "it's", "a \\ \" b", "#x"] ++ " #" ++ " id 7 ") =
      .ok (["", "it's", "a \\ \" b", "#x"], some "id 7") :=
  ((splitLine_quoteLine _).2 " id 7 " (by decide)).trans (by decide)

end RWave.Cli
