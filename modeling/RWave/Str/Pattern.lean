import RWave.Str

/-!
# Cutting text apart

`rfind`, `trim_end_matches` of a string, `lines` and `parse` of an unsigned number, and what the
cutting functions return on text that was put together from known parts.
-/

namespace RWave.Str

/-- `rfind`: what stands before the last occurrence of `pat`, and what after it. -/
def rfind (pat : List Char) : List Char → Option (List Char × List Char)
  | [] => if pat.isEmpty then some ([], []) else none
  | c :: cs =>
    match rfind pat cs with
    | some (before, after) => some (c :: before, after)
    | none => if pat.isPrefixOf (c :: cs) then some ([], (c :: cs).drop pat.length) else none

/-- Takes `pat` off the front as long as it is there, at most `n` times. -/
def dropRepeated (pat : List Char) : Nat → List Char → List Char
  | 0, cs => cs
  | n + 1, cs => if pat.isPrefixOf cs then dropRepeated pat n (cs.drop pat.length) else cs

/-- `trim_end_matches` of a non-empty string: no text has more copies of it than characters. -/
def trimEndMatchesStr (pat s : String) : String :=
  .ofList (dropRepeated pat.toList.reverse s.toList.length s.toList.reverse).reverse

/-- `trim_end`. -/
def trimEnd (s : String) : String := trimEndMatches isWhitespace s

/-- `trim_start`. -/
def trimStart (s : String) : String := trimStartMatches isWhitespace s

/-- `parse` of an unsigned number with `bits` bits. -/
def parseUnsigned (bits : Nat) (s : String) : Option Nat :=
  let digits :=
    match s.toList with
    | '+' :: rest => rest
    | rest => rest
  if digits.isEmpty || !digits.all Char.isDigit then none
  else
    let n := Nat.ofDigitChars 10 digits 0
    if n < 2 ^ bits then some n else none

/-- A line with its line ending taken off. -/
def dropLineEnd (line : List Char) : List Char :=
  match line.reverse with
  | '\r' :: rest => rest.reverse
  | _ => line

/-- The lines of a text: a last line without a line ending is kept as it is. -/
def linesFrom (line : List Char) : List Char → List String
  | [] => if line.isEmpty then [] else [.ofList line]
  | '\n' :: cs => .ofList (dropLineEnd line) :: linesFrom [] cs
  | c :: cs => linesFrom (line ++ [c]) cs

/-- `lines`. -/
def lines (s : String) : List String := linesFrom [] s.toList

theorem isEmpty_eq_false {s : String} (filled : s ≠ "") : isEmpty s = false := by
  rw [isEmpty, List.isEmpty_eq_false_iff]
  exact mt String.toList_eq_nil_iff.mp filled

/-! ## The last occurrence -/

/-- A string is cut at the last character that `p` accepts, if there is one. -/
theorem rsplitOnce_cases (p : Char → Bool) (s : String) :
    (rsplitOnce p s = none ∧ ∀ d ∈ s.toList, p d = false) ∨
      ∃ before c after, rsplitOnce p s = some (before, after) ∧ p c = true ∧
        (∀ d ∈ after.toList, p d = false) ∧ s.toList = before.toList ++ c :: after.toList := by
  have cut := List.takeWhile_append_dropWhile (p := fun c => !p c) (l := s.toList.reverse)
  have plain : ∀ d ∈ s.toList.reverse.takeWhile fun c => !p c, p d = false := by
    intro d member
    simpa using List.mem_takeWhile_imp member
  have rest : s.toList.reverse.drop (s.toList.reverse.takeWhile fun c => !p c).length =
      s.toList.reverse.dropWhile fun c => !p c := by
    have dropped := congrArg (List.drop (s.toList.reverse.takeWhile fun c => !p c).length) cut
    rw [List.drop_left] at dropped
    exact dropped.symm
  cases form : s.toList.reverse.dropWhile fun c => !p c with
  | nil =>
    refine Or.inl ⟨by simp only [rsplitOnce, rest, form], ?_⟩
    intro d member
    rw [form, List.append_nil] at cut
    rw [cut] at plain
    exact plain d (List.mem_reverse.mpr member)
  | cons c before =>
    refine Or.inr ⟨.ofList before.reverse, c, .ofList
      (s.toList.reverse.takeWhile fun c => !p c).reverse, ?_, ?_, ?_, ?_⟩
    · simp only [rsplitOnce, rest, form]
    · have first := List.head?_dropWhile_not (fun c => !p c) s.toList.reverse
      rw [form] at first
      simpa using first
    · intro d member
      rw [String.toList_ofList, List.mem_reverse] at member
      exact plain d member
    · have whole := congrArg List.reverse cut
      rw [form, List.reverse_reverse, List.reverse_append, List.reverse_cons, List.append_assoc]
        at whole
      rw [String.toList_ofList, String.toList_ofList]
      exact whole.symm

theorem rsplitOnce_append {p : Char → Bool} {s : String} {c : Char} {before after : List Char}
    (cut : s.toList = before ++ c :: after) (found : p c = true)
    (absent : ∀ d ∈ after, p d = false) :
    rsplitOnce p s = some (.ofList before, .ofList after) := by
  have run : s.toList.reverse.takeWhile (fun d => !p d) = after.reverse := by
    rw [cut, List.reverse_append, List.reverse_cons, List.append_assoc,
      List.takeWhile_append_of_pos (by simpa using absent)]
    simp [found]
  have rest : s.toList.reverse.drop after.reverse.length = c :: before.reverse := by
    rw [cut, List.reverse_append, List.reverse_cons, List.append_assoc, List.drop_left]
    rfl
  simp only [rsplitOnce, run, rest, List.reverse_reverse]

theorem rfind_eq_none {pat cs : List Char} (nonempty : pat ≠ []) (absent : ¬ pat <:+: cs) :
    rfind pat cs = none := by
  induction cs with
  | nil => rw [rfind, if_neg (by simpa using nonempty)]
  | cons c cs ih =>
    rw [List.infix_cons_iff, not_or] at absent
    rw [rfind, ih absent.2]
    exact if_neg (mt List.isPrefixOf_iff_prefix.mp absent.1)

/-- The text is cut at an occurrence that no other one follows. -/
theorem rfind_append {c : Char} {pat after : List Char} (last : ¬ c :: pat <:+: pat ++ after)
    (before : List Char) :
    rfind (c :: pat) (before ++ (c :: pat ++ after)) = some (before, after) := by
  induction before with
  | nil =>
    have here : (c :: pat).isPrefixOf (c :: (pat ++ after)) = true :=
      List.isPrefixOf_iff_prefix.mpr (List.prefix_append (c :: pat) after)
    rw [List.nil_append, List.cons_append, rfind, rfind_eq_none (List.cons_ne_nil c pat) last]
    simp [here]
  | cons b before ih => rw [List.cons_append, rfind, ih]

/-- An occurrence does not reach into a tail that lacks the last character of the pattern. -/
theorem infix_of_infix_append {pat cs tail : List Char} {c : Char} (absent : c ∉ tail)
    (inside : pat ++ [c] <:+: cs ++ tail) : pat ++ [c] <:+: cs := by
  obtain ⟨before, after, cut⟩ := inside
  rcases List.append_eq_append_iff.mp cut with ⟨t, front, -⟩ | ⟨t, front, rest⟩
  · exact ⟨before, t, front.symm⟩
  · cases t using List.reverseRecOn with
    | nil => exact ⟨before, [], by rw [front, List.append_nil, List.append_nil]⟩
    | append_singleton t d =>
      rw [← List.append_assoc, ← List.append_assoc] at front
      have last : c = d := by simpa using (List.append_inj_right' front rfl)
      exact absurd (by rw [rest, last]; simp) absent

/-- An occurrence does not begin in a front that lacks the first character of the pattern. -/
theorem infix_of_absent_front {pat front cs : List Char} {c : Char} (absent : c ∉ front)
    (inside : c :: pat <:+: front ++ cs) : c :: pat <:+: cs := by
  induction front with
  | nil => exact inside
  | cons d front ih =>
    rw [List.mem_cons, not_or] at absent
    rcases List.infix_cons_iff.mp inside with first | later
    · exact absurd (List.cons_prefix_cons.mp first).1 absent.1
    · exact ih absent.2 later

/-- An end of a text without a certain character comes after every such character. -/
theorem suffix_of_suffix_append {pat before after : List Char} {c : Char} (absent : c ∉ pat)
    (atEnd : pat <:+ before ++ c :: after) : pat <:+ after := by
  obtain ⟨front, cut⟩ := atEnd
  rcases List.append_eq_append_iff.mp cut with ⟨t, -, rest⟩ | ⟨t, -, rest⟩
  · exact absurd (by rw [rest]; simp) absent
  · cases t with
    | nil => exact absurd (by rw [← show c :: after = pat from rest]; simp) absent
    | cons d t => exact ⟨t, (List.cons.inj rest).2.symm⟩

/-! ## The first occurrence -/

theorem splitOnce_append {c : Char} {before : List Char} (absent : c ∉ before)
    (after : List Char) : splitOnce [c] (before ++ c :: after) = some (before, after) := by
  induction before with
  | nil => simp [splitOnce]
  | cons b before ih =>
    rw [List.mem_cons, not_or] at absent
    obtain ⟨other, rest⟩ := absent
    rw [List.cons_append, splitOnce, ih rest]
    simp [other]

theorem splitOnce_eq_none {c : Char} {cs : List Char} (absent : c ∉ cs) :
    splitOnce [c] cs = none := by
  induction cs with
  | nil => rfl
  | cons b cs ih =>
    rw [List.mem_cons, not_or] at absent
    obtain ⟨other, rest⟩ := absent
    rw [splitOnce, ih rest]
    simp [other]

/-! ## The ends -/

theorem trimEndMatches_of_last {p : Char → Bool} {s : String}
    (last : ∀ c ∈ s.toList.getLast?, p c = false) : trimEndMatches p s = s := by
  rw [trimEndMatches]
  cases chars : s.toList.reverse with
  | nil =>
    rw [List.reverse_eq_nil_iff] at chars
    rw [List.dropWhile_nil, List.reverse_nil, ← chars, String.ofList_toList]
  | cons c rest =>
    rw [← List.head?_reverse, chars] at last
    rw [List.dropWhile_cons, last c rfl, if_neg Bool.false_ne_true, ← chars, List.reverse_reverse,
      String.ofList_toList]

/-- Nothing is taken off behind a last character that does not match. -/
theorem trimEndMatches_of_solid {p : Char → Bool} {s : String} {c : Char}
    (last : s.toList.getLast? = some c) (solid : p c = false) : trimEndMatches p s = s := by
  apply trimEndMatches_of_last
  intro d own
  rw [last, Option.mem_some_iff] at own
  rwa [← own]

theorem trimEndMatches_append {p : Char → Bool} {t : String} (all : ∀ c ∈ t.toList, p c = true)
    (s : String) : trimEndMatches p (s ++ t) = trimEndMatches p s := by
  have all' : ∀ c ∈ t.toList.reverse, p c = true := fun c member =>
    all c (List.mem_reverse.mp member)
  rw [trimEndMatches, trimEndMatches, String.toList_append, List.reverse_append,
    List.dropWhile_append_of_pos all']

theorem trimStartMatches_of_head {p : Char → Bool} {s : String}
    (first : ∀ c ∈ s.toList.head?, p c = false) : trimStartMatches p s = s := by
  rw [trimStartMatches]
  cases chars : s.toList with
  | nil => rw [List.dropWhile_nil, ← chars, String.ofList_toList]
  | cons c rest =>
    rw [chars] at first
    rw [List.dropWhile_cons, first c rfl, if_neg Bool.false_ne_true, ← chars, String.ofList_toList]

theorem dropRepeated_reverse {pat cs : List Char} (absent : ¬ pat <:+ cs) (n : Nat) :
    dropRepeated pat.reverse n cs.reverse = cs.reverse := by
  cases n with
  | zero => rfl
  | succ n =>
    rw [dropRepeated, if_neg]
    rw [List.isPrefixOf_iff_prefix, List.reverse_prefix]
    exact absent

theorem trimEndMatchesStr_of_not_suffix {pat s : String} (absent : ¬ pat.toList <:+ s.toList) :
    trimEndMatchesStr pat s = s := by
  rw [trimEndMatchesStr, dropRepeated_reverse absent, List.reverse_reverse, String.ofList_toList]

/-- One copy at the end is taken off. -/
theorem trimEndMatchesStr_append {pat s : String} (nonempty : pat ≠ "")
    (absent : ¬ pat.toList <:+ s.toList) : trimEndMatchesStr pat (s ++ pat) = s := by
  have here : pat.toList.reverse.isPrefixOf (pat.toList.reverse ++ s.toList.reverse) = true :=
    List.isPrefixOf_iff_prefix.mpr (List.prefix_append _ _)
  obtain ⟨n, length⟩ : ∃ n, (s ++ pat).toList.length = n + 1 := by
    refine Nat.exists_eq_succ_of_ne_zero ?_
    have := List.length_pos_iff.mpr (mt String.toList_eq_nil_iff.mp nonempty)
    rw [String.toList_append, List.length_append]
    omega
  rw [trimEndMatchesStr, length, String.toList_append, List.reverse_append, dropRepeated, here,
    if_pos rfl, List.drop_left, dropRepeated_reverse absent, List.reverse_reverse,
    String.ofList_toList]

/-- No whitespace at either end. -/
def Trimmed (s : String) : Prop := trim s = s

instance (s : String) : Decidable (Trimmed s) := inferInstanceAs (Decidable (_ = _))

theorem trimmed_of_ends {s : String} (first : ∀ c ∈ s.toList.head?, isWhitespace c = false)
    (last : ∀ c ∈ s.toList.getLast?, isWhitespace c = false) : Trimmed s := by
  rw [Trimmed, trim, trimMatches, trimStartMatches_of_head first, trimEndMatches_of_last last]

theorem Trimmed.head {s : String} (trimmed : Trimmed s) :
    ∀ c ∈ s.toList.head?, isWhitespace c = false := by
  intro c first
  by_contra blank
  obtain ⟨rest, chars⟩ := List.head?_eq_some_iff.mp first
  have shorter : (trim s).toList.length ≤ rest.length := by
    rw [trim, trimMatches, trimEndMatches, trimStartMatches, String.toList_ofList,
      String.toList_ofList, List.length_reverse, chars, List.dropWhile_cons,
      if_pos (by simpa using blank)]
    refine (List.dropWhile_suffix _).length_le.trans ?_
    rw [List.length_reverse]
    exact (List.dropWhile_suffix _).length_le
  rw [trimmed, chars, List.length_cons] at shorter
  omega

theorem Trimmed.last {s : String} (trimmed : Trimmed s) :
    ∀ c ∈ s.toList.getLast?, isWhitespace c = false := by
  intro c last
  by_contra blank
  obtain ⟨before, chars⟩ := List.getLast?_eq_some_iff.mp last
  have shorter : (trim s).toList.length ≤ before.length := by
    rw [trim, trimMatches, trimStartMatches_of_head trimmed.head, trimEndMatches,
      String.toList_ofList, List.length_reverse, chars, List.reverse_append, List.reverse_singleton,
      List.singleton_append, List.dropWhile_cons, if_pos (by simpa using blank)]
    refine (List.dropWhile_suffix _).length_le.trans ?_
    rw [List.length_reverse]
  rw [trimmed, chars, List.length_append, List.length_singleton] at shorter
  omega

/-! ## Numbers -/

/-- A number that is written out in decimal is read back. -/
theorem parseUnsigned_repr {bits n : Nat} (small : n < 2 ^ bits) :
    parseUnsigned bits n.repr = some n := by
  have digits : (Nat.toDigits 10 n).all Char.isDigit = true :=
    List.all_eq_true.mpr fun c member =>
      Nat.isDigit_of_mem_toDigits (by decide) (by decide) member
  have unsigned : (match Nat.toDigits 10 n with | '+' :: rest => rest | rest => rest) =
      Nat.toDigits 10 n := by
    split
    next rest form =>
      rw [form] at digits
      simp at digits
    next => rfl
  rw [parseUnsigned, Nat.toList_repr, unsigned, digits]
  simp [small]

end RWave.Str
