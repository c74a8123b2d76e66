import RWave.Misc.Outcome
import RWave.Wellen.VcdBody

/-!
# A body line by line

A line that can be read by itself leaves the parser where a line starts, and has a time at its
beginning or none at all (`BodyLine.Ok`). For a body of such lines `parse_body` is a loop over the
lines, from the first one behind the start of the chunk to the first time behind its end
(`parseBody_drop`).
-/

namespace RWave.Wellen

open RWave.Misc

/-- A line of a body: its text, the time at its beginning, and its values. -/
structure BodyLine where
  text : List UInt8
  time : Option Nat
  values : List (List UInt8 × List UInt8 × Bool)

namespace BodyParser

/-- The calls for a text, each with the place of the byte at which it is made. -/
def run (c : Crates) : Nat → BodyParser → List UInt8 →
    Except BodyFailure (BodyParser × List (Nat × BodyCall))
  | _, p, [] => .ok (p, [])
  | i, p, b :: text => do
    let (p, call) ← p.step c b
    let (p, calls) ← run c (i + 1) p text
    return (p, (call.map fun call => (i, call)).toList ++ calls)

end BodyParser

namespace BodyLine

/-- A value as a call. -/
def valueCall (v : List UInt8 × List UInt8 × Bool) : BodyCall := .value v.1 v.2.1 v.2.2

/-- A line that can be read by itself. The token of its time is the first thing in it. -/
def Ok (c : Crates) (l : BodyLine) : Prop :=
  ascii '\n' ∉ l.text ∧ ∃ tokenLen values,
    BodyParser.lineStart.run c 0 (l.text ++ [ascii '\n']) =
      .ok (.lineStart, (l.time.map fun t => (tokenLen, .time t tokenLen)).toList ++ values) ∧
    values.map Prod.snd = l.values.map valueCall

/-- The text of a body behind its first newline. -/
def render (lines : List BodyLine) : List UInt8 := lines.flatMap fun l => l.text ++ [ascii '\n']

/-- The lines, each with the place of the newline in front of it. -/
def place : Nat → List BodyLine → List (Nat × BodyLine)
  | _, [] => []
  | newline, l :: lines => (newline, l) :: place (newline + l.text.length + 1) lines

/-- The lines up to a time whose newline is at `stop` or behind it. -/
def untilTime (stop : Nat) (lines : List (Nat × BodyLine)) : List (Nat × BodyLine) :=
  lines.takeWhile fun l => !(l.2.time.isSome && stop ≤ l.1)

/-- The lines from a time on whose newline is at `start` or behind it. -/
def fromTime (start : Nat) (lines : List (Nat × BodyLine)) : List (Nat × BodyLine) :=
  lines.dropWhile fun l => !(l.2.time.isSome && start ≤ l.1)

variable {σ : Type} (out : ParseBodyOutput σ)

/-- The calls of a line. -/
def send (l : BodyLine) (s : σ) : Except BodyFailure σ := do
  let s ← match l.time with
    | some t => out.time s t
    | none => .ok s
  l.values.foldlM (fun s v => out.value s v.1 v.2.1 v.2.2) s

/-- The calls of some lines. -/
def sendAll (lines : List BodyLine) (s : σ) : Except BodyFailure σ :=
  lines.foldlM (fun s l => l.send out s) s

end BodyLine

namespace ParseBodyOutput

variable {σ : Type} {out : ParseBodyOutput σ} {c : Crates}

/-- The calls of a text that begins at `pos`, up to a time behind the stop position. -/
def deliver (out : ParseBodyOutput σ) (stopPos pos : Nat) :
    List (Nat × BodyCall) → σ → Except BodyFailure (σ × Bool)
  | [], s => .ok (s, false)
  | (i, .time value tokenLen) :: calls, s =>
    if stopPos < pos + i - tokenLen - 1 then .ok (s, true)
    else do deliver out stopPos pos calls (← out.time s value)
  | (_, .value value id hasEscape) :: calls, s => do
    deliver out stopPos pos calls (← out.value s value id hasEscape)

variable (out) in
/-- A text at the front makes its calls. -/
theorem parseFrom_run (stopPos pos : Nat) {i : Nat} {p p' : BodyParser} {text : List UInt8}
    {calls : List (Nat × BodyCall)} (ran : p.run c i text = .ok (p', calls)) (rest : List UInt8)
    (s : σ) :
    out.parseFrom c stopPos (pos + i) p s (text ++ rest) =
      (out.deliver stopPos pos calls s).bind fun r =>
        if r.2 then .ok r.1
        else out.parseFrom c stopPos (pos + i + text.length) p' r.1 rest := by
  induction text generalizing i p calls s with
  | nil =>
    cases ran
    rfl
  | cons b text ih =>
    obtain ⟨⟨next, call⟩, stepped, ran⟩ := bind_eq_ok.mp ran
    obtain ⟨⟨last, later⟩, ran', whole⟩ := bind_eq_ok.mp ran
    cases whole
    have length : pos + (i + 1) + text.length = pos + i + (text.length + 1) := by omega
    have on (s : σ) := ih ran' s
    rw [length] at on
    rw [List.cons_append, List.length_cons, parseFrom, stepped]
    cases call with
    | none => exact on s
    | some call =>
      cases call with
      | time value tokenLen =>
        simp only [Option.map_some, Option.toList_some, List.singleton_append, deliver]
        dsimp only [bind, Except.bind]
        split
        · rfl
        · cases out.time s value with
          | error e => rfl
          | ok s => exact on s
      | value value id hasEscape =>
        simp only [Option.map_some, Option.toList_some, List.singleton_append, deliver]
        dsimp only [bind, Except.bind]
        cases out.value s value id hasEscape with
        | error e => rfl
        | ok s => exact on s

/-- The values behind the time of a line are all delivered. -/
theorem deliver_values {stopPos pos : Nat} {calls : List (Nat × BodyCall)}
    {values : List (List UInt8 × List UInt8 × Bool)}
    (only : calls.map Prod.snd = values.map BodyLine.valueCall) (s : σ) :
    out.deliver stopPos pos calls s =
      (values.foldlM (fun s v => out.value s v.1 v.2.1 v.2.2) s).map fun s => (s, false) := by
  induction calls generalizing values s with
  | nil =>
    rw [List.map_nil] at only
    rw [List.map_eq_nil_iff.mp only.symm]
    rfl
  | cons call calls ih =>
    obtain ⟨v, values, rfl⟩ := List.exists_cons_of_ne_nil (l := values) (by rintro rfl; cases only)
    obtain ⟨i, call⟩ := call
    obtain ⟨rfl, rest⟩ := List.cons.inj only
    rw [BodyLine.valueCall, deliver, List.foldlM_cons]
    dsimp only [bind, Except.bind]
    cases out.value s v.1 v.2.1 v.2.2 with
    | error e => rfl
    | ok s => exact ih rest s

/-- A line at the front makes its calls, unless it has a time and stands behind the stop position. -/
theorem parseFrom_line {l : BodyLine} (ok : l.Ok c) (stopPos newline : Nat) (rest : List UInt8)
    (s : σ) :
    out.parseFrom c stopPos (newline + 1) .lineStart s (l.text ++ ascii '\n' :: rest) =
      if l.time.isSome ∧ stopPos < newline then .ok s
      else (l.send out s).bind fun s =>
        out.parseFrom c stopPos (newline + 1 + l.text.length + 1) .lineStart s rest := by
  obtain ⟨-, tokenLen, values, ran, only⟩ := ok
  have length : newline + 1 + (l.text ++ [ascii '\n']).length =
      newline + 1 + l.text.length + 1 := by
    rw [List.length_append]
    rfl
  have all := parseFrom_run out stopPos (newline + 1) ran rest s
  rw [Nat.add_zero, length, List.append_assoc, List.singleton_append] at all
  rw [all, BodyLine.send]
  cases time : l.time with
  | none =>
    rw [time] at ran
    rw [Option.map_none, Option.toList_none, List.nil_append, deliver_values only,
      if_neg (by simp)]
    dsimp only [bind, Except.bind, Except.map]
    cases l.values.foldlM (fun s v => out.value s v.1 v.2.1 v.2.2) s <;> rfl
  | some t =>
    have tokenStart : newline + 1 + tokenLen - tokenLen - 1 = newline := by omega
    rw [Option.map_some, Option.toList_some, List.singleton_append, deliver, tokenStart]
    by_cases behind : stopPos < newline
    · rw [if_pos behind, if_pos ⟨rfl, behind⟩]
      rfl
    · rw [if_neg behind, if_neg (fun both => behind both.2)]
      dsimp only [bind, Except.bind]
      cases out.time s t with
      | error e => rfl
      | ok s =>
        dsimp only
        rw [deliver_values only]
        cases l.values.foldlM (fun s v => out.value s v.1 v.2.1 v.2.2) s <;> rfl

/-- Lines at the front make their calls, up to a time behind the stop position. The chunk begins at
the byte `start`. -/
theorem parseFrom_lines {lines : List BodyLine} (ok : ∀ l ∈ lines, l.Ok c) (stopPos : Nat)
    {start newline : Nat} (inside : start ≤ newline) (s : σ) :
    out.parseFrom c stopPos (newline - start + 1) .lineStart s (BodyLine.render lines) =
      (BodyLine.untilTime (start + stopPos + 1) (BodyLine.place newline lines)).foldlM
        (fun s l => l.2.send out s) s := by
  induction lines generalizing newline s with
  | nil => rfl
  | cons l lines ih =>
    have later : start ≤ newline + l.text.length + 1 := by omega
    have next : newline - start + 1 + l.text.length + 1 =
        newline + l.text.length + 1 - start + 1 := by omega
    rw [BodyLine.render, List.flatMap_cons, List.append_assoc, List.singleton_append,
      parseFrom_line (ok l List.mem_cons_self), BodyLine.place, BodyLine.untilTime,
      List.takeWhile_cons, next]
    by_cases stop : l.time.isSome ∧ stopPos < newline - start
    · have behind : start + stopPos + 1 ≤ newline := by omega
      rw [if_pos stop, if_neg (by simp [stop.1, behind])]
      rfl
    · have goes : (!(l.time.isSome && decide (start + stopPos + 1 ≤ newline))) = true := by
        rw [Bool.not_eq_true', Bool.and_eq_false_iff, decide_eq_false_iff_not]
        by_cases timed : l.time.isSome
        · exact .inr fun behind => stop ⟨timed, by omega⟩
        · exact .inl (by simpa using timed)
      rw [if_neg stop, if_pos goes, List.foldlM_cons]
      dsimp only [bind, Except.bind]
      cases l.send out s with
      | error e => rfl
      | ok s => exact ih (fun l member => ok l (.tail _ member)) later s

/-- In front of the first newline nothing is read. -/
theorem parseFrom_skip {skip : List UInt8} (noNewline : ascii '\n' ∉ skip) (stopPos pos : Nat)
    (rest : List UInt8) (s : σ) :
    out.parseFrom c stopPos pos .new s (skip ++ ascii '\n' :: rest) =
      out.parseFrom c stopPos (pos + skip.length + 1) .lineStart s rest := by
  induction skip generalizing pos with
  | nil => rfl
  | cons b skip ih =>
    obtain ⟨other, later⟩ := not_or.mp (List.mem_cons.not.mp noNewline)
    have stay : BodyParser.new.step c b = .ok (.new, none) := by
      simp [BodyParser.step, BodyParser.new, Ne.symm other]
    rw [List.cons_append, parseFrom, stay, List.length_cons, Nat.add_comm skip.length 1,
      ← Nat.add_assoc]
    exact ih later (pos + 1)

variable (out) in
/-- The body from the byte `start` on; the text given here is there from the byte `offset` on. -/
theorem parseBody_drop' {lines : List BodyLine} (ok : ∀ l ∈ lines, l.Ok c) {skip : List UInt8}
    (noNewline : ascii '\n' ∉ skip) (stopPos : Nat) {offset start : Nat} (inside : offset ≤ start) (s : σ) :
    out.parseBody c stopPos s
        ((skip ++ ascii '\n' :: BodyLine.render lines).drop (start - offset)) =
      (BodyLine.untilTime (start + stopPos + 1)
        ((BodyLine.place (offset + skip.length) lines).dropWhile fun l => l.1 < start)).foldlM
        (fun s l => l.2.send out s) s := by
  induction lines generalizing skip offset with
  | nil =>
    rw [parseBody, BodyLine.place]
    by_cases before : start - offset ≤ skip.length
    · have none' : ascii '\n' ∉ skip.drop (start - offset) := fun member =>
        noNewline (List.mem_of_mem_drop member)
      rw [List.drop_append_of_le_length before, parseFrom_skip none']
      rfl
    · rw [List.drop_eq_nil_of_le (by simp [BodyLine.render]; omega)]
      rfl
  | cons l lines ih =>
    by_cases before : start - offset ≤ skip.length
    · have none' : ascii '\n' ∉ skip.drop (start - offset) := fun member =>
        noNewline (List.mem_of_mem_drop member)
      have first : start ≤ offset + skip.length := by omega
      have place : 0 + (skip.drop (start - offset)).length + 1 =
          offset + skip.length - start + 1 := by
        rw [List.length_drop]
        omega
      rw [parseBody, List.drop_append_of_le_length before, parseFrom_skip none', place,
        parseFrom_lines ok stopPos first, BodyLine.place, List.dropWhile_cons,
        if_neg (by simpa using first)]
    · have rest : (skip ++ ascii '\n' :: BodyLine.render (l :: lines)).drop (start - offset) =
          (l.text ++ ascii '\n' :: BodyLine.render lines).drop
            (start - (offset + skip.length + 1)) := by
        have cut : start - offset = (skip ++ [ascii '\n']).length +
            (start - (offset + skip.length + 1)) := by
          rw [List.length_append, List.length_singleton]
          omega
        rw [List.append_cons, cut, ← List.drop_drop, List.drop_left, BodyLine.render,
          List.flatMap_cons, List.append_assoc]
        rfl
      have inside' : offset + skip.length + 1 ≤ start := by omega
      have passed : offset + skip.length < start := by omega
      rw [rest, BodyLine.place, List.dropWhile_cons, if_pos (by simpa using passed)]
      have place : offset + skip.length + l.text.length + 1 =
          offset + skip.length + 1 + l.text.length := by omega
      rw [place]
      exact ih (fun l member => ok l (.tail _ member)) (ok l List.mem_cons_self).1 inside'

variable (out) in
/-- A chunk takes the lines from the first newline in it on, up to a time behind its end. -/
theorem parseBody_drop {lines : List BodyLine} (ok : ∀ l ∈ lines, l.Ok c) {skip : List UInt8}
    (noNewline : ascii '\n' ∉ skip) (stopPos start : Nat) (s : σ) :
    out.parseBody c stopPos s ((skip ++ ascii '\n' :: BodyLine.render lines).drop start) =
      BodyLine.sendAll out ((BodyLine.untilTime (start + stopPos + 1)
        ((BodyLine.place skip.length lines).dropWhile fun l => l.1 < start)).map Prod.snd) s := by
  have all := parseBody_drop' out ok noNewline stopPos (Nat.zero_le start) s
  rw [Nat.sub_zero, Nat.zero_add] at all
  rw [all, BodyLine.sendAll, List.foldlM_map]

end ParseBodyOutput

end RWave.Wellen
