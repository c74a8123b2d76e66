import Mathlib

/-!
# Globs

A pattern over an alphabet is a list of items, each a character, a hole for one character or a
hole for any span. It fits a text that can be cut into consecutive pieces, one for each item.
-/

namespace RWave.Misc

variable {α : Type}

/-- An item of a pattern. -/
inductive GlobItem (α : Type) where
  | span
  | one
  | char (c : α)
  deriving DecidableEq, Repr

/-- The pieces of a text that an item stands for. -/
def GlobItem.Accepts : GlobItem α → List α → Prop
  | span, _ => True
  | one, piece => piece.length = 1
  | char c, piece => piece = [c]

/-- The text is cut into pieces that the items of the pattern accept one by one. -/
def Fits (pattern : List (GlobItem α)) (text : List α) : Prop :=
  ∃ pieces, List.Forall₂ GlobItem.Accepts pattern pieces ∧ pieces.flatten = text

namespace Fits

variable {item : GlobItem α} {pattern pattern' : List (GlobItem α)} {text : List α}

@[simp] theorem nil_iff : Fits ([] : List (GlobItem α)) text ↔ text = [] := by
  constructor
  · intro ⟨pieces, accepted, cut⟩
    cases accepted
    exact cut.symm
  · intro empty
    exact ⟨[], List.Forall₂.nil, empty.symm⟩

theorem cons_iff :
    Fits (item :: pattern) text ↔
      ∃ piece rest, text = piece ++ rest ∧ item.Accepts piece ∧ Fits pattern rest := by
  constructor
  · intro ⟨pieces, accepted, cut⟩
    cases accepted with
    | cons first others => exact ⟨_, _, cut.symm, first, _, others, rfl⟩
  · intro ⟨piece, rest, cut, first, pieces, others, cutRest⟩
    refine ⟨piece :: pieces, List.Forall₂.cons first others, ?_⟩
    rw [List.flatten_cons, cutRest, cut]

/-- Items of a pattern may be exchanged for others that the rest of it cannot tell apart. -/
theorem cons_congr (same : ∀ text, Fits pattern text ↔ Fits pattern' text) :
    Fits (item :: pattern) text ↔ Fits (item :: pattern') text := by
  simp only [cons_iff, same]

/-- A span takes any number of characters, none included. -/
theorem span_iff : Fits (.span :: pattern) text ↔ ∃ rest, rest <:+ text ∧ Fits pattern rest := by
  rw [cons_iff]
  constructor
  · intro ⟨piece, rest, cut, _, fits⟩
    exact ⟨rest, ⟨piece, cut.symm⟩, fits⟩
  · intro ⟨rest, ⟨piece, cut⟩, fits⟩
    exact ⟨piece, rest, cut.symm, trivial, fits⟩

theorem one_iff : Fits (.one :: pattern) text ↔ ∃ c rest, text = c :: rest ∧ Fits pattern rest := by
  rw [cons_iff]
  constructor
  · intro ⟨piece, rest, cut, single, fits⟩
    obtain ⟨c, rfl⟩ := List.length_eq_one_iff.mp single
    exact ⟨c, rest, cut, fits⟩
  · intro ⟨c, rest, cut, fits⟩
    exact ⟨[c], rest, cut, rfl, fits⟩

/-- A run of characters is consumed at once. -/
theorem chars_append_iff (run : List α) :
    Fits (run.map .char ++ pattern) text ↔ ∃ rest, text = run ++ rest ∧ Fits pattern rest := by
  induction run generalizing text with
  | nil => simp
  | cons c run ih =>
    rw [List.map_cons, List.cons_append, cons_iff]
    constructor
    · intro ⟨piece, _, cut, single, fits⟩
      obtain ⟨rest, cutRest, fits⟩ := ih.mp fits
      exact ⟨rest, by rw [cut, cutRest, show piece = [c] from single]; rfl, fits⟩
    · intro ⟨rest, cut, fits⟩
      exact ⟨[c], run ++ rest, cut, rfl, ih.mpr ⟨rest, rfl, fits⟩⟩

/-- A pattern of characters only fits itself. -/
theorem chars_iff (run : List α) : Fits (run.map .char) text ↔ text = run := by
  have behind := @chars_append_iff α [] text run
  simpa using behind

/-- Two spans in a row are one. -/
theorem span_span_iff : Fits (.span :: .span :: pattern) text ↔ Fits (.span :: pattern) text := by
  simp only [span_iff]
  constructor
  · intro ⟨_, suffix, rest, suffix', fits⟩
    exact ⟨rest, suffix'.trans suffix, fits⟩
  · intro ⟨rest, suffix, fits⟩
    exact ⟨rest, suffix, rest, List.suffix_refl rest, fits⟩

/-- A run of characters between two spans is found anywhere. -/
theorem infix_iff (run : List α) :
    Fits (.span :: (run.map .char ++ [.span])) text ↔ run <:+: text := by
  rw [span_iff]
  constructor
  · intro ⟨_, ⟨before, cut⟩, fits⟩
    obtain ⟨after, cutAfter, _⟩ := (chars_append_iff run).mp fits
    exact ⟨before, after, by rw [← cut, cutAfter, List.append_assoc]⟩
  · intro ⟨before, after, cut⟩
    refine ⟨run ++ after, ⟨before, by rw [← cut, List.append_assoc]⟩, ?_⟩
    exact (chars_append_iff run).mpr ⟨after, rfl, span_iff.mpr ⟨[], List.nil_suffix, nil_iff.mpr rfl⟩⟩

end Fits

end RWave.Misc
