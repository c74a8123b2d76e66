import RWave.Ascii
import RWave.Select
import RWave.Str.Pattern

/-!
# The leaf of a path

`leaf_of` cuts a path at a byte offset, the length of the scope, and looks at the one byte there.
A separator byte is always a character of its own, so the cut never falls into one
(`leafOf_suffix`). Nothing compares what stands in front of it with the scope, so a scope that is
not in front of the path may still cut it (`leafOf_cut`).
-/

namespace RWave.Str

theorem getFrom_length (before after : List Char) :
    getFrom (before.flatMap String.utf8EncodeChar).length (before ++ after) = some after := by
  induction before with
  | nil => cases after <;> rfl
  | cons c before ih =>
    have wide := c.utf8Size_pos
    rw [List.flatMap_cons, List.length_append, String.length_utf8EncodeChar, List.cons_append,
      getFrom, if_neg (by omega), if_pos (by omega), Nat.add_sub_cancel_left]
    exact ih

/-- A byte in the ASCII range is a character of its own. -/
theorem split_at_byte {cs : List Char} {n : Nat} {b : UInt8} (small : b.toNat < 128)
    (byte : (cs.flatMap String.utf8EncodeChar)[n]? = some b) :
    ∃ before c after, cs = before ++ c :: after ∧
      (before.flatMap String.utf8EncodeChar).length = n ∧ c.toNat = b.toNat := by
  induction cs generalizing n with
  | nil => simp at byte
  | cons c cs ih =>
    rw [List.flatMap_cons] at byte
    by_cases inside : n < (String.utf8EncodeChar c).length
    · rw [List.getElem?_append_left inside] at byte
      have member := List.mem_of_getElem? byte
      have ascii : c.toNat < 128 := by
        by_contra high
        have := high_bytes (Nat.le_of_not_lt high) b member
        omega
      rw [utf8EncodeChar_of_lt ascii, List.length_singleton] at inside
      rw [utf8EncodeChar_of_lt ascii, List.mem_singleton] at member
      refine ⟨[], c, cs, rfl, (Nat.lt_one_iff.mp inside).symm, ?_⟩
      rw [member]
      change c.toNat = c.toNat % 256
      omega
    · have past := Nat.le_of_not_lt inside
      rw [List.getElem?_append_right past] at byte
      obtain ⟨before, d, after, cut, length, same⟩ := ih byte
      refine ⟨c :: before, d, after, by rw [cut]; rfl, ?_, same⟩
      rw [List.flatMap_cons, List.length_append, length]
      omega

end RWave.Str

namespace RWave.Model

open RWave.Filter

/-- The path is the scope, a separator and the leaf. -/
def Splits (path scope leaf : String) : Prop :=
  scope ≠ "" ∧ ∃ sep, isSeparator sep ∧ path = scope ++ String.singleton sep ++ leaf

/-- The byte that `leaf_of` looks at is a separator. -/
def SeparatorAt (path : String) (n : Nat) : Prop :=
  (Str.bytes path)[n]? = some '.'.toUInt8 ∨ (Str.bytes path)[n]? = some '/'.toUInt8

instance (path : String) (n : Nat) : Decidable (SeparatorAt path n) :=
  inferInstanceAs (Decidable (_ ∨ _))

theorem isSeparator_iff {c : Char} : isSeparator c ↔ c = '.' ∨ c = '/' := by
  simp [isSeparator, separators]

theorem isSeparator_ascii {c : Char} (separator : isSeparator c) : c.toNat < 128 := by
  rcases isSeparator_iff.mp separator with rfl | rfl <;> decide

theorem separatorAt_of_cut {path : String} {before after : List Char} {sep : Char}
    (separator : isSeparator sep) (cut : path.toList = before ++ sep :: after) :
    SeparatorAt path (before.flatMap String.utf8EncodeChar).length := by
  have byte : (Str.bytes path)[(before.flatMap String.utf8EncodeChar).length]? =
      some sep.toUInt8 := by
    rw [Str.bytes, cut, List.flatMap_append, List.getElem?_append_right le_rfl, Nat.sub_self,
      List.flatMap_cons, Str.utf8EncodeChar_of_lt (isSeparator_ascii separator)]
    rfl
  rcases isSeparator_iff.mp separator with rfl | rfl
  · exact .inl byte
  · exact .inr byte

/-- A separator byte is a separator of the path. -/
theorem SeparatorAt.cut {path : String} {n : Nat} (here : SeparatorAt path n) :
    ∃ before sep after, path.toList = before ++ sep :: after ∧
      (before.flatMap String.utf8EncodeChar).length = n ∧ isSeparator sep := by
  rcases here with byte | byte
  · obtain ⟨before, sep, after, cut, length, same⟩ := Str.split_at_byte (by decide) byte
    exact ⟨before, sep, after, cut, length, by rw [show sep = '.' from Char.toNat_inj.mp same]; rfl⟩
  · obtain ⟨before, sep, after, cut, length, same⟩ := Str.split_at_byte (by decide) byte
    exact ⟨before, sep, after, cut, length, by rw [show sep = '/' from Char.toNat_inj.mp same]; rfl⟩

/-- Behind a scope that is in front of the path, the separator byte is the next character. -/
theorem SeparatorAt.split_of_front {path scope : String} (here : SeparatorAt path (Str.len scope))
    (front : Str.startsWith scope path) :
    ∃ sep leaf, isSeparator sep ∧ path = scope ++ String.singleton sep ++ leaf := by
  obtain ⟨rest, same⟩ := List.isPrefixOf_iff_prefix.mp front
  have first : SeparatorAt (.ofList rest) 0 := by
    rwa [SeparatorAt, Str.bytes, ← same, List.flatMap_append, Str.len, Str.bytes,
      List.getElem?_append_right le_rfl, Nat.sub_self,
      ← String.toList_ofList (l := rest)] at here
  obtain ⟨before, sep, after, cut, length, separator⟩ := first.cut
  have nothing : before = [] := by
    cases before with
    | nil => rfl
    | cons c before =>
      have wide := c.utf8Size_pos
      rw [List.flatMap_cons, List.length_append, String.length_utf8EncodeChar] at length
      omega
  rw [String.toList_ofList, nothing, List.nil_append] at cut
  refine ⟨sep, .ofList after, separator, String.toList_inj.mp ?_⟩
  rw [← same, cut]
  simp

variable {path scope : String}

theorem leafOf_empty (path : String) : leafOf path "" = path := rfl

/-- Behind a separator byte the rest is the leaf, whatever stands before it. -/
theorem leafOf_cut {before after : List Char} {sep : Char} (filled : scope ≠ "")
    (cut : path.toList = before ++ sep :: after) (separator : isSeparator sep)
    (length : (before.flatMap String.utf8EncodeChar).length = Str.len scope) :
    leafOf path scope = .ofList after := by
  have here := separatorAt_of_cut separator cut
  have wide : Str.len scope + 1 = ((before ++ [sep]).flatMap String.utf8EncodeChar).length := by
    rw [List.flatMap_append, List.length_append, length, List.flatMap_singleton,
      Str.utf8EncodeChar_of_lt (isSeparator_ascii separator), List.length_singleton]
  have rest : Str.getFrom (Str.len scope + 1) path.toList = some after := by
    rw [wide, cut, List.append_cons before sep after, Str.getFrom_length]
  rw [leafOf, Str.isEmpty_eq_false filled, if_neg Bool.false_ne_true, rest]
  rw [length] at here
  rcases here with byte | byte
  · rw [byte]; exact if_pos (.inl rfl)
  · rw [byte]; exact if_pos (.inr rfl)

/-- Without a separator byte there is no cut. -/
theorem leafOf_uncut (absent : ¬ SeparatorAt path (Str.len scope)) : leafOf path scope = path := by
  rw [leafOf]
  split
  · rfl
  · split
    · rename_i leaf b _ byte
      refine if_neg ?_
      rintro (rfl | rfl)
      · exact absent (.inl byte)
      · exact absent (.inr byte)
    · rfl

theorem leafOf_split {sep : Char} (filled : scope ≠ "") (separator : isSeparator sep)
    (leaf : String) : leafOf (scope ++ String.singleton sep ++ leaf) scope = leaf := by
  have cut : (scope ++ String.singleton sep ++ leaf).toList =
      scope.toList ++ sep :: leaf.toList := by simp
  rw [leafOf_cut filled cut separator rfl, String.ofList_toList]

/-- The leaf is a whole number of the path's characters. -/
theorem leafOf_suffix (path scope : String) : (leafOf path scope).toList <:+ path.toList := by
  by_cases empty : scope = ""
  · rw [empty, leafOf_empty]
  · by_cases here : SeparatorAt path (Str.len scope)
    · obtain ⟨before, sep, after, cut, length, separator⟩ := here.cut
      rw [leafOf_cut empty cut separator length, cut, String.toList_ofList]
      exact ⟨before ++ [sep], by simp⟩
    · rw [leafOf_uncut here]

/-- What a leaf is to be: what follows the scope and its separator, and the whole path where the
path is not of that form. -/
structure LeafExact (path scope : String) : Prop where
  split : ∀ leaf, Splits path scope leaf → leafOf path scope = leaf
  whole : (∀ leaf, ¬ Splits path scope leaf) → leafOf path scope = path
  chars : (leafOf path scope).toList <:+ path.toList

/-- The leaf is exact unless a scope that is not in front of the path ends where the path happens
to have a separator. -/
theorem leafExact_iff (path scope : String) :
    LeafExact path scope ↔
      (scope ≠ "" → SeparatorAt path (Str.len scope) → Str.startsWith scope path = true) := by
  constructor
  · intro exactLeaf filled here
    obtain ⟨before, sep, after, cut, length, separator⟩ := here.cut
    by_contra other
    have unsplit : ∀ leaf, ¬ Splits path scope leaf := by
      rintro leaf ⟨-, sep, -, rfl⟩
      apply other
      rw [Str.startsWith, List.isPrefixOf_iff_prefix]
      exact ⟨String.singleton sep ++ leaf |>.toList, by simp⟩
    have whole := exactLeaf.whole unsplit
    rw [leafOf_cut filled cut separator length] at whole
    have := congrArg (fun s => s.toList.length) whole
    simp only [String.toList_ofList, cut, List.length_append, List.length_cons] at this
    omega
  · intro front
    refine ⟨?_, ?_, leafOf_suffix path scope⟩
    · rintro leaf ⟨filled, sep, separator, rfl⟩
      exact leafOf_split filled separator leaf
    · intro unsplit
      by_cases empty : scope = ""
      · rw [empty, leafOf_empty]
      · apply leafOf_uncut
        intro here
        obtain ⟨sep, leaf, separator, same⟩ := here.split_of_front (front empty here)
        exact unsplit leaf ⟨empty, sep, separator, same⟩

/-- A sibling's scope cuts the path: it has the right length. -/
theorem leafOf_sibling :
    leafOf "tb.u_a.req" "tb.u_b" = "req" ∧ ¬ LeafExact "tb.u_a.req" "tb.u_b" := by
  have cut : leafOf "tb.u_a.req" "tb.u_b" = "req" := by decide
  refine ⟨cut, fun exactLeaf => ?_⟩
  have unsplit : ∀ leaf, ¬ Splits "tb.u_a.req" "tb.u_b" leaf := by
    intro leaf split
    obtain ⟨-, sep, -, same⟩ := split
    have fifth := congrArg (fun s => s.toList[5]?) same
    simp at fifth
  have whole := exactLeaf.whole unsplit
  rw [cut] at whole
  exact absurd whole (by decide)

end RWave.Model
