import RWave.Json
import RWave.Misc.JsonText

/-!
# The text of a JSON value

What `to_compact_string` writes is a text of the grammar, and its value is the one that was
written: the characters of every string, every integer, and the order of items and members. No
control character stands in it.
-/

namespace RWave.Json

open RWave.Misc.JsonText

/-- The content of a string. -/
def units (s : String) : List Nat := s.toList.flatMap utf16

mutual

/-- The value of the grammar that a value of the program is. -/
def denote : Json → Value
  | .null => .null
  | .bool b => .bool b
  | .int n => .number n
  | .str s => .string (units s)
  | .array items => .array (denoteItems items)
  | .object members => .object (denoteMembers members)

def denoteItems : List Json → List Value
  | [] => []
  | item :: rest => denote item :: denoteItems rest

def denoteMembers : List (String × Json) → List (List Nat × Value)
  | [] => []
  | (k, v) :: rest => (units k, denote v) :: denoteMembers rest

end

/-! ## Nothing is lost -/

theorem units_injective {s t : String} (same : units s = units t) : s = t :=
  String.toList_inj.mp (flatMap_utf16_inj same)

mutual

theorem denote_injective : ∀ {j j' : Json}, denote j = denote j' → j = j'
  | .null, j', same => by cases j' <;> simp_all [denote]
  | .bool b, j', same => by cases j' <;> simp_all [denote]
  | .int n, j', same => by cases j' <;> simp_all [denote]
  | .str s, j', same => by
    cases j' with
    | str t => rw [units_injective (Value.string.inj same)]
    | _ => cases same
  | .array items, j', same => by
    cases j' with
    | array items' => rw [denoteItems_injective (Value.array.inj same)]
    | _ => cases same
  | .object members, j', same => by
    cases j' with
    | object members' => rw [denoteMembers_injective (Value.object.inj same)]
    | _ => cases same

theorem denoteItems_injective : ∀ {l l' : List Json}, denoteItems l = denoteItems l' → l = l'
  | [], [], _ => rfl
  | item :: rest, item' :: rest', same => by
    have parts := List.cons.inj same
    rw [denote_injective parts.1, denoteItems_injective parts.2]

theorem denoteMembers_injective :
    ∀ {l l' : List (String × Json)}, denoteMembers l = denoteMembers l' → l = l'
  | [], [], _ => rfl
  | (k, v) :: rest, (k', v') :: rest', same => by
    obtain ⟨first, others⟩ := List.cons.inj same
    obtain ⟨name, value⟩ := Prod.mk.inj first
    rw [units_injective name, denote_injective value, denoteMembers_injective others]

end

/-! ## Strings -/

theorem hexValue_digitChar : ∀ d < 16, hexValue (Nat.digitChar d) = some d := by decide

theorem isChar_escape (c : Char) : IsChar (escape c).toList (utf16 c) := by
  unfold escape
  split
  case h_8 quote backslash _ _ _ _ _ =>
    split
    next control =>
      have number : c.toNat = ((0 * 16 + 0) * 16 + c.toNat / 16) * 16 + c.toNat % 16 := by omega
      have unit : utf16 c = [c.toNat] := if_pos (by omega)
      rw [unit, number]
      simp only [String.toList_append, hex4, String.toList_ofList]
      exact .unicode rfl rfl (hexValue_digitChar _ (by omega)) (hexValue_digitChar _ (by omega))
    next printable =>
      rw [String.toList_ofList]
      exact .unescaped (by omega) quote backslash
  -- The characters with an escape of their own.
  all_goals exact .short (by decide)

theorem isChars_escape (cs : List Char) :
    IsChars (cs.flatMap fun c => (escape c).toList) (cs.flatMap utf16) := by
  induction cs with
  | nil => exact .nil
  | cons c cs ih => exact .cons (isChar_escape c) ih

theorem writeString_toList (s : String) :
    (writeString s).toList = '"' :: ((s.toList.flatMap fun c => (escape c).toList) ++ ['"']) := by
  simp [writeString, String.toList_join, List.flatMap_map]

theorem isString_writeString (s : String) : IsString (writeString s).toList (units s) := by
  rw [writeString_toList]
  exact .mk (isChars_escape s.toList)

/-! ## Every value is written as a text of the grammar -/

theorem array_toList (items : List Json) : (toCompactString (.array items)).toList =
    '[' :: ([','].intercalate ((itemTexts items).map String.toList) ++ [']']) := by
  simp [toCompactString, Str.join]

theorem object_toList (members : List (String × Json)) : (toCompactString (.object members)).toList =
    '\x7b' :: ([','].intercalate ((memberTexts members).map String.toList) ++ ['\x7d']) := by
  simp [toCompactString, Str.join]

theorem derives_member (k : String) {v : Json}
    (h : Derives (.value (denote v)) (toCompactString v).toList) :
    Derives (.member (units k) (denote v)) (writeString k ++ ":" ++ toCompactString v).toList := by
  simp only [String.toList_append, List.append_assoc]
  exact .member (isString_writeString k) (.bare ':') h

mutual

theorem derives_text : ∀ j : Json, Derives (.value (denote j)) (toCompactString j).toList
  | .null => .null
  | .bool true => .true
  | .bool false => .false
  | .int n => .number (isNumber_toString n)
  | .str s => .string (isString_writeString s)
  | .array [] => .emptyArray (.bare '[') (.bare ']')
  | .array (item :: rest) => by
    rw [array_toList]
    exact .array (.bare '[') (derives_items (item :: rest) (List.cons_ne_nil _ _)) (.bare ']')
  | .object [] => .emptyObject (.bare '\x7b') (.bare '\x7d')
  | .object (first :: rest) => by
    rw [object_toList]
    exact .object (.bare '\x7b') (derives_members (first :: rest) (List.cons_ne_nil _ _))
      (.bare '\x7d')

theorem derives_items : ∀ items : List Json, items ≠ [] →
    Derives (.values (denoteItems items))
      ([','].intercalate ((itemTexts items).map String.toList))
  | [], nonempty => absurd rfl nonempty
  | [item], _ => by
    rw [itemTexts, itemTexts, List.map_singleton, List.intercalate_singleton]
    exact .lastValue (derives_text item)
  | item :: next :: rest, _ => by
    simp only [itemTexts, List.map_cons, List.intercalate_cons_cons, List.append_assoc]
    exact .moreValues (derives_text item) (.bare ',')
      (derives_items (next :: rest) (List.cons_ne_nil _ _))

theorem derives_members : ∀ members : List (String × Json), members ≠ [] →
    Derives (.members (denoteMembers members))
      ([','].intercalate ((memberTexts members).map String.toList))
  | [], nonempty => absurd rfl nonempty
  | [(k, v)], _ => by
    rw [memberTexts, memberTexts, List.map_singleton, List.intercalate_singleton]
    exact .lastMember (derives_member k (derives_text v))
  | (k, v) :: next :: rest, _ => by
    simp only [memberTexts, List.map_cons, List.intercalate_cons_cons, List.append_assoc]
    exact .moreMembers (derives_member k (derives_text v)) (.bare ',')
      (derives_members (next :: rest) (List.cons_ne_nil _ _))

end

/-- The text of a value is a JSON text, and it has no other value. -/
theorem isText_iff (j : Json) (v : Value) :
    IsText (toCompactString j).toList v ↔ v = denote j := by
  have written : IsText (toCompactString j).toList (denote j) := by
    simpa using @IsText.mk [] _ [] _ (by simp) (derives_text j) (by simp)
  constructor
  · intro text
    exact text.unique written
  · rintro rfl
    exact written

/-! ## No control character is written -/

/-- No character below U+0020. -/
def Printable (s : String) : Prop := ∀ c ∈ s.toList, 0x20 ≤ c.toNat

namespace Printable

theorem append {s t : String} (h : Printable s) (h' : Printable t) : Printable (s ++ t) := by
  intro c member
  rcases List.mem_append.mp (String.toList_append ▸ member) with member | member
  · exact h c member
  · exact h' c member

theorem join {parts : List String} (h : ∀ s ∈ parts, Printable s) : Printable (Str.join "," parts) := by
  induction parts with
  | nil => simp [Str.join, Printable]
  | cons first rest ih =>
    have others := ih fun s member => h s (List.mem_cons_of_mem _ member)
    cases rest with
    | nil => simpa [Str.join] using h first List.mem_cons_self
    | cons next rest =>
      rw [Str.join, String.intercalate_cons_cons]
      exact ((h first List.mem_cons_self).append (by simp [Printable])).append others

theorem digits (n : Nat) : Printable n.repr := by
  intro c member
  rw [Nat.toList_repr] at member
  have digit := Nat.isDigit_of_mem_toDigits (by decide) (by decide) member
  simp only [Char.isDigit, Bool.and_eq_true, decide_eq_true_eq] at digit
  exact Nat.le_trans (by decide) (UInt32.le_iff_toNat_le.mp digit.1)

theorem int (n : Int) : Printable (toString n) := by
  rw [Int.toString_eq_repr, Int.repr_eq_if]
  split
  · exact digits _
  · exact append (by simp [Printable]) (digits _)

theorem escape (c : Char) : Printable (escape c) := by
  have hex : ∀ d < 16, 0x20 ≤ (Nat.digitChar d).toNat := by decide
  unfold Json.escape
  split
  case h_8 =>
    split
    next control =>
      refine append (by simp [Printable]) ?_
      have high := hex (c.toNat / 16) (by omega)
      have low := hex (c.toNat % 16) (by omega)
      simpa [Printable, hex4] using ⟨high, low⟩
    next printable => simpa [Printable] using Nat.not_lt.mp printable
  all_goals simp [Printable]

theorem writeString (s : String) : Printable (writeString s) := by
  refine (append (by simp [Printable]) ?_).append (by simp [Printable])
  intro c member
  simp only [String.toList_join, List.mem_flatMap, List.mem_map] at member
  obtain ⟨_, ⟨d, _, rfl⟩, member⟩ := member
  exact escape d c member

end Printable

mutual

theorem printable_text : ∀ j : Json, Printable (toCompactString j)
  | .null => by simp [Printable, toCompactString]
  | .bool true => by simp [Printable, toCompactString]
  | .bool false => by simp [Printable, toCompactString]
  | .int n => .int n
  | .str s => .writeString s
  | .array items => ((show Printable "[" by simp [Printable]).append (.join (printable_items items))).append
      (by simp [Printable])
  | .object members => ((show Printable "\x7b" by simp [Printable]).append
      (.join (printable_members members))).append (by simp [Printable])

theorem printable_items : ∀ items : List Json, ∀ s ∈ itemTexts items, Printable s
  | [] => by simp [itemTexts]
  | item :: rest => by
    rw [itemTexts]
    intro s member
    rcases List.mem_cons.mp member with rfl | member
    · exact printable_text item
    · exact printable_items rest s member

theorem printable_members : ∀ members : List (String × Json), ∀ s ∈ memberTexts members, Printable s
  | [] => by simp [memberTexts]
  | (k, v) :: rest => by
    rw [memberTexts]
    intro s member
    rcases List.mem_cons.mp member with rfl | member
    · exact ((Printable.writeString k).append (by simp [Printable])).append (printable_text v)
    · exact printable_members rest s member

end

end RWave.Json
