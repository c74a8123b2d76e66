import RWave.Ascii
import RWave.Condition

/-!
# The key of a target

`dedup_key` is the text of a target with a mark for numbers. A text begins as its base is written,
so of two targets that the parser makes, one text and one mark mean one target.
-/

namespace RWave.Condition

/-- The number a text denotes, by the way it begins. -/
def numberOf (raw : String) : Option BigUint :=
  match Str.stripPrefix "0x" raw with
  | some body => BigUint.fromHex body
  | none =>
    match Str.stripPrefix "b" raw with
    | some body => BigUint.fromBinary body
    | none => BigUint.fromDecimal raw

/-- The number of a target is that of its text. -/
def Target.Spelled (target : Target) : Prop := ∀ n, target.int = some n → numberOf target.raw = some n

theorem numberOf_binary (body : String) : numberOf ("b" ++ body) = BigUint.fromBinary body := by
  have hex : Str.stripPrefix "0x" ("b" ++ body) = none := by
    simp [Str.stripPrefix, Str.startsWith]
  rw [numberOf, hex]
  dsimp only
  rw [Str.stripPrefix_append]

theorem parseBinaryBody_spelled {body text : String} {target : Target}
    (parsed : parseBinaryBody body text = .ok target) : target.Spelled := by
  rw [parseBinaryBody] at parsed
  split at parsed
  · cases parsed
  split at parsed
  · cases parsed
  split at parsed
  · rename_i n read
    cases parsed
    intro m number
    rw [numberOf_binary, read]
    exact number
  · split at parsed
    · cases parsed
      intro m number
      cases number
    · cases parsed

theorem parseBareTarget_spelled {raw text : String} {target : Target}
    (hex : Str.stripPrefix "0x" raw = none) (binary : Str.stripPrefix "b" raw = none)
    (parsed : parseBareTarget raw text = .ok target) : target.Spelled := by
  rw [parseBareTarget] at parsed
  split at parsed
  · split at parsed
    · cases parsed
    · cases parsed
      intro n number
      rw [numberOf, hex]
      dsimp only
      rw [binary]
      exact number
  · split at parsed
    · cases parsed
    · split at parsed
      · cases parsed
        intro n number
        cases number
      · split at parsed <;> cases parsed

theorem parseTargetValue_spelled {host : Host} {text : String} {target : Target}
    (parsed : parseTargetValue host text = .ok target) : target.Spelled := by
  rw [parseTargetValue] at parsed
  split at parsed
  · cases parsed
  split at parsed
  · cases parsed
  split at parsed
  · cases parsed
  split at parsed
  · rename_i body hex
    split at parsed
    · cases parsed
    split at parsed
    · cases parsed
    split at parsed
    · rename_i n read
      cases parsed
      intro m number
      rw [numberOf, hex]
      exact read.trans number
    · cases parsed
  · rename_i hex
    split at parsed
    · exact parseBinaryBody_spelled parsed
    · split at parsed
      · exact parseBinaryBody_spelled parsed
      · rename_i binary
        split at parsed
        · cases parsed
        · exact parseBareTarget_spelled hex binary parsed

theorem toString_bool_inj {a b : Bool} {s t : String}
    (same : s ++ ":" ++ toString a = t ++ ":" ++ toString b) : s = t ∧ a = b := by
  have yes : (toString true).toList = "true".toList := rfl
  have no : (toString false).toList = "false".toList := rfl
  have chars := congrArg (fun s => s.toList.reverse) same
  cases a <;> cases b <;> simp [yes, no] at chars
  · exact ⟨String.toList_inj.mp chars, rfl⟩
  · exact ⟨String.toList_inj.mp chars, rfl⟩

/-- Of the targets the parser makes, each has a key of its own. -/
theorem dedupKey_inj {host host' : Host} {text text' : String} {target target' : Target}
    (parsed : parseTargetValue host text = .ok target)
    (parsed' : parseTargetValue host' text' = .ok target')
    (same : target.dedupKey = target'.dedupKey) : target = target' := by
  obtain ⟨raw, number⟩ := target
  obtain ⟨raw', number'⟩ := target'
  have spelled := parseTargetValue_spelled parsed
  have spelled' := parseTargetValue_spelled parsed'
  obtain ⟨rfl, kind⟩ := toString_bool_inj same
  cases number with
  | none =>
    cases number' with
    | none => rfl
    | some n' => cases kind
  | some n =>
    cases number' with
    | none => cases kind
    | some n' =>
      have read : numberOf raw = some n := spelled n rfl
      have read' : numberOf raw = some n' := spelled' n' rfl
      rw [Option.some.inj (read.symm.trans read')]

end RWave.Condition
