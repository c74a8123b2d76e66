import RWave.Batch
import RWave.Json.Text

/-!
# The lines of a JSON batch

With `--json` every command of a batch answers with one line of its own. The line is the compact
text of a value, which holds no line break whatever the names and values of the waveform are.
-/

namespace RWave.Batch

open RWave.Backend RWave.Model RWave.Misc RWave.Misc.JsonText RWave.Commands RWave.Cli

variable {F : File} (env : Env F) (inv : BatchInvocation)

theorem command_json (json : inv.json = true) {tokens : List String} {w : Wave F} {out : Output}
    (answered : (command env inv tokens).result w = .ok out) : ∃ value, out = .json value := by
  rw [command, Prog.result_bind, Prog.result_lift] at answered
  cases parsed : parseBatchLine tokens inv.file inv.defaults with
  | error msg => simp [parsed] at answered
  | ok args =>
    simp only [parsed, json, if_true, Prog.result_bind, Prog.final_lift] at answered
    cases computed : (compute env args).result w with
    | error msg => simp [computed] at answered
    | ok value =>
      rw [computed] at answered
      exact ⟨value, (Except.ok.inj answered).symm⟩

/-- The entry of a command line of a JSON batch is one line, the text of one value. -/
theorem runLines_lines (json : inv.json = true) (seq : Nat) (w : Wave F)
    (stream : List (Except String String)) :
    ∀ e ∈ (runLines env inv seq w stream).entries, ∃ j : Json, e.lines true = [j.toCompactString] := by
  fun_induction runLines env inv seq w stream with
  | case1 seq w => simp
  | case2 seq w e rest => simp
  | case3 seq w line rest msg failed next ih =>
    simp only [List.mem_cons, forall_eq_or_imp]
    exact ⟨⟨_, rfl⟩, ih⟩
  | case4 seq w line rest tokens label split empty ih => exact ih
  | case5 seq w line rest tokens label split nonempty cmd next ih =>
    simp only [List.mem_cons, forall_eq_or_imp]
    refine ⟨?_, ih⟩
    cases answered : cmd.result w with
    | error msg => exact ⟨_, rfl⟩
    | ok out =>
      obtain ⟨value, rfl⟩ := command_json env inv json answered
      exact ⟨_, rfl⟩

/-- JSON output is lossless and line-framed. The compact text of a value is a JSON text whose value
is that one and no other value's, it holds no character below U+0020, and every command of a JSON
batch is answered with exactly one line, such a text. -/
theorem json_lossless_lines (j : Json) :
    (∀ v, IsText j.toCompactString.toList v ↔ v = j.denote) ∧
    (∀ j' : Json, IsText j.toCompactString.toList j'.denote ↔ j' = j) ∧
    (∀ c ∈ j.toCompactString.toList, 0x20 ≤ c.toNat) ∧
    ∀ (F : File) (env : Env F) (inv : BatchInvocation) (w : Wave F)
      (stream : List (Except String String)), inv.json = true →
      ∀ e ∈ (runBatch env inv w stream).entries, ∃ line, e.lines true = [line] ∧
        (∃ j' : Json, line = j'.toCompactString) ∧ ∀ c ∈ line.toList, 0x20 ≤ c.toNat := by
  refine ⟨j.isText_iff, fun j' => ?_, j.printable_text, ?_⟩
  · rw [j.isText_iff]
    constructor
    · exact Json.denote_injective
    · rintro rfl
      rfl
  · intro F env inv w stream json e member
    obtain ⟨j', line⟩ := runLines_lines env inv json 0 w stream e member
    exact ⟨_, line, ⟨j', rfl⟩, j'.printable_text⟩

end RWave.Batch
