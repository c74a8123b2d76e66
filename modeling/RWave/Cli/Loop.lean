import RWave.Cli
import RWave.Misc.Outcome

/-!
# The token loop

What one token does to the account the loop keeps of a line, and what the loop makes of a whole
line: which part of the account a flag leaves alone, where the command stands, and what an extra
positional after it changes.
-/

namespace RWave.Cli

/-- `VALUE_FLAGS`: the flags that consume the token after them. -/
def valueFlags : List String :=
  ["--limit", "--begin", "--end", "--scope", "--depth", "--filter", "--exclude", "--at",
    "--condition", "--show", "--kdb", "--top", "--of"]

variable {acc acc' : Acc} {tok file : String} {tokens before after : List String}

/-- The loop's account of a stream with one more positional, before all the others. -/
def Acc.insert (acc : Acc) (file : String) : Acc :=
  { acc with positionals := file :: acc.positionals }

theorem switch_insert :
    switch (acc.insert file) tok = (switch acc tok).map fun r => r.map (Acc.insert · file) := by
  fun_cases switch acc tok with
  | case6 => cases h : acc.load <;> simp [switch, Acc.insert, Except.map, h]
  | case7 => cases h : acc.driver <;> simp [switch, Acc.insert, Except.map, h]
  | case8 => simp_all [switch]
  | _ => rfl

theorem valueFlag_insert :
    valueFlag (acc.insert file) tok =
      (valueFlag acc tok).map fun set v => (set v).map (Acc.insert · file) := by
  fun_cases valueFlag acc tok with
  | case1 =>
    refine congrArg some (funext fun v => ?_)
    dsimp only
    cases intValue "--limit" v <;> rfl
  | case5 =>
    refine congrArg some (funext fun v => ?_)
    dsimp only
    cases intValue "--depth" v <;> rfl
  | case14 => simp_all [valueFlag]
  | _ => rfl

theorem otherToken_insert (found : acc.command.isSome) :
    otherToken (acc.insert file) false tok = (otherToken acc false tok).map (Acc.insert · file) := by
  have known : acc.command.isNone = false := by simpa using found
  simp only [otherToken, Acc.insert, known, found, Bool.and_true, Bool.false_eq_true, if_false]
  split_ifs <;> rfl

/-- A flag is neither a command nor a positional. -/
theorem switch_frame (read : switch acc tok = some (.ok acc')) :
    acc'.command = acc.command ∧ acc'.positionals = acc.positionals ∧
      (tok ≠ "--batch" → acc'.batch = acc.batch) := by
  revert read
  fun_cases switch acc tok with
  | case2 =>
    rintro ⟨⟩
    exact ⟨rfl, rfl, absurd rfl⟩
  | case6 | case7 =>
    split
    · rintro ⟨⟩
    · rintro ⟨⟩
      exact ⟨rfl, rfl, fun _ => rfl⟩
  | case8 => rintro ⟨⟩
  | _ =>
    rintro ⟨⟩
    exact ⟨rfl, rfl, fun _ => rfl⟩

theorem valueFlag_frame {set : String → Except String Acc} {v : String}
    (flag : valueFlag acc tok = some set) (read : set v = .ok acc') :
    acc'.command = acc.command ∧ acc'.positionals = acc.positionals ∧ acc'.batch = acc.batch := by
  revert flag
  fun_cases valueFlag acc tok with
  | case1 | case5 =>
    rintro ⟨⟩
    obtain ⟨n, -, new⟩ := Misc.bind_eq_ok.mp read
    cases new
    exact ⟨rfl, rfl, rfl⟩
  | case14 => rintro ⟨⟩
  | _ =>
    rintro ⟨⟩
    cases read
    exact ⟨rfl, rfl, rfl⟩

theorem otherToken_frame (read : otherToken acc false tok = .ok acc') :
    (acc.command.isSome → acc'.command = acc.command) ∧ acc'.batch = acc.batch := by
  revert read
  simp only [otherToken, Bool.false_eq_true, if_false]
  split_ifs with changed long short fresh
  · rintro ⟨⟩
  · rintro ⟨⟩
  · rintro ⟨⟩
  · split
    · rintro ⟨⟩
      exact ⟨fun found => by simp_all, rfl⟩
    · rintro ⟨⟩
  · rintro ⟨⟩
    exact ⟨fun _ => rfl, rfl⟩

/-- Once the command is found, a positional put before the others is carried to the end. -/
theorem accumulate_insert (found : acc.command.isSome) :
    accumulate false (acc.insert file) tokens =
      (accumulate false acc tokens).map (Acc.insert · file) := by
  fun_induction accumulate false acc tokens with
  | case1 acc => rfl
  | case2 acc tok rest r flag ih =>
    rw [accumulate, switch_insert, flag]
    cases r with
    | error e => rfl
    | ok acc' => exact ih acc' ((switch_frame flag).1 ▸ found)
  | case3 acc tok plain set flag =>
    rw [accumulate, switch_insert, valueFlag_insert, plain, flag]
    rfl
  | case4 acc tok plain set flag v rest ih =>
    rw [accumulate, switch_insert, valueFlag_insert, plain, flag]
    cases value : set v with
    | error e => simp [value, Except.map, Except.bind]
    | ok acc' =>
      simpa [value, Except.map, Except.bind] using ih acc' ((valueFlag_frame flag value).1 ▸ found)
  | case5 acc tok rest plain none ih =>
    rw [accumulate, switch_insert, valueFlag_insert, otherToken_insert found, plain, none]
    cases other : otherToken acc false tok with
    | error e => rfl
    | ok acc' => exact ih acc' ((otherToken_frame other).1 found ▸ found)

/-- What every step of the loop keeps holds at its end. -/
theorem accumulate_keeps {P : Acc → Prop}
    (flag : ∀ a a' tok, tok ∈ tokens → P a → switch a tok = some (.ok a') → P a')
    (value : ∀ a a' tok set v, P a → valueFlag a tok = some set → set v = .ok a' → P a')
    (other : ∀ a a' tok, P a → otherToken a false tok = .ok a' → P a')
    (start : P acc) (read : accumulate false acc tokens = .ok acc') : P acc' := by
  fun_induction accumulate false acc tokens with
  | case1 acc =>
    cases read
    exact start
  | case2 acc tok rest r here ih =>
    cases r with
    | error e => cases read
    | ok mid =>
      exact ih mid (fun a a' t later => flag a a' t (.tail _ later))
        (flag acc mid tok List.mem_cons_self start here) read
  | case3 => cases read
  | case4 acc tok plain set here v rest ih =>
    obtain ⟨mid, set, read⟩ := Misc.bind_eq_ok.mp read
    exact ih mid (fun a a' t later => flag a a' t (.tail _ (.tail _ later)))
      (value acc mid tok _ v start here set) read
  | case5 acc tok rest plain none ih =>
    obtain ⟨mid, here, read⟩ := Misc.bind_eq_ok.mp read
    exact ih mid (fun a a' t later => flag a a' t (.tail _ later)) (other acc mid tok start here) read

/-- The flag `--batch` is what makes an invocation a batch one. -/
theorem accumulate_batch (single : "--batch" ∉ tokens)
    (read : accumulate false acc tokens = .ok acc') : acc'.batch = acc.batch := by
  refine accumulate_keeps (P := fun a => a.batch = acc.batch) ?_ ?_ ?_ rfl read
  · intro a a' tok member same flag
    exact ((switch_frame flag).2.2 fun batch => single (batch ▸ member)).trans same
  · intro a a' tok set v same flag read
    exact (valueFlag_frame flag read).2.2.trans same
  · intro a a' tok same read
    exact (otherToken_frame read).2.trans same

/-- The command is found once. -/
theorem accumulate_command {c : Command} (found : acc.command = some c)
    (read : accumulate false acc tokens = .ok acc') : acc'.command = some c := by
  refine accumulate_keeps (P := fun a => a.command = some c) ?_ ?_ ?_ found read
  · intro a a' tok _ same flag
    exact (switch_frame flag).1.trans same
  · intro a a' tok set v same flag read
    exact (valueFlag_frame flag read).1.trans same
  · intro a a' tok same read
    exact ((otherToken_frame read).1 (by rw [same]; rfl)).trans same

/-! ## The command token -/

/-- A token the loop takes for a flag. -/
def isFlag (tok : String) : Bool := Str.startsWith "-" tok && decide (1 < Str.len tok)

/-- The command token, the first that is neither a flag nor a flag's value, with the tokens before
and after it. -/
def splitAtCommand : List String → Option (List String × String × List String)
  | [] => none
  | tok :: rest =>
    if valueFlags.contains tok then
      match rest with
      | [] => none
      | v :: rest =>
        (splitAtCommand rest).map fun (before, command, after) => (tok :: v :: before, command, after)
    else if isFlag tok then
      (splitAtCommand rest).map fun (before, command, after) => (tok :: before, command, after)
    else some ([], tok, rest)

/-- The tokens of the invocation that names the file right after the command. -/
def insertFile (file : String) (tokens : List String) : Option (List String) :=
  (splitAtCommand tokens).map fun (before, command, after) => before ++ command :: file :: after

theorem valueFlag_isSome : (valueFlag acc tok).isSome = valueFlags.contains tok := by
  fun_cases valueFlag acc tok with
  | case14 => simp_all [valueFlags]
  | _ => rfl

theorem exists_valueFlag (acc : Acc) (value : valueFlags.contains tok) :
    ∃ set, valueFlag acc tok = some set :=
  Option.isSome_iff_exists.mp (valueFlag_isSome.trans value)

theorem valueFlag_eq_none (value : ¬ valueFlags.contains tok) : valueFlag acc tok = none := by
  rwa [← Option.not_isSome_iff_eq_none, valueFlag_isSome]

theorem switch_of_valueFlag (value : valueFlags.contains tok) : switch acc tok = none := by
  revert value
  fun_cases switch acc tok with
  | case8 => exact fun _ => rfl
  | _ => intro value; cases value

theorem switch_of_not_isFlag (other : isFlag tok = false) : switch acc tok = none := by
  revert other
  fun_cases switch acc tok with
  | case8 => exact fun _ => rfl
  | _ => intro other; cases other

theorem fromStr_of_isFlag (flag : isFlag tok) : Command.fromStr tok = none := by
  revert flag
  fun_cases Command.fromStr tok with
  | case10 => exact fun _ => rfl
  | _ => intro flag; cases flag

theorem splitAtCommand_eq {command : String}
    (split : splitAtCommand tokens = some (before, command, after)) :
    tokens = before ++ command :: after := by
  fun_induction splitAtCommand tokens generalizing before with
  | case1 => cases split
  | case2 => cases split
  | case3 tok value v rest ih =>
    obtain ⟨⟨b, c, a⟩, split, same⟩ := Option.map_eq_some_iff.mp split
    cases same
    rw [ih split, List.cons_append, List.cons_append]
  | case4 tok rest value flag ih =>
    obtain ⟨⟨b, c, a⟩, split, same⟩ := Option.map_eq_some_iff.mp split
    cases same
    rw [ih split, List.cons_append]
  | case5 =>
    cases split
    rfl

/-- Before the command, a token that is no known flag is the command, or an error. -/
theorem otherToken_fresh (fresh : acc.command = none) :
    (∃ e, otherToken acc false tok = .error e) ∨
      ∃ c, Command.fromStr tok = some c ∧
        otherToken acc false tok = .ok { acc with command := some c } := by
  simp only [otherToken, fresh, Option.isSome_none, Bool.and_false, Bool.false_eq_true, if_false,
    Option.isNone_none, if_true]
  split_ifs with changed long
  · exact .inl ⟨_, rfl⟩
  · exact .inl ⟨_, rfl⟩
  · cases Command.fromStr tok with
    | none => exact .inl ⟨_, rfl⟩
    | some c => exact .inr ⟨c, rfl, rfl⟩

theorem startsWith_of_long (long : Str.startsWith "--" tok) : Str.startsWith "-" tok := by
  obtain ⟨rest, chars⟩ := List.isPrefixOf_iff_prefix.mp long
  exact List.isPrefixOf_iff_prefix.mpr ⟨'-' :: rest, chars⟩

/-- A file name after the command is a positional. -/
theorem accumulate_file (found : acc.command.isSome) (first : acc.positionals = [])
    (name : Str.startsWith "-" file = false) :
    accumulate false acc (file :: tokens) = accumulate false (acc.insert file) tokens := by
  have other : isFlag file = false := by rw [isFlag, name, Bool.false_and]
  have value : valueFlag acc file = none := by
    revert name
    fun_cases valueFlag acc file with
    | case14 => exact fun _ => rfl
    | _ => intro name; cases name
  have known : acc.command.isNone = false := by simpa using found
  have positional : otherToken acc false file = .ok (acc.insert file) := by
    have changed : file ≠ "--changed" := by
      rintro rfl
      cases name
    have short : Str.startsWith "--" file = false :=
      Bool.eq_false_iff.mpr fun long => by simp [startsWith_of_long long] at name
    simp [otherToken, changed, short, name, known, first, Acc.insert]
  rw [accumulate, switch_of_not_isFlag other, value, positional]
  rfl

/-- The file named after the command comes out as the first positional. -/
theorem accumulate_splitAtCommand {command : String} (fresh : acc.command = none)
    (first : acc.positionals = []) (name : Str.startsWith "-" file = false)
    (split : splitAtCommand tokens = some (before, command, after)) :
    accumulate false acc (before ++ command :: file :: after) =
      (accumulate false acc tokens).map (Acc.insert · file) := by
  fun_induction splitAtCommand tokens generalizing acc before with
  | case1 => cases split
  | case2 => cases split
  | case3 tok value v rest ih =>
    obtain ⟨⟨b, c, a⟩, split, same⟩ := Option.map_eq_some_iff.mp split
    cases same
    obtain ⟨set, flag⟩ := exists_valueFlag acc value
    simp only [List.cons_append, accumulate, switch_of_valueFlag value, flag]
    cases read : set v with
    | error e => rfl
    | ok mid =>
      obtain ⟨command, positionals, -⟩ := valueFlag_frame flag read
      exact ih (command.trans fresh) (positionals.trans first) split
  | case4 tok rest value flag ih =>
    obtain ⟨⟨b, c, a⟩, split, same⟩ := Option.map_eq_some_iff.mp split
    cases same
    simp only [List.cons_append, accumulate, valueFlag_eq_none value]
    cases read : switch acc tok with
    | none =>
      rcases otherToken_fresh fresh with ⟨e, error⟩ | ⟨c, command, -⟩
      · rw [error]
        rfl
      · rw [fromStr_of_isFlag flag] at command
        cases command
    | some r =>
      cases r with
      | error e => rfl
      | ok mid =>
        obtain ⟨command, positionals, -⟩ := switch_frame read
        exact ih (command.trans fresh) (positionals.trans first) split
  | case5 tok rest value flag =>
    have plain : switch acc tok = none := switch_of_not_isFlag (by simpa using flag)
    have noValue : valueFlag acc tok = none := valueFlag_eq_none value
    cases split
    rw [List.nil_append, accumulate, accumulate, plain, noValue]
    rcases otherToken_fresh fresh with ⟨e, error⟩ | ⟨c, -, found⟩
    · rw [error]
      rfl
    · have known : { acc with command := some c }.command.isSome := rfl
      rw [found]
      exact (accumulate_file known first name).trans (accumulate_insert known)

/-- The command a line is for. -/
def commandOf (tokens : List String) : Option Command :=
  (splitAtCommand tokens).bind fun (_, command, _) => Command.fromStr command

/-- The loop finds the command that the command token names. -/
theorem accumulate_commandOf (fresh : acc.command = none)
    (read : accumulate false acc tokens = .ok acc') : acc'.command = commandOf tokens := by
  rw [commandOf]
  fun_induction splitAtCommand tokens generalizing acc with
  | case1 =>
    cases read
    exact fresh
  | case2 tok value =>
    obtain ⟨set, flag⟩ := exists_valueFlag acc value
    simp only [accumulate, switch_of_valueFlag value, flag] at read
    cases read
  | case3 tok value v rest ih =>
    obtain ⟨set, flag⟩ := exists_valueFlag acc value
    simp only [accumulate, switch_of_valueFlag value, flag] at read
    obtain ⟨mid, here, read⟩ := Misc.bind_eq_ok.mp read
    rw [ih ((valueFlag_frame flag here).1.trans fresh) read, Option.bind_map]
    rfl
  | case4 tok rest value flag ih =>
    simp only [accumulate, valueFlag_eq_none value] at read
    cases plain : switch acc tok with
    | none =>
      rw [plain] at read
      obtain ⟨mid, here, read⟩ := Misc.bind_eq_ok.mp read
      rcases otherToken_fresh fresh with ⟨e, error⟩ | ⟨c, command, -⟩
      · cases error.symm.trans here
      · cases (fromStr_of_isFlag flag).symm.trans command
    | some r =>
      rw [plain] at read
      obtain ⟨mid, rfl, read⟩ := Misc.bind_eq_ok.mp read
      rw [ih ((switch_frame plain).1.trans fresh) read, Option.bind_map]
      rfl
  | case5 tok rest value flag =>
    have plain : switch acc tok = none := switch_of_not_isFlag (by simpa using flag)
    simp only [accumulate, plain, valueFlag_eq_none value] at read
    obtain ⟨mid, here, read⟩ := Misc.bind_eq_ok.mp read
    rcases otherToken_fresh fresh with ⟨e, error⟩ | ⟨c, command, found⟩
    · cases error.symm.trans here
    · cases found.symm.trans here
      exact (accumulate_command rfl read).trans command.symm

/-- Tokens put at the end of a line are read after the others. -/
theorem accumulate_append {rest : List String} (read : accumulate false acc tokens = .ok acc') :
    accumulate false acc (tokens ++ rest) = accumulate false acc' rest := by
  fun_induction accumulate false acc tokens with
  | case1 acc =>
    cases read
    rfl
  | case2 acc tok tail r flag ih =>
    obtain ⟨mid, rfl, read⟩ := Misc.bind_eq_ok.mp read
    rw [List.cons_append, accumulate, flag]
    exact ih mid read
  | case3 => cases read
  | case4 acc tok plain set flag v tail ih =>
    obtain ⟨mid, here, read⟩ := Misc.bind_eq_ok.mp read
    rw [List.cons_append, List.cons_append, accumulate, plain, flag]
    dsimp only
    rw [here]
    exact ih mid read
  | case5 acc tok tail plain none ih =>
    obtain ⟨mid, here, read⟩ := Misc.bind_eq_ok.mp read
    rw [List.cons_append, accumulate, plain, none, here]
    exact ih mid read

end RWave.Cli
