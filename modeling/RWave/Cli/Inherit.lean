import RWave.Cli.Parse

/-!
# What a line inherits

The options of a `--batch` invocation reach every line, also the lines of commands that do not read
them. Only `--depth` can break such a line, and only `--depth` can leave a line with no way to shed
what it inherits.
-/

namespace RWave.Cli

variable {acc acc' : Acc} {c : Command} {D : Defaults} {file : String} {tokens : List String}

/-- The defaults `resolve_batch` can make of an invocation. -/
def Defaults.Resolved (D : Defaults) : Prop :=
  ∃ acc invocation, resolveBatch acc = .ok (.batch invocation) ∧ invocation.defaults = D

theorem Defaults.Resolved.checked (resolved : D.Resolved) :
    checkLimit D.limit = .ok () ∧ ∀ n, D.depth = some n → 0 < n := by
  obtain ⟨acc, invocation, read, rfl⟩ := resolved
  rw [resolveBatch] at read
  split at read
  · cases read
  · split at read
    · cases read
    · split at read
      · cases read
      · simp only [Misc.check_eq_ok] at read
        obtain ⟨limit, depth, new⟩ := read
        cases new
        refine ⟨limit, fun n given => ?_⟩
        dsimp only at given
        rw [given, checkDefaultDepth] at depth
        split at depth
        · cases depth
        · rename_i positive
          exact not_le.mp positive

/-! ## The options of a command -/

/-- The defaults without the options the command does not read. -/
def Defaults.readBy (D : Defaults) (c : Command) : Defaults :=
  { limit := D.limit
    verbose := D.verbose
    beginAt := if acceptsFlag c "--begin" then D.beginAt else none
    endAt := if acceptsFlag c "--end" then D.endAt else none
    scope := if acceptsFlag c "--scope" then D.scope else none
    depth := if acceptsFlag c "--depth" then D.depth else none
    filter := if acceptsFlag c "--filter" then D.filter else none
    exclude := if acceptsFlag c "--exclude" then D.exclude else none
    exact := acceptsFlag c "--exact" && D.exact
    at_ := if acceptsFlag c "--at" then D.at_ else none
    condition := if acceptsFlag c "--condition" then D.condition else []
    show_ := if acceptsFlag c "--show" then D.show_ else none
    load := if acceptsFlag c "--load" then D.load else none
    control := acceptsFlag c "--control" && D.control
    kdb := if acceptsFlag c "--kdb" then D.kdb else none
    top := if acceptsFlag c "--top" then D.top else none
    of_ := if acceptsFlag c "--of" then D.of_ else none }

/-- The arguments without the options the command does not read. -/
def Args.readBy (a : Args) (c : Command) : Args :=
  { command := a.command
    file := a.file
    json := a.json
    limit := a.limit
    verbose := a.verbose
    beginAt := if acceptsFlag c "--begin" then a.beginAt else none
    endAt := if acceptsFlag c "--end" then a.endAt else none
    scope := if acceptsFlag c "--scope" then a.scope else none
    depth := if acceptsFlag c "--depth" then a.depth else none
    filter := if acceptsFlag c "--filter" then a.filter else none
    exclude := if acceptsFlag c "--exclude" then a.exclude else none
    exact := acceptsFlag c "--exact" && a.exact
    at_ := if acceptsFlag c "--at" then a.at_ else none
    condition := if acceptsFlag c "--condition" then a.condition else []
    show_ := if acceptsFlag c "--show" then a.show_ else none
    target := a.target
    load := acceptsFlag c "--load" && a.load
    control := acceptsFlag c "--control" && a.control
    kdb := if acceptsFlag c "--kdb" then a.kdb else none
    top := if acceptsFlag c "--top" then a.top else none
    of_ := if acceptsFlag c "--of" then a.of_ else none }

/-- What a line of a command reads is merged from what the command reads of the defaults. -/
theorem readBy_merged : (merged c acc file (D.readBy c)).readBy c = (merged c acc file D).readBy c := by
  cases c <;> rfl

/-- For a command that reads `--depth`, the checks are made on options it reads. -/
theorem checked_readBy (depth : acceptsFlag c "--depth") {a : Args} (command : a.command = c) :
    (a.readBy c).Checked ↔ a.Checked := by
  have required : checkRequired c (a.readBy c).at_ (a.readBy c).condition a.target =
      checkRequired c a.at_ a.condition a.target := by
    cases c <;> rfl
  have conflict : checkOfConflict c (a.readBy c).of_ (a.readBy c).scope (a.readBy c).depth a.target =
      checkOfConflict c a.of_ a.scope a.depth a.target := by
    cases c <;> rfl
  have deep : checkDepth c (a.readBy c).depth (a.readBy c).scope = checkDepth c a.depth a.scope := by
    cases c with
    | info | trace => cases depth
    | _ => rfl
  subst command
  constructor
  · intro checked
    exact ⟨required.symm.trans checked.required, conflict.symm.trans checked.conflict, checked.limit,
      deep.symm.trans checked.depth⟩
  · intro checked
    exact ⟨required.trans checked.required, conflict.trans checked.conflict, checked.limit,
      deep.trans checked.depth⟩

theorem acceptsFlag_of_spelled {flag : String} (spelled : acc.Spelled c)
    (here : flag ∈ givenFlags acc) : acceptsFlag c flag := by
  have flags := spelled.flags
  rw [checkCommandFlags] at flags
  split at flags
  · cases flags
  · rename_i none
    simpa using List.find?_eq_none.mp none flag here

theorem not_given_of_unread {flag : String} (spelled : acc.Spelled c)
    (unread : acceptsFlag c flag = false) : flag ∉ givenFlags acc := by
  intro here
  cases (acceptsFlag_of_spelled spelled here).symm.trans unread

/-- A command reads both `--scope` and `--depth` or neither. -/
theorem acceptsFlag_scope (c : Command) : acceptsFlag c "--scope" = acceptsFlag c "--depth" := by
  cases c <;> rfl

/-- A line of a command that reads no `--depth` gives neither that nor a scope. -/
theorem scope_eq_none (spelled : acc.Spelled c) (unread : acceptsFlag c "--depth" = false) :
    acc.scope = none ∧ acc.depth = none := by
  have scope := not_given_of_unread spelled ((acceptsFlag_scope c).trans unread)
  have depth := not_given_of_unread spelled unread
  constructor
  · simpa [givenFlags] using scope
  · simpa [givenFlags] using depth

/-! ## Lines a default breaks -/

/-- The tokens of a line are all right: they are read, belong to the command, and give it the target
it needs and no negative limit. -/
def LineStands (c : Command) (tokens : List String) : Prop :=
  ∃ acc, accumulate false {} tokens = .ok acc ∧ acc.Spelled c ∧
    checkRequired c acc.at_ acc.condition acc.positionals.head? = .ok () ∧ checkLimit acc.limit = .ok ()

theorem checkLimit_or {line limit : Option Int} (sound : checkLimit limit = .ok ()) :
    checkLimit (line.or limit) = .ok () ↔ checkLimit line = .ok () := by
  cases line with
  | none => exact iff_of_true sound rfl
  | some n => rfl

theorem checkDepth_eq_ok {depth : Option Int} {scope : Option String} :
    checkDepth c depth scope = .ok () ↔ ∀ n, depth = some n → 0 < n ∧ (c = .tree ∨ given scope) := by
  cases depth with
  | none => exact iff_of_true rfl (by simp)
  | some n =>
    simp only [Option.some.injEq, forall_eq']
    rw [checkDepth]
    split_ifs with low tree unscoped <;> simp_all

theorem checkDepth_unread {depth : Option Int} {scope : Option String}
    (unread : acceptsFlag c "--depth" = false) (positive : ∀ n, depth = some n → 0 < n) :
    checkDepth c depth scope = .ok () ↔ depth = none ∨ given scope := by
  have notTree : c ≠ .tree := by
    rintro rfl
    cases unread
  rw [checkDepth_eq_ok]
  cases depth with
  | none => simp
  | some n => simp [positive n rfl, notTree]

theorem parseBatchLine_of_command (command : commandOf tokens = some c) {a : Args} :
    parseBatchLine tokens file D = .ok a ↔
      ∃ acc, accumulate false {} tokens = .ok acc ∧ acc.Spelled c ∧
        (merged c acc file D).Checked ∧ a = merged c acc file D := by
  rw [parseBatchLine_eq_ok]
  refine exists_congr fun acc => ?_
  constructor
  · rintro ⟨c', read, spelled, rest⟩
    cases spelled.found.symm.trans ((accumulate_commandOf rfl read).trans command)
    exact ⟨read, spelled, rest⟩
  · exact fun line => ⟨c, line⟩

/-- A command that reads no `--depth` accepts a line all right in itself, unless it inherits a depth
without a scope. -/
theorem parseBatchLine_unread (unread : acceptsFlag c "--depth" = false)
    (limit : checkLimit D.limit = .ok ()) (positive : ∀ n, D.depth = some n → 0 < n)
    (command : commandOf tokens = some c) :
    (∃ a, parseBatchLine tokens file D = .ok a) ↔
      LineStands c tokens ∧ (D.depth = none ∨ given D.scope) := by
  have required (a : Args) (at_ : Option String) (condition : List String) :
      checkRequired c a.at_ a.condition a.target = checkRequired c at_ condition a.target := by
    cases c with
    | info | trace => rfl
    | _ => cases unread
  have conflict (a : Args) : checkOfConflict c a.of_ a.scope a.depth a.target = .ok () := by
    cases c with
    | info | trace => rfl
    | _ => cases unread
  have inherited (acc : Acc) (spelled : acc.Spelled c) :
      (merged c acc file D).depth = D.depth ∧ (merged c acc file D).scope = D.scope := by
    obtain ⟨scope, depth⟩ := scope_eq_none spelled unread
    simp [merged, mergedDepth, scope, depth]
  simp only [parseBatchLine_of_command command]
  constructor
  · rintro ⟨a, acc, read, spelled, checked, -⟩
    obtain ⟨depth, scope⟩ := inherited acc spelled
    refine ⟨⟨acc, read, spelled, ?_, (checkLimit_or limit).mp checked.limit⟩, ?_⟩
    · exact (required (merged c acc file D) _ _).symm.trans checked.required
    · rw [← checkDepth_unread unread positive, ← depth, ← scope]
      exact checked.depth
  · rintro ⟨⟨acc, read, spelled, needed, bound⟩, paired⟩
    obtain ⟨depth, scope⟩ := inherited acc spelled
    refine ⟨_, acc, read, spelled, ⟨?_, conflict _, (checkLimit_or limit).mpr bound, ?_⟩, rfl⟩
    · exact (required (merged c acc file D) _ _).trans needed
    · rw [depth, scope]
      exact (checkDepth_unread unread positive).mpr paired

/-- A default breaks no line whose command does not read it: exactly when the command reads
`--depth`, or there is no session-wide depth, or it comes with a scope, or the line is faulty
itself. -/
theorem parseBatchLine_readBy (resolved : D.Resolved) (command : commandOf tokens = some c) :
    (((∃ a, parseBatchLine tokens file D = .ok a) ↔
        ∃ a, parseBatchLine tokens file (D.readBy c) = .ok a) ∧
      ∀ a a', parseBatchLine tokens file D = .ok a →
        parseBatchLine tokens file (D.readBy c) = .ok a' → a.readBy c = a'.readBy c) ↔
      acceptsFlag c "--depth" ∨ D.depth = none ∨ given D.scope ∨ ¬ LineStands c tokens := by
  have agree (a a' : Args) (line : parseBatchLine tokens file D = .ok a)
      (line' : parseBatchLine tokens file (D.readBy c) = .ok a') : a.readBy c = a'.readBy c := by
    obtain ⟨acc, read, -, -, rfl⟩ := (parseBatchLine_of_command command).mp line
    obtain ⟨acc', read', -, -, rfl⟩ := (parseBatchLine_of_command command).mp line'
    cases read.symm.trans read'
    exact readBy_merged.symm
  obtain ⟨limit, positive⟩ := resolved.checked
  rw [and_iff_left agree]
  by_cases depth : acceptsFlag c "--depth" = true
  · refine iff_of_true ?_ (.inl depth)
    have same (acc : Acc) : (merged c acc file D).Checked ↔ (merged c acc file (D.readBy c)).Checked := by
      rw [← checked_readBy depth rfl, ← readBy_merged, checked_readBy depth rfl]
    simp only [parseBatchLine_of_command command, same]
    constructor
    · rintro ⟨-, acc, read, spelled, checked, -⟩
      exact ⟨_, acc, read, spelled, checked, rfl⟩
    · rintro ⟨-, acc, read, spelled, checked, -⟩
      exact ⟨_, acc, read, spelled, checked, rfl⟩
  · have unread := Bool.eq_false_iff.mpr depth
    have noDepth : (D.readBy c).depth = none := if_neg depth
    have none : ∀ n, (D.readBy c).depth = some n → 0 < n := by simp [noDepth]
    have same : checkLimit (D.readBy c).limit = .ok () := limit
    rw [parseBatchLine_unread unread limit positive command,
      parseBatchLine_unread unread same none command]
    by_cases stands : LineStands c tokens <;> simp [stands, noDepth, unread]

/-- Under a session-wide depth with its scope, a line of `info` stands. -/
theorem parseBatchLine_readBy_info :
    ∃ a, parseBatchLine ["info"] "x.vcd" { Defaults.empty with scope := some "u_tx", depth := some 3 } =
      .ok a := by
  have resolved : Defaults.Resolved { Defaults.empty with scope := some "u_tx", depth := some 3 } :=
    ⟨{ batch := true, scope := some "u_tx", depth := some 3, positionals := ["x.vcd"] }, _, rfl, rfl⟩
  have command : commandOf ["info"] = some .info := by decide
  have paired : given (some "u_tx") := by decide
  exact ((parseBatchLine_readBy resolved command).mpr (.inr (.inr (.inl paired)))).1.mpr ⟨_, rfl⟩

/-- Under a session-wide depth alone, a line of `info` is refused for a flag it does not read. -/
theorem parseBatchLine_readBy_depth :
    parse ["--batch", "--depth", "3", "x.vcd"] =
      .batch ⟨"x.vcd", false, { Defaults.empty with depth := some 3 }⟩ ∧
    parseBatchLine ["info"] "x.vcd" { Defaults.empty with depth := some 3 } =
      .error "--depth requires --scope (depth is counted from the scope root)" ∧
    parseBatchLine ["info"] "x.vcd" ({ Defaults.empty with depth := some 3 }.readBy .info) =
      .ok (merged .info {} "x.vcd" .empty) := by
  decide

/-! ## Ways out -/

/-- Flags with blank values to put at the end of a line: the command reads them, and the line does
not give them. -/
def Blanks (c : Command) (acc : Acc) (extras : List (String × String)) : Prop :=
  ∀ e ∈ extras, e.1 ∈ valueFlags ∧ acceptsFlag c e.1 ∧ e.1 ∉ givenFlags acc ∧
    Str.isEmpty (Str.trim e.2)

/-- The flags as tokens, each with its value. -/
def spell (extras : List (String × String)) : List String := extras.flatMap fun e => [e.1, e.2]

theorem isWhitespace_of_blank {s : String} (blank : Str.isEmpty (Str.trim s)) :
    ∀ c ∈ s.toList, Str.isWhitespace c := by
  simp only [Str.isEmpty, Str.trim, Str.trimMatches, Str.trimEndMatches, Str.trimStartMatches,
    String.toList_ofList, List.isEmpty_iff, List.reverse_eq_nil_iff, List.dropWhile_eq_nil_iff,
    List.mem_reverse] at blank
  intro c member
  cases rest : s.toList.dropWhile Str.isWhitespace with
  | nil => exact List.dropWhile_eq_nil_iff.mp rest c member
  | cons d tail =>
    have first := List.head?_dropWhile_not Str.isWhitespace s.toList
    rw [rest] at first blank
    simp [blank d List.mem_cons_self] at first

/-- A blank text is no number. -/
theorem intValue_of_blank {flag v : String} (blank : Str.isEmpty (Str.trim v)) (n : Int) :
    intValue flag v ≠ .ok n := by
  have space := isWhitespace_of_blank blank
  have none : Str.parseI64 v = none := by
    rw [Str.parseI64]
    cases chars : v.toList with
    | nil => rfl
    | cons c rest =>
      have white : Str.isWhitespace c := space c (chars ▸ List.mem_cons_self)
      have minus : c ≠ '-' := by
        rintro rfl
        cases white
      have plus : c ≠ '+' := by
        rintro rfl
        cases white
      have digit : c.isDigit = false := by
        rw [← Bool.not_eq_true]
        intro digit
        simp [Str.isWhitespace, Char.isDigit, UInt32.le_iff_toNat_le] at white digit
        omega
      simp [minus, plus, digit]
  rw [intValue, none]
  simp

/-- A blank value sets no depth, and each flag sets its own option only. -/
theorem blank_frame {flag v : String} {set : String → Except String Acc}
    (here : valueFlag acc flag = some set) (read : set v = .ok acc')
    (blank : Str.isEmpty (Str.trim v)) :
    acc'.depth = acc.depth ∧ (flag ≠ "--scope" → acc'.scope = acc.scope) ∧
      (flag ≠ "--of" → acc'.of_ = acc.of_) := by
  revert here
  fun_cases valueFlag acc flag with
  | case1 =>
    rintro ⟨⟩
    obtain ⟨n, number, -⟩ := Misc.bind_eq_ok.mp read
    exact absurd number (intValue_of_blank blank n)
  | case4 =>
    rintro ⟨⟩
    cases read
    exact ⟨rfl, absurd rfl, fun _ => rfl⟩
  | case5 =>
    rintro ⟨⟩
    obtain ⟨n, number, -⟩ := Misc.bind_eq_ok.mp read
    exact absurd number (intValue_of_blank blank n)
  | case13 =>
    rintro ⟨⟩
    cases read
    exact ⟨rfl, fun _ => rfl, absurd rfl⟩
  | case14 => rintro ⟨⟩
  | _ =>
    rintro ⟨⟩
    cases read
    exact ⟨rfl, fun _ => rfl, fun _ => rfl⟩

/-- Blank values leave the depth of a line, and what other flags would set. -/
theorem spell_frame {extras : List (String × String)}
    (blank : ∀ e ∈ extras, e.1 ∈ valueFlags ∧ Str.isEmpty (Str.trim e.2))
    (read : accumulate false acc (spell extras) = .ok acc') :
    acc'.command = acc.command ∧ acc'.depth = acc.depth ∧
      ((∀ e ∈ extras, e.1 ≠ "--scope") → acc'.scope = acc.scope) ∧
      ((∀ e ∈ extras, e.1 ≠ "--of") → acc'.of_ = acc.of_) := by
  induction extras generalizing acc with
  | nil =>
    cases read
    exact ⟨rfl, rfl, fun _ => rfl, fun _ => rfl⟩
  | cons e rest ih =>
    obtain ⟨⟨listed, empty⟩, later⟩ := List.forall_mem_cons.mp blank
    have value : valueFlags.contains e.1 := List.contains_iff_mem.mpr listed
    obtain ⟨set, flag⟩ := exists_valueFlag acc value
    rw [spell, List.flatMap_cons, List.cons_append, List.cons_append, accumulate,
      switch_of_valueFlag value, flag] at read
    obtain ⟨mid, here, read⟩ := Misc.bind_eq_ok.mp read
    obtain ⟨depth, scope, of_⟩ := blank_frame flag here empty
    obtain ⟨command', depth', scope', of_'⟩ := ih later read
    refine ⟨command'.trans (valueFlag_frame flag here).1, depth'.trans depth, fun others => ?_,
      fun others => ?_⟩
    · obtain ⟨this, others⟩ := List.forall_mem_cons.mp others
      exact (scope' others).trans (scope this)
    · obtain ⟨this, others⟩ := List.forall_mem_cons.mp others
      exact (of_' others).trans (of_ this)

/-- The blank flags that take a line out of what it inherits. -/
def shedFlags (c : Command) (acc : Acc) : List (String × String) :=
  (if acceptsFlag c "--scope" ∧ acc.scope = none then [("--scope", "")] else []) ++
    if acceptsFlag c "--of" ∧ acc.of_ = none then [("--of", "")] else []

/-- What the loop makes of the line with those flags. -/
def Acc.shed (acc : Acc) (c : Command) : Acc :=
  { acc with
    scope := if acceptsFlag c "--scope" ∧ acc.scope = none then some "" else acc.scope
    of_ := if acceptsFlag c "--of" ∧ acc.of_ = none then some "" else acc.of_ }

theorem accumulate_shedFlags :
    accumulate false acc (spell (shedFlags c acc)) = .ok (acc.shed c) := by
  rw [shedFlags, Acc.shed]
  split_ifs <;> rfl

theorem blanks_shedFlags : Blanks c acc (shedFlags c acc) := by
  have empty : Str.isEmpty (Str.trim "") := by decide
  have one {flag : String} {p : Prop} [Decidable p] (listed : flag ∈ valueFlags)
      (reads : p → acceptsFlag c flag) (fresh : p → flag ∉ givenFlags acc) :
      ∀ e ∈ if p then [(flag, "")] else [],
        e.1 ∈ valueFlags ∧ acceptsFlag c e.1 ∧ e.1 ∉ givenFlags acc ∧ Str.isEmpty (Str.trim e.2) := by
    intro e member
    split at member
    next here =>
      obtain rfl := List.mem_singleton.mp member
      exact ⟨listed, reads here, fresh here, empty⟩
    next => cases member
  intro e member
  rw [shedFlags, List.mem_append] at member
  rcases member with scope | walk
  · exact one (by simp [valueFlags]) (·.1) (fun here => by simp [givenFlags, here.2]) e scope
  · exact one (by simp [valueFlags]) (·.1) (fun here => by simp [givenFlags, here.2]) e walk

theorem spelled_shed (spelled : acc.Spelled c) : (acc.shed c).Spelled c := by
  refine ⟨spelled.found, spelled.positionals, ?_⟩
  have scope : (acc.shed c).scope.isSome → acc.scope.isSome ∨ acceptsFlag c "--scope" := by
    grind [Acc.shed]
  have walk : (acc.shed c).of_.isSome → acc.of_.isSome ∨ acceptsFlag c "--of" := by
    grind [Acc.shed]
  have all : ∀ flag ∈ givenFlags acc, acceptsFlag c flag := fun flag here =>
    acceptsFlag_of_spelled spelled here
  have shed : ∀ flag ∈ givenFlags (acc.shed c), acceptsFlag c flag := by
    simp only [givenFlags, List.forall_mem_map, List.mem_filter, and_imp, List.forall_mem_cons,
      List.not_mem_nil, false_imp_iff, implies_true, and_true] at all ⊢
    obtain ⟨start, stop, at_, region, depth, filter, exclude, exact_, condition, show_, driver, load,
      control, kdb, top, of_⟩ := all
    exact ⟨start, stop, at_, fun given => (scope given).elim region id, depth, filter, exclude, exact_,
      condition, show_, driver, load, control, kdb, top, fun given => (walk given).elim of_ id⟩
  rw [checkCommandFlags, List.find?_eq_none.mpr (by simpa using shed)]

theorem checkRequired_or {at_ at_' : Option String} {condition condition' : List String}
    {target : Option String} (line : checkRequired c at_ condition target = .ok ()) :
    checkRequired c (at_.or at_') (if condition.isEmpty then condition' else condition) target =
      .ok () := by
  cases c with
  | snapshot | compare =>
    cases at_ with
    | none => cases line
    | some t => rfl
  | search =>
    cases condition with
    | nil => cases line
    | cons clause rest => rfl
  | _ => exact line

/-- A blank option is as good as none, but it is not inherited over. -/
theorem given_shed : given (acc.shed c).scope = given acc.scope ∧ given (acc.shed c).of_ = given acc.of_ := by
  have blank (v : Option String) (p : Prop) [Decidable p] :
      given (if p ∧ v = none then some "" else v) = given v := by
    split
    · rename_i here
      rw [here.2]
      decide
    · rfl
  exact ⟨blank _ _, blank _ _⟩

theorem shed_scope_or (reads : acceptsFlag c "--scope") (scope : Option String) :
    (acc.shed c).scope.or scope = (acc.shed c).scope := by
  simp only [Acc.shed, reads, true_and]
  cases acc.scope <;> rfl

theorem shed_of_or (reads : acceptsFlag c "--of") (of_ : Option String) :
    (acc.shed c).of_.or of_ = (acc.shed c).of_ := by
  simp only [Acc.shed, reads, true_and]
  cases acc.of_ <;> rfl

theorem checkOfConflict_tree {of_ scope target : Option String} {depth : Option Int} :
    checkOfConflict .tree of_ scope depth target = .ok () ↔
      (given of_ → given scope = false ∧ given target = false ∧ depth = none) := by
  rw [checkOfConflict, if_neg (by simp)]
  cases given of_ <;> cases given scope <;> cases given target <;> cases depth <;> simp

/-- A line whose session-wide depth leaves no way out: one of a command that reads neither the depth
nor the scope that is missing, or one that walks up from a signal. -/
def Stuck (c : Command) (acc : Acc) (D : Defaults) : Prop :=
  D.depth.isSome ∧ (acceptsFlag c "--depth" = false ∧ ¬ given D.scope ∨ c = .tree ∧ given acc.of_)

theorem mergedDepth_shed (reads : acceptsFlag c "--scope") (notTree : c ≠ .tree)
    (unscoped : ¬ given acc.scope) (depth : acc.depth = none) :
    mergedDepth c (acc.shed c) D = none := by
  have cleared : ((acc.shed c).scope.any fun s => Str.isEmpty (Str.trim s)) = true := by
    simp only [Acc.shed, reads, true_and]
    cases scope : acc.scope with
    | none => decide
    | some s => simpa [given, scope] using unscoped
  have none : (acc.shed c).depth.isNone = true := by
    rw [Option.isNone_iff_eq_none]
    exact depth
  rw [mergedDepth, cleared, none, if_pos (by simpa using notTree)]

/-- A depth is inherited but for a line that clears the scope. -/
theorem mergedDepth_kept (kept : c = .tree ∨ acc.scope = none ∨ given acc.scope) :
    mergedDepth c acc D = acc.depth.or D.depth := by
  refine if_neg fun cleared => ?_
  simp only [Bool.and_eq_true, bne_iff_ne] at cleared
  rcases kept with tree | none | scope
  · exact cleared.2 tree
  · simp [none] at cleared
  · cases line : acc.scope with
    | none => simp [given, line] at scope
    | some s => simp_all [given]

theorem checked_shed (limit : checkLimit D.limit = .ok ()) (positive : ∀ n, D.depth = some n → 0 < n)
    (spelled : acc.Spelled c) (accepted : (merged c acc file .empty).Checked) (free : ¬ Stuck c acc D) :
    (merged c (acc.shed c) file D).Checked := by
  rw [merged_empty] at accepted
  obtain ⟨required, conflict, bound, depth⟩ := accepted
  dsimp only at required conflict bound depth
  have deep : ∀ n, acc.depth.or D.depth = some n → 0 < n := by
    intro n either
    rcases Option.or_eq_some_iff.mp either with line | ⟨-, inherited⟩
    · exact (checkDepth_eq_ok.mp depth n line).1
    · exact positive n inherited
  refine ⟨checkRequired_or required, ?_, (checkLimit_or limit).mpr bound, ?_⟩
  · by_cases tree : c = .tree
    · subst tree
      have merge : mergedDepth .tree (acc.shed .tree) D = acc.depth.or D.depth :=
        mergedDepth_kept (.inl rfl)
      simp only [merged, merge]
      rw [checkOfConflict_tree] at conflict ⊢
      rw [shed_scope_or rfl, shed_of_or rfl, given_shed.1, given_shed.2]
      intro walks
      obtain ⟨noScope, noTarget, noDepth⟩ := conflict walks
      have inherited : D.depth = none := by
        rw [← Option.not_isSome_iff_eq_none]
        exact fun inherited => free ⟨inherited, .inr ⟨rfl, walks⟩⟩
      exact ⟨noScope, noTarget, by rw [noDepth, inherited]; rfl⟩
    · exact if_pos tree
  · by_cases reads : acceptsFlag c "--depth" = true
    · have scope : acceptsFlag c "--scope" := (acceptsFlag_scope c).trans reads
      simp only [merged]
      rw [checkDepth_eq_ok, shed_scope_or scope, given_shed.1]
      intro n here
      by_cases kept : c = .tree ∨ given acc.scope
      · rw [mergedDepth_kept (kept.imp_right fun line => .inr (by rwa [given_shed.1]))] at here
        exact ⟨deep n here, kept⟩
      · have noDepth : acc.depth = none := by
          rw [← Option.not_isSome_iff_eq_none]
          intro line
          obtain ⟨m, line⟩ := Option.isSome_iff_exists.mp line
          exact kept (checkDepth_eq_ok.mp depth m line).2
        rw [mergedDepth_shed scope (kept ∘ .inl) (kept ∘ .inr) noDepth] at here
        cases here
    · have unread := Bool.eq_false_iff.mpr reads
      have scopeUnread := (acceptsFlag_scope c).trans unread
      obtain ⟨noScope, noDepth⟩ := scope_eq_none spelled unread
      have shed : (acc.shed c).scope = none := by simp [Acc.shed, scopeUnread, noScope]
      have merge : mergedDepth c (acc.shed c) D = D.depth := by
        rw [mergedDepth_kept (.inr (.inl shed)), show (acc.shed c).depth = none from noDepth]
        rfl
      simp only [merged, shed, merge, Option.none_or]
      rw [checkDepth_unread unread positive]
      by_contra stuck
      rw [not_or, ← ne_eq, Option.ne_none_iff_isSome] at stuck
      exact free ⟨stuck.1, .inl ⟨unread, stuck.2⟩⟩

/-- No blank flags take a stuck line out. -/
theorem not_stuck_of_blanks (positive : ∀ n, D.depth = some n → 0 < n)
    (read : accumulate false {} tokens = .ok acc) (command : acc.command = some c)
    (accepted : ∃ a, parseBatchLine tokens file .empty = .ok a) {extras : List (String × String)}
    (blanks : Blanks c acc extras) {a : Args}
    (line : parseBatchLine (tokens ++ spell extras) file D = .ok a) : ¬ Stuck c acc D := by
  rintro ⟨deep, stuck⟩
  obtain ⟨a', alone⟩ := accepted
  obtain ⟨acc', c', read', spelled, checked, -⟩ := parseBatchLine_eq_ok.mp alone
  cases read.symm.trans read'
  cases command.symm.trans spelled.found
  obtain ⟨final, c', readAll, spelled', checked', -⟩ := parseBatchLine_eq_ok.mp line
  rw [accumulate_append read] at readAll
  have blank : ∀ e ∈ extras, e.1 ∈ valueFlags ∧ Str.isEmpty (Str.trim e.2) := fun e member =>
    ⟨(blanks e member).1, (blanks e member).2.2.2⟩
  obtain ⟨command', depth, scope, walk⟩ := spell_frame blank readAll
  cases (command'.trans command).symm.trans spelled'.found
  rcases stuck with ⟨unread, unscoped⟩ | ⟨rfl, walks⟩
  · obtain ⟨noScope, noDepth⟩ := scope_eq_none spelled unread
    have others : ∀ e ∈ extras, e.1 ≠ "--scope" := by
      intro e member same
      have reads := (blanks e member).2.1
      rw [same, acceptsFlag_scope, unread] at reads
      cases reads
    have finalScope : final.scope = none := (scope others).trans noScope
    have inherited := checked'.depth
    simp only [merged, mergedDepth_kept (.inr (.inl finalScope)), finalScope, depth.trans noDepth,
      Option.none_or, checkDepth_unread unread positive] at inherited
    rcases inherited with none | paired
    · rw [none] at deep
      cases deep
    · exact unscoped paired
  · obtain ⟨signal, here⟩ : ∃ signal, acc.of_ = some signal := by
      cases here : acc.of_ with
      | none => simp [given, here] at walks
      | some signal => exact ⟨signal, rfl⟩
    have others : ∀ e ∈ extras, e.1 ≠ "--of" := by
      intro e member same
      apply (blanks e member).2.2.1
      rw [same]
      simp [givenFlags, here]
    have noDepth : acc.depth = none := by
      have conflict := checked.conflict
      simp only [merged_empty, checkOfConflict_tree] at conflict
      exact (conflict walks).2.2
    have inherited := checked'.conflict
    simp only [merged, mergedDepth_kept (.inl rfl), walk others, depth.trans noDepth, here,
      Option.some_or, Option.none_or, checkOfConflict_tree] at inherited
    rw [(inherited (here ▸ walks)).2.2] at deep
    cases deep

/-- A line accepted on its own can be taken out of what it inherits by blank flags put at its end:
unless it is stuck with a session-wide depth. -/
theorem exists_blanks_iff (resolved : D.Resolved) (read : accumulate false {} tokens = .ok acc)
    (command : acc.command = some c) (accepted : ∃ a, parseBatchLine tokens file .empty = .ok a) :
    (∃ extras, Blanks c acc extras ∧ ∃ a, parseBatchLine (tokens ++ spell extras) file D = .ok a) ↔
      ¬ Stuck c acc D := by
  obtain ⟨limit, positive⟩ := resolved.checked
  constructor
  · rintro ⟨extras, blanks, a, line⟩
    exact not_stuck_of_blanks positive read command accepted blanks line
  · intro free
    obtain ⟨a, alone⟩ := accepted
    obtain ⟨acc', c', read', spelled, checked, -⟩ := parseBatchLine_eq_ok.mp alone
    cases read.symm.trans read'
    cases command.symm.trans spelled.found
    refine ⟨shedFlags c acc, blanks_shedFlags, _, parseBatchLine_eq_ok.mpr ⟨acc.shed c, c, ?_,
      spelled_shed spelled, checked_shed limit positive spelled checked free, rfl⟩⟩
    rw [accumulate_append read, accumulate_shedFlags]

/-- Under a session-wide depth, a listing gets the whole file by clearing the scope. -/
theorem exists_blanks_list :
    ∃ extras, Blanks .list { command := some .list } extras ∧
      ∃ a, parseBatchLine (["list"] ++ spell extras) "x.vcd" { Defaults.empty with depth := some 3 } =
        .ok a := by
  have resolved : Defaults.Resolved { Defaults.empty with depth := some 3 } :=
    ⟨{ batch := true, depth := some 3, positionals := ["x.vcd"] }, _, rfl, rfl⟩
  have free : ¬ Stuck .list { command := some .list } { Defaults.empty with depth := some 3 } := by
    rintro ⟨-, ⟨unread, -⟩ | ⟨tree, -⟩⟩
    · cases unread
    · cases tree
  exact (exists_blanks_iff resolved rfl rfl ⟨_, rfl⟩).mpr free

/-- Under a session-wide depth, no blank flag makes a line stand that walks up from a signal. -/
theorem not_exists_blanks_tree :
    parse ["--batch", "--depth", "3", "x.vcd"] =
      .batch ⟨"x.vcd", false, { Defaults.empty with depth := some 3 }⟩ ∧
    (∃ a, parseBatchLine ["tree", "--of", "tb.clk"] "x.vcd" .empty = .ok a) ∧
    ¬ ∃ extras, Blanks .tree { command := some .tree, of_ := some "tb.clk" } extras ∧
      ∃ a, parseBatchLine (["tree", "--of", "tb.clk"] ++ spell extras) "x.vcd"
        { Defaults.empty with depth := some 3 } = .ok a := by
  have alone : ∃ a, parseBatchLine ["tree", "--of", "tb.clk"] "x.vcd" .empty = .ok a := ⟨_, rfl⟩
  refine ⟨by decide, alone, ?_⟩
  rintro ⟨extras, blanks, a, line⟩
  refine not_stuck_of_blanks ?_ rfl rfl alone blanks line ⟨rfl, .inr ⟨rfl, by decide⟩⟩
  rintro n ⟨⟩
  decide

end RWave.Cli
