import RWave.Backend.Basic
import RWave.Backend.NpiRecord

/-!
# Trace dumps

`npi_dump.rs`: the text that Verdi writes for a driver or load query, read line by line into hops.
A header opens a group, a marked line is a statement, and what stands below it are its operands.
Group, scope and pass-through mark start anew with every header. The operands do not: the reader
gives one to the last hop, also when a header has come in between (`parseDump_eq`).
-/

namespace RWave.Backend.NpiDump

open RWave.Str

/-! ## The reader -/

/-- `classify`: control hops have no say. -/
def classify (hops : List Hop) : TraceStatus :=
  let structural := hops.filter fun h => h.kind ≠ .control
  if structural.isEmpty then .notFound
  else if structural.all fun h => h.kind = .port then .boundaryOnly
  else .resolved

/-- `kind_of`. -/
def kindOf : String → HopKind
  | "npiContAssign" => .contAssign
  | "npiAssignment" | "npiAssignStmt" => .procedural
  | "npiPort" | "npiMpPort" | "npiInstPort" => .port
  | "npiIf" | "npiIfElse" | "npiCase" | "npiCaseItem" | "npiWhile" | "npiDoWhile" | "npiRepeat"
  | "npiForever" | "npiFor" | "npiWait" | "npiEventControl" => .control
  | "npiConstant" | "npiEnumConst" | "npiParameter" => .constant
  | _ => .other

/-- `group_header`: number and scope of a well-formed header. -/
def groupHeader (line : String) : Option (Nat × String) := do
  let rest ← stripPrefix "<" line
  let (number, _) ← splitOnce ['>'] rest.toList
  let n ← parseUnsigned 64 (.ofList number)
  let scope :=
    match splitOnce "scope:".toList line.toList with
    | some (_, scope) => trim (.ofList scope)
    | none => ""
  return (n, scope)

/-- A `<` and a digit, well-formed or not. -/
def isHeader (line : String) : Bool :=
  match line.toList with
  | '<' :: c :: _ => c.isDigit
  | _ => false

/-- The lines that say nothing about a hop. -/
def isNote (line : String) : Bool :=
  startsWith "Need pass through" line || startsWith "Do not pass through" line ||
    startsWith "Driver from sub stmts." line || startsWith "Load from sub stmts." line ||
    contains "/* results of trace" line

/-- What follows the marker of a statement. -/
def marked (line : String) : Option String :=
  (stripPrefix "<D>" line).or (stripPrefix "<L>" line)

/-- The signal that an operand line names. A literal is none. -/
def operandName (line : String) : Option String :=
  let (npiType, name, _, _) := parseRecord line
  if startsWith "npi" npiType && !isEmpty name && kindOf npiType != .constant then some name
  else none

/-- Where the loop of `parse_dump` stands. -/
structure DumpState where
  hops : List Hop
  group : Nat
  scope : String
  boundary : Bool

/-- `hops.last_mut()` and `signals.push`. -/
def pushSignal (name : String) : List Hop → List Hop
  | [] => []
  | [h] => [{ h with signals := h.signals ++ [name] }]
  | h :: rest => h :: pushSignal name rest

/-- The hop of a statement record, with the operands known so far. -/
def recordHop (group : Nat) (scope : String) (boundary : Bool) (signals : List String)
    (record : String) : Hop :=
  let (npiType, statement, file, line) := parseRecord record
  { group, kind := kindOf npiType, npiType, statement, scope, file, line, boundary, signals }

/-- One line of `parse_dump`. The group number is a `usize`. -/
def step (st : DumpState) (raw : String) : DumpState :=
  let line := trim raw
  if isEmpty line then st
  else if isHeader line then
    match groupHeader line with
    | some (n, scope) => { st with group := n, scope, boundary := false }
    | none => { st with group := (st.group + 1) % 2 ^ 64, scope := "", boundary := false }
  else if startsWith "pass through." line then { st with boundary := true }
  else if isNote line then st
  else
    match marked line with
    | some rest =>
      { st with
        hops := st.hops ++ [recordHop st.group st.scope st.boundary [] (trimStart rest)] }
    | none =>
      match operandName line with
      | some name => { st with hops := pushSignal name st.hops }
      | none => st

/-- `parse_dump`. -/
def parseDump (text : String) : List Hop :=
  ((lines text).foldl step ⟨[], 0, "", false⟩).hops

/-- What a trace query answers from a dump. -/
def outcomeOf (text : String) : TraceOutcome := ⟨parseDump text, classify (parseDump text)⟩

/-- Control hops do not change the verdict. -/
theorem classify_structural (hops : List Hop) :
    classify (hops.filter fun h => h.kind ≠ .control) = classify hops := by
  simp only [classify, List.filter_filter, Bool.and_self]

/-! ## The lines -/

/-- The five kinds of lines. -/
inductive DumpLine where
  | header (group : Option (Nat × String))
  | passThrough
  | note
  | statement (record : String)
  | operand (name : Option String)
  deriving DecidableEq, Repr

/-- The kind of a line. -/
def DumpLine.of (raw : String) : DumpLine :=
  let line := trim raw
  if isEmpty line then .note
  else if isHeader line then .header (groupHeader line)
  else if startsWith "pass through." line then .passThrough
  else if isNote line then .note
  else
    match marked line with
    | some rest => .statement (trimStart rest)
    | none => .operand (operandName line)

/-- The lines of a dump. -/
def dumpLines (text : String) : List DumpLine := (lines text).map DumpLine.of

/-- A line that does not start a group. -/
def notHeader : DumpLine → Bool
  | .header _ => false
  | _ => true

/-- A line that is no statement. -/
def notStatement : DumpLine → Bool
  | .statement _ => false
  | _ => true

/-- Group and scope in force behind some lines, of which the nearest comes first. A malformed header
has no scope. -/
def groupAt : List DumpLine → Nat × String
  | [] => (0, "")
  | .header (some group) :: _ => group
  | .header none :: earlier => (((groupAt earlier).1 + 1) % 2 ^ 64, "")
  | _ :: earlier => groupAt earlier

/-- Was a pass through announced since the last header? -/
def boundaryAt (earlier : List DumpLine) : Bool :=
  (earlier.takeWhile notHeader).contains .passThrough

/-- The signals that operand lines name. -/
def names (block : List DumpLine) : List String :=
  block.filterMap fun
    | .operand name => name
    | _ => none

/-- A statement among the lines: those in front of it, the nearest first, and those behind it. -/
structure Placed where
  earlier : List DumpLine
  record : String
  later : List DumpLine

/-- The statements among some lines. -/
def statements : List DumpLine → List DumpLine → List Placed
  | _, [] => []
  | earlier, .statement record :: rest =>
    ⟨earlier, record, rest⟩ :: statements (.statement record :: earlier) rest
  | earlier, line :: rest => statements (line :: earlier) rest

/-- The hop of a statement, with the signals of a block of lines. -/
def Placed.hop (p : Placed) (block : List DumpLine) : Hop :=
  let (group, scope) := groupAt p.earlier
  recordHop group scope (boundaryAt p.earlier) (names block) p.record

/-- The lines under a statement: up to the next statement or header. -/
def Placed.ownBlock (p : Placed) : List DumpLine :=
  p.later.takeWhile fun line => notHeader line && notStatement line

/-- The lines up to the next statement. -/
def Placed.readBlock (p : Placed) : List DumpLine := p.later.takeWhile notStatement

/-! ## A run over the lines -/

/-- A step, by the kind of its line. -/
def DumpState.next (st : DumpState) : DumpLine → DumpState
  | .header (some (n, scope)) => { st with group := n, scope, boundary := false }
  | .header none => { st with group := (st.group + 1) % 2 ^ 64, scope := "", boundary := false }
  | .passThrough => { st with boundary := true }
  | .note => st
  | .statement record =>
    { st with hops := st.hops ++ [recordHop st.group st.scope st.boundary [] record] }
  | .operand (some name) => { st with hops := pushSignal name st.hops }
  | .operand none => st

theorem step_eq (st : DumpState) (raw : String) : step st raw = st.next (.of raw) := by
  unfold step DumpLine.of
  dsimp only
  split_ifs
  · rfl
  · cases groupHeader (trim raw) with
    | some g => simp only [DumpState.next]
    | none => simp only [DumpState.next]
  · rfl
  · rfl
  · cases marked (trim raw) with
    | some rest => simp only [DumpState.next]
    | none =>
      cases operandName (trim raw) with
      | some name => simp only [DumpState.next]
      | none => simp only [DumpState.next]

/-- The signals go to the last hop, if there is one. -/
def pushSignals (ns : List String) (hops : List Hop) : List Hop :=
  ns.foldl (fun hops name => pushSignal name hops) hops

theorem pushSignal_concat (name : String) (hops : List Hop) (h : Hop) :
    pushSignal name (hops ++ [h]) = hops ++ [{ h with signals := h.signals ++ [name] }] := by
  induction hops with
  | nil => rfl
  | cons first hops ih =>
    rw [List.cons_append, List.cons_append, ← ih]
    cases hops <;> rfl

theorem pushSignals_concat (ns : List String) (hops : List Hop) (h : Hop) :
    pushSignals ns (hops ++ [h]) = hops ++ [{ h with signals := h.signals ++ ns }] := by
  induction ns generalizing h with
  | nil => simp [pushSignals]
  | cons name ns ih =>
    rw [pushSignals, List.foldl_cons, pushSignal_concat, ← pushSignals, ih, List.append_assoc]
    rfl

theorem pushSignals_nil (ns : List String) : pushSignals ns [] = [] := by
  induction ns with
  | nil => rfl
  | cons name ns ih => exact ih

theorem boundaryAt_cons {line : DumpLine} (inside : notHeader line = true)
    (other : line ≠ .passThrough) (earlier : List DumpLine) :
    boundaryAt (line :: earlier) = boundaryAt earlier := by
  rw [boundaryAt, List.takeWhile_cons, if_pos inside, List.contains_cons,
    beq_false_of_ne other.symm, Bool.false_or]
  rfl

section RecordHop

variable (group : Nat) (scope : String) (boundary : Bool) (ns : List String) (record : String)

theorem signals_recordHop : (recordHop group scope boundary ns record).signals = ns := by
  unfold recordHop
  obtain ⟨npiType, statement, file, line⟩ := parseRecord record
  rfl

theorem recordHop_append :
    { recordHop group scope boundary [] record with
        signals := (recordHop group scope boundary [] record).signals ++ ns } =
      recordHop group scope boundary ns record := by
  unfold recordHop
  obtain ⟨npiType, statement, file, line⟩ := parseRecord record
  rfl

end RecordHop

/-- From any point on, the operands up to the next statement go to the last hop, and each statement
makes a hop with the operands up to the one after it. -/
theorem foldl_next (lines earlier : List DumpLine) (st : DumpState)
    (group : (st.group, st.scope) = groupAt earlier) (boundary : st.boundary = boundaryAt earlier) :
    (lines.foldl DumpState.next st).hops =
      pushSignals (names (lines.takeWhile notStatement)) st.hops ++
        (statements earlier lines).map fun p => p.hop p.readBlock := by
  induction lines generalizing earlier st with
  | nil => simp [names, pushSignals, statements]
  | cons line lines ih =>
    rw [List.foldl_cons]
    cases line with
    | header g =>
      cases g with
      | some g => exact ih (.header (some g) :: earlier) (st.next (.header (some g))) rfl rfl
      | none =>
        refine ih (.header none :: earlier) (st.next (.header none)) ?_ rfl
        rw [groupAt, ← group]
        rfl
    | passThrough => exact ih (.passThrough :: earlier) (st.next .passThrough) group rfl
    | note =>
      have boundary' := boundary.trans (@boundaryAt_cons .note rfl nofun earlier).symm
      exact ih (.note :: earlier) st group boundary'
    | operand name =>
      have boundary' := boundary.trans (@boundaryAt_cons (.operand name) rfl nofun earlier).symm
      cases name with
      | some name =>
        exact ih (.operand (some name) :: earlier) (st.next (.operand (some name))) group boundary'
      | none => exact ih (.operand none :: earlier) st group boundary'
    | statement record =>
      have boundary' :=
        boundary.trans (@boundaryAt_cons (.statement record) rfl nofun earlier).symm
      rw [ih (.statement record :: earlier) (st.next (.statement record)) group boundary']
      have own : pushSignals (names (lines.takeWhile notStatement))
          (st.hops ++ [recordHop st.group st.scope st.boundary [] record]) =
          st.hops ++ [Placed.hop ⟨earlier, record, lines⟩ (lines.takeWhile notStatement)] := by
        rw [pushSignals_concat, recordHop_append, Placed.hop, ← group, ← boundary]
      have noNames : names ((DumpLine.statement record :: lines).takeWhile notStatement) = [] := rfl
      have hops : (st.next (.statement record)).hops =
          st.hops ++ [recordHop st.group st.scope st.boundary [] record] := rfl
      rw [hops, own, noNames, statements, List.map_cons, List.append_assoc, List.singleton_append]
      rfl

/-- The hops are the statements of the dump in order. Each has the group, scope and mark of its
place and the signals of the operands up to the next statement. -/
theorem parseDump_eq (text : String) :
    parseDump text = (statements [] (dumpLines text)).map fun p => p.hop p.readBlock := by
  have kinds : step = fun st raw => st.next (.of raw) := funext₂ step_eq
  rw [parseDump, kinds, ← List.foldl_map, ← dumpLines,
    foldl_next (dumpLines text) [] ⟨[], 0, "", false⟩ rfl rfl, pushSignals_nil, List.nil_append]

/-! ## Attribution -/

/-- Every hop has group, scope and pass-through mark of the last header in front of its statement,
and for signals those of the operand lines under the statement, up to the next statement or
header. -/
def Attributed (text : String) : Prop :=
  parseDump text = (statements [] (dumpLines text)).map fun p => p.hop p.ownBlock

instance (text : String) : Decidable (Attributed text) := inferInstanceAs (Decidable (_ = _))

/-- Behind a statement, a header and an operand line that names a signal always have a statement
between them. -/
def OperandsInGroup (lines : List DumpLine) : Prop :=
  ∀ before group between name after,
    lines = before ++ .header group :: (between ++ .operand (some name) :: after) →
    (∃ record, .statement record ∈ before) → ∃ record, .statement record ∈ between

theorem notStatement_eq_false {line : DumpLine} :
    notStatement line = false ↔ ∃ record, line = .statement record := by
  cases line <;> simp [notStatement]

theorem notHeader_eq_false {line : DumpLine} :
    notHeader line = false ↔ ∃ group, line = .header group := by
  cases line <;> simp [notHeader]

theorem mem_statements_cons {p : Placed} {line : DumpLine} {lines earlier : List DumpLine} :
    p ∈ statements earlier (line :: lines) ↔
      (∃ record, line = .statement record ∧ p = ⟨earlier, record, lines⟩) ∨
        p ∈ statements (line :: earlier) lines := by
  cases line <;> simp [statements]

theorem mem_statements {p : Placed} {lines earlier : List DumpLine} :
    p ∈ statements earlier lines ↔
      ∃ before, p.earlier = before.reverse ++ earlier ∧
        lines = before ++ .statement p.record :: p.later := by
  induction lines generalizing earlier with
  | nil => simp [statements]
  | cons line lines ih =>
    rw [mem_statements_cons, ih]
    constructor
    · rintro (⟨record, rfl, rfl⟩ | ⟨before, front, cut⟩)
      · exact ⟨[], rfl, rfl⟩
      · exact ⟨line :: before, by simp [front], by rw [cut]; rfl⟩
    · rintro ⟨before, front, cut⟩
      cases before with
      | nil =>
        obtain ⟨own, rest⟩ := List.cons.inj cut
        refine .inl ⟨p.record, own, ?_⟩
        rw [rest, ← show p.earlier = earlier from front]
      | cons first before =>
        obtain ⟨rfl, rest⟩ := List.cons.inj cut
        exact .inr ⟨before, by simp [front], rest⟩

/-- Reading up to the next statement finds no more signals exactly if no operand line between the
header and that statement names one. -/
theorem names_takeWhile_eq_iff (block : List DumpLine) :
    names block = names (block.takeWhile notHeader) ↔
      ∀ name, .operand (some name) ∉ block.dropWhile notHeader := by
  have parts : names block =
      names (block.takeWhile notHeader) ++ names (block.dropWhile notHeader) := by
    rw [names, names, names, ← List.filterMap_append, List.takeWhile_append_dropWhile]
  rw [parts, List.append_right_eq_self]
  constructor
  · intro empty name member
    have := List.filterMap_eq_nil_iff.mp empty _ member
    simp at this
  · intro absent
    rw [names, List.filterMap_eq_nil_iff]
    intro line member
    cases line with
    | operand name =>
      cases name with
      | none => rfl
      | some name => exact absurd member (absent name)
    | _ => rfl

theorem attributed_iff_blocks (text : String) :
    Attributed text ↔ ∀ p ∈ statements [] (dumpLines text), ∀ name,
      .operand (some name) ∉ p.readBlock.dropWhile notHeader := by
  have own (p : Placed) : p.ownBlock = p.readBlock.takeWhile notHeader := by
    simp [Placed.ownBlock, Placed.readBlock, List.takeWhile_takeWhile]
  have signals (p : Placed) : p.hop p.readBlock = p.hop p.ownBlock ↔
      names p.readBlock = names p.ownBlock := by
    constructor
    · intro same
      have same := congrArg Hop.signals same
      rwa [Placed.hop, Placed.hop, signals_recordHop, signals_recordHop] at same
    · intro same
      rw [Placed.hop, Placed.hop, same]
  rw [Attributed, parseDump_eq, List.map_inj_left]
  refine forall₂_congr fun p _ => ?_
  rw [signals, own, names_takeWhile_eq_iff]

/-- The last statement among some lines. -/
theorem last_statement {lines : List DumpLine} (present : ∃ record, .statement record ∈ lines) :
    ∃ before record after, lines = before ++ .statement record :: after ∧
      ∀ line ∈ after, notStatement line = true := by
  obtain ⟨record, member⟩ := present
  induction lines using List.reverseRecOn with
  | nil => cases member
  | append_singleton lines line ih =>
    cases kind : notStatement line with
    | false =>
      obtain ⟨own, rfl⟩ := notStatement_eq_false.mp kind
      exact ⟨lines, own, [], rfl, by simp⟩
    | true =>
      have earlier : .statement record ∈ lines := by
        rcases List.mem_append.mp member with earlier | last
        · exact earlier
        · rw [← List.mem_singleton.mp last] at kind
          cases kind
      obtain ⟨before, own, after, rfl, others⟩ := ih earlier
      refine ⟨before, own, after ++ [line], by simp, ?_⟩
      intro l inside
      rcases List.mem_append.mp inside with inside | last
      · exact others l inside
      · rw [List.mem_singleton.mp last]
        exact kind

theorem mem_dropWhile_notHeader {front rest : List DumpLine} {group : Option (Nat × String)}
    {line : DumpLine} (member : line ∈ rest) :
    line ∈ (front ++ .header group :: rest).dropWhile notHeader := by
  induction front with
  | nil => exact List.mem_cons_of_mem _ member
  | cons first front ih =>
    rw [List.cons_append, List.dropWhile_cons]
    split
    · exact ih
    · exact List.mem_cons_of_mem _ (List.mem_append_right _ (List.mem_cons_of_mem _ member))

/-- Attribution stays inside the groups exactly if no operand line that names a signal comes between
a header and the first statement of its group, when a statement precedes the header. -/
theorem attributed_iff (text : String) : Attributed text ↔ OperandsInGroup (dumpLines text) := by
  rw [attributed_iff_blocks]
  constructor
  · intro closed before group between name after cut present
    by_contra unmarked
    obtain ⟨front, record, inside, rfl, plain⟩ := last_statement present
    -- The statement before the header reads on past it.
    have plain' : ∀ line ∈ between, notStatement line = true := by
      intro line member
      by_contra other
      obtain ⟨r, rfl⟩ := notStatement_eq_false.mp (Bool.not_eq_true _ ▸ other)
      exact unmarked ⟨r, member⟩
    let p : Placed := ⟨front.reverse, record,
      inside ++ .header group :: (between ++ .operand (some name) :: after)⟩
    have placed : p ∈ statements [] (dumpLines text) :=
      mem_statements.mpr ⟨front, by simp [p], by rw [cut]; simp [p]⟩
    have block : p.readBlock = inside ++ .header group ::
        (between ++ .operand (some name) :: after.takeWhile notStatement) := by
      have opens : notStatement (.header group) = true := rfl
      have below : notStatement (.operand (some name)) = true := rfl
      rw [Placed.readBlock, List.takeWhile_append_of_pos plain, List.takeWhile_cons, if_pos opens,
        List.takeWhile_append_of_pos plain', List.takeWhile_cons, if_pos below]
    apply closed p placed name
    rw [block]
    exact mem_dropWhile_notHeader (by simp)
  · intro inGroup p member name stray
    obtain ⟨before, -, cut⟩ := mem_statements.mp member
    have parts := List.takeWhile_append_dropWhile (p := notHeader) (l := p.readBlock)
    cases rest : p.readBlock.dropWhile notHeader with
    | nil =>
      rw [rest] at stray
      cases stray
    | cons first rest' =>
      have firstGroup := List.head?_dropWhile_not notHeader p.readBlock
      rw [rest] at firstGroup stray parts
      obtain ⟨group, rfl⟩ := notHeader_eq_false.mp (by simpa using firstGroup)
      have behind : .operand (some name) ∈ rest' := by simpa using stray
      obtain ⟨between, after, rfl⟩ := List.append_of_mem behind
      obtain ⟨tail, later⟩ : ∃ tail, p.later = p.readBlock.takeWhile notHeader ++
          .header group :: (between ++ .operand (some name) :: after) ++ tail := by
        rw [parts]
        exact ⟨_, List.takeWhile_append_dropWhile.symm⟩
      obtain ⟨record, marked⟩ := inGroup
        (before ++ .statement p.record :: p.readBlock.takeWhile notHeader) group between name
        (after ++ tail) (by rw [cut, later]; simp) ⟨p.record, by simp⟩
      have inside : .statement record ∈ p.readBlock := by
        rw [← parts]
        simp [marked]
      exact absurd (List.mem_takeWhile_imp inside) (by simp [notStatement])

/-- A second group that begins with an operand line. -/
def leakingDump : String := "<1> scope: tb\n<D> npiPort, q\n<2> scope: tb.u\nnpiReg, tb.u.z"

set_option maxRecDepth 2000 in
/-- Its signal is given to the statement of the first group. -/
theorem attributed_leak :
    parseDump leakingDump = [⟨1, .port, "npiPort", "q", "tb", none, none, false, ["tb.u.z"]⟩] ∧
      ¬ Attributed leakingDump := by
  decide

end RWave.Backend.NpiDump
