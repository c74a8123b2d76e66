import RWave.Model.SignalTable

/-!
# The symbols of a WLF file

`walk` and `leaf_to_decl` of `wlf/backend.rs` turn the symbol tree of libwlf into declarations, and
`run_scan` looks the symbol of a handle up again. A handle is the archive number of a symbol with
negative numbers raised to 0. So the table merges what libwlf tells apart by two numbers of which
neither is positive.

The texts of libwlf are C strings and pass through `to_cstring` unchanged.
-/

namespace RWave.Model

open RWave.Backend

/-- `WlfSymbolId`, which is never null here. -/
abbrev WlfSymbolId := Nat

/-- What `signal_width` asks of a type: its register width, array length and value size. -/
structure WlfType where
  registerWidth : Int32
  arrayLength : Int32
  valueSize : Int32
  deriving DecidableEq, Repr

/-- A symbol with the properties that are asked of it, and the symbols below it in the order of
`wlf_sym_children`. -/
inductive WlfSymbol where
  | mk (id : WlfSymbolId) (name : Option String) (selMask : UInt32) (archive : Int32)
    (typeId : Option WlfType) (children : List WlfSymbol)

namespace WlfSymbol

def id : WlfSymbol → WlfSymbolId | mk id .. => id
def name : WlfSymbol → Option String | mk _ name .. => name
def selMask : WlfSymbol → UInt32 | mk _ _ selMask .. => selMask
def archive : WlfSymbol → Int32 | mk _ _ _ archive .. => archive
def typeId : WlfSymbol → Option WlfType | mk _ _ _ _ typeId _ => typeId

end WlfSymbol

/-! ## Symbol classes -/

/-- `sel::SCOPE_MASK`: architectures, blocks, generates, packages, foreign regions, processes,
generate blocks, modules, primitives, tasks, functions, statements and virtual regions. -/
def scopeMask : UInt32 :=
  0x2 ||| 0x4 ||| 0x8 ||| 0x10 ||| 0x20 ||| 0x40 ||| 0x80 ||| 0x8000 ||| 0x10000 ||| 0x20000 |||
    0x40000 ||| 0x80000 ||| 0x100000

/-- `sel::is_scope`. -/
def isScope (sel : UInt32) : Bool := sel &&& scopeMask != 0

/-- `classify_kind`. -/
def classifyKind (selMask : UInt32) : ValueKind :=
  if selMask &&& 0x04000000 ≠ 0 then .real
  else if selMask &&& 0x20000000 ≠ 0 then .event
  else .bits

/-- `classify_type`. -/
def classifyType (selMask : UInt32) : String :=
  if selMask &&& 0x04000000 ≠ 0 then "real"
  else if selMask &&& 0x20000000 ≠ 0 then "event"
  else if selMask &&& 0x00800000 ≠ 0 then "reg"
  else if selMask &&& 0x00200000 ≠ 0 then "wire"
  else if selMask &&& 0x01000000 ≠ 0 then "integer"
  else if selMask &&& 0x02000000 ≠ 0 then "time"
  else if selMask &&& 0x00000400 ≠ 0 then "parameter"
  else "wire"

/-- `signal_width`: the first of the three properties that is positive. -/
def signalWidth (sym : WlfSymbol) : Nat :=
  match sym.typeId with
  | none => 1
  | some t =>
    match [t.registerWidth, t.arrayLength, t.valueSize].find? fun w => decide (0 < w) with
    | some w => w.toInt.toNat
    | none => 1

/-! ## The walk -/

structure OwnedVarDecl where
  fullPath : String
  scopePath : String
  typeStr : String
  width : Nat
  kind : ValueKind
  backendSid : BackendSid
  symbolPtr : WlfSymbolId
  deriving DecidableEq, Repr

/-- `leaf_to_decl`. Negative archive numbers are clamped to 0. -/
def leafToDecl (sym : WlfSymbol) (fullPath scopePath : String) (selMask : UInt32) :
    OwnedVarDecl where
  fullPath := fullPath
  scopePath := scopePath
  typeStr := classifyType selMask
  width := signalWidth sym
  kind := classifyKind selMask
  backendSid := (max sym.archive.toInt 0).toNat
  symbolPtr := sym.id

/-- The path of a child. -/
def subPath (parentPath name : String) : String :=
  if parentPath = "" then name
  else if name = "" then parentPath
  else parentPath ++ "." ++ name

mutual

/-- `walk`: the declarations below a scope. -/
def walk : WlfSymbol → String → List OwnedVarDecl
  | .mk _ _ _ _ _ children, parentPath => walkChildren children parentPath

/-- The loop of `walk` over the children. -/
def walkChildren : List WlfSymbol → String → List OwnedVarDecl
  | [], _ => []
  | child :: rest, parentPath =>
    let path := subPath parentPath (child.name.getD "")
    (if isScope child.selMask then walk child path
      else [leafToDecl child path parentPath child.selMask]) ++ walkChildren rest parentPath

end

/-- `build_decl_cache`. There may be no top region. -/
def buildDeclCache (top : Option WlfSymbol) : List OwnedVarDecl := top.elim [] fun top => walk top ""

/-- `var_decls`: a declaration without its symbol. -/
def OwnedVarDecl.toVarDecl (d : OwnedVarDecl) : VarDecl where
  fullPath := d.fullPath
  scopePath := d.scopePath
  width := d.width
  typeStr := d.typeStr
  kind := d.kind
  backendSid := d.backendSid

/-- `sid_info` of `run_scan`: the symbol and the kind of each handle. -/
def sidInfo (cache : List OwnedVarDecl) : BackendSid → Option (WlfSymbolId × ValueKind) :=
  cache.foldl (fun info d => Function.update info d.backendSid (some (d.symbolPtr, d.kind)))
    fun _ => none

/-! ## The leaves -/

/-- A leaf of the symbol tree, with its path and the path of its scope. -/
structure WlfLeaf where
  symbol : WlfSymbol
  fullPath : String
  scopePath : String

def WlfLeaf.toDecl (l : WlfLeaf) : OwnedVarDecl :=
  leafToDecl l.symbol l.fullPath l.scopePath l.symbol.selMask

mutual

/-- The leaves below a scope. -/
def leaves : WlfSymbol → String → List WlfLeaf
  | .mk _ _ _ _ _ children, parentPath => leavesOf children parentPath

def leavesOf : List WlfSymbol → String → List WlfLeaf
  | [], _ => []
  | child :: rest, parentPath =>
    let path := subPath parentPath (child.name.getD "")
    (if isScope child.selMask then leaves child path else [⟨child, path, parentPath⟩]) ++
      leavesOf rest parentPath

end

/-- The leaves of a file. -/
def allLeaves (top : Option WlfSymbol) : List WlfLeaf := top.elim [] fun top => leaves top ""

mutual

theorem walk_eq : ∀ (sym : WlfSymbol) (parentPath : String),
    walk sym parentPath = (leaves sym parentPath).map WlfLeaf.toDecl
  | .mk _ _ _ _ _ children, parentPath => by
    rw [walk, leaves]
    exact walkChildren_eq children parentPath

/-- Every leaf is declared once. -/
theorem walkChildren_eq : ∀ (children : List WlfSymbol) (parentPath : String),
    walkChildren children parentPath = (leavesOf children parentPath).map WlfLeaf.toDecl
  | [], _ => by rw [walkChildren, leavesOf, List.map_nil]
  | child :: rest, parentPath => by
    rw [walkChildren, leavesOf, List.map_append, walkChildren_eq rest parentPath,
      walk_eq child (subPath parentPath (child.name.getD ""))]
    split <;> rfl

end

theorem buildDeclCache_eq (top : Option WlfSymbol) :
    buildDeclCache top = (allLeaves top).map WlfLeaf.toDecl := by
  cases top with
  | none => rfl
  | some top => exact walk_eq top ""

/-! ## The signals -/

/-- A handle that is declared is looked up to the symbol of a declaration of it. -/
theorem sidInfo_declared {cache : List OwnedVarDecl} {sid : BackendSid}
    (declared : ∃ d ∈ cache, d.backendSid = sid) :
    ∃ d ∈ cache, d.backendSid = sid ∧ sidInfo cache sid = some (d.symbolPtr, d.kind) := by
  induction cache using List.reverseRecOn with
  | nil => simp at declared
  | append_singleton cache last ih =>
    rw [sidInfo, List.foldl_append, List.foldl_cons, List.foldl_nil, ← sidInfo]
    by_cases own : last.backendSid = sid
    · refine ⟨last, by simp, own, ?_⟩
      rw [← own, Function.update_self]
    · have earlier : ∃ d ∈ cache, d.backendSid = sid := by
        obtain ⟨d, member, same⟩ := declared
        rcases List.mem_append.mp member with before | isLast
        · exact ⟨d, before, same⟩
        · exact absurd (List.mem_singleton.mp isLast ▸ same) own
      obtain ⟨d, member, same, found⟩ := ih earlier
      refine ⟨d, List.mem_append_left _ member, same, ?_⟩
      rw [Function.update_of_ne (Ne.symm own), found]

/-- The signal table of a file. -/
def wlfTable (order : HashOrder) (top : Option WlfSymbol) : List SignalInfo :=
  (buildSignalTable order ((buildDeclCache top).map OwnedVarDecl.toVarDecl)).1

/-- The table has the signals libwlf reports: paths are merged just when they have one archive
number, and a scan finds for each signal a symbol of it. -/
structure AsReported (order : HashOrder) (top : Option WlfSymbol) : Prop where
  merged : ∀ l ∈ allLeaves top, ∀ l' ∈ allLeaves top,
    (∃ info ∈ wlfTable order top, l.fullPath ∈ info.aliases ∧ l'.fullPath ∈ info.aliases) ↔
      l.symbol.archive = l'.symbol.archive
  scanned : ∀ info ∈ wlfTable order top, ∃ l ∈ allLeaves top, l.fullPath ∈ info.aliases ∧
    sidInfo (buildDeclCache top) info.backendSid =
      some (l.symbol.id, classifyKind l.symbol.selMask)

/-- The handle of a leaf. -/
def WlfLeaf.handle (l : WlfLeaf) : BackendSid := (max l.symbol.archive.toInt 0).toNat

section Signals

variable {top : Option WlfSymbol} (distinct : ((allLeaves top).map WlfLeaf.fullPath).Nodup)
  (order : HashOrder)

theorem mem_decls {d : VarDecl} :
    d ∈ (buildDeclCache top).map OwnedVarDecl.toVarDecl ↔
      ∃ l ∈ allLeaves top, l.toDecl.toVarDecl = d := by
  simp only [buildDeclCache_eq, List.map_map, List.mem_map, Function.comp_apply]

include distinct in
theorem leaf_unique {l l' : WlfLeaf} (member : l ∈ allLeaves top) (member' : l' ∈ allLeaves top)
    (same : l.fullPath = l'.fullPath) : l = l' :=
  List.inj_on_of_nodup_map distinct member member' same

include distinct in
theorem wlf_wellDeclared : WellDeclared ((buildDeclCache top).map OwnedVarDecl.toVarDecl) := by
  have single : ∀ d ∈ (buildDeclCache top).map OwnedVarDecl.toVarDecl,
      ∀ d' ∈ (buildDeclCache top).map OwnedVarDecl.toVarDecl, d.fullPath = d'.fullPath → d = d' := by
    intro d declared d' declared' same
    obtain ⟨l, member, rfl⟩ := mem_decls.mp declared
    obtain ⟨l', member', rfl⟩ := mem_decls.mp declared'
    rw [leaf_unique distinct member member' same]
  exact ⟨fun d hd d' hd' same => single d hd d' hd' same ▸ rfl,
    fun d hd d' hd' same => single d hd d' hd' same ▸ rfl⟩

include distinct in
/-- A path is an alias of the signal with its leaf's handle, and of no other. -/
theorem mem_aliases {info : SignalInfo} (entry : info ∈ wlfTable order top) {l : WlfLeaf}
    (member : l ∈ allLeaves top) : l.fullPath ∈ info.aliases ↔ l.handle = info.backendSid := by
  rw [((canonicalTable (wlf_wellDeclared distinct) order).entries info entry).aliases]
  constructor
  · rintro ⟨d, declared, own, path⟩
    obtain ⟨l', member', rfl⟩ := mem_decls.mp declared
    rw [← leaf_unique distinct member' member path]
    exact own
  · intro own
    exact ⟨_, mem_decls.mpr ⟨l, member, rfl⟩, own, rfl⟩

include distinct in
/-- Two paths are merged when their handles are equal. -/
theorem merged_iff {l l' : WlfLeaf} (member : l ∈ allLeaves top) (member' : l' ∈ allLeaves top) :
    (∃ info ∈ wlfTable order top, l.fullPath ∈ info.aliases ∧ l'.fullPath ∈ info.aliases) ↔
      l.handle = l'.handle := by
  constructor
  · rintro ⟨info, entry, named, named'⟩
    exact ((mem_aliases distinct order entry member).mp named).trans
      ((mem_aliases distinct order entry member').mp named').symm
  · intro same
    obtain ⟨info, entry, own⟩ := ((canonicalTable (wlf_wellDeclared distinct) order).handles
      l.handle).mpr ⟨_, mem_decls.mpr ⟨l, member, rfl⟩, rfl⟩
    exact ⟨info, entry, (mem_aliases distinct order entry member).mpr own.symm,
      (mem_aliases distinct order entry member').mpr (same.symm.trans own.symm)⟩

include distinct in
/-- A scan finds a symbol of every signal. -/
theorem scanned (info : SignalInfo) (entry : info ∈ wlfTable order top) :
    ∃ l ∈ allLeaves top, l.fullPath ∈ info.aliases ∧
      sidInfo (buildDeclCache top) info.backendSid =
        some (l.symbol.id, classifyKind l.symbol.selMask) := by
  have declared : ∃ d ∈ buildDeclCache top, d.backendSid = info.backendSid := by
    obtain ⟨d, member, own⟩ := ((canonicalTable (wlf_wellDeclared distinct) order).handles
      info.backendSid).mp ⟨info, entry, rfl⟩
    obtain ⟨d, among, rfl⟩ := List.mem_map.mp member
    exact ⟨d, among, own⟩
  obtain ⟨d, member, own, found⟩ := sidInfo_declared declared
  rw [buildDeclCache_eq] at member
  obtain ⟨l, leaf, rfl⟩ := List.mem_map.mp member
  exact ⟨l, leaf, (mem_aliases distinct order entry leaf).mpr own, found⟩

/-- Clamping tells two archive numbers apart unless they are different and neither is positive. -/
theorem handle_eq_iff {l l' : WlfLeaf} :
    (l.handle = l'.handle ↔ l.symbol.archive = l'.symbol.archive) ↔
      (l.symbol.archive ≤ 0 → l'.symbol.archive ≤ 0 → l.symbol.archive = l'.symbol.archive) := by
  rw [WlfLeaf.handle, WlfLeaf.handle, Int32.le_iff_toInt_le, Int32.le_iff_toInt_le,
    ← Int32.toInt_inj, Int32.toInt_zero]
  have clamped : ∀ a b : Int, ((max a 0).toNat = (max b 0).toNat ↔ a = b) ↔
      (a ≤ 0 → b ≤ 0 → a = b) := by
    omega
  exact clamped _ _

end Signals

/-- The signals are as libwlf reports them exactly if it reports no two leaves with different archive
numbers of which neither is positive. -/
theorem wlfSignals_asReported_iff (order : HashOrder) (top : Option WlfSymbol)
    (distinct : ((allLeaves top).map WlfLeaf.fullPath).Nodup) :
    AsReported order top ↔ ∀ l ∈ allLeaves top, ∀ l' ∈ allLeaves top,
      l.symbol.archive ≤ 0 → l'.symbol.archive ≤ 0 → l.symbol.archive = l'.symbol.archive := by
  constructor
  · intro reported l member l' member'
    rw [← handle_eq_iff, ← merged_iff distinct order member member']
    exact reported.merged l member l' member'
  · intro apart
    refine ⟨?_, scanned distinct order⟩
    intro l member l' member'
    rw [merged_iff distinct order member member', handle_eq_iff]
    exact apart l member l' member'

/-- A module with two nets. -/
def twoNets (archive archive' : Int32) : WlfSymbol :=
  .mk 1 (some "top") 0x8000 0 none
    [.mk 2 (some "u") 0x8000 0 none [.mk 3 (some "a") 0x00200000 archive none []],
      .mk 4 (some "b") 0x00200000 archive' none []]

/-- The net with the sentinel −1 becomes an alias of the net with the archive number 0, whose symbol
is the one that is scanned. -/
theorem wlfSignals_clamped :
    ((allLeaves (some (twoNets (-1) 0))).map WlfLeaf.fullPath).Nodup ∧
      sidInfo (buildDeclCache (some (twoNets (-1) 0))) 0 = some (4, .bits) ∧
      ¬ AsReported backwards (some (twoNets (-1) 0)) := by
  refine ⟨by decide, by decide, ?_⟩
  intro reported
  have mergedOnly : ∀ l ∈ allLeaves (some (twoNets (-1) 0)), ∀ l' ∈ allLeaves (some (twoNets (-1) 0)),
      (∃ info ∈ wlfTable backwards (some (twoNets (-1) 0)),
        l.fullPath ∈ info.aliases ∧ l'.fullPath ∈ info.aliases) →
      l.symbol.archive = l'.symbol.archive := fun l hl l' hl' => (reported.merged l hl l' hl').mp
  revert mergedOnly
  decide

theorem wlfSignals_asReported_iff_twoNets : AsReported backwards (some (twoNets 7 (-1))) :=
  (wlfSignals_asReported_iff backwards (some (twoNets 7 (-1))) (by decide)).mpr
    (by decide)

end RWave.Model
