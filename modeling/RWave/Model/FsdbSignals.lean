import RWave.Model.SignalTable
import RWave.Select.Leaf

/-!
# The signals of an FSDB file

`build_decl_cache`, `collect_scope` and `record_sig` of `fsdb/backend.rs`. The scopes are walked
only to find the signals. A signal has its full name, and `split_scope_leaf` takes what stands
before the last `.` or `/` of it for its scope. That is the scope it is declared in exactly if its
own name has neither character (`splitScopeLeaf_eq_iff`).

The texts of NPI are C strings and pass through `to_cstring` unchanged.
-/

namespace RWave.Model.Fsdb

open RWave.Backend RWave.Filter

/-- A signal with the properties that are asked of it. The name is absent where NPI has a null
pointer. -/
structure NpiSig where
  handle : Nat
  fullName : Option String
  rangeSize : Int32
  isReal : Int32
  isString : Int32
  hasMember : Int32
  deriving DecidableEq, Repr

/-- A scope: its signals and its child scopes, each in the order of NPI's iterators. -/
inductive NpiScope where
  | mk (signals : List NpiSig) (children : List NpiScope)

structure OwnedVarDecl where
  fullPath : String
  scopePath : String
  typeStr : String
  width : Nat
  kind : ValueKind
  backendSid : BackendSid
  deriving DecidableEq, Repr

/-- `split_scope_leaf`: at the later of the last `.` and the last `/`. -/
def splitScopeLeaf (full : String) : String × String :=
  let dot := Str.rsplitOnce (· == '.') full
  let slash := Str.rsplitOnce (· == '/') full
  let split :=
    match dot, slash with
    | some d, some s => some (if Str.len s.1 ≤ Str.len d.1 then d else s)
    | some d, none => some d
    | none, some s => some s
    | none, none => none
  split.getD ("", full)

/-- Kind, type and width of a signal. A composite one is opaque: its range is an element count. -/
def sigKind (sig : NpiSig) : ValueKind × String × Nat :=
  if sig.isReal ≠ 0 then (.real, "real", 1)
  else if sig.hasMember ≠ 0 then (.str, "array", 1)
  else if sig.isString ≠ 0 then (.str, "string", 1)
  else (.bits, "wire", max (max sig.rangeSize.toInt 0).toNat 1)

/-- `record_sig`. A signal without a name is not declared. -/
def recordSig (sig : NpiSig) (out : List OwnedVarDecl) : List OwnedVarDecl :=
  let full := sig.fullName.getD ""
  if Str.isEmpty full then out
  else
    let (kind, typeStr, width) := sigKind sig
    let (scope, _) := splitScopeLeaf full
    out ++ [{
      fullPath := full
      scopePath := scope
      typeStr
      width
      kind
      backendSid := sig.handle }]

mutual

/-- `collect_scope`: the signals of a scope, then those of its child scopes. -/
def collectScope : NpiScope → List OwnedVarDecl → List OwnedVarDecl
  | .mk signals children, out =>
    collectChildren children (signals.foldl (fun out sig => recordSig sig out) out)

/-- The loop of `collect_scope` over the child scopes. -/
def collectChildren : List NpiScope → List OwnedVarDecl → List OwnedVarDecl
  | [], out => out
  | child :: rest, out => collectChildren rest (collectScope child out)

end

/-- `build_decl_cache`, of the top scopes. -/
def buildDeclCache (tops : List NpiScope) : List OwnedVarDecl :=
  tops.foldl (fun out scope => collectScope scope out) []

mutual

/-- The signals of a scope and of all scopes below it. -/
def NpiScope.allSignals : NpiScope → List NpiSig
  | .mk signals children => signals ++ signalsOf children

def signalsOf : List NpiScope → List NpiSig
  | [] => []
  | child :: rest => child.allSignals ++ signalsOf rest

end

/-- The declarations of one signal: one, or none where it has no name. -/
def declOf (sig : NpiSig) : List OwnedVarDecl := recordSig sig []

theorem recordSig_eq (sig : NpiSig) (out : List OwnedVarDecl) :
    recordSig sig out = out ++ declOf sig := by
  unfold declOf recordSig
  dsimp only
  split <;> simp

theorem recordSigs_eq (signals : List NpiSig) (out : List OwnedVarDecl) :
    signals.foldl (fun out sig => recordSig sig out) out = out ++ signals.flatMap declOf := by
  induction signals generalizing out with
  | nil => simp
  | cons sig signals ih =>
    rw [List.foldl_cons, ih, recordSig_eq, List.flatMap_cons, List.append_assoc]

mutual

theorem collectScope_eq : ∀ (scope : NpiScope) (out : List OwnedVarDecl),
    collectScope scope out = out ++ scope.allSignals.flatMap declOf
  | .mk signals children, out => by
    rw [collectScope, recordSigs_eq, collectChildren_eq children, NpiScope.allSignals,
      List.flatMap_append, List.append_assoc]

theorem collectChildren_eq : ∀ (children : List NpiScope) (out : List OwnedVarDecl),
    collectChildren children out = out ++ (signalsOf children).flatMap declOf
  | [], out => by simp [collectChildren, signalsOf]
  | child :: rest, out => by
    rw [collectChildren, collectScope_eq child, collectChildren_eq rest, signalsOf,
      List.flatMap_append, List.append_assoc]

end

/-- Every signal of the file is recorded once, a scope's own signals before those below it. -/
theorem buildDeclCache_eq (tops : List NpiScope) :
    buildDeclCache tops = (signalsOf tops).flatMap declOf := by
  have loop (out : List OwnedVarDecl) :
      tops.foldl (fun out scope => collectScope scope out) out =
        out ++ (signalsOf tops).flatMap declOf := by
    induction tops generalizing out with
    | nil => simp [signalsOf]
    | cons top tops ih =>
      rw [List.foldl_cons, ih, collectScope_eq, signalsOf, List.flatMap_append, List.append_assoc]
  rw [buildDeclCache, loop, List.nil_append]

/-! ## Scopes -/

/-- A character that does not come after another one stands further to the left. -/
theorem length_lt_of_cut {before after before' after' : List Char} {c d : Char} (other : c ≠ d)
    (cut : before ++ c :: after = before' ++ d :: after') (absent : d ∉ after) :
    Str.len (.ofList before') < Str.len (.ofList before) := by
  rcases List.append_eq_append_iff.mp cut with ⟨t, -, rest⟩ | ⟨t, front, rest⟩
  · cases t with
    | nil => exact absurd (List.cons.inj rest).1 other
    | cons e t =>
      obtain ⟨-, rest⟩ := List.cons.inj rest
      exact absurd (rest ▸ List.mem_append_right t List.mem_cons_self) absent
  · cases t with
    | nil => exact absurd (List.cons.inj rest).1.symm other
    | cons e t =>
      have wide := e.utf8Size_pos
      rw [front, Str.len, Str.len, Str.bytes, Str.bytes, String.toList_ofList,
        String.toList_ofList, List.flatMap_append, List.flatMap_cons, List.length_append,
        List.length_append, String.length_utf8EncodeChar]
      omega

theorem splitScopeLeaf_cut {full : String} {before after : List Char} {c : Char}
    (cut : full.toList = before ++ c :: after) (separator : isSeparator c)
    (plain : ∀ d ∈ after, isSeparator d = false) :
    splitScopeLeaf full = (.ofList before, .ofList after) := by
  have absent : '.' ∉ after ∧ '/' ∉ after :=
    ⟨fun member => absurd (plain _ member) (by decide),
      fun member => absurd (plain _ member) (by decide)⟩
  have ne_of_absent {d e : Char} (gone : d ∉ after) (member : e ∈ after) : (e == d) = false :=
    beq_false_of_ne fun same => gone (same ▸ member)
  rcases isSeparator_iff.mp separator with rfl | rfl
  · have dot : Str.rsplitOnce (· == '.') full = some (.ofList before, .ofList after) :=
      Str.rsplitOnce_append cut rfl fun d member => ne_of_absent absent.1 member
    obtain ⟨absent, -⟩ | ⟨before', c', after', found, slash, -, cut'⟩ :=
      Str.rsplitOnce_cases (· == '/') full
    · simp only [splitScopeLeaf, dot, absent, Option.getD_some]
    · obtain rfl := eq_of_beq slash
      have shorter := length_lt_of_cut (by decide) (cut.symm.trans cut') absent.2
      rw [String.ofList_toList] at shorter
      simp only [splitScopeLeaf, dot, found, Option.getD_some, if_pos shorter.le]
  · have slash : Str.rsplitOnce (· == '/') full = some (.ofList before, .ofList after) :=
      Str.rsplitOnce_append cut rfl fun d member => ne_of_absent absent.2 member
    obtain ⟨absent, -⟩ | ⟨before', c', after', found, dot, -, cut'⟩ :=
      Str.rsplitOnce_cases (· == '.') full
    · simp only [splitScopeLeaf, slash, absent, Option.getD_some]
    · obtain rfl := eq_of_beq dot
      have shorter := length_lt_of_cut (by decide) (cut.symm.trans cut') absent.1
      rw [String.ofList_toList] at shorter
      simp only [splitScopeLeaf, slash, found, Option.getD_some, if_neg shorter.not_ge]

/-- The scope is right exactly if the name has no separator. -/
theorem splitScopeLeaf_eq_iff {scope name : String} {sep : Char} (separator : isSeparator sep) :
    (splitScopeLeaf (scope ++ String.singleton sep ++ name)).1 = scope ↔
      Str.containsChar isSeparator name = false := by
  have whole : (scope ++ String.singleton sep ++ name).toList =
      scope.toList ++ sep :: name.toList := by simp
  rw [Str.containsChar, List.any_eq_false]
  constructor
  · intro right
    obtain ⟨-, plain⟩ | ⟨before, c, after, -, separator', plain, cut⟩ :=
      Str.rsplitOnce_cases isSeparator (scope ++ String.singleton sep ++ name)
    · rw [whole] at plain
      exact absurd (plain sep (by simp)) (by simp [separator])
    · rw [splitScopeLeaf_cut cut separator' plain, String.ofList_toList] at right
      rw [whole, show before = scope from right] at cut
      obtain ⟨-, same⟩ := List.cons.inj (List.append_cancel_left cut)
      rw [same]
      simpa using plain
  · intro plain
    rw [splitScopeLeaf_cut whole separator (by simpa using plain), String.ofList_toList]

/-- The file declares the signal under its full name, in this scope and under this local name. -/
def DeclaredIn (tops : List NpiScope) (sig : NpiSig) (scope name : String) : Prop :=
  ∃ d ∈ buildDeclCache tops, d.backendSid = sig.handle ∧ some d.fullPath = sig.fullName ∧
    d.scopePath = scope ∧ leafOf d.fullPath d.scopePath = name

instance (tops : List NpiScope) (sig : NpiSig) (scope name : String) :
    Decidable (DeclaredIn tops sig scope name) :=
  inferInstanceAs (Decidable (∃ d ∈ buildDeclCache tops, _))

theorem mem_declOf {sig : NpiSig} {d : OwnedVarDecl} (member : d ∈ declOf sig) :
    d.backendSid = sig.handle ∧ d.fullPath = sig.fullName.getD "" ∧
      d.scopePath = (splitScopeLeaf d.fullPath).1 := by
  unfold declOf recordSig at member
  dsimp only at member
  split at member
  · simp at member
  · obtain rfl := List.mem_singleton.mp member
    exact ⟨rfl, rfl, rfl⟩

theorem declOf_named {sig : NpiSig} {full : String} (named : sig.fullName = some full)
    (filled : full ≠ "") : ∃ d ∈ declOf sig, d.backendSid = sig.handle ∧ d.fullPath = full ∧
      d.scopePath = (splitScopeLeaf full).1 := by
  unfold declOf recordSig
  rw [named, Option.getD_some]
  dsimp only
  rw [Str.isEmpty_eq_false filled, if_neg Bool.false_ne_true]
  exact ⟨_, List.mem_singleton_self _, rfl, rfl, rfl⟩

/-- A signal that is called by its scope, a separator and its own name is declared so exactly if
there is no separator in its name. -/
theorem declaredIn_iff {tops : List NpiScope} {sig : NpiSig} (member : sig ∈ signalsOf tops)
    {scope name : String} {sep : Char} (separator : isSeparator sep)
    (named : sig.fullName = some (scope ++ String.singleton sep ++ name)) :
    DeclaredIn tops sig scope name ↔
      scope ≠ "" ∧ Str.containsChar isSeparator name = false := by
  have filled : scope ++ String.singleton sep ++ name ≠ "" := by
    intro empty
    simpa using congrArg String.toList empty
  rw [DeclaredIn, buildDeclCache_eq]
  constructor
  · rintro ⟨d, declared, -, full, inScope, leaf⟩
    obtain ⟨sig', -, own⟩ := List.mem_flatMap.mp declared
    have full := Option.some.inj (full.trans named)
    have split := (mem_declOf own).2.2
    rw [inScope, full] at split
    refine ⟨?_, (splitScopeLeaf_eq_iff separator).mp split.symm⟩
    intro empty
    rw [inScope, empty, leafOf_empty, full, empty] at leaf
    have length := congrArg (fun s => s.toList.length) leaf
    simp at length
  · rintro ⟨inside, plain⟩
    obtain ⟨d, own, handle, full, split⟩ := declOf_named named filled
    rw [(splitScopeLeaf_eq_iff separator).mpr plain] at split
    refine ⟨d, List.mem_flatMap.mpr ⟨sig, member, own⟩, handle, by rw [full, named], split, ?_⟩
    rw [full, split]
    exact leafOf_split inside separator name

/-- A plain signal, and one with an escaped identifier for its name, in scope `tb`. -/
def plainSig : NpiSig := ⟨1, some "tb.data[7:0]", 8, 0, 0, 0⟩

def escapedSig : NpiSig := ⟨2, some "tb.\\foo.bar", 1, 0, 0, 0⟩

def escapedFile : List NpiScope := [.mk [plainSig, escapedSig] []]

theorem declaredIn_data :
    DeclaredIn escapedFile plainSig "tb" "data[7:0]" ↔
      "tb" ≠ "" ∧ Str.containsChar isSeparator "data[7:0]" = false :=
  @declaredIn_iff escapedFile plainSig (by decide) "tb" "data[7:0]" '.' (by decide) (by decide)

/-- The part of an escaped identifier in front of its dot is taken for a scope. -/
theorem declaredIn_escaped :
    escapedSig ∈ signalsOf escapedFile ∧
      escapedSig.fullName = some ("tb" ++ String.singleton '.' ++ "\\foo.bar") ∧
      (buildDeclCache escapedFile).map (fun d => (d.scopePath, leafOf d.fullPath d.scopePath)) =
        [("tb", "data[7:0]"), ("tb.\\foo", "bar")] ∧
      ¬ DeclaredIn escapedFile escapedSig "tb" "\\foo.bar" := by
  decide

end RWave.Model.Fsdb
