import RWave.Backend.Basic
import RWave.Misc.StableSort
import RWave.Wellen.ReadValues

/-!
# The wellen backend

`wellen_backend.rs` for a VCD, over `wellen::simple::Waveform`. A handle is the index of a signal in
the hierarchy. Signals are loaded on demand and kept, and a trace is decoded from a loaded signal. What
a request answers does not depend on the requests before it (`WellenBackend.Has.loadTraces`): it is the
trace of the dump's changes, and an empty one for a signal that is derived from others, since a handle
does not say so. (A build with debug assertions panics there.) A handle that the hierarchy does not know
is a panic, unless it is too large for a `SignalRef`.
-/

namespace RWave.Backend

open RWave.Misc RWave.Wellen

/-- `x as i64`, of an `u64`. -/
def asI64 (t : Nat) : Int := (BitVec.ofNat 64 t).toInt

/-- `decode_value`. A number that is no logic value is a panic. -/
def decodeValue : SignalValueRef → Option RawValue
  | .event => some .event
  | .bitVec bv => (bv.iterMsbToLsb.mapM Wellen.Bit.asAscii).map fun chars => .bits (.ofList chars)
  | .real x => some (.real x)
  | .string s => some (.str s)

/-! ## The waveform -/

/-- `SignalInfo` of a hierarchy: whether the signal is derived from others, and its encoding. -/
structure HierarchySignal where
  derived : Bool
  tpe : SignalEncoding
  deriving DecidableEq, Repr

/-- `ground_signal_encodings`. -/
def groundSignalEncodings (hierarchy : List HierarchySignal) : List (Option SignalEncoding) :=
  hierarchy.map fun info => if info.derived then none else some info.tpe

/-- `MAX_INDEX` of a `SignalRef`. -/
def maxIndex : Nat := (2 ^ 32 - 1) >>> 2 - 1

/-- `SignalRef::from_index`, which refers to a signal as one that is not derived. -/
def fromIndex (index : Nat) : Option Nat := if maxIndex < index then none else some index

/-- `sort` and `dedup` of indices. -/
def sortDedup (ids : List Nat) : List Nat := (sortByKey id ids).destutter fun a b => id a ≠ id b

/-- `simple::Waveform`. The signals that are loaded are in a map. -/
structure Waveform where
  hierarchy : List HierarchySignal
  source : Reader
  timeTable : List Nat
  signals : Nat → Option Signal

namespace Waveform

/-- `get_signal_tpe`. -/
def getSignalTpe (w : Waveform) (signalIdx : Nat) : Option SignalEncoding :=
  w.hierarchy[signalIdx]?.map HierarchySignal.tpe

/-- `self.signals.insert(signal.signal_ref(), signal)`, signal by signal. -/
def insertSignals (signals : Nat → Option Signal) (res : List (Nat × Signal)) : Nat → Option Signal :=
  res.foldl (fun signals entry => Function.update signals entry.1 (some entry.2)) signals

/-- `load_signals`, of signals that are not derived. -/
def loadSignals (c : Crates) (w : Waveform) (ids : List Nat) : Option Waveform := do
  -- make sure that we do not load signals that have already been loaded
  let filteredIds := sortDedup (ids.filter fun id => (w.signals id).isNone)
  let res ← filteredIds.mapM fun id => do
    let tpe ← w.getSignalTpe id
    let signal ← w.source.loadSignal c id tpe
    return (id, signal)
  return { w with signals := insertSignals w.signals res }

end Waveform

/-! ## The backend -/

/-- `WellenBackend`, without the windowed reader, which a VCD does not use. -/
structure WellenBackend where
  wave : Waveform
  loaded : Finset Nat

namespace WellenBackend

/-- The backend of a file that has just been read. -/
def new (hierarchy : List HierarchySignal) (source : Reader) (timeTable : List Nat) : WellenBackend :=
  ⟨⟨hierarchy, source, timeTable, fun _ => none⟩, ∅⟩

/-- `time_range`. -/
def timeRange (b : WellenBackend) : Option (Int × Int) := do
  let first ← b.wave.timeTable.head?
  let last ← b.wave.timeTable.getLast?
  return (asI64 first, asI64 last)

/-- `time_step_count`. -/
def timeStepCount (b : WellenBackend) : Nat := b.wave.timeTable.length

/-- `decode_signal`. An index behind the time table is a panic. -/
def decodeSignal (b : WellenBackend) (sig : Signal) : Option SignalTrace := do
  (← sig.iterChanges).mapM fun (tidx, val) => do
    let t ← b.wave.timeTable[tidx]?
    let value ← decodeValue val
    return ⟨asI64 t, value⟩

/-- The first phase of `load_traces`: every requested signal is there. -/
def ensureLoaded (c : Crates) (b : WellenBackend) (sids : List BackendSid) : Option WellenBackend :=
  let toLoad := sids.filterMap fun s => if s ∈ b.loaded then none else fromIndex s
  if toLoad.isEmpty then some b
  else do
    let toLoad := sortDedup toLoad
    let wave ← b.wave.loadSignals c toLoad
    return ⟨wave, b.loaded ∪ toLoad.toFinset⟩

/-- The second phase of `load_traces`, for one of the signals. -/
def decodeLoaded (b : WellenBackend) (s : BackendSid) : Option SignalTrace :=
  match fromIndex s with
  | none => some []
  | some sref =>
    match b.wave.signals sref with
    | some sig => b.decodeSignal sig
    | none => some []

/-- `load_traces`. -/
def loadTraces (c : Crates) (b : WellenBackend) (sids : List BackendSid) :
    Option (WellenBackend × List SignalTrace) := do
  let b ← b.ensureLoaded c sids
  let traces ← sids.mapM b.decodeLoaded
  return (b, traces)

/-- Request by request. -/
def runRequests (c : Crates) (b : WellenBackend) : List (List BackendSid) →
    Option (WellenBackend × List (List SignalTrace))
  | [] => some (b, [])
  | sids :: requests => do
    let (b, traces) ← b.loadTraces c sids
    let (b, later) ← b.runRequests c requests
    return (b, traces :: later)

end WellenBackend

/-! ## Values and traces -/

/-- The value as it is recorded. -/
def rawOf : SignalValue → RawValue
  | .event => .event
  | .bits bs => .bits (.ofList (bs.map fun b => nineStateLookup.getD b.toNat '-'))
  | .string s => .str s
  | .real r => .real r

/-- The trace of the changes of a signal. -/
def traceOf (c : Crates) (tl : Timeline) (id : Nat) : SignalTrace :=
  (tl.signal c id).map fun k => ⟨asI64 k.1, rawOf k.2⟩

theorem asI64_eq {t : Nat} (small : t < 2 ^ 63) : asI64 t = t := by
  have same : (BitVec.ofNat 64 t).toNat = t := by
    rw [BitVec.toNat_ofNat]
    exact Nat.mod_eq_of_lt (by omega)
  rw [asI64, BitVec.toInt_eq_toNat_of_lt (by omega), same]

theorem mem_sortDedup {ids : List Nat} {i : Nat} : i ∈ sortDedup ids ↔ i ∈ ids := by
  constructor
  · exact fun member => mem_sortByKey.mp ((List.destutter_sublist _ _).subset member)
  · intro member
    have sorted : i ∈ sortByKey (id : Nat → Nat) ids := mem_sortByKey.mpr member
    obtain ⟨other, kept, same⟩ := exists_mem_destutter (id : Nat → Nat) sorted
    cases same
    exact kept

theorem mapM_eq_none {α β : Type} {f : α → Option β} {as : List α} {a : α} (member : a ∈ as)
    (fails : f a = none) : as.mapM f = none := by
  induction as with
  | nil => cases member
  | cons b as ih =>
    rw [List.mapM_cons]
    rcases List.mem_cons.mp member with rfl | later
    · rw [fails]
      rfl
    · rw [ih later]
      cases f b <;> rfl

theorem mapM_eq_map {α β : Type} {f : α → Option β} {g : α → β} {as : List α}
    (each : ∀ a ∈ as, f a = some (g a)) : as.mapM f = some (as.map g) := by
  induction as with
  | nil => rfl
  | cons a as ih =>
    rw [List.mapM_cons, each a List.mem_cons_self, ih fun a member => each a (.tail _ member)]
    rfl

/-- A computation for every member of a list that has the image of another. -/
theorem mapM_of_map_eq {α β γ δ : Type} {f : α → γ} {g : β → γ} {body : α → Option δ} {h : β → δ}
    {as : List α} {bs : List β} (same : as.map f = bs.map g)
    (each : ∀ a, ∀ b ∈ bs, f a = g b → body a = some (h b)) : as.mapM body = some (bs.map h) := by
  induction as generalizing bs with
  | nil =>
    rw [List.map_nil, eq_comm, List.map_eq_nil_iff] at same
    rw [same]
    rfl
  | cons a as ih =>
    cases bs with
    | nil => cases same
    | cons b bs =>
      obtain ⟨first, rest⟩ := List.cons.inj same
      rw [List.mapM_cons, each a b List.mem_cons_self first,
        ih rest fun a b member => each a b (.tail _ member)]
      rfl

theorem mapM_asAscii {bs : List Wellen.Bit} (valid : States.Valid bs) :
    bs.mapM Wellen.Bit.asAscii = some (bs.map fun b => nineStateLookup.getD b.toNat '-') := by
  refine mapM_eq_map fun b member => ?_
  have bound : b.toNat < nineStateLookup.length := valid b member
  rw [Wellen.Bit.asAscii, List.getElem?_eq_getElem bound, List.getD_eq_getElem _ _ bound]

theorem mem_of {tl : Timeline} {i : Nat} {k : Nat × VcdValue} (member : k ∈ tl.of i) :
    (i, k) ∈ tl.changes := by
  obtain ⟨change, recorded, same⟩ := List.mem_filterMap.mp member
  split at same
  next here =>
    cases same
    exact here ▸ recorded
  next => cases same

/-- What is seen of a signal is recorded. -/
theorem mem_signal {c : Crates} {tl : Timeline} {i : Nat} {k : Nat × SignalValue}
    (member : k ∈ tl.signal c i) : ∃ v, (i, k.1, v) ∈ tl.changes ∧ k.2 = v.value c := by
  obtain ⟨own, among, rfl⟩ := List.mem_map.mp ((List.destutter_sublist _ _).subset member)
  exact ⟨_, mem_of among, rfl⟩

/-- Nothing is recorded of a signal that has no encoding. -/
theorem of_eq_nil {encodings : List (Option SignalEncoding)} {tl : Timeline}
    (ordered : Recording.Ordered encodings tl) {i : Nat}
    (absent : ∀ tpe, encodings[i]? ≠ some (some tpe)) : tl.of i = [] := by
  refine List.eq_nil_iff_forall_not_mem.mpr fun k member => ?_
  obtain ⟨tpe, known, -⟩ := ordered.values _ (mem_of member)
  exact absent tpe known

theorem traceOf_eq_nil {encodings : List (Option SignalEncoding)} {c : Crates} {tl : Timeline}
    (ordered : Recording.Ordered encodings tl) {i : Nat}
    (absent : ∀ tpe, encodings[i]? ≠ some (some tpe)) : traceOf c tl i = [] := by
  rw [traceOf, Timeline.signal, of_eq_nil ordered absent]
  rfl

theorem decodeValue_eq {val : SignalValueRef} {tpe : SignalEncoding} {v : VcdValue} {c : Crates}
    (own : v.Of tpe) (same : val.value = v.value c) : decodeValue val = some (rawOf (v.value c)) := by
  rw [← same]
  cases val with
  | event => rfl
  | string s => rfl
  | real r => rfl
  | bitVec bv =>
    have valid : States.Valid bv.iterMsbToLsb := by
      cases v with
      | bits bs =>
        cases same
        match tpe, own with
        | .bitVector (_ + 1), own => exact own.2
      | _ => cases same
    rw [decodeValue, mapM_asAscii valid]
    rfl

/-! ## Loading -/

namespace Waveform

variable {c : Crates} {tl : Timeline}

/-- A waveform that has the time line, and of it the loaded signals. -/
structure Has (c : Crates) (tl : Timeline) (w : Waveform) : Prop where
  timeTable : w.timeTable = tl.times
  ordered : Recording.Ordered (groundSignalEncodings w.hierarchy) tl
  gives : Gives c (groundSignalEncodings w.hierarchy) tl w.source
  signals : ∀ i sig, w.signals i = some sig → ∃ tpe, w.getSignalTpe i = some tpe ∧
    w.source.loadSignal c i tpe = some sig

theorem loadable {w : Waveform} {i : Nat} {tpe : SignalEncoding} (known : w.getSignalTpe i = some tpe) :
    Loadable (groundSignalEncodings w.hierarchy) i tpe := by
  obtain ⟨info, entry, rfl⟩ := Option.map_eq_some_iff.mp known
  unfold Loadable groundSignalEncodings
  rw [List.getElem?_map, entry]
  cases derived : info.derived <;> simp [derived]

theorem insertSignals_map (load : Nat → Signal) (ids : List Nat) (signals : Nat → Option Signal)
    (j : Nat) : insertSignals signals (ids.map fun i => (i, load i)) j =
      if j ∈ ids then some (load j) else signals j := by
  induction ids generalizing signals with
  | nil => rfl
  | cons i ids ih =>
    rw [List.map_cons, insertSignals, List.foldl_cons, ← insertSignals, ih]
    by_cases later : j ∈ ids
    · rw [if_pos later, if_pos (.tail _ later)]
    · rw [if_neg later]
      by_cases same : j = i
      · rw [same, Function.update_self, if_pos List.mem_cons_self]
      · rw [Function.update_of_ne same, if_neg (by simp [same, later])]

/-- The loaded signals are the source's, and the requested ones are among them. -/
theorem Has.loadSignals {w : Waveform} (has : w.Has c tl) {ids : List Nat}
    (known : ∀ i ∈ ids, i < w.hierarchy.length) :
    ∃ w', w.loadSignals c ids = some w' ∧ w'.Has c tl ∧ w'.hierarchy = w.hierarchy ∧
      ∀ i, i ∈ ids ∨ (w.signals i).isSome → (w'.signals i).isSome := by
  have each : ∀ i ∈ sortDedup (ids.filter fun id => (w.signals id).isNone), ∃ sig tpe,
      w.getSignalTpe i = some tpe ∧ w.source.loadSignal c i tpe = some sig := by
    intro i member
    have inside := known i (List.mem_filter.mp (mem_sortDedup.mp member)).1
    have tpe : w.getSignalTpe i = some w.hierarchy[i].tpe := by
      rw [getSignalTpe, List.getElem?_eq_getElem inside]
      rfl
    obtain ⟨sig, changes, loaded, -⟩ := has.gives i _ (loadable tpe)
    exact ⟨sig, _, tpe, loaded⟩
  have : Nonempty Signal := ⟨⟨[], .variableLength []⟩⟩
  choose! load spec using each
  have all := mapM_eq_map (f := fun i => do
      let tpe ← w.getSignalTpe i
      let signal ← w.source.loadSignal c i tpe
      return (i, signal)) (g := fun i => (i, load i)) fun i member => by
    obtain ⟨tpe, own, loaded⟩ := spec i member
    rw [own]
    dsimp only [Option.bind_eq_bind, Option.bind_some]
    rw [loaded]
    rfl
  let inserted := insertSignals w.signals
    ((sortDedup (ids.filter fun id => (w.signals id).isNone)).map fun i => (i, load i))
  have lookup (i : Nat) : inserted i = _ := insertSignals_map load _ w.signals i
  refine ⟨{ w with signals := inserted }, ?_,
    ⟨has.timeTable, has.ordered, has.gives, fun i sig own => ?_⟩, rfl, fun i there => ?_⟩
  · rw [Waveform.loadSignals, all]
    rfl
  · dsimp only at own
    rw [lookup] at own
    split at own
    next new =>
      cases own
      exact spec i new
    next old => exact has.signals i sig own
  · dsimp only
    rw [lookup]
    split
    · rfl
    next old =>
      rcases there with member | before
      · by_contra absent
        refine old (mem_sortDedup.mpr (List.mem_filter.mpr ⟨member, ?_⟩))
        simpa using absent
      · exact before

/-- To load a signal that the hierarchy does not know is a panic. -/
theorem Has.loadSignals_unknown {w : Waveform} (has : w.Has c tl) {ids : List Nat} {i : Nat}
    (member : i ∈ ids) (unknown : w.hierarchy.length ≤ i) : w.loadSignals c ids = none := by
  have tpe : w.getSignalTpe i = none := by
    rw [getSignalTpe, List.getElem?_eq_none unknown]
    rfl
  have absent : w.signals i = none := by
    cases own : w.signals i with
    | none => rfl
    | some sig =>
      obtain ⟨_, known, -⟩ := has.signals i sig own
      rw [tpe] at known
      cases known
  have requested : i ∈ sortDedup (ids.filter fun id => (w.signals id).isNone) :=
    mem_sortDedup.mpr (List.mem_filter.mpr ⟨member, by rw [absent]; rfl⟩)
  rw [Waveform.loadSignals, mapM_eq_none requested (by rw [tpe]; rfl)]
  rfl

end Waveform

namespace WellenBackend

variable {c : Crates} {tl : Timeline}

/-- A backend of the time line. -/
structure Has (c : Crates) (tl : Timeline) (b : WellenBackend) : Prop where
  wave : b.wave.Has c tl
  loaded : ∀ i ∈ b.loaded, (b.wave.signals i).isSome

/-- A handle that a hierarchy of some length answers: it is known, or too large to be looked up. -/
def Answerable (length : Nat) (s : BackendSid) : Prop := s < length ∨ maxIndex < s

/-- The first phase asks for the requested signals that are not loaded yet. -/
theorem mem_toLoad {b : WellenBackend} {sids : List BackendSid} {i : Nat} :
    (i ∈ sids.filterMap fun s => if s ∈ b.loaded then none else fromIndex s) ↔
      i ∈ sids ∧ i ∉ b.loaded ∧ i ≤ maxIndex := by
  constructor
  · intro member
    obtain ⟨s, inside, own⟩ := List.mem_filterMap.mp member
    split at own
    · cases own
    next new =>
      rw [fromIndex] at own
      split at own
      · cases own
      next small =>
        cases own
        exact ⟨inside, new, Nat.not_lt.mp small⟩
  · rintro ⟨inside, new, small⟩
    refine List.mem_filterMap.mpr ⟨i, inside, ?_⟩
    rw [if_neg new, fromIndex, if_neg (Nat.not_lt.mpr small)]

/-- After the first phase the requested signals are loaded. -/
theorem Has.ensureLoaded {b : WellenBackend} (has : b.Has c tl) {sids : List BackendSid}
    (known : ∀ s ∈ sids, Answerable b.wave.hierarchy.length s) :
    ∃ b', b.ensureLoaded c sids = some b' ∧ b'.Has c tl ∧ b'.wave.hierarchy = b.wave.hierarchy ∧
      ∀ s ∈ sids, s ≤ maxIndex → (b'.wave.signals s).isSome := by
  have asked {i : Nat} := @mem_toLoad b sids i
  rw [WellenBackend.ensureLoaded]
  dsimp only
  generalize sids.filterMap (fun s => if s ∈ b.loaded then none else fromIndex s) = toLoad at asked ⊢
  split
  next nothing =>
    refine ⟨b, rfl, has, rfl, fun s member small => has.loaded s (by_contra fun new => ?_)⟩
    have missing := asked.mpr ⟨member, new, small⟩
    rw [List.isEmpty_iff.mp nothing] at missing
    cases missing
  next =>
    have known' : ∀ i ∈ sortDedup toLoad, i < b.wave.hierarchy.length := by
      intro i member
      obtain ⟨inside, -, small⟩ := asked.mp (mem_sortDedup.mp member)
      exact (known i inside).resolve_right (Nat.not_lt.mpr small)
    obtain ⟨wave, loaded, has', same, there⟩ := has.wave.loadSignals known'
    refine ⟨⟨wave, b.loaded ∪ (sortDedup toLoad).toFinset⟩, ?_, ⟨has', fun i member => ?_⟩, same,
      fun s member small => ?_⟩
    · rw [loaded]
      rfl
    · rcases Finset.mem_union.mp member with old | new
      · exact there i (.inr (has.loaded i old))
      · exact there i (.inl (List.mem_toFinset.mp new))
    · by_cases old : s ∈ b.loaded
      · exact there s (.inr (has.loaded s old))
      · exact there s (.inl (mem_sortDedup.mpr (asked.mpr ⟨member, old, small⟩)))

/-- A request for a signal that the hierarchy does not know is a panic. -/
theorem Has.loadTraces_unknown {b : WellenBackend} (has : b.Has c tl) {sids : List BackendSid}
    {s : BackendSid} (member : s ∈ sids) (unknown : ¬ Answerable b.wave.hierarchy.length s) :
    b.loadTraces c sids = none := by
  obtain ⟨outside, small⟩ := not_or.mp unknown
  have new : s ∉ b.loaded := by
    intro old
    obtain ⟨sig, own⟩ := Option.isSome_iff_exists.mp (has.loaded s old)
    obtain ⟨tpe, known, -⟩ := has.wave.signals s sig own
    rw [Waveform.getSignalTpe, List.getElem?_eq_none (Nat.not_lt.mp outside)] at known
    cases known
  have asked := mem_toLoad.mpr ⟨member, new, Nat.not_lt.mp small⟩
  rw [WellenBackend.loadTraces, WellenBackend.ensureLoaded]
  dsimp only
  generalize sids.filterMap (fun s => if s ∈ b.loaded then none else fromIndex s) = toLoad at asked ⊢
  rw [if_neg (by simpa using List.ne_nil_of_mem asked),
    has.wave.loadSignals_unknown (mem_sortDedup.mpr asked) (Nat.not_lt.mp outside)]
  rfl

/-- A loaded signal is decoded to its trace. -/
theorem Has.decodeSignal {b : WellenBackend} (has : b.Has c tl) {i : Nat} {sig : Signal}
    (own : b.wave.signals i = some sig) : b.decodeSignal sig = some (traceOf c tl i) := by
  obtain ⟨tpe, known, loaded⟩ := has.wave.signals i sig own
  obtain ⟨sig', changes, loaded', iter, values⟩ := has.wave.gives i tpe (Waveform.loadable known)
  rw [loaded] at loaded'
  cases loaded'
  rw [WellenBackend.decodeSignal, iter]
  refine mapM_of_map_eq values fun k k' member same => ?_
  obtain ⟨time, value⟩ := Prod.mk.inj same
  obtain ⟨v, recorded, shown⟩ := mem_signal member
  obtain ⟨tpe, -, typed⟩ := has.wave.ordered.values _ recorded
  dsimp only [Option.bind_eq_bind]
  rw [has.wave.timeTable, time, Option.bind_some]
  rw [decodeValue_eq typed (value.trans shown), shown]
  rfl

theorem Has.loadTraces {b : WellenBackend} (has : b.Has c tl) {sids : List BackendSid}
    (known : ∀ s ∈ sids, Answerable b.wave.hierarchy.length s)
    (few : b.wave.hierarchy.length ≤ maxIndex + 1) :
    ∃ b', b.loadTraces c sids = some (b', sids.map (traceOf c tl)) ∧ b'.Has c tl ∧
      b'.wave.hierarchy = b.wave.hierarchy := by
  obtain ⟨b', ensured, has', same, there⟩ := has.ensureLoaded known
  have each : ∀ s ∈ sids, b'.decodeLoaded s = some (traceOf c tl s) := by
    intro s member
    rw [decodeLoaded, fromIndex]
    by_cases large : maxIndex < s
    · -- No change is recorded for a signal that the hierarchy does not know.
      have outside : (groundSignalEncodings b.wave.hierarchy)[s]? = none := by
        rw [List.getElem?_eq_none_iff, groundSignalEncodings, List.length_map]
        omega
      have absent : ∀ tpe, (groundSignalEncodings b.wave.hierarchy)[s]? ≠ some (some tpe) := fun _ =>
        outside.trans_ne (Option.some_ne_none _).symm
      rw [if_pos large, traceOf_eq_nil has.wave.ordered absent]
    · obtain ⟨sig, own⟩ := Option.isSome_iff_exists.mp (there s member (Nat.not_lt.mp large))
      rw [if_neg large]
      dsimp only
      rw [own]
      exact has'.decodeSignal own
  refine ⟨b', ?_, has', same⟩
  rw [WellenBackend.loadTraces, ensured]
  dsimp only [Option.bind_eq_bind, Option.bind_some]
  rw [mapM_eq_map each]
  rfl

/-- Any requests, one after the other. -/
theorem Has.runRequests {b : WellenBackend} (has : b.Has c tl) {requests : List (List BackendSid)}
    (known : ∀ sids ∈ requests, ∀ s ∈ sids, Answerable b.wave.hierarchy.length s)
    (few : b.wave.hierarchy.length ≤ maxIndex + 1) :
    ∃ b', b.runRequests c requests =
      some (b', requests.map fun sids => sids.map (traceOf c tl)) := by
  induction requests generalizing b with
  | nil => exact ⟨b, rfl⟩
  | cons sids requests ih =>
    obtain ⟨next, loaded, has', same⟩ := has.loadTraces (known sids List.mem_cons_self) few
    obtain ⟨b', rest⟩ := ih has' (fun sids member => same ▸ known sids (.tail _ member)) (same ▸ few)
    refine ⟨b', ?_⟩
    rw [WellenBackend.runRequests, loaded]
    dsimp only [Option.bind_eq_bind, Option.bind_some]
    rw [rest]
    rfl

/-- A handle that cannot be answered is a panic, whatever was requested before. -/
theorem Has.runRequests_unknown {b : WellenBackend} (has : b.Has c tl)
    {requests : List (List BackendSid)} (few : b.wave.hierarchy.length ≤ maxIndex + 1)
    (unknown : ¬ ∀ sids ∈ requests, ∀ s ∈ sids, Answerable b.wave.hierarchy.length s) :
    b.runRequests c requests = none := by
  induction requests generalizing b with
  | nil => exact absurd nofun unknown
  | cons sids requests ih =>
    rw [WellenBackend.runRequests]
    by_cases first : ∀ s ∈ sids, Answerable b.wave.hierarchy.length s
    · obtain ⟨next, loaded, has', same⟩ := has.loadTraces first few
      have later : next.runRequests c requests = none := by
        refine ih has' (same ▸ few) fun all => unknown ?_
        rw [same] at all
        exact List.forall_mem_cons.mpr ⟨first, all⟩
      rw [loaded]
      dsimp only [Option.bind_eq_bind, Option.bind_some]
      rw [later]
      rfl
    · push Not at first
      obtain ⟨s, member, unknown⟩ := first
      rw [has.loadTraces_unknown member unknown]
      rfl

end WellenBackend

/-! ## Traces of a recording -/

section Traces

variable {encodings : List (Option SignalEncoding)} {c : Crates} {tl : Timeline}

/-- The changes of a signal, also those that set the value it has already. -/
def recordedTrace (c : Crates) (tl : Timeline) (i : Nat) : SignalTrace :=
  (tl.of i).map fun k => ⟨asI64 k.1, rawOf (k.2.value c)⟩

theorem asI64_of_mem (ordered : Recording.Ordered encodings tl) (past : ∀ t ∈ tl.times, t < 2 ^ 63)
    {i : Nat} {k : Nat × VcdValue} (member : k ∈ tl.of i) : asI64 k.1 = k.1 :=
  asI64_eq (past _ (ordered.inside _ (mem_of member)))

theorem recordedTrace_ordered (ordered : Recording.Ordered encodings tl)
    (past : ∀ t ∈ tl.times, t < 2 ^ 63) (i : Nat) : (recordedTrace c tl i).Ordered := by
  have inOrder : (tl.of i).Pairwise fun a b => a.1 ≤ b.1 := by
    refine ordered.changes.filterMap _ fun a b le k own k' own' => ?_
    split at own
    · split at own'
      · cases own
        cases own'
        exact le
      · cases own'
    · cases own
  refine List.pairwise_map.mpr (inOrder.imp_of_mem fun {a b} before behind le => ?_)
  dsimp only
  rw [asI64_of_mem ordered past before, asI64_of_mem ordered past behind]
  exact Int.ofNat_le.mpr le

theorem traceOf_sublist (i : Nat) : (traceOf c tl i).Sublist (recordedTrace c tl i) := by
  have seen := (List.destutter_sublist SignalValue.Differ
    ((tl.of i).map fun k => (k.1, k.2.value c))).map fun k => (⟨asI64 k.1, rawOf k.2⟩ : Change)
  rw [List.map_map] at seen
  exact seen

/-- A trace is in time order. -/
theorem traceOf_ordered (ordered : Recording.Ordered encodings tl)
    (past : ∀ t ∈ tl.times, t < 2 ^ 63) (i : Nat) : (traceOf c tl i).Ordered :=
  (recordedTrace_ordered ordered past i).sublist (traceOf_sublist i)

end Traces

/-! ## The backend of a VCD -/

section Vcd

variable {c : Crates} {lookup : IdLookup} {hierarchy : List HierarchySignal} {skip : List UInt8}

theorem WellenBackend.has_new {reader : Reader} {tl : Timeline}
    (ordered : Recording.Ordered (groundSignalEncodings hierarchy) tl)
    (gives : Gives c (groundSignalEncodings hierarchy) tl reader) :
    (WellenBackend.new hierarchy reader tl.times).Has c tl :=
  ⟨⟨rfl, ordered, gives, nofun⟩, by simp [WellenBackend.new]⟩

/-- A dump that is written and opened answers requests of known handles, however many and in whatever
order, with the traces of its changes, and panics on any other request. The traces are in time order
when the times are `i64`s, and those of derived signals are empty. -/
theorem loadTraces_written {dump : List DumpLine} {r : Recording}
    (writable : Writable c lookup (groundSignalEncodings hierarchy) skip dump r)
    (few : hierarchy.length ≤ maxIndex + 1)
    {threads : Option Nat} (several : ∀ n, threads = some n → 0 < n ∧ n ≤ 8193) :
    ∃ reader, readValues c lookup (groundSignalEncodings hierarchy) (bodyText skip dump) threads =
        .ok (reader, r.timeline.times) ∧
      (∀ requests,
        (∀ sids ∈ requests, ∀ s ∈ sids, WellenBackend.Answerable hierarchy.length s) →
        ∃ b, (WellenBackend.new hierarchy reader r.timeline.times).runRequests c requests =
          some (b, requests.map fun sids => sids.map (traceOf c r.timeline))) ∧
      (∀ requests,
        (¬ ∀ sids ∈ requests, ∀ s ∈ sids, WellenBackend.Answerable hierarchy.length s) →
        (WellenBackend.new hierarchy reader r.timeline.times).runRequests c requests = none) ∧
      ((∀ t ∈ r.timeline.times, t < 2 ^ 63) → ∀ i, (traceOf c r.timeline i).Ordered) ∧
      ∀ i info, hierarchy[i]? = some info → info.derived = true → traceOf c r.timeline i = [] := by
  have inOrder := (Recording.ordered_empty (groundSignalEncodings hierarchy)).run writable.recorded
  obtain ⟨reader, read, gives⟩ := readValues_recorded writable.readable several
  have has := WellenBackend.has_new inOrder gives
  refine ⟨reader, read, fun requests known => has.runRequests known few,
    fun requests unknown => has.runRequests_unknown few unknown,
    fun past => traceOf_ordered inOrder past, fun i info entry derived => ?_⟩
  refine traceOf_eq_nil inOrder fun tpe known => ?_
  rw [groundSignalEncodings, List.getElem?_map, entry, Option.map_some, if_pos derived] at known
  cases known

/-- Every change of a trace lies in the time range of the backend. -/
theorem WellenBackend.Has.inTime {b : WellenBackend} {tl : Timeline} (has : b.Has c tl)
    (past : ∀ t ∈ tl.times, t < 2 ^ 63) {i : Nat} {change : Change} (member : change ∈ traceOf c tl i) :
    ∃ first last, b.timeRange = some (first, last) ∧ first ≤ change.tick ∧ change.tick ≤ last := by
  have ordered := has.wave.ordered
  obtain ⟨k, among, rfl⟩ := List.mem_map.mp ((traceOf_sublist i).subset member)
  have inside : k.1 ∈ tl.times := ordered.inside _ (mem_of among)
  have nonempty : tl.times ≠ [] := List.ne_nil_of_mem inside
  have asInt {t : Nat} (recorded : t ∈ tl.times) : asI64 t = t := asI64_eq (past t recorded)
  refine ⟨asI64 (tl.times.head nonempty), asI64 (tl.times.getLast nonempty), ?_, ?_, ?_⟩
  · rw [timeRange, has.wave.timeTable, List.head?_eq_some_head nonempty,
      List.getLast?_eq_some_getLast nonempty]
    rfl
  · dsimp only
    rw [asInt (List.head_mem nonempty), asInt inside]
    exact Int.ofNat_le.mpr (ordered.head_le nonempty inside)
  · dsimp only
    rw [asInt (List.getLast_mem nonempty), asInt inside]
    exact Int.ofNat_le.mpr (ordered.le_getLast (List.getLast?_eq_some_getLast nonempty) inside)

/-- The hierarchy of the long dump. -/
def longHierarchy : List HierarchySignal :=
  [⟨false, .bitVector 1⟩, ⟨false, .bitVector 4⟩, ⟨true, .bitVector 2⟩]

theorem longDump_loadTraces : ∃ reader b,
    readValues plainCrates none shortEncodings (bodyText (asciiBytes " $end") longDump) (some 3) =
        .ok (reader, [0, 5, 7]) ∧
      (WellenBackend.new longHierarchy reader [0, 5, 7]).runRequests plainCrates [[0, 1], [2, 0]] =
        some (b, [[[⟨0, .bits "1"⟩, ⟨5, .bits "0"⟩],
          [⟨0, .bits "xxx1"⟩, ⟨5, .bits "0011"⟩, ⟨7, .bits "0001"⟩]],
          [[], [⟨0, .bits "1"⟩, ⟨5, .bits "0"⟩]]]) := by
  have writable : Writable plainCrates none (groundSignalEncodings longHierarchy)
      (asciiBytes " $end") longDump longRecording := longDump_writable
  have several : ∀ n, some 3 = some n → 0 < n ∧ n ≤ 8193 := fun n own => by cases own; decide
  have known : ∀ sids ∈ [[0, 1], [2, 0]], ∀ s ∈ sids,
      WellenBackend.Answerable longHierarchy.length s := by
    unfold WellenBackend.Answerable
    decide
  obtain ⟨reader, read, answered, -⟩ := loadTraces_written writable (by decide) several
  obtain ⟨b, answers⟩ := answered _ known
  have traces : ([[0, 1], [2, 0]].map fun sids => sids.map (traceOf plainCrates longRecording.timeline)) =
      [[[⟨0, .bits "1"⟩, ⟨5, .bits "0"⟩],
          [⟨0, .bits "xxx1"⟩, ⟨5, .bits "0011"⟩, ⟨7, .bits "0001"⟩]],
          [[], [⟨0, .bits "1"⟩, ⟨5, .bits "0"⟩]]] := by
    decide +kernel
  rw [traces] at answers
  exact ⟨reader, b, read, answers⟩

end Vcd

end RWave.Backend
