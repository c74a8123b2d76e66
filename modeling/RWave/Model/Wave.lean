import RWave.Backend.Basic

/-!
# The loaded waveform and its trace cache

The part of `model.rs` that decodes, caches and releases traces. A `File` is what stays fixed
while a waveform is open: the backend and the signal table. A `Wave` is the part that commands
change, the cache of decoded traces. A `Sid` is an index into the table, so no lookup can miss.

`Consistent` is the cache's invariant: an entry is absent or the complete trace of its signal.
Loading and releasing keep it, and under it the batched iteration hands every signal's complete
trace to its consumer, in the order of the request, and leaves the cache as it found it.
-/

namespace RWave.Model

open RWave.Backend

/-- Metadata of one signal. `aliasScopes` pairs with `aliases` by index. -/
structure SignalInfo where
  path : String
  aliases : List String
  width : Nat
  typeStr : String
  kind : ValueKind
  aliasScopes : List String
  declOrder : Nat
  backendSid : BackendSid
  deriving DecidableEq, Repr

/-- `SignalInfo::alias_pairs`: each alias with its scope. -/
def SignalInfo.aliasPairs (info : SignalInfo) : List (String × String) :=
  info.aliases.zip info.aliasScopes

/-- What an open waveform keeps for as long as it is open. -/
structure File where
  backend : WaveformBackend
  signals : List SignalInfo
  rawVarCount : Nat
  typeCounts : List (String × Nat)

namespace File

variable (F : File)

/-- A dense signal id: an index into the signal table. -/
abbrev Sid : Type := Fin F.signals.length

def signal (sid : F.Sid) : SignalInfo := F.signals[sid]

/-- `0..signals.len()`. -/
def allSids : List F.Sid := List.finRange _

/-- The signals an optional selection names: all of them without one. -/
def selected (sids : Option (List F.Sid)) : List F.Sid := sids.getD F.allSids

/-- A signal's complete trace. -/
def traceOf (sid : F.Sid) : SignalTrace := F.backend.loadTrace (F.signal sid).backendSid

/-- Declaration orders are pairwise distinct, as the signal table is built. -/
def DeclDistinct : Prop := ∀ a b : F.Sid, (F.signal a).declOrder = (F.signal b).declOrder → a = b

/-- Every trace of the file is in time order. -/
def TracesOrdered : Prop := ∀ sid, (F.traceOf sid).Ordered

end File

/-- The cache of decoded traces; `none` until first load. -/
@[ext] structure Wave (F : File) where
  traces : F.Sid → Option SignalTrace

namespace Wave

variable {F : File}

/-- A freshly opened waveform (`from_backend`): nothing is resident. -/
def fresh (F : File) : Wave F := ⟨fun _ => none⟩

/-- `self.traces[sid] = entry`. -/
def set (w : Wave F) (sid : F.Sid) (entry : Option SignalTrace) : Wave F :=
  ⟨Function.update w.traces sid entry⟩

@[simp] theorem set_traces (w : Wave F) (sid : F.Sid) (entry : Option SignalTrace) :
    (w.set sid entry).traces = Function.update w.traces sid entry := rfl

/-! ## Requests by backend handle -/

/-- The distinct handles of the signals that are not skipped, and the signals of each: the
`need_backend` and `backend_to_sids` of `ensure_loaded` and `for_each_signal_windowed`. -/
structure Request (F : File) where
  needBackend : List BackendSid
  backendToSids : BackendSid → List F.Sid

def Request.empty : Request F := ⟨[], fun _ => []⟩

def Request.add (r : Request F) (sid : F.Sid) : Request F :=
  let bsid := (F.signal sid).backendSid
  let backendToSids := Function.update r.backendToSids bsid (r.backendToSids bsid ++ [sid])
  { needBackend :=
      if (backendToSids bsid).length = 1 then r.needBackend ++ [bsid] else r.needBackend
    backendToSids }

def request (skip : F.Sid → Bool) (sids : List F.Sid) : Request F :=
  sids.foldl (fun r sid => if skip sid then r else r.add sid) .empty

theorem Request.add_backendToSids (r : Request F) (sid : F.Sid) (bsid : BackendSid) :
    (r.add sid).backendToSids bsid =
      r.backendToSids bsid ++ if (F.signal sid).backendSid = bsid then [sid] else [] := by
  by_cases same : (F.signal sid).backendSid = bsid
  · subst same
    simp [add]
  · simp [add, same, Function.update_of_ne (Ne.symm same)]

theorem Request.add_needBackend (r : Request F) (sid : F.Sid) :
    (r.add sid).needBackend = r.needBackend ++
      if r.backendToSids (F.signal sid).backendSid = [] then [(F.signal sid).backendSid]
      else [] := by
  by_cases first : r.backendToSids (F.signal sid).backendSid = []
  · simp [add, first]
  · simp [add, first]

theorem request_append_singleton (skip : F.Sid → Bool) (sids : List F.Sid) (sid : F.Sid) :
    request skip (sids ++ [sid]) =
      if skip sid then request skip sids else (request skip sids).add sid := by
  simp [request, List.foldl_append]

/-- A request groups the signals that are not skipped by their handles. -/
theorem request_backendToSids (skip : F.Sid → Bool) (sids : List F.Sid) (bsid : BackendSid) :
    (request skip sids).backendToSids bsid =
      sids.filter fun sid => !skip sid && (F.signal sid).backendSid == bsid := by
  induction sids using List.reverseRecOn with
  | nil => rfl
  | append_singleton sids sid ih =>
    rw [request_append_singleton, List.filter_append, ← ih]
    by_cases skipped : skip sid
    · simp [skipped]
    · by_cases same : (F.signal sid).backendSid = bsid
      · simp [skipped, Request.add_backendToSids, same]
      · simp [skipped, Request.add_backendToSids, same]

/-- The requested handles are those with a signal, each once. -/
theorem request_needBackend (skip : F.Sid → Bool) (sids : List F.Sid) :
    (request skip sids).needBackend.Nodup ∧ ∀ bsid, bsid ∈ (request skip sids).needBackend ↔
      (request skip sids).backendToSids bsid ≠ [] := by
  induction sids using List.reverseRecOn with
  | nil => simp [request, Request.empty]
  | append_singleton sids sid ih =>
    obtain ⟨nodup, mem⟩ := ih
    rw [request_append_singleton]
    by_cases skipped : skip sid
    · simpa [skipped] using ⟨nodup, mem⟩
    · rw [if_neg skipped, Request.add_needBackend]
      by_cases first : (request skip sids).backendToSids (F.signal sid).backendSid = []
      · have absent := mt (mem (F.signal sid).backendSid).mp (not_not.mpr first)
        rw [if_pos first]
        refine ⟨List.nodup_append.mpr ⟨nodup, List.nodup_singleton _, ?_⟩, fun bsid => ?_⟩
        · rintro a ha b hb rfl
          exact absent (List.mem_singleton.mp hb ▸ ha)
        · rw [Request.add_backendToSids, List.mem_append, mem]
          by_cases same : (F.signal sid).backendSid = bsid
          · simp [same]
          · simp [same, Ne.symm same]
      · rw [if_neg first, List.append_nil]
        refine ⟨nodup, fun bsid => ?_⟩
        rw [Request.add_backendToSids, mem]
        by_cases same : (F.signal sid).backendSid = bsid
        · subst same
          simp [first]
        · simp [same]

theorem request_mem (skip : F.Sid → Bool) (sids : List F.Sid) (sid : F.Sid) :
    sid ∈ (request skip sids).backendToSids (F.signal sid).backendSid ↔
      sid ∈ sids ∧ skip sid = false := by
  simp [request_backendToSids]

/-! ## Loading and releasing -/

/-- `ensure_loaded`: decode the traces of `sids` that are not resident, once for each handle,
and cache them. Every signal of a handle receives (a clone of) its trace. -/
def ensureLoaded (w : Wave F) (sids : List F.Sid) : Wave F :=
  let r := request (fun sid => (w.traces sid).isSome) sids
  if r.needBackend.isEmpty then
    w
  else
    let decoded := F.backend.loadTraces r.needBackend
    (r.needBackend.zip decoded).foldl
      (fun w (bsid, trace) =>
        (r.backendToSids bsid).foldl (fun w sid => w.set sid (some trace)) w) w

/-- `release_traces`. -/
def releaseTraces (w : Wave F) (sids : List F.Sid) : Wave F :=
  sids.foldl (fun w sid => w.set sid none) w

/-- Every resident trace is complete. -/
def Consistent (w : Wave F) : Prop := ∀ sid tr, w.traces sid = some tr → tr = F.traceOf sid

theorem consistent_fresh (F : File) : (fresh F).Consistent := by
  intro sid tr h
  cases h

theorem foldl_set_traces (w : Wave F) (targets : List F.Sid) (entry : Option SignalTrace)
    (sid : F.Sid) :
    (targets.foldl (fun w sid => w.set sid entry) w).traces sid =
      if sid ∈ targets then entry else w.traces sid := by
  induction targets generalizing w with
  | nil => simp
  | cons target targets ih =>
    rw [List.foldl_cons, ih, set_traces]
    by_cases same : sid = target
    · simp [same]
    · simp [same]

/-- Storing the traces of some handles sets the entries of the signals grouped under them. -/
theorem store_traces (groups : BackendSid → List F.Sid)
    (grouped : ∀ bsid, ∀ sid ∈ groups bsid, (F.signal sid).backendSid = bsid)
    (need : List BackendSid) (w : Wave F) (sid : F.Sid) :
    ((need.zip (F.backend.loadTraces need)).foldl
      (fun w (bsid, trace) => (groups bsid).foldl (fun w sid => w.set sid (some trace)) w)
      w).traces sid =
      if (F.signal sid).backendSid ∈ need ∧ sid ∈ groups (F.signal sid).backendSid then
        some (F.traceOf sid)
      else w.traces sid := by
  induction need generalizing w with
  | nil => simp [WaveformBackend.loadTraces]
  | cons bsid need ih =>
    simp only [WaveformBackend.loadTraces, List.map_cons, List.zip_cons_cons, List.foldl_cons]
      at ih ⊢
    rw [ih, foldl_set_traces]
    by_cases member : sid ∈ groups bsid
    · have own := grouped bsid sid member
      subst own
      simp [member, File.traceOf]
    · by_cases own : (F.signal sid).backendSid = bsid
      · subst own
        simp [member]
      · simp [member, own]

/-- What `ensure_loaded` does to one entry. -/
theorem ensureLoaded_traces (w : Wave F) (sids : List F.Sid) (sid : F.Sid) :
    (w.ensureLoaded sids).traces sid =
      if sid ∈ sids ∧ w.traces sid = none then some (F.traceOf sid) else w.traces sid := by
  have inGroup := request_mem (fun sid => (w.traces sid).isSome) sids sid
  simp only [Option.isSome_eq_false_iff, Option.isNone_iff_eq_none] at inGroup
  have grouped : ∀ bsid, ∀ sid' ∈ (request (fun sid => (w.traces sid).isSome) sids).backendToSids
      bsid, (F.signal sid').backendSid = bsid := by
    intro bsid sid' h
    simp only [request_backendToSids, List.mem_filter, Bool.and_eq_true, beq_iff_eq] at h
    exact h.2.2
  have needed := (request_needBackend (fun sid => (w.traces sid).isSome) sids).2
    (F.signal sid).backendSid
  unfold ensureLoaded
  dsimp only
  split
  next empty =>
    rw [List.isEmpty_iff] at empty
    rw [empty] at needed
    have : ¬ (sid ∈ sids ∧ w.traces sid = none) := fun h => by
      have member := inGroup.mpr h
      rw [not_ne_iff.mp (needed.not.mp (by simp))] at member
      cases member
    rw [if_neg this]
  next =>
    rw [store_traces _ grouped]
    by_cases h : sid ∈ sids ∧ w.traces sid = none
    · have member := inGroup.mpr h
      rw [if_pos ⟨needed.mpr (List.ne_nil_of_mem member), member⟩, if_pos h]
    · rw [if_neg (fun both => h (inGroup.mp both.2)), if_neg h]

theorem Consistent.ensureLoaded {w : Wave F} (h : w.Consistent) (sids : List F.Sid) :
    (w.ensureLoaded sids).Consistent := by
  intro sid tr found
  rw [ensureLoaded_traces] at found
  split at found
  · exact (Option.some.inj found).symm
  · exact h sid tr found

/-- After `ensure_loaded` the complete traces of the request are resident. -/
theorem Consistent.ensureLoaded_mem {w : Wave F} (h : w.Consistent) {sids : List F.Sid}
    {sid : F.Sid} (member : sid ∈ sids) :
    (w.ensureLoaded sids).traces sid = some (F.traceOf sid) := by
  rw [ensureLoaded_traces]
  cases found : w.traces sid with
  | none => simp [member]
  | some tr => simp [h sid tr found]

theorem Consistent.releaseTraces {w : Wave F} (h : w.Consistent) (sids : List F.Sid) :
    (w.releaseTraces sids).Consistent := by
  intro sid tr found
  unfold Wave.releaseTraces at found
  rw [foldl_set_traces] at found
  split at found
  · cases found
  · exact h sid tr found

/-! ## Batched iteration -/

/-- The `while i < all.len()` loop of `for_each_signal_batched`. The first component is the
sequence of calls of `f`. -/
def batchedLoop (batch : Nat) (w : Wave F) (all : List F.Sid) :
    List (F.Sid × SignalTrace) × Wave F :=
  match all with
  | [] => ([], w)
  | sid :: rest =>
    let chunk := (sid :: rest).take (max batch 1)
    let preloaded := chunk.map fun s => (w.traces s).isSome
    let loaded := w.ensureLoaded chunk
    let calls := chunk.filterMap fun s => (loaded.traces s).map fun tr => (s, tr)
    -- Release the traces this batch introduced.
    let released := (chunk.zip preloaded).foldl
      (fun w (s, pre) => if pre then w else w.set s none) loaded
    let next := batchedLoop batch released ((sid :: rest).drop (max batch 1))
    (calls ++ next.1, next.2)
termination_by all.length
decreasing_by rw [List.length_drop, List.length_cons]; omega

/-- `for_each_signal_batched`: the calls of `f`, and the cache afterwards. -/
def forEachSignalBatched (w : Wave F) (sids : Option (List F.Sid)) (batch : Nat) :
    List (F.Sid × SignalTrace) × Wave F :=
  batchedLoop batch w (F.selected sids)

theorem foldl_release_traces (pairs : List (F.Sid × Bool)) (w : Wave F) (sid : F.Sid) :
    (pairs.foldl (fun w (s, pre) => if pre then w else w.set s none) w).traces sid =
      if (sid, false) ∈ pairs then none else w.traces sid := by
  induction pairs generalizing w with
  | nil => simp
  | cons pair pairs ih =>
    obtain ⟨s, pre⟩ := pair
    rw [List.foldl_cons, ih]
    cases pre with
    | true => simp
    | false =>
      by_cases same : sid = s
      · simp [same]
      · simp [same]

/-- One batch hands out the complete traces and restores the cache. -/
theorem Consistent.batch {w : Wave F} (h : w.Consistent) (chunk : List F.Sid) :
    (chunk.filterMap fun s => ((w.ensureLoaded chunk).traces s).map fun tr => (s, tr)) =
      chunk.map (fun s => (s, F.traceOf s)) ∧
    (chunk.zip (chunk.map fun s => (w.traces s).isSome)).foldl
      (fun w (s, pre) => if pre then w else w.set s none) (w.ensureLoaded chunk) = w := by
  constructor
  · rw [← List.filterMap_eq_map]
    refine List.filterMap_congr ?_
    intro s hs
    simp [h.ensureLoaded_mem hs]
  · ext1
    funext sid
    rw [foldl_release_traces]
    have zipped : ∀ l : List F.Sid, ((sid, false) ∈ l.zip (l.map fun s => (w.traces s).isSome)) ↔
        sid ∈ l ∧ w.traces sid = none := by
      intro l
      induction l with
      | nil => simp
      | cons s l ih =>
        simp only [List.map_cons, List.zip_cons_cons, List.mem_cons, Prod.mk.injEq, ih]
        constructor
        · rintro (⟨rfl, absent⟩ | ⟨member, absent⟩)
          · exact ⟨.inl rfl, by simpa using absent.symm⟩
          · exact ⟨.inr member, absent⟩
        · rintro ⟨rfl | member, absent⟩
          · exact .inl ⟨rfl, by simp [absent]⟩
          · exact .inr ⟨member, absent⟩
    rw [ensureLoaded_traces]
    by_cases loaded : sid ∈ chunk ∧ w.traces sid = none
    · rw [if_pos ((zipped chunk).mpr loaded), loaded.2]
    · rw [if_neg (mt (zipped chunk).mp loaded), if_neg loaded]

theorem Consistent.batchedLoop {w : Wave F} (h : w.Consistent) (batch : Nat) (all : List F.Sid) :
    batchedLoop batch w all = (all.map fun s => (s, F.traceOf s), w) := by
  fun_induction Wave.batchedLoop batch w all with
  | case1 w => rfl
  | case2 w sid rest chunk preloaded loaded calls released next ih =>
    obtain ⟨allCalls, restored⟩ := h.batch chunk
    have same : released = w := restored
    have tail := ih (same ▸ h)
    simp only [next, tail, calls, allCalls, same, chunk, loaded]
    rw [← List.map_append, List.take_append_drop]

/-- Batched iteration visits the complete traces in the requested order and leaves the cache as
it was, whatever the batch size. -/
theorem Consistent.forEachSignalBatched {w : Wave F} (h : w.Consistent)
    (sids : Option (List F.Sid)) (batch : Nat) :
    w.forEachSignalBatched sids batch = ((F.selected sids).map fun s => (s, F.traceOf s), w) :=
  h.batchedLoop batch _

/-! ## Windowed iteration -/

/-- The handles of one batch with what the backend decodes for them over the window. -/
def windowAnswers (F : File) (frm : Int) (upto : Option Int) (chunk : List F.Sid) :
    List (BackendSid × SignalTrace) :=
  let needBackend := (request (fun _ => false) chunk).needBackend
  needBackend.zip (F.backend.loadTracesWindowed needBackend frm upto)

/-- One batch of `for_each_signal_windowed`: each decoded trace goes to the signals of its
handle. The cache is not touched. -/
def windowedBatch (F : File) (frm : Int) (upto : Option Int) (chunk : List F.Sid) :
    List (F.Sid × SignalTrace) :=
  (windowAnswers F frm upto chunk).flatMap fun (bsid, trace) =>
    ((request (fun _ => false) chunk).backendToSids bsid).map fun sid => (sid, trace)

/-- The `while i < all.len()` loop of `for_each_signal_windowed`. -/
def windowedLoop (F : File) (batch : Nat) (frm : Int) (upto : Option Int) (all : List F.Sid) :
    List (F.Sid × SignalTrace) :=
  match all with
  | [] => []
  | sid :: rest =>
    windowedBatch F frm upto ((sid :: rest).take (max batch 1)) ++
      windowedLoop F batch frm upto ((sid :: rest).drop (max batch 1))
termination_by all.length
decreasing_by rw [List.length_drop, List.length_cons]; omega

/-- `for_each_signal_windowed`. -/
def forEachSignalWindowed (w : Wave F) (sids : Option (List F.Sid)) (batch : Nat) (frm : Int)
    (upto : Option Int) : List (F.Sid × SignalTrace) × Wave F :=
  if F.backend.supportsWindowed then
    (windowedLoop F batch frm upto (F.selected sids), w)
  else
    w.forEachSignalBatched sids batch

theorem Consistent.forEachSignalWindowed {w : Wave F} (h : w.Consistent)
    (sids : Option (List F.Sid)) (batch : Nat) (frm : Int) (upto : Option Int) :
    w.forEachSignalWindowed sids batch frm upto =
      (((fresh F).forEachSignalWindowed sids batch frm upto).1, w) := by
  unfold Wave.forEachSignalWindowed
  split
  · rfl
  · rw [h.forEachSignalBatched, (consistent_fresh F).forEachSignalBatched]

end Wave

end RWave.Model
