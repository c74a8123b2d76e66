import RWave.Model.Mock

/-!
# The states of the trace cache

The uses that the commands make of the cache, one after the other from a freshly opened file. The
states they reach are those in which every resident trace is complete (`reachable_iff`), whatever is
resident. From each of them a batched iteration visits the same traces and leaves the state as it
was.
-/

namespace RWave.Model

variable {F : File}

namespace Wave

/-- `ensure_all_loaded`. -/
def ensureAllLoaded (w : Wave F) : Wave F := w.ensureLoaded F.allSids

/-- A use of the cache. -/
inductive CacheOp (F : File) where
  | ensureLoaded (sids : List F.Sid)
  | ensureAllLoaded
  | releaseTraces (sids : List F.Sid)
  | batched (sids : Option (List F.Sid)) (batch : Nat)
  | windowed (sids : Option (List F.Sid)) (batch : Nat) (frm : Int) (upto : Option Int)

/-- The cache after a use. -/
def CacheOp.apply (w : Wave F) : CacheOp F → Wave F
  | .ensureLoaded sids => w.ensureLoaded sids
  | .ensureAllLoaded => w.ensureAllLoaded
  | .releaseTraces sids => w.releaseTraces sids
  | .batched sids batch => (w.forEachSignalBatched sids batch).2
  | .windowed sids batch frm upto => (w.forEachSignalWindowed sids batch frm upto).2

/-- The cache after some uses of it. -/
def runCache (F : File) (ops : List (CacheOp F)) : Wave F := ops.foldl CacheOp.apply (fresh F)

/-- A state that the cache gets into. -/
def Reachable (w : Wave F) : Prop := ∃ ops, runCache F ops = w

theorem Consistent.apply {w : Wave F} (h : w.Consistent) (op : CacheOp F) :
    (op.apply w).Consistent := by
  cases op with
  | ensureLoaded sids => exact h.ensureLoaded sids
  | ensureAllLoaded => exact h.ensureLoaded F.allSids
  | releaseTraces sids => exact h.releaseTraces sids
  | batched sids batch =>
    rw [CacheOp.apply, h.forEachSignalBatched]
    exact h
  | windowed sids batch frm upto =>
    rw [CacheOp.apply, h.forEachSignalWindowed]
    exact h

theorem consistent_runCache (ops : List (CacheOp F)) : (runCache F ops).Consistent := by
  induction ops using List.reverseRecOn with
  | nil => exact consistent_fresh F
  | append_singleton ops op ih =>
    rw [runCache, List.foldl_append, ← runCache]
    exact ih.apply op

/-- Loading the resident traces of a state from scratch leads back to it. -/
theorem Consistent.runCache_resident {w : Wave F} (h : w.Consistent) :
    runCache F [.ensureLoaded (F.allSids.filter fun sid => (w.traces sid).isSome)] = w := by
  ext1
  funext sid
  change ((fresh F).ensureLoaded _).traces sid = _
  rw [ensureLoaded_traces]
  cases found : w.traces sid with
  | none => simp [found, fresh]
  | some tr => simp [found, fresh, File.allSids, h sid tr found]

/-- The cache gets into a state exactly if the resident traces of it are complete. -/
theorem reachable_iff {w : Wave F} : w.Reachable ↔ w.Consistent := by
  constructor
  · rintro ⟨ops, rfl⟩
    exact consistent_runCache ops
  · intro h
    exact ⟨_, h.runCache_resident⟩

/-- From every state of the cache a batched iteration visits the complete traces of the list, one
for each position in order, and leaves the state as it was. -/
theorem batched_exactly_once {w : Wave F} (reachable : w.Reachable)
    (sids : Option (List F.Sid)) (batch : Nat) :
    (w.forEachSignalBatched sids batch).1 =
        (F.selected sids).map (fun sid => (sid, F.traceOf sid)) ∧
      (w.forEachSignalBatched sids batch).2 = w := by
  rw [(reachable_iff.mp reachable).forEachSignalBatched]
  exact ⟨rfl, rfl⟩

/-- Two aliases of one handle, and a signal between them. -/
def aliasFile : File := MockBackend.file ⟨[(0, [⟨2, .bits "1"⟩]), (1, []), (0, [])], false, false⟩

/-- The file with everything loaded but its first signal. -/
def aliasCache : Wave aliasFile :=
  runCache aliasFile [.ensureAllLoaded, .releaseTraces [⟨0, by decide⟩]]

theorem batched_exactly_once_aliases :
    (aliasCache.forEachSignalBatched
        (some [⟨2, by decide⟩, ⟨0, by decide⟩, ⟨2, by decide⟩]) 0).1 =
        (aliasFile.selected (some [⟨2, by decide⟩, ⟨0, by decide⟩, ⟨2, by decide⟩])).map
          (fun sid => (sid, aliasFile.traceOf sid)) ∧
      (aliasCache.forEachSignalBatched
        (some [⟨2, by decide⟩, ⟨0, by decide⟩, ⟨2, by decide⟩]) 0).2 = aliasCache :=
  batched_exactly_once ⟨_, rfl⟩ _ _

end Wave

end RWave.Model
