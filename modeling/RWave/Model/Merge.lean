import RWave.Misc.StdHeap
import RWave.Model.LastEvent
import RWave.Model.Mock

/-!
# The replay as a merge

What a callback of `for_each_event` may rely on: every change of the selection in the window, once,
in time order. Nothing is asked of the declaration orders; where two of them are equal the heap
may take either signal first.
-/

namespace RWave.Model

open RWave.Backend RWave.Misc

variable {F : File}

/-- `a` may come before `b`: an earlier tick, or the same one and no later declaration. -/
def File.InOrder (F : File) (a b : Emission F) : Prop :=
  a.1 < b.1 ∨ a.1 = b.1 ∧ (F.signal a.2.1).declOrder ≤ (F.signal b.2.1).declOrder

theorem inOrder_iff {a b : Emission F} : F.InOrder a b ↔ F.emissionKey a ≤ F.emissionKey b := by
  unfold File.emissionKey
  rw [Prod.Lex.toLex_le_toLex]
  exact Iff.rfl

/-- A selection that names no signal twice selects none twice. -/
theorem selected_nodup {sids : Option (List F.Sid)} (nodup : ∀ l, sids = some l → l.Nodup) :
    (F.selected sids).Nodup := by
  cases sids with
  | none => exact List.nodup_finRange _
  | some l => exact nodup l rfl

/-- `for_each_event` is a lossless ordered merge. -/
theorem forEachEvent_merges (w : Wave F) (H : BinaryHeap (HeapEntry.key (F := F))) (t0 : Int)
    (t1 : Option Int) (sids : Option (List F.Sid)) (ordered : ∀ sid, (w.trace sid).Ordered)
    (nodup : ∀ l, sids = some l → l.Nodup) :
    -- Each selected change of the window once, and no other.
    (w.forEachEvent H t0 t1 sids).Perm
      ((F.selected sids).flatMap fun sid => emissions sid t0 t1 (w.trace sid)) ∧
    -- By tick; within a tick by declaration order.
    (w.forEachEvent H t0 t1 sids).Pairwise F.InOrder ∧
    -- A signal's changes as its trace has them.
    ∀ sid, eventsOf sid (w.forEachEvent H t0 t1 sids) =
      if sid ∈ F.selected sids then emissions sid t0 t1 (w.trace sid) else [] := by
  have once := selected_nodup nodup
  obtain ⟨spec, sorted⟩ := w.forEachEvent_spec H t0 t1 sids ordered once
  refine ⟨?_, sorted.imp inOrder_iff.mpr, spec⟩
  refine perm_of_sources (fun e => e.2.1) ?_
  intro sid
  rw [spec, filter_flatMap_emissions once fun sid => w.trace sid]

/-- Two signals that change at one tick, and a first signal that changes twice there. -/
def tiedMock : MockBackend where
  data := [(0, [⟨1, .bits "0"⟩, ⟨4, .bits "1"⟩, ⟨4, .bits "0"⟩]), (1, [⟨4, .bits "1"⟩])]
  windowed := false
  wlfSeedShape := false

/-- The file with both signals resident. -/
def tiedWave : Wave tiedMock.file := (Wave.fresh tiedMock.file).ensureLoaded tiedMock.file.allSids

theorem forEachEvent_merges_tied :
    (tiedWave.forEachEvent (stdHeap _) 2 (some 4) (some [⟨1, by decide⟩, ⟨0, by decide⟩])).Pairwise
      tiedMock.file.InOrder ∧
    eventsOf ⟨0, by decide⟩ (tiedWave.forEachEvent (stdHeap _) 2 (some 4)
        (some [⟨1, by decide⟩, ⟨0, by decide⟩])) =
      [(4, ⟨0, by decide⟩, .bits "1"), (4, ⟨0, by decide⟩, .bits "0")] := by
  have ordered : ∀ sid, (tiedWave.trace sid).Ordered := by
    unfold SignalTrace.Ordered
    decide
  have merges := forEachEvent_merges tiedWave (stdHeap _) 2 (some 4)
    (some [⟨1, by decide⟩, ⟨0, by decide⟩]) ordered (by rintro l ⟨⟩; decide)
  exact ⟨merges.2.1, (merges.2.2 _).trans (by decide)⟩

end RWave.Model
