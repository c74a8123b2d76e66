import RWave.Model.Mock
import RWave.Backend.Window

/-!
# What windowed iteration hands out

The traces `for_each_signal_windowed` hands to its consumer on a seeking backend: each selected
signal as often as it is selected, with what the backend decoded for its handle in its batch. The
order is that of the handles in each batch, so it is known up to a permutation only.
-/

namespace RWave.Model

open RWave.Backend

/-- The batches of a selection. -/
def chunks {α : Type} (batch : Nat) (all : List α) : List (List α) :=
  match all with
  | [] => []
  | a :: rest =>
    (a :: rest).take (max batch 1) :: chunks batch ((a :: rest).drop (max batch 1))
termination_by all.length
decreasing_by rw [List.length_drop, List.length_cons]; omega

theorem flatten_chunks {α : Type} (batch : Nat) (all : List α) :
    (chunks batch all).flatten = all := by
  fun_induction chunks batch all with
  | case1 => rfl
  | case2 a rest ih => rw [List.flatten_cons, ih, List.take_append_drop]

variable {F : File}

theorem Wave.windowedLoop_eq (batch : Nat) (frm : Int) (upto : Option Int) (all : List F.Sid) :
    Wave.windowedLoop F batch frm upto all =
      (chunks batch all).flatMap (Wave.windowedBatch F frm upto) := by
  fun_induction chunks batch all with
  | case1 => simp [Wave.windowedLoop]
  | case2 sid rest ih => rw [Wave.windowedLoop, ih, List.flatMap_cons]

/-- A backend that seeks answers a window with one trace for each handle, which `R` relates to the
handle's complete trace. A backend that does not seek is not asked for windows. -/
def File.Answers (F : File) (R : SignalTrace → SignalTrace → Int → Option Int → Prop) : Prop :=
  F.backend.supportsWindowed = true → ∀ handles frm upto, (∀ b ∈ upto, frm ≤ b) →
    List.Forall₂ (fun bsid tr => R (F.backend.loadTrace bsid) tr frm upto)
      handles (F.backend.loadTracesWindowed handles frm upto)

/-- Windows are slices of the complete traces in one of the two shapes. -/
def File.Windowed (F : File) : Prop :=
  F.Answers fun whole tr frm upto => ∃ shape : WindowShape, tr = shape.slice whole frm upto

/-- Windows have the values of the complete traces, where these are in time order. Slices in either
shape do (`File.Windowed.pointExact`), and so does the complete trace, the default of the trait. -/
def File.PointExact (F : File) : Prop :=
  F.Answers fun whole tr frm upto => whole.Ordered → Backend.PointExact whole tr frm upto

theorem File.Answers.imp {R R' : SignalTrace → SignalTrace → Int → Option Int → Prop}
    (contract : F.Answers R) (weaker : ∀ {whole tr frm upto}, (∀ b ∈ upto, frm ≤ b) →
      R whole tr frm upto → R' whole tr frm upto) : F.Answers R' :=
  fun seeking handles frm upto le => (contract seeking handles frm upto le).imp fun _ _ => weaker le

theorem File.Windowed.pointExact (contract : F.Windowed) : F.PointExact := by
  refine File.Answers.imp contract ?_
  rintro whole _ frm upto - ⟨shape, rfl⟩ ordered
  exact shape.pointExact ordered frm upto

namespace File.Answers

variable {R : SignalTrace → SignalTrace → Int → Option Int → Prop} (contract : F.Answers R)
  (seeking : F.backend.supportsWindowed = true) {frm : Int} {upto : Option Int}
  (le : ∀ b ∈ upto, frm ≤ b)

include contract seeking le

/-- Every answer is related to its complete trace. -/
theorem answer_related {chunk : List F.Sid} {answer : BackendSid × SignalTrace}
    (member : answer ∈ Wave.windowAnswers F frm upto chunk) :
    R (F.backend.loadTrace answer.1) answer.2 frm upto :=
  List.forall₂_zip (contract seeking _ frm upto le) member

theorem answers_length (chunk : List F.Sid) :
    (F.backend.loadTracesWindowed (Wave.request (fun _ => false) chunk).needBackend
      frm upto).length = (Wave.request (fun _ => false) chunk).needBackend.length :=
  (contract seeking _ frm upto le).length_eq.symm

theorem answers_fst (chunk : List F.Sid) :
    (Wave.windowAnswers F frm upto chunk).map Prod.fst =
      (Wave.request (fun _ => false) chunk).needBackend :=
  List.map_fst_zip (answers_length contract seeking le chunk).ge

/-- One batch visits its signals, in some order. -/
theorem batch_perm (chunk : List F.Sid) :
    ((Wave.windowedBatch F frm upto chunk).map Prod.fst).Perm chunk := by
  have visits : (Wave.windowedBatch F frm upto chunk).map Prod.fst =
      (Wave.request (fun _ => false) chunk).needBackend.flatMap
        (Wave.request (fun _ => false) chunk).backendToSids := by
    rw [← answers_fst contract seeking le, List.flatMap_map, Wave.windowedBatch, List.map_flatMap]
    simp [Function.comp_def]
  obtain ⟨nodup, needed⟩ := Wave.request_needBackend (fun _ => false) chunk
  rw [visits, List.perm_iff_count]
  intro sid
  have others : ∀ bsid, bsid ≠ (F.signal sid).backendSid →
      ((Wave.request (fun _ => false) chunk).backendToSids bsid).count sid = 0 := by
    intro bsid other
    refine List.count_eq_zero.mpr fun member => other ?_
    simp only [Wave.request_backendToSids, List.mem_filter, Bool.not_false, Bool.true_and,
      beq_iff_eq] at member
    exact member.2.symm
  have own : ((Wave.request (fun _ => false) chunk).backendToSids
      (F.signal sid).backendSid).count sid = chunk.count sid := by
    rw [Wave.request_backendToSids, List.count_filter (by simp)]
  rw [List.count_flatMap, List.sum_map_eq_nsmul_single (F.signal sid).backendSid
    (List.count sid ∘ (Wave.request (fun _ => false) chunk).backendToSids)
    (fun bsid other _ => others bsid other), Function.comp_apply, own]
  by_cases member : sid ∈ chunk
  · have once := List.count_eq_one_of_mem nodup ((needed _).mpr
      (List.ne_nil_of_mem ((Wave.request_mem (fun _ => false) chunk sid).mpr ⟨member, rfl⟩)))
    rw [once, one_nsmul]
  · rw [List.count_eq_zero.mpr member, nsmul_zero]

omit contract seeking le in
/-- A visit hands its signal the answer for its handle. -/
theorem mem_batch {chunk : List F.Sid} {visit : F.Sid × SignalTrace}
    (member : visit ∈ Wave.windowedBatch F frm upto chunk) :
    ((F.signal visit.1).backendSid, visit.2) ∈ Wave.windowAnswers F frm upto chunk := by
  obtain ⟨answer, inAnswers, h⟩ := List.mem_flatMap.mp member
  obtain ⟨sid, inGroup, rfl⟩ := List.mem_map.mp h
  simp only [Wave.request_backendToSids, List.mem_filter, Bool.not_false, Bool.true_and,
    beq_iff_eq] at inGroup
  rw [inGroup.2]
  exact inAnswers

/-- Every answer is handed to some signal. -/
theorem exists_visit {chunk : List F.Sid} {answer : BackendSid × SignalTrace}
    (member : answer ∈ Wave.windowAnswers F frm upto chunk) :
    ∃ sid, (F.signal sid).backendSid = answer.1 ∧
      (sid, answer.2) ∈ Wave.windowedBatch F frm upto chunk := by
  have needed := List.mem_map_of_mem (f := Prod.fst) member
  rw [answers_fst contract seeking le] at needed
  obtain ⟨sid, inGroup⟩ := List.exists_mem_of_ne_nil _
    (((Wave.request_needBackend (fun _ => false) chunk).2 _).mp needed)
  have handle := inGroup
  simp only [Wave.request_backendToSids, List.mem_filter, Bool.not_false, Bool.true_and,
    beq_iff_eq] at handle
  exact ⟨sid, handle.2, List.mem_flatMap.mpr ⟨answer, member, List.mem_map.mpr ⟨sid, inGroup, rfl⟩⟩⟩

end File.Answers

/-- What windowed iteration hands out: the selected signals, in some order, each with its complete
trace or with what a backend that seeks answers. -/
theorem Wave.Consistent.visits {w : Wave F} (consistent : w.Consistent)
    {R : SignalTrace → SignalTrace → Int → Option Int → Prop} (contract : F.Answers R) {frm : Int}
    {upto : Option Int} (le : ∀ b ∈ upto, frm ≤ b) (sids : Option (List F.Sid)) (batch : Nat) :
    ((w.forEachSignalWindowed sids batch frm upto).1.map Prod.fst).Perm (F.selected sids) ∧
    ∀ visit ∈ (w.forEachSignalWindowed sids batch frm upto).1, visit.2 = F.traceOf visit.1 ∨
      R (F.traceOf visit.1) visit.2 frm upto := by
  unfold Wave.forEachSignalWindowed
  split
  next seeking =>
    rw [Wave.windowedLoop_eq]
    refine ⟨?_, fun visit member => ?_⟩
    · rw [List.map_flatMap]
      refine (List.Perm.flatMap_left _ fun chunk _ => contract.batch_perm seeking le chunk).trans ?_
      rw [List.flatMap_id', flatten_chunks]
    · obtain ⟨chunk, -, member⟩ := List.mem_flatMap.mp member
      exact .inr (contract.answer_related seeking le (File.Answers.mem_batch member))
  next =>
    rw [consistent.forEachSignalBatched]
    refine ⟨by simp [Function.comp_def], fun visit member => .inl ?_⟩
    obtain ⟨sid, -, rfl⟩ := List.mem_map.mp member
    rfl

/-- The in-memory backend answers in one of the two shapes. -/
theorem MockBackend.windowed_file (m : MockBackend) : m.file.Windowed := by
  intro _ handles frm upto _
  refine List.forall₂_map_right_iff.mpr (List.forall₂_same.mpr fun bsid _ => ?_)
  by_cases wlf : m.wlfSeedShape
  · refine ⟨.seedBefore, ?_⟩
    have early : ∀ c : Change, decide (c.tick < frm) = decide (c.tick ≤ frm - 1) := fun c => by
      rw [Bool.eq_iff_iff]
      simp only [decide_eq_true_eq]
      omega
    simp only [windowTrace, wlf, if_true, WindowShape.slice, SignalTrace.lastBefore,
      List.getLast?_filter, early]
    rfl
  · refine ⟨.seedAtTick, ?_⟩
    have late : ∀ c : Change, (decide (c.tick > frm) && upto.all fun hi => decide (c.tick ≤ hi)) =
        inWindow (frm + 1) upto c.tick := fun _ => rfl
    simp only [windowTrace, wlf, WindowShape.slice, SignalTrace.lastBefore, List.getLast?_filter,
      late]
    rfl

end RWave.Model
