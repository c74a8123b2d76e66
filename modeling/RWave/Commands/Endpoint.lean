import RWave.Commands.Resolve
import RWave.Commands.Trace
import RWave.Misc.EntryMap

/-!
# The signals of the endpoints

`endpoint_index` of `commands/trace.rs`: one pass over the alias paths fills a map of the paths
spelled exactly like a wanted name and one of those spelled like it but for case. A slot of the
second map is emptied for good when two signals meet in it. The result names a signal exactly where
`endpointIndex` does (`endpointMap_eq`).
-/

namespace RWave.Commands

open RWave.Model RWave.Misc

variable {F : File} {host : Host} {wanted : List String}

/-! ## The pass -/

/-- The alias paths of all signals, signal by signal. -/
def pathEntries (F : File) : List (F.Sid × String) :=
  F.allSids.flatMap fun sid => (F.signal sid).aliasPairs.map fun (path, _) => (sid, path)

/-- `exact` and `folded`. -/
structure IndexMaps (F : File) where
  exact_ : String → Option F.Sid
  folded : String → Option (Option F.Sid)

/-- One alias path. -/
def IndexMaps.add (host : Host) (wanted : List String) (maps : IndexMaps F)
    (entry : F.Sid × String) : IndexMaps F :=
  let (sid, path) := entry
  let lower := host.toLowercase path
  { exact_ :=
      if wanted.contains path then insertWith keepFirst maps.exact_ path sid else maps.exact_
    folded :=
      if (wanted.map host.toLowercase).contains lower then
        insertWith keepOnly maps.folded lower sid
      else maps.folded }

/-- The two maps after the pass. -/
def indexPass (host : Host) (F : File) (wanted : List String) : IndexMaps F :=
  (pathEntries F).foldl (IndexMaps.add host wanted) ⟨fun _ => none, fun _ => none⟩

/-- One wanted name: an exact signal wins, an emptied slot is skipped. -/
def addFolded (host : Host) (folded : String → Option (Option F.Sid)) (out : String → Option F.Sid)
    (name : String) : String → Option F.Sid :=
  if (out name).isSome then out
  else
    match folded (host.toLowercase name) with
    | some (some sid) => Function.update out name (some sid)
    | _ => out

/-- `endpoint_index`. -/
def endpointMap (host : Host) (F : File) (wanted : List String) : String → Option F.Sid :=
  let maps := indexPass host F wanted
  wanted.foldl (addFolded host maps.folded) maps.exact_

/-! ## What the maps hold -/

/-- The signal has this alias path. -/
def Named (F : File) (sid : F.Sid) (path : String) : Prop :=
  ∃ scope, (path, scope) ∈ (F.signal sid).aliasPairs

/-- The signal has an alias path that is spelled so but for case. -/
def NamedAlike (host : Host) (F : File) (sid : F.Sid) (name : String) : Prop :=
  ∃ path, Named F sid path ∧ host.toLowercase path = host.toLowercase name

instance (F : File) (sid : F.Sid) (path : String) : Decidable (Named F sid path) :=
  decidable_of_iff (path ∈ (F.signal sid).aliasPairs.map Prod.fst) (by simp [Named])

instance (host : Host) (F : File) (sid : F.Sid) (name : String) :
    Decidable (NamedAlike host F sid name) :=
  decidable_of_iff (∃ path ∈ (F.signal sid).aliasPairs.map Prod.fst,
    host.toLowercase path = host.toLowercase name) (by simp [NamedAlike, Named])

theorem mem_pathEntries {sid : F.Sid} {path : String} :
    (sid, path) ∈ pathEntries F ↔ Named F sid path := by
  simp [pathEntries, File.allSids, Named]

theorem foldl_add (entries : List (F.Sid × String)) (maps : IndexMaps F) :
    entries.foldl (IndexMaps.add host wanted) maps =
      ⟨fillMap (fun slot e => keepFirst slot e.1) Prod.snd (fun e => wanted.contains e.2) entries
          maps.exact_,
        fillMap (fun slot e => keepOnly slot e.1) (fun e => host.toLowercase e.2)
          (fun e => (wanted.map host.toLowercase).contains (host.toLowercase e.2)) entries
          maps.folded⟩ := by
  induction entries generalizing maps with
  | nil => rfl
  | cons e entries ih =>
    rw [List.foldl_cons, ih]
    rfl

/-- The exact map has a signal of this name for a wanted name, the first one. -/
theorem indexPass_exact (host : Host) (F : File) (wanted : List String) (name : String) :
    (indexPass host F wanted).exact_ name =
      if name ∈ wanted then (((pathEntries F).filter fun e => e.2 == name).map Prod.fst).head?
      else none := by
  have kept : ((pathEntries F).filter fun e => wanted.contains e.2 && e.2 == name) =
      if name ∈ wanted then (pathEntries F).filter fun e => e.2 == name else [] := by
    split
    · rename_i member
      refine List.filter_congr fun e _ => ?_
      by_cases same : e.2 = name
      · simp [same, member]
      · simp [same]
    · rename_i absent
      refine List.filter_eq_nil_iff.mpr fun e _ => ?_
      by_cases same : e.2 = name
      · simp [same, absent]
      · simp [same]
  rw [indexPass, foldl_add]
  dsimp only
  rw [fillMap_apply, ← List.foldl_map (f := Prod.fst)
    (g := fun slot sid => some (keepFirst slot sid)), foldl_keepFirst, Option.none_or, kept]
  split <;> rfl

/-- The folded map has a signal for a wanted name if it is the only one spelled so. -/
theorem indexPass_folded {name : String} (member : name ∈ wanted) {sid : F.Sid} :
    (indexPass host F wanted).folded (host.toLowercase name) = some (some sid) ↔
      ∀ s, NamedAlike host F s name ↔ s = sid := by
  have kept : ((pathEntries F).filter fun e =>
      (wanted.map host.toLowercase).contains (host.toLowercase e.2) &&
        host.toLowercase e.2 == host.toLowercase name) =
      (pathEntries F).filter fun e => host.toLowercase e.2 == host.toLowercase name := by
    refine List.filter_congr fun e _ => ?_
    by_cases same : host.toLowercase e.2 = host.toLowercase name
    · simpa [same] using ⟨name, member, rfl⟩
    · simp [same]
  have found (s : F.Sid) : s ∈ ((pathEntries F).filter fun e =>
      host.toLowercase e.2 == host.toLowercase name).map Prod.fst ↔ NamedAlike host F s name := by
    simp [NamedAlike, mem_pathEntries]
  rw [indexPass, foldl_add]
  dsimp only
  rw [fillMap_apply, ← List.foldl_map (f := Prod.fst)
    (g := fun slot sid => some (keepOnly slot sid)), kept, foldl_keepOnly]
  simp only [← found]
  constructor
  · rintro ⟨nonempty, all⟩ s
    obtain ⟨first, inside⟩ := List.exists_mem_of_ne_nil _ nonempty
    refine ⟨all s, ?_⟩
    rintro rfl
    rwa [← all first inside]
  · intro only
    exact ⟨List.ne_nil_of_mem ((only sid).mpr rfl), fun b inside => (only b).mp inside⟩

theorem addFolded_apply (folded : String → Option (Option F.Sid)) (out : String → Option F.Sid)
    (name other : String) :
    addFolded host folded out name other =
      if other = name then (out name).or (folded (host.toLowercase name)).join else out other := by
  unfold addFolded
  cases found : out name with
  | some sid =>
    rw [Option.isSome_some, if_pos rfl, Option.some_or]
    split
    · rename_i same
      rw [same, found]
    · rfl
  | none =>
    have kept : out other = if other = name then none else out other := by
      split
      · rename_i same
        rw [same, found]
      · rfl
    rw [Option.isSome_none, if_neg Bool.false_ne_true, Option.none_or]
    cases folded (host.toLowercase name) with
    | none => exact kept
    | some slot =>
      cases slot with
      | none => exact kept
      | some sid => exact Function.update_apply out name (some sid) other

/-- Every wanted name without an exact signal is looked up in the folded map. -/
theorem endpointMap_apply (host : Host) (F : File) (wanted : List String) (name : String) :
    endpointMap host F wanted name =
      if name ∈ wanted then
        ((indexPass host F wanted).exact_ name).or
          ((indexPass host F wanted).folded (host.toLowercase name)).join
      else none := by
  have loop (folded : String → Option (Option F.Sid)) (names : List String)
      (out : String → Option F.Sid) :
      names.foldl (addFolded host folded) out name =
        if name ∈ names then (out name).or (folded (host.toLowercase name)).join
        else out name := by
    induction names generalizing out with
    | nil => simp
    | cons first names ih =>
      rw [List.foldl_cons, ih, addFolded_apply]
      by_cases same : name = first
      · subst same
        cases out name <;> simp
      · simp [same]
  rw [endpointMap, loop]
  split
  · rfl
  · rename_i absent
    rw [indexPass_exact, if_neg absent]

/-! ## The signals -/

theorem Named.unique (distinct : ((allPairs F).map Prod.fst).Nodup) {name : String} {s s' : F.Sid}
    (named : Named F s name) (named' : Named F s' name) : s = s' := by
  obtain ⟨scope, here⟩ := named
  obtain ⟨scope', there⟩ := named'
  exact sid_eq_of_nodup distinct here there

/-- The signal with this path, or else the only one with a path that is spelled so but for case. -/
def Meant (host : Host) (F : File) (name : String) (sid : F.Sid) : Prop :=
  Named F sid name ∨
    (∀ s, ¬ Named F s name) ∧ ∀ s, NamedAlike host F s name ↔ s = sid

theorem head_named (distinct : ((allPairs F).map Prod.fst).Nodup) {l : List F.Sid} {name : String}
    (mem : ∀ s, s ∈ l ↔ Named F s name) {sid : F.Sid} :
    l.head? = some sid ↔ Named F sid name := by
  constructor
  · intro first
    exact (mem sid).mp (List.mem_of_head? first)
  · intro named
    cases l with
    | nil => exact absurd ((mem sid).mpr named) List.not_mem_nil
    | cons s l =>
      rw [List.head?_cons, Option.some_inj]
      exact ((mem s).mp List.mem_cons_self).unique distinct named

theorem head_eq_none_iff {l : List F.Sid} {name : String} (mem : ∀ s, s ∈ l ↔ Named F s name) :
    l.head? = none ↔ ∀ s, ¬ Named F s name := by
  rw [List.head?_eq_none_iff, List.eq_nil_iff_forall_not_mem]
  exact forall_congr' fun s => not_congr (mem s)

theorem endpointMap_wanted (distinct : ((allPairs F).map Prod.fst).Nodup) {name : String}
    (member : name ∈ wanted) {sid : F.Sid} :
    endpointMap host F wanted name = some sid ↔ Meant host F name sid := by
  have mem (s : F.Sid) :
      s ∈ ((pathEntries F).filter fun e => e.2 == name).map Prod.fst ↔ Named F s name := by
    simp [mem_pathEntries]
  have slot : ((indexPass host F wanted).folded (host.toLowercase name)).join = some sid ↔
      ∀ s, NamedAlike host F s name ↔ s = sid := by
    rw [Option.join_eq_some_iff, indexPass_folded member]
  rw [endpointMap_apply, if_pos member, indexPass_exact, if_pos member, Option.or_eq_some_iff,
    head_named distinct mem, head_eq_none_iff mem, slot, Meant]

instance (host : Host) (F : File) (name : String) (sid : F.Sid) :
    Decidable (Meant host F name sid) := inferInstanceAs (Decidable (_ ∨ _))

/-- A wanted name is mapped to the signal it means, if it means one, and no other name is mapped. -/
theorem endpointMap_iff (distinct : ((allPairs F).map Prod.fst).Nodup) (host : Host)
    (wanted : List String) (name : String) (sid : F.Sid) :
    endpointMap host F wanted name = some sid ↔ name ∈ wanted ∧ Meant host F name sid := by
  by_cases member : name ∈ wanted
  · rw [endpointMap_wanted distinct member, and_iff_right member]
  · rw [endpointMap_apply, if_neg member]
    exact ⟨nofun, fun meant => absurd meant.1 member⟩

/-- A name in another case is mapped where it is spelled like one signal, and not where like two. -/
theorem endpointMap_alike :
    endpointMap MockBackend.host alikeFile ["Top.Req", "TOP.DAT"] "TOP.DAT" =
        some ⟨3, by decide⟩ ∧
      endpointMap MockBackend.host alikeFile ["Top.Req", "TOP.DAT"] "Top.Req" ≠
        some ⟨0, by decide⟩ := by
  have answers := endpointMap_iff alikeFile_distinct.distinct MockBackend.host ["Top.Req", "TOP.DAT"]
  exact ⟨(answers "TOP.DAT" _).mpr (by decide), mt (answers "Top.Req" _).mp (by decide)⟩

/-- The search for one name finds the signal it means. -/
theorem endpointIndex_iff (distinct : ((allPairs F).map Prod.fst).Nodup) {name : String}
    {sid : F.Sid} : endpointIndex host F name = some sid ↔ Meant host F name sid := by
  have mem (s : F.Sid) : s ∈ (F.allSids.filter fun sid =>
      (F.signal sid).aliasPairs.any fun (path, _) => path == name) ↔ Named F s name := by
    simp [File.allSids, Named]
  have alike (s : F.Sid) : s ∈ (F.allSids.filter fun sid => (F.signal sid).aliasPairs.any
      fun (path, _) => host.toLowercase path == host.toLowercase name) ↔
      NamedAlike host F s name := by
    simp [File.allSids, NamedAlike, Named]
  have nodup : (F.allSids.filter fun sid => (F.signal sid).aliasPairs.any
      fun (path, _) => host.toLowercase path == host.toLowercase name).Nodup :=
    (List.nodup_finRange _).filter _
  have only := fun sid => (eq_singleton_iff nodup (a := sid)).trans (forall_congr' fun s =>
    iff_congr (alike s) Iff.rfl)
  rw [Meant, ← head_named distinct mem, ← head_eq_none_iff mem, ← only sid]
  unfold endpointIndex
  dsimp only
  generalize (F.allSids.filter fun sid =>
    (F.signal sid).aliasPairs.any fun (path, _) => path == name) = exact_
  generalize (F.allSids.filter fun sid => (F.signal sid).aliasPairs.any
    fun (path, _) => host.toLowercase path == host.toLowercase name) = folded
  cases exact_ with
  | cons s l => simp
  | nil =>
    rw [List.head?_nil]
    rcases folded with _ | ⟨s, _ | ⟨s', l⟩⟩ <;> simp

/-- The map answers for every wanted name like the search for that name alone. -/
theorem endpointMap_eq (distinct : ((allPairs F).map Prod.fst).Nodup) (host : Host)
    {wanted : List String} {name : String} (member : name ∈ wanted) :
    endpointMap host F wanted name = endpointIndex host F name := by
  refine Option.ext fun sid => ?_
  rw [endpointMap_wanted distinct member, endpointIndex_iff distinct]

end RWave.Commands
