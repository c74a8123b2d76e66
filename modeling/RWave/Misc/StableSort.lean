import Mathlib

/-!
# Stable sorting by a key

`slice::sort_by` is a stable sort. A stable sort by a key into a linear order is determined by
two facts: the result is sorted by the key, and for every key the elements with that key keep
their order. `sorted_ext` is that uniqueness; the other results say that `sortByKey` has both
facts, and how it meets `filter` and `map`.
-/

namespace RWave.Misc

variable {α β κ : Type} [LinearOrder κ]

/-- `slice::sort_by(|a, b| key(a).cmp(&key(b)))`: a stable sort in ascending key order. -/
def sortByKey (key : α → κ) (l : List α) : List α :=
  l.insertionSort fun a b => key a ≤ key b

/-- The list is in ascending key order. -/
def SortedBy (key : α → κ) (l : List α) : Prop :=
  l.Pairwise fun a b => key a ≤ key b

theorem sortedBy_nil (key : α → κ) : SortedBy key [] := List.Pairwise.nil

theorem sortedBy_cons {key : α → κ} {a : α} {l : List α} :
    SortedBy key (a :: l) ↔ (∀ b ∈ l, key a ≤ key b) ∧ SortedBy key l :=
  List.pairwise_cons

theorem sortByKey_perm (key : α → κ) (l : List α) : (sortByKey key l).Perm l :=
  List.perm_insertionSort _ l

@[simp] theorem mem_sortByKey {key : α → κ} {l : List α} {a : α} :
    a ∈ sortByKey key l ↔ a ∈ l :=
  (sortByKey_perm key l).mem_iff

@[simp] theorem length_sortByKey (key : α → κ) (l : List α) :
    (sortByKey key l).length = l.length :=
  (sortByKey_perm key l).length_eq

instance keyTotal (key : α → κ) : Std.Total fun a b => key a ≤ key b :=
  ⟨fun a b => le_total (key a) (key b)⟩

instance keyTrans (key : α → κ) : IsTrans α fun a b => key a ≤ key b :=
  ⟨fun _ _ _ => le_trans⟩

theorem sortByKey_sorted (key : α → κ) (l : List α) : SortedBy key (sortByKey key l) :=
  List.pairwise_insertionSort _ l

/-- The elements of one key keep their order under `sortByKey`. -/
theorem filter_sortByKey (key : α → κ) (k : κ) (l : List α) :
    (sortByKey key l).filter (fun a => key a = k) = l.filter (fun a => key a = k) := by
  have level : (l.filter (fun a => key a = k)).Pairwise fun a b => key a ≤ key b := by
    refine List.pairwise_of_forall_mem_list ?_
    intro a ha b hb
    have hak : key a = k := by simpa using (List.mem_filter.mp ha).2
    have hbk : key b = k := by simpa using (List.mem_filter.mp hb).2
    simp [hak, hbk]
  have kept : (l.filter (fun a => key a = k)).Sublist (sortByKey key l) :=
    List.sublist_insertionSort level List.filter_sublist
  have inside := kept.filter (fun a => key a = k)
  rw [List.filter_filter] at inside
  simp only [Bool.and_self] at inside
  refine (inside.eq_of_length ?_).symm
  exact ((sortByKey_perm key l).symm.filter _).length_eq

/-- Two sorted lists that agree on the elements of every key are equal. -/
theorem sorted_ext {key : α → κ} {l₁ l₂ : List α} (h₁ : SortedBy key l₁) (h₂ : SortedBy key l₂)
    (agree : ∀ k, l₁.filter (fun a => key a = k) = l₂.filter (fun a => key a = k)) :
    l₁ = l₂ := by
  have memIff : ∀ a, a ∈ l₁ ↔ a ∈ l₂ := by
    intro a
    have := congrArg (a ∈ ·) (agree (key a))
    simpa using this
  induction l₁ generalizing l₂ with
  | nil =>
    cases l₂ with
    | nil => rfl
    | cons b t => exact absurd ((memIff b).mpr (by simp)) (by simp)
  | cons a s ih =>
    cases l₂ with
    | nil => exact absurd ((memIff a).mp (by simp)) (by simp)
    | cons b t =>
      obtain ⟨leA, sortedS⟩ := sortedBy_cons.mp h₁
      obtain ⟨leB, sortedT⟩ := sortedBy_cons.mp h₂
      have keyEq : key a = key b := by
        apply le_antisymm
        · rcases List.mem_cons.mp ((memIff b).mpr (by simp)) with rfl | hb
          · exact le_rfl
          · exact leA b hb
        · rcases List.mem_cons.mp ((memIff a).mp (by simp)) with rfl | ha
          · exact le_rfl
          · exact leB a ha
      have head := agree (key a)
      simp only [List.filter_cons, keyEq, decide_true, if_true, List.cons.injEq] at head
      obtain ⟨rfl, tailEq⟩ := head
      have tails : ∀ k, s.filter (fun c => key c = k) = t.filter (fun c => key c = k) := by
        intro k
        by_cases hk : key a = k
        · rw [← hk]; exact tailEq
        · simpa [List.filter_cons, hk] using agree k
      rw [ih sortedS sortedT tails]
      intro c
      have := congrArg (c ∈ ·) (tails (key c))
      simpa using this

/-- A sorted list with the elements of every key in the order of `l` is the stable sort of `l`. -/
theorem eq_sortByKey {key : α → κ} {l sorted : List α} (h : SortedBy key sorted)
    (agree : ∀ k, sorted.filter (fun a => key a = k) = l.filter (fun a => key a = k)) :
    sorted = sortByKey key l :=
  sorted_ext h (sortByKey_sorted key l) fun k => (agree k).trans (filter_sortByKey key k l).symm

/-- Sorting does not see how the elements of different keys were interleaved. -/
theorem sortByKey_congr {key : α → κ} {l₁ l₂ : List α}
    (agree : ∀ k, l₁.filter (fun a => key a = k) = l₂.filter (fun a => key a = k)) :
    sortByKey key l₁ = sortByKey key l₂ :=
  eq_sortByKey (sortByKey_sorted key l₁) fun k => (filter_sortByKey key k l₁).trans (agree k)

/-- Sorting commutes with a map that carries the key along. -/
theorem sortByKey_map {key : β → κ} {key' : α → κ} {f : α → β} {l : List α}
    (same : ∀ a ∈ l, key (f a) = key' a) :
    sortByKey key (l.map f) = (sortByKey key' l).map f := by
  refine (eq_sortByKey ?_ fun k => ?_).symm
  · refine List.pairwise_map.mpr ((sortByKey_sorted key' l).imp_of_mem fun ha hb le => ?_)
    rwa [same _ (mem_sortByKey.mp ha), same _ (mem_sortByKey.mp hb)]
  · have level : ∀ l' : List α, (∀ a ∈ l', a ∈ l) →
        (l'.map f).filter (fun b => key b = k) = (l'.filter fun a => key' a = k).map f := by
      intro l' sub
      rw [List.filter_map]
      refine congrArg _ (List.filter_congr fun a ha => ?_)
      simp [same a (sub a ha)]
    rw [level _ fun a => mem_sortByKey.mp, level l fun _ => id, filter_sortByKey]

/-- A sorted interleaving of sources is the stable sort of their concatenation: it is enough that
every source keeps its order, when elements of one key come from one source. -/
theorem eq_sortByKey_of_sources {ι : Type} [DecidableEq ι] {key : α → κ} (source : α → ι)
    {l merged : List α} (sorted : SortedBy key merged)
    (agree : ∀ i, merged.filter (fun a => source a = i) = l.filter (fun a => source a = i))
    (apart : ∀ a ∈ l, ∀ b ∈ l, key a = key b → source a = source b) :
    merged = sortByKey key l := by
  have mem : ∀ a, a ∈ merged ↔ a ∈ l := fun a => by
    have := congrArg (a ∈ ·) (agree (source a))
    simpa using this
  refine eq_sortByKey sorted ?_
  intro k
  by_cases some : ∃ a ∈ l, key a = k
  · obtain ⟨a, ha, rfl⟩ := some
    have only : ∀ l' : List α, (∀ b ∈ l', b ∈ l) →
        l'.filter (fun b => key b = key a) =
          (l'.filter (fun b => source b = source a)).filter fun b => key b = key a := by
      intro l' sub
      rw [List.filter_filter]
      refine List.filter_congr ?_
      intro b hb
      by_cases same : key b = key a
      · simp [same, apart b (sub b hb) a ha same]
      · simp [same]
    rw [only merged fun b hb => (mem b).mp hb, only l fun b hb => hb, agree]
  · simp only [not_exists, not_and] at some
    rw [List.filter_eq_nil_iff.mpr fun b hb => by simpa using some b ((mem b).mp hb),
      List.filter_eq_nil_iff.mpr fun b hb => by simpa using some b hb]

/-- Lists with the same elements from every source are permutations of each other. -/
theorem perm_of_sources {ι : Type} [DecidableEq ι] [DecidableEq α] (source : α → ι) {l l' : List α}
    (agree : ∀ i, l.filter (fun a => source a = i) = l'.filter (fun a => source a = i)) :
    l.Perm l' := by
  refine List.perm_iff_count.mpr ?_
  intro a
  have own : ∀ l : List α, l.count a = (l.filter fun b => source b = source a).count a := fun l =>
    (List.count_filter (by simp)).symm
  rw [own l, own l', agree]

/-- Sorting the concatenation of several sources does not see the order of the sources, when
elements of one key come from one source. -/
theorem sortByKey_flatMap_perm {ι : Type} [DecidableEq ι] {key : α → κ} {f : ι → List α}
    (apart : ∀ i j, ∀ a ∈ f i, ∀ b ∈ f j, key a = key b → i = j) {l₁ l₂ : List ι}
    (perm : l₁.Perm l₂) : sortByKey key (l₁.flatMap f) = sortByKey key (l₂.flatMap f) := by
  refine sortByKey_congr ?_
  intro k
  rw [List.filter_flatMap, List.filter_flatMap]
  by_cases some : ∃ i, ∃ a ∈ f i, key a = k
  · obtain ⟨i, a, ha, rfl⟩ := some
    have only : ∀ l : List ι, (l.flatMap fun j => (f j).filter fun b => key b = key a) =
        (List.replicate (l.count i) ((f i).filter fun b => key b = key a)).flatten := by
      intro l
      induction l with
      | nil => rfl
      | cons j l ih =>
        rw [List.flatMap_cons, ih]
        by_cases same : j = i
        · simp [same, List.replicate_succ]
        · have none : (f j).filter (fun b => key b = key a) = [] :=
            List.filter_eq_nil_iff.mpr fun b hb => by
              simpa using fun h => same (apart j i b hb a ha h)
          rw [none, List.count_cons_of_ne same, List.nil_append]
    rw [only, only, perm.count_eq]
  · simp only [not_exists, not_and] at some
    have none : ∀ j, (f j).filter (fun b => key b = k) = [] := fun j =>
      List.filter_eq_nil_iff.mpr fun b hb => by simpa using some j b hb
    rw [List.flatMap_eq_nil_iff.mpr fun j _ => none j, List.flatMap_eq_nil_iff.mpr fun j _ => none j]

/-! ## Runs of one key -/

theorem isChain_and {R S : α → α → Prop} {l : List α} (h : l.IsChain R) (h' : l.IsChain S) :
    l.IsChain fun a b => R a b ∧ S a b := by
  induction l with
  | nil => exact List.IsChain.nil
  | cons a l ih =>
    rw [List.isChain_cons] at h h' ⊢
    exact ⟨fun b first => ⟨h.1 b first, h'.1 b first⟩, ih h.2 h'.2⟩

/-- Keeping the first of each run of one key leaves every key. -/
theorem exists_mem_destutter (key : α → κ) {l : List α} {a : α} (member : a ∈ l) :
    ∃ b ∈ l.destutter fun a b => key a ≠ key b, key b = key a := by
  have run (c : α) (l : List α) {a : α} (member : a ∈ c :: l) :
      ∃ b ∈ l.destutter' (fun a b => key a ≠ key b) c, key b = key a := by
    induction l generalizing c a with
    | nil => exact ⟨c, by simp, by rw [List.mem_singleton.mp member]⟩
    | cons d l ih =>
      by_cases other : key c ≠ key d
      · rw [List.destutter'_cons, if_pos other]
        cases List.mem_cons.mp member with
        | inl here => exact ⟨c, List.mem_cons_self, by rw [here]⟩
        | inr later =>
          obtain ⟨b, kept, same⟩ := ih d later
          exact ⟨b, List.mem_cons_of_mem _ kept, same⟩
      · rw [List.destutter'_cons, if_neg other]
        cases List.mem_cons.mp member with
        | inl here => exact ih c (here ▸ List.mem_cons_self)
        | inr later =>
          cases List.mem_cons.mp later with
          | inl here =>
            obtain ⟨b, kept, same⟩ := ih c List.mem_cons_self
            exact ⟨b, kept, by rw [same, here, not_not.mp other]⟩
          | inr later => exact ih c (List.mem_cons_of_mem _ later)
  cases l with
  | nil => cases member
  | cons c l => exact run c l member

/-- On a sorted list it leaves every key once, in ascending order. -/
theorem destutter_ascending {key : α → κ} {l : List α} (sorted : SortedBy key l) :
    ((l.destutter fun a b => key a ≠ key b).map key).Pairwise (· < ·) := by
  have below : (l.destutter fun a b => key a ≠ key b).Pairwise fun a b => key a ≤ key b :=
    sorted.sublist (List.destutter_sublist _ l)
  have strict := isChain_and below.isChain (List.isChain_destutter (fun a b => key a ≠ key b) l)
  rw [← List.isChain_iff_pairwise, List.isChain_map]
  exact strict.imp fun _ _ both => lt_of_le_of_ne both.1 both.2

/-- Two sortings of one collection agree where no two members have one key. -/
theorem sorted_eq {key : α → κ} {l l' : List α} (perm : l.Perm l')
    (nodup : (l.map key).Nodup) (sorted : SortedBy key l) (sorted' : SortedBy key l') : l = l' := by
  refine List.Perm.eq_of_pairwise ?_ sorted sorted' perm
  intro a b member member' le ge
  exact List.inj_on_of_nodup_map nodup member (perm.mem_iff.mpr member') (le_antisymm le ge)

end RWave.Misc
