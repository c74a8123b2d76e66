import RWave.Misc.BinaryHeap

/-!
# The standard library's binary heap

`std::collections::BinaryHeap` keeps its elements in one vector. `push` appends and sifts up.
`pop` moves the last element into the root, walks the hole down to a leaf along the greater
children, and sifts up from there (`sift_down_to_bottom`). `stdHeap` says that this is a
`BinaryHeap`; which of several greatest elements it pops is then settled by the positions.
-/

namespace RWave.Misc

variable {α κ : Type} [LinearOrder κ]

namespace StdHeap

def parent (i : Nat) : Nat := (i - 1) / 2

theorem parent_lt {i : Nat} (pos : 0 < i) : parent i < i := by unfold parent; omega

/-- `sift_up(0, pos)`; `fuel` is at least `pos`. -/
def siftUp (key : α → κ) : Nat → Nat → Array α → Array α
  | 0, _, data => data
  | fuel + 1, pos, data =>
    if h : 0 < pos ∧ pos < data.size then
      have := parent_lt h.1
      if key data[pos] ≤ key data[parent pos] then data
      else siftUp key fuel (parent pos) (data.swap pos (parent pos))
    else data

/-- The walk of `sift_down_to_bottom`: the hole at `pos` moves to a leaf along the greater
children. `fuel` is at least the vector's size. -/
def descend (key : α → κ) : Nat → Nat → Array α → Array α × Nat
  | 0, pos, data => (data, pos)
  | fuel + 1, pos, data =>
    if h : 2 * pos + 2 < data.size then
      if key data[2 * pos + 1] ≤ key data[2 * pos + 2] then
        descend key fuel (2 * pos + 2) (data.swap pos (2 * pos + 2))
      else
        descend key fuel (2 * pos + 1) (data.swap pos (2 * pos + 1))
    else if h : 2 * pos + 1 < data.size then
      (data.swap pos (2 * pos + 1), 2 * pos + 1)
    else (data, pos)

def siftDownToBottom (key : α → κ) (data : Array α) : Array α :=
  let bottom := descend key data.size 0 data
  siftUp key bottom.2 bottom.2 bottom.1

def push (key : α → κ) (item : α) (data : Array α) : Array α :=
  siftUp key data.size data.size (data.push item)

def pop (key : α → κ) (data : Array α) : Option (α × Array α) :=
  match data.back? with
  | none => none
  | some item =>
    let rest := data.pop
    if h : 0 < rest.size then some (rest[0], siftDownToBottom key (rest.set 0 item))
    else some (item, rest)

/-! ## The elements -/

theorem siftUp_perm (key : α → κ) (fuel pos : Nat) (data : Array α) :
    (siftUp key fuel pos data).Perm data := by
  fun_induction siftUp key fuel pos data with
  | case1 => rfl
  | case2 => rfl
  | case3 fuel pos data h _ _ ih => exact ih.trans (Array.swap_perm ..)
  | case4 => rfl

theorem descend_perm (key : α → κ) (fuel pos : Nat) (data : Array α) :
    (descend key fuel pos data).1.Perm data := by
  fun_induction descend key fuel pos data with
  | case1 => rfl
  | case2 fuel pos data h _ ih => exact ih.trans (Array.swap_perm ..)
  | case3 fuel pos data h _ ih => exact ih.trans (Array.swap_perm ..)
  | case4 fuel pos data => exact Array.swap_perm ..
  | case5 => rfl

theorem siftDownToBottom_perm (key : α → κ) (data : Array α) :
    (siftDownToBottom key data).Perm data :=
  (siftUp_perm key _ _ _).trans (descend_perm key _ _ _)

theorem push_perm (key : α → κ) (item : α) (data : Array α) :
    (push key item data).toList.Perm (item :: data.toList) := by
  refine (siftUp_perm key _ _ _).toList.trans ?_
  simp

/-! ## The order -/

/-- The element at `i` is not greater than the one at `j`. -/
def Below (key : α → κ) (data : Array α) (i j : Nat) : Prop :=
  ∀ (hi : i < data.size) (hj : j < data.size), key data[i] ≤ key data[j]

/-- No element is greater than its parent. -/
def Ordered (key : α → κ) (data : Array α) : Prop :=
  ∀ i, 0 < i → Below key data i (parent i)

/-- What `siftUp` needs at `pos`: only the element at `pos` may be greater than its parent, and
its children are not greater than that parent. -/
structure UpOrder (key : α → κ) (data : Array α) (pos : Nat) : Prop where
  except : ∀ i, 0 < i → i ≠ pos → Below key data i (parent i)
  grand : 0 < pos → ∀ i, 0 < i → parent i = pos → Below key data i (parent pos)

/-- What `descend` needs at `pos`: the pairs that do not touch `pos` are in order, and the
children of `pos` are not greater than its parent. -/
structure DownOrder (key : α → κ) (data : Array α) (pos : Nat) : Prop where
  except : ∀ i, 0 < i → i ≠ pos → parent i ≠ pos → Below key data i (parent i)
  grand : 0 < pos → ∀ i, 0 < i → parent i = pos → Below key data i (parent pos)

/-- Where the element at `k` of the swapped vector was. -/
def swapped (p q k : Nat) : Nat := if k = p then q else if k = q then p else k

theorem below_swap {key : α → κ} {data : Array α} {p q : Nat} (hp : p < data.size)
    (hq : q < data.size) {i j : Nat}
    (h : Below key data (swapped p q i) (swapped p q j)) :
    Below key (data.swap p q) i j := by
  intro hi hj
  simp only [Array.size_swap] at hi hj
  have at' : ∀ k (hk : k < data.size), ∃ hk' : swapped p q k < data.size,
      (data.swap p q)[k]? = some data[swapped p q k] := by
    intro k hk
    refine ⟨by unfold swapped; split_ifs <;> assumption, ?_⟩
    unfold swapped
    rw [Array.getElem?_eq_getElem (by simpa using hk), Array.getElem_swap]
    split_ifs <;> rfl
  obtain ⟨hi', eqI⟩ := at' i hi
  obtain ⟨hj', eqJ⟩ := at' j hj
  rw [Array.getElem_eq_iff.mpr eqI, Array.getElem_eq_iff.mpr eqJ]
  exact h hi' hj'

theorem Below.trans {key : α → κ} {data : Array α} {i j k : Nat} (hj : j < data.size)
    (h₁ : Below key data i j) (h₂ : Below key data j k) : Below key data i k :=
  fun hi hk => (h₁ hi hj).trans (h₂ hj hk)

theorem below_refl {key : α → κ} {data : Array α} {i : Nat} : Below key data i i :=
  fun _ _ => le_rfl

/-- A swap with the parent moves the exception of `UpOrder` up. -/
theorem UpOrder.swap {key : α → κ} {data : Array α} {pos : Nat} (o : UpOrder key data pos)
    (h : 0 < pos ∧ pos < data.size) (greater : Below key data (parent pos) pos) :
    UpOrder key (data.swap pos (parent pos) h.2 ((parent_lt h.1).trans h.2)) (parent pos) where
  except i hi hne := by
    refine below_swap _ _ ?_
    by_cases hip : i = pos
    · subst hip
      simpa [swapped, (parent_lt hi).ne] using greater
    · have stays : swapped pos (parent pos) i = i := by simp [swapped, hip, hne]
      have own := o.except i hi hip
      rw [stays]
      unfold swapped
      split_ifs with h₁ h₂
      · exact o.grand h.1 i hi h₁
      · rw [h₂] at own
        exact own.trans ((parent_lt h.1).trans h.2) greater
      · exact own
  grand hpp i hi hpi := by
    refine below_swap _ _ ?_
    have above := o.except (parent pos) hpp (parent_lt h.1).ne
    have top : swapped pos (parent pos) (parent (parent pos)) = parent (parent pos) := by
      have := parent_lt hpp
      have := parent_lt h.1
      unfold swapped
      split_ifs <;> omega
    rw [top]
    by_cases hip : i = pos
    · subst hip
      simpa [swapped] using above
    · have stays : swapped pos (parent pos) i = i := by
        have := parent_lt hi
        unfold swapped
        split_ifs <;> omega
      rw [stays]
      have own := o.except i hi hip
      rw [hpi] at own
      exact own.trans ((parent_lt h.1).trans h.2) above

theorem siftUp_ordered {key : α → κ} {fuel pos : Nat} {data : Array α}
    (enough : pos ≤ fuel) (inside : pos < data.size) (o : UpOrder key data pos) :
    Ordered key (siftUp key fuel pos data) := by
  fun_induction siftUp key fuel pos data with
  | case1 pos data => exact fun i hi => o.except i hi (by omega)
  | case2 fuel pos data h _ le =>
    intro i hi
    by_cases hip : i = pos
    · subst hip; exact fun _ _ => le
    · exact o.except i hi hip
  | case3 fuel pos data h lt greater ih =>
    refine ih (by omega) (by simpa using lt.trans h.2) (o.swap h ?_)
    exact fun _ _ => (not_le.mp greater).le
  | case4 fuel pos data h =>
    intro i hi
    exact o.except i hi (by omega)

/-- A swap with a greatest child moves the hole of `DownOrder` down. -/
theorem DownOrder.swap {key : α → κ} {data : Array α} {pos child : Nat}
    (o : DownOrder key data pos) (hp : pos < data.size) (hc : child < data.size)
    (isChild : 0 < child ∧ parent child = pos)
    (greatest : ∀ i, 0 < i → parent i = pos → Below key data i child) :
    DownOrder key (data.swap pos child) child where
  except i hi hne hpne := by
    refine below_swap _ _ ?_
    have below := parent_lt isChild.1
    by_cases hip : i = pos
    · subst hip
      have := parent_lt hi
      have top : swapped i child (parent i) = parent i := by
        unfold swapped; split_ifs <;> omega
      rw [top]
      simpa [swapped] using o.grand hi child isChild.1 isChild.2
    · have stays : swapped pos child i = i := by simp [swapped, hip, hne]
      rw [stays]
      unfold swapped
      split_ifs with h₁
      · exact greatest i hi h₁
      · exact o.except i hi hip h₁
  grand hcpos i hi hpi := by
    refine below_swap _ _ ?_
    have := parent_lt hi
    have := parent_lt isChild.1
    have stays : swapped pos child i = i := by unfold swapped; split_ifs <;> omega
    rw [stays, isChild.2]
    have own := o.except i hi (by omega) (by omega)
    simpa [swapped, hpi] using own

theorem descend_order {key : α → κ} {fuel pos : Nat} {data : Array α}
    (enough : data.size ≤ fuel + pos) (inside : pos < data.size) (o : DownOrder key data pos) :
    (descend key fuel pos data).2 < (descend key fuel pos data).1.size ∧
      UpOrder key (descend key fuel pos data).1 (descend key fuel pos data).2 := by
  fun_induction descend key fuel pos data with
  | case1 pos data => omega
  | case2 fuel pos data h le ih =>
    refine ih (by simp; omega) (by simpa using h) (o.swap inside h ⟨by omega, ?_⟩ ?_)
    · unfold parent; omega
    · intro i hi hpi
      rcases (show i = 2 * pos + 1 ∨ i = 2 * pos + 2 by unfold parent at hpi; omega) with rfl | rfl
      · exact fun _ _ => le
      · exact below_refl
  | case3 fuel pos data h gt ih =>
    refine ih (by simp; omega) (by simp; omega) (o.swap inside (by omega) ⟨by omega, ?_⟩ ?_)
    · unfold parent; omega
    · intro i hi hpi
      rcases (show i = 2 * pos + 1 ∨ i = 2 * pos + 2 by unfold parent at hpi; omega) with rfl | rfl
      · exact below_refl
      · exact fun _ _ => (not_le.mp gt).le
  | case4 fuel pos data h last =>
    have o' := o.swap inside last ⟨by omega, by unfold parent; omega⟩ (by
      intro i hi hpi
      rcases (show i = 2 * pos + 1 ∨ i = 2 * pos + 2 by unfold parent at hpi; omega) with rfl | rfl
      · exact below_refl
      · exact fun hi _ => absurd hi h)
    refine ⟨by simpa using last, ⟨fun i hi hne => ?_, o'.grand⟩⟩
    by_cases hpi : parent i = 2 * pos + 1
    · intro hi' _
      simp only [Array.size_swap] at hi'
      unfold parent at hpi
      omega
    · exact o'.except i hi hne hpi
  | case5 fuel pos data h last =>
    refine ⟨inside, ⟨fun i hi hne => ?_, o.grand⟩⟩
    by_cases hpi : parent i = pos
    · intro hi' _
      change i < data.size at hi'
      unfold parent at hpi
      omega
    · exact o.except i hi hne hpi

theorem siftDownToBottom_ordered {key : α → κ} {data : Array α} (nonempty : 0 < data.size)
    (o : DownOrder key data 0) : Ordered key (siftDownToBottom key data) := by
  obtain ⟨inside, up⟩ := descend_order (show data.size ≤ data.size + 0 by omega) nonempty o
  exact siftUp_ordered le_rfl inside up

theorem push_ordered {key : α → κ} {item : α} {data : Array α} (o : Ordered key data) :
    Ordered key (push key item data) := by
  refine siftUp_ordered le_rfl (by simp) ⟨fun i hi hne hi' hp' => ?_, fun hpos i hi hpi hi' => ?_⟩
  · simp only [Array.size_push] at hi'
    have inside : i < data.size := by omega
    have := parent_lt hi
    rw [Array.getElem_push_lt inside, Array.getElem_push_lt (by omega)]
    exact o i hi inside (by omega)
  · simp only [Array.size_push] at hi'
    have := parent_lt hi
    omega

/-- The root of an ordered vector is a greatest element. -/
theorem Ordered.root {key : α → κ} {data : Array α} (o : Ordered key data) (i : Nat) :
    Below key data i 0 := by
  induction i using Nat.strongRecOn with
  | ind i ih =>
    by_cases hi : 0 < i
    · intro hi' h0
      have := parent_lt hi
      exact (o i hi hi' (by omega)).trans (ih (parent i) this (by omega) h0)
    · obtain rfl : i = 0 := by omega
      exact below_refl

theorem pop_none {key : α → κ} {data : Array α} (h : pop key data = none) : data = #[] := by
  unfold pop at h
  split at h
  next none => simpa using none
  next => dsimp only at h; split at h <;> cases h

theorem pop_some {key : α → κ} {data rest : Array α} {top : α}
    (h : pop key data = some (top, rest)) (o : Ordered key data) :
    data.toList.Perm (top :: rest.toList) ∧ (∀ b ∈ data.toList, key b ≤ key top) ∧
      Ordered key rest := by
  unfold pop at h
  split at h
  next => cases h
  next item back =>
    obtain ⟨init, rfl⟩ : ∃ init : Array α, data = init.push item := by
      obtain ⟨init, x, rfl⟩ := @Array.eq_push_of_size_ne_zero _ data
        (by rintro h0; simp [Array.eq_empty_of_size_eq_zero h0] at back)
      obtain rfl : x = item := by simpa using back
      exact ⟨init, rfl⟩
    have greatest : ∀ first, (init.push item)[0]? = some first →
        ∀ b ∈ (init.push item).toList, key b ≤ key first := by
      intro first front b hb
      obtain ⟨_, rfl⟩ := Array.getElem?_eq_some_iff.mp front
      obtain ⟨i, hi, rfl⟩ := Array.getElem_of_mem (Array.mem_toList_iff.mp hb)
      exact o.root i hi (by simp)
    simp only [Array.pop_push] at h
    split at h
    next nonempty =>
      obtain ⟨rfl, rfl⟩ := Prod.mk.inj (Option.some.inj h)
      refine ⟨?_, greatest _ (by simp [Array.getElem_push_lt nonempty]), ?_⟩
      · refine List.Perm.trans ?_ (((siftDownToBottom_perm key _).toList).symm.cons _)
        obtain ⟨first, tail, shape⟩ : ∃ first tail, init.toList = first :: tail :=
          List.exists_cons_of_length_pos (by simpa using nonempty)
        have head : init[0] = first := by
          have : init[0]? = some first := by simp [← Array.getElem?_toList, shape]
          exact Array.getElem_eq_iff.mpr this
        rw [Array.toList_push, Array.toList_set, shape, head]
        simp
      · refine siftDownToBottom_ordered (by simpa using nonempty) ⟨fun i hi _ hpi => ?_, by simp⟩
        intro hi' hp'
        simp only [Array.size_set] at hi' hp'
        rw [Array.getElem_set_ne _ _ (by omega), Array.getElem_set_ne _ _ (by omega)]
        have := o i hi (by simp; omega) (by simp; omega)
        rwa [Array.getElem_push_lt hi', Array.getElem_push_lt hp'] at this
    next empty =>
      obtain ⟨rfl, rfl⟩ := Prod.mk.inj (Option.some.inj h)
      have none : init = #[] := Array.eq_empty_of_size_eq_zero (by omega)
      subst none
      refine ⟨by simp, by simp, fun i hi hi' => absurd hi' (by simp)⟩

end StdHeap

/-- `std::collections::BinaryHeap` as the standard library implements it. -/
def stdHeap (key : α → κ) : BinaryHeap key where
  Heap := { data : Array α // StdHeap.Ordered key data }
  new := ⟨#[], fun _ _ hi => absurd hi (by simp)⟩
  push a h := ⟨StdHeap.push key a h.1, StdHeap.push_ordered h.2⟩
  pop h :=
    match found : StdHeap.pop key h.1 with
    | none => none
    | some (top, rest) => some (top, ⟨rest, (StdHeap.pop_some found h.2).2.2⟩)
  intoVec h := h.1.toList
  intoVec_new := rfl
  intoVec_push a h := StdHeap.push_perm key a h.1
  pop_none {h} popped := by
    split at popped
    next none => simp [StdHeap.pop_none none]
    next => cases popped
  pop_some {h a h'} popped := by
    split at popped
    next => cases popped
    next top rest found =>
      cases popped
      exact ⟨(StdHeap.pop_some found h.2).1, (StdHeap.pop_some found h.2).2.1⟩

end RWave.Misc
