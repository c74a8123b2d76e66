import RWave.Misc.BinaryHeap

/-!
# Keeping the smallest elements of a stream in a bounded max-heap

A max-heap that never holds more than `limit` elements, into which a smaller element enters by
evicting the greatest one, holds `limit` smallest elements of the stream at the end
(`kept_keepSmallest`). Which elements of one key these are is settled by the heap's ties, so
sorting them gives the first `limit` elements of the stable sort for every heap exactly when
no tie matters: `keepSmallest_eq_take_iff`.
-/

namespace RWave.Misc

variable {α κ : Type} [LinearOrder κ] {key : α → κ}

/-- Offer one element to the bounded heap. -/
def BinaryHeap.offer (H : BinaryHeap key) (limit : Nat) (keep : H.Heap) (ev : α) : H.Heap :=
  if H.len keep < limit then
    H.push ev keep
  else
    match H.peek keep with
    | some top => if key ev < key top then H.push ev (H.popped keep) else keep
    | none => keep

/-- The bounded heap after a whole stream. -/
def BinaryHeap.keepSmallest (H : BinaryHeap key) (limit : Nat) (l : List α) : H.Heap :=
  l.foldl (H.offer limit) H.new

/-- `K` is what is kept of the stream `l`: as many elements as fit, none greater than one left
out. -/
structure Kept (key : α → κ) (limit : Nat) (l K : List α) : Prop where
  split : ∃ out, l.Perm (K ++ out) ∧ ∀ d ∈ out, ∀ x ∈ K, key x ≤ key d
  length : K.length = min limit l.length

/-- The three things an offered element can do. -/
theorem BinaryHeap.offer_cases (H : BinaryHeap key) (limit : Nat) (keep : H.Heap) (ev : α) :
    (H.len keep < limit ∧ H.offer limit keep ev = H.push ev keep) ∨
    (limit ≤ H.len keep ∧ ∃ top rest, H.pop keep = some (top, rest) ∧ key ev < key top ∧
      H.offer limit keep ev = H.push ev rest) ∨
    (limit ≤ H.len keep ∧ (∀ x ∈ H.intoVec keep, key x ≤ key ev) ∧
      H.offer limit keep ev = keep) := by
  by_cases room : H.len keep < limit
  · exact .inl ⟨room, by simp [offer, room]⟩
  · right
    have full : limit ≤ H.len keep := by omega
    cases found : H.pop keep with
    | none => exact .inr ⟨full, by simp [H.pop_none found], by simp [offer, room, peek, found]⟩
    | some pair =>
      obtain ⟨top, rest⟩ := pair
      by_cases less : key ev < key top
      · exact .inl ⟨full, top, rest, rfl, less, by simp [offer, room, peek, popped, found, less]⟩
      · refine .inr ⟨full, fun x hx => ?_, by simp [offer, room, peek, found, less]⟩
        exact ((H.pop_some found).2 x hx).trans (not_lt.mp less)

/-- One offer keeps the smallest elements of the longer stream. -/
theorem kept_offer (H : BinaryHeap key) {limit : Nat} {l : List α} {keep : H.Heap}
    (h : Kept key limit l (H.intoVec keep)) (ev : α) :
    Kept key limit (l ++ [ev]) (H.intoVec (H.offer limit keep ev)) := by
  obtain ⟨out, whole, le⟩ := h.split
  have len : H.len keep = min limit l.length := h.length
  have whole' : (l ++ [ev]).Perm (ev :: (H.intoVec keep ++ out)) :=
    (List.perm_append_singleton ev l).trans (whole.cons ev)
  rcases H.offer_cases limit keep ev with ⟨room, offered⟩ | ⟨full, top, rest, pop, less, offered⟩
    | ⟨full, above, offered⟩
  · -- There is room: nothing was ever left out.
    have all : out = [] := by
      have := whole.length_eq
      rw [List.length_append] at this
      exact List.eq_nil_of_length_eq_zero (by have : H.len keep = (H.intoVec keep).length := rfl; omega)
    subst all
    rw [offered]
    refine ⟨⟨[], ?_, by simp⟩, ?_⟩
    · simpa using whole'.trans (by simpa using (H.intoVec_push ev keep).symm)
    · have := H.len_push ev keep
      simp only [BinaryHeap.len, List.length_append, List.length_singleton] at *
      omega
  · -- The greatest kept element makes way.
    obtain ⟨perm, greatest⟩ := H.pop_some pop
    rw [offered]
    refine ⟨⟨top :: out, ?_, ?_⟩, ?_⟩
    · refine whole'.trans ?_
      have inner : (H.intoVec keep ++ out).Perm (H.intoVec rest ++ top :: out) :=
        (perm.append_right out).trans List.perm_middle.symm
      refine (inner.cons ev).trans ?_
      exact ((H.intoVec_push ev rest).symm).append_right (top :: out)
    · intro d hd x hx
      have topOut : ∀ d ∈ out, key top ≤ key d := fun d hd =>
        le d hd top (perm.mem_iff.mpr (by simp))
      have underTop : key x ≤ key top := by
        rcases H.mem_push.mp hx with rfl | hx
        · exact less.le
        · exact greatest x (perm.mem_iff.mpr (by simp [hx]))
      rcases List.mem_cons.mp hd with rfl | hd
      · exact underTop
      · exact underTop.trans (topOut d hd)
    · have pushed := H.len_push ev rest
      have popped := H.len_of_pop pop
      simp only [BinaryHeap.len, List.length_append, List.length_singleton] at *
      omega
  · -- The offered element is left out.
    rw [offered]
    refine ⟨⟨ev :: out, whole'.trans List.perm_middle.symm, ?_⟩, ?_⟩
    · intro d hd x hx
      rcases List.mem_cons.mp hd with rfl | hd
      · exact above x hx
      · exact le d hd x hx
    · simp only [BinaryHeap.len, List.length_append, List.length_singleton] at *
      omega

theorem keepSmallest_append (H : BinaryHeap key) (limit : Nat) (l : List α) (ev : α) :
    H.keepSmallest limit (l ++ [ev]) = H.offer limit (H.keepSmallest limit l) ev := by
  simp [BinaryHeap.keepSmallest]

/-- The bounded heap holds the smallest elements of the stream. -/
theorem kept_keepSmallest (H : BinaryHeap key) (limit : Nat) (l : List α) :
    Kept key limit l (H.intoVec (H.keepSmallest limit l)) := by
  induction l using List.reverseRecOn with
  | nil => exact ⟨⟨[], by simp [BinaryHeap.keepSmallest, H.intoVec_new]⟩,
      by simp [BinaryHeap.keepSmallest, H.intoVec_new]⟩
  | append_singleton l ev ih =>
    rw [keepSmallest_append]
    exact kept_offer H ih ev

/-- The keys of the kept elements are the first keys of the stream. -/
theorem Kept.map_key {limit : Nat} {l K : List α} (h : Kept key limit l K) :
    (sortByKey key K).map key = ((sortByKey key l).take limit).map key := by
  obtain ⟨out, whole, le⟩ := h.split
  have joined : (sortByKey key K ++ sortByKey key out).Pairwise fun a b => key a ≤ key b := by
    refine List.pairwise_append.mpr ⟨sortByKey_sorted key K, sortByKey_sorted key out, ?_⟩
    intro x hx d hd
    exact le d (mem_sortByKey.mp hd) x (mem_sortByKey.mp hx)
  have perm : ((sortByKey key l).map key).Perm
      ((sortByKey key K ++ sortByKey key out).map key) := by
    refine (((sortByKey_perm key l).trans whole).trans ?_).map key
    exact ((sortByKey_perm key K).symm).append (sortByKey_perm key out).symm
  have keys : (sortByKey key l).map key = (sortByKey key K ++ sortByKey key out).map key := by
    have sorted := List.pairwise_map.mpr (sortByKey_sorted key l)
    exact perm.eq_of_pairwise (fun _ _ _ _ => le_antisymm) sorted (List.pairwise_map.mpr joined)
  rw [List.map_take, keys, List.map_append]
  have lengths := whole.length_eq
  have length := h.length
  rw [List.length_append] at lengths
  by_cases fits : limit ≤ l.length
  · rw [List.take_left']
    simp only [List.length_map, length_sortByKey]
    omega
  · have none : out = [] := List.eq_nil_of_length_eq_zero (by omega)
    subst none
    have : (sortByKey key ([] : List α)) = [] := by simp [sortByKey]
    rw [this, List.map_nil, List.append_nil, List.take_of_length_le]
    simp only [List.length_map, length_sortByKey]
    omega

/-! ## When the ties do not matter -/

/-- No tie matters when the `limit` smallest elements of `l` are kept: an element equal in key
to one before it is that same element, unless `limit` elements of the whole stream have smaller
keys (its key is not reached) or `limit` elements before it do not have greater keys (it is
never taken in). -/
def TieSafe (key : α → κ) (limit : Nat) (l : List α) : Prop :=
  ∀ pre ev post, l = pre ++ ev :: post →
    l.countP (fun a => key a < key ev) < limit →
    pre.countP (fun a => key a ≤ key ev) < limit →
    ∀ a ∈ pre, key a = key ev → a = ev

/-- `ev` is taken in by the bounded heap when the stream reaches it. -/
def TakenIn (key : α → κ) (limit : Nat) (l : List α) (ev : α) : Prop :=
  ∃ pre post, l = pre ++ ev :: post ∧ pre.countP (fun a => key a ≤ key ev) < limit

theorem TakenIn.append {limit : Nat} {l : List α} {ev : α} (h : TakenIn key limit l ev)
    (more : List α) : TakenIn key limit (l ++ more) ev := by
  obtain ⟨pre, post, rfl, few⟩ := h
  exact ⟨pre, post ++ more, by simp, few⟩

theorem countP_le_eq_add (k : κ) (l : List α) :
    l.countP (fun a => key a ≤ k) =
      l.countP (fun a => key a < k) + l.countP (fun a => key a = k) := by
  induction l with
  | nil => rfl
  | cons a t ih =>
    simp only [List.countP_cons, ih]
    rcases lt_trichotomy (key a) k with h | h | h
    · simp [h, h.le, h.ne]; omega
    · simp [h]; omega
    · simp [not_le.mpr h, not_lt.mpr h.le, h.ne']

/-- An element smaller than one that is kept is kept. -/
theorem Kept.countP_lt {limit : Nat} {l K : List α} (h : Kept key limit l K) {x : α}
    (hx : x ∈ K) (p : κ → Bool) (less : ∀ k, p k = true → k < key x) :
    l.countP (fun a => p (key a)) < limit := by
  obtain ⟨out, whole, le⟩ := h.split
  have outside : out.countP (fun a => p (key a)) = 0 := by
    refine List.countP_eq_zero.mpr ?_
    intro d hd small
    exact absurd (less _ small) (not_lt.mpr (le d hd x hx))
  have inside : K.countP (fun a => p (key a)) < K.length := by
    refine lt_of_le_of_ne List.countP_le_length ?_
    intro all
    have := List.countP_eq_length.mp all x hx
    exact absurd (less _ this) (lt_irrefl _)
  have := h.length
  rw [whole.countP_eq, List.countP_append]
  omega

/-- Everything in the bounded heap was taken in. -/
theorem keepSmallest_takenIn (H : BinaryHeap key) (limit : Nat) (l : List α) :
    ∀ x ∈ H.intoVec (H.keepSmallest limit l), TakenIn key limit l x := by
  induction l using List.reverseRecOn with
  | nil => simp [BinaryHeap.keepSmallest, H.intoVec_new]
  | append_singleton l ev ih =>
    have kept := kept_keepSmallest H limit l
    have here : l.countP (fun a => key a ≤ key ev) < limit → TakenIn key limit (l ++ [ev]) ev :=
      fun few => ⟨l, [], rfl, few⟩
    rw [keepSmallest_append]
    intro x hx
    rcases H.offer_cases limit (H.keepSmallest limit l) ev with ⟨room, offered⟩
      | ⟨full, top, rest, pop, less, offered⟩ | ⟨full, above, offered⟩
    · rw [offered] at hx
      rcases H.mem_push.mp hx with rfl | hx
      · apply here
        have := kept.length
        have : l.countP (fun a => key a ≤ key x) ≤ l.length := List.countP_le_length
        simp only [BinaryHeap.len] at room
        omega
      · exact (ih x hx).append [ev]
    · rw [offered] at hx
      have topIn := (H.mem_of_pop pop).mpr (.inl rfl)
      rcases H.mem_push.mp hx with rfl | hx
      · apply here
        exact kept.countP_lt topIn (fun k => k ≤ key x) (by simpa using fun k hk => hk.trans_lt less)
      · exact (ih x ((H.mem_of_pop pop).mpr (.inr hx))).append [ev]
    · rw [offered] at hx
      exact (ih x hx).append [ev]

/-- Under `TieSafe` an element that is taken in and whose key is reached is the first of its
key. -/
theorem TieSafe.find_eq {limit : Nat} {l : List α} (safe : TieSafe key limit l) {x : α}
    (taken : TakenIn key limit l x) (reached : l.countP (fun a => key a < key x) < limit) :
    l.find? (fun a => key a = key x) = some x := by
  obtain ⟨pre, post, rfl, few⟩ := taken
  have same := safe pre x post rfl reached few
  rw [List.find?_append]
  cases found : pre.find? (fun a => key a = key x) with
  | none => simp
  | some a =>
    have ha : a ∈ pre := List.mem_of_find?_eq_some found
    have hk : key a = key x := by simpa using List.find?_some found
    simp [same a ha hk]

/-- The first `limit` elements of the stable sort would all be taken in. -/
theorem takenIn_of_mem_take {limit : Nat} {l : List α} {y : α}
    (hy : y ∈ (sortByKey key l).take limit) :
    TakenIn key limit l y ∧ l.countP (fun a => key a < key y) < limit := by
  obtain ⟨front, back, cut⟩ := List.append_of_mem hy
  obtain ⟨rest, whole⟩ : ∃ rest, sortByKey key l = front ++ y :: rest := by
    refine ⟨back ++ (sortByKey key l).drop limit, ?_⟩
    rw [← List.cons_append, ← List.append_assoc, ← cut, List.take_append_drop]
  have short : front.length < limit := by
    have : ((sortByKey key l).take limit).length ≤ limit := List.length_take_le _ _
    rw [cut, List.length_append, List.length_cons] at this
    omega
  have sorted := sortByKey_sorted key l
  rw [whole, SortedBy, List.pairwise_append, List.pairwise_cons] at sorted
  obtain ⟨-, ⟨geY, -⟩, -⟩ := sorted
  -- Everything smaller than `y` stands before it in the sorted list.
  have smaller : l.countP (fun a => key a < key y) = front.countP (fun a => key a < key y) := by
    rw [← (sortByKey_perm key l).countP_eq, whole, List.countP_append, List.countP_cons]
    have : rest.countP (fun a => key a < key y) = 0 :=
      List.countP_eq_zero.mpr fun b hb => by simpa using geY b hb
    simp [this]
  -- The elements of `y`'s key come in the order of `l`.
  have level : l.filter (fun a => key a = key y) =
      front.filter (fun a => key a = key y) ++ y :: rest.filter (fun a => key a = key y) := by
    rw [← filter_sortByKey, whole]
    simp
  obtain ⟨pre, tail, rfl, preEq, tailEq⟩ := List.filter_eq_append_iff.mp level
  obtain ⟨gap, post, rfl, gapNone, -, -⟩ := List.filter_eq_cons_iff.mp tailEq
  refine ⟨⟨pre ++ gap, post, by simp, ?_⟩, ?_⟩
  · have equal : (pre ++ gap).countP (fun a => key a = key y) =
        front.countP (fun a => key a = key y) := by
      have none : gap.countP (fun a => key a = key y) = 0 :=
        List.countP_eq_zero.mpr fun a ha => by simpa using gapNone a ha
      rw [List.countP_append, none, List.countP_eq_length_filter, preEq,
        List.countP_eq_length_filter, Nat.add_zero]
    have less : (pre ++ gap).countP (fun a => key a < key y) ≤
        front.countP (fun a => key a < key y) := by
      rw [← smaller]
      refine List.Sublist.countP_le ?_
      rw [← List.append_assoc]
      exact List.sublist_append_left _ _
    have short' : front.countP (fun a => key a ≤ key y) ≤ front.length := List.countP_le_length
    rw [countP_le_eq_add] at short' ⊢
    omega
  · rw [smaller]
    exact List.countP_le_length.trans_lt short

/-- Under `TieSafe` every element of a list of taken-in elements is told by its key. -/
theorem TieSafe.map_some {limit : Nat} {l K : List α} (safe : TieSafe key limit l)
    (taken : ∀ x ∈ K, TakenIn key limit l x ∧ l.countP (fun a => key a < key x) < limit) :
    K.map some = (K.map key).map fun k => l.find? (fun a => key a = k) := by
  rw [List.map_map]
  refine List.map_congr_left ?_
  intro x hx
  exact (safe.find_eq (taken x hx).1 (taken x hx).2).symm

/-- The adversary keeps an element of its choice among those of one key, as long as that key is
reached. -/
theorem tieHeap_keeps_fav {fav : α → Bool} {limit : Nat} {k : κ} {l : List α} {x : α}
    (taken : TakenIn key limit l x) (keyX : key x = k) (favX : fav x = true)
    (reached : l.countP (fun a => key a < k) < limit) :
    ∃ y ∈ (tieHeap key fav).intoVec ((tieHeap key fav).keepSmallest limit l),
      key y = k ∧ fav y = true := by
  induction l using List.reverseRecOn with
  | nil =>
    obtain ⟨pre, post, cut, -⟩ := taken
    simp at cut
  | append_singleton l ev ih =>
    have kept := kept_keepSmallest (tieHeap key fav) limit l
    rw [keepSmallest_append]
    obtain ⟨pre, post, cut, few⟩ := taken
    rw [List.countP_append] at reached
    rcases List.eq_nil_or_concat post with rfl | ⟨post, last, rfl⟩
    · -- The chosen element is the one on offer: it finds room.
      obtain ⟨rfl, tail⟩ := List.append_inj' cut rfl
      obtain rfl : ev = x := by simpa using tail
      refine ⟨ev, ?_, keyX, favX⟩
      rcases (tieHeap key fav).offer_cases limit ((tieHeap key fav).keepSmallest limit l) ev with
        ⟨-, offered⟩ | ⟨-, top, rest, pop, -, offered⟩ | ⟨full, above, -⟩
      · rw [offered]; exact (BinaryHeap.mem_push _).mpr (.inl rfl)
      · rw [offered]; exact (BinaryHeap.mem_push _).mpr (.inl rfl)
      · obtain ⟨out, whole, -⟩ := kept.split
        rw [whole.countP_eq, List.countP_append,
          List.countP_eq_length.mpr (by simpa using above)] at few
        exact absurd few (by simp only [BinaryHeap.len] at full; omega)
    · -- The chosen element was taken in before: it can only be evicted for others of its key.
      have before : TakenIn key limit l x := by
        rw [List.concat_eq_append, ← List.cons_append, ← List.append_assoc] at cut
        exact ⟨pre, post, (List.append_inj' cut rfl).1, few⟩
      obtain ⟨y, hy, keyY, favY⟩ := ih before (by omega)
      rcases (tieHeap key fav).offer_cases limit ((tieHeap key fav).keepSmallest limit l) ev with
        ⟨-, offered⟩ | ⟨full, top, rest, pop, less, offered⟩ | ⟨-, -, offered⟩
      · exact ⟨y, by rw [offered]; exact (BinaryHeap.mem_push _).mpr (.inr hy), keyY, favY⟩
      · rw [offered]
        rcases (BinaryHeap.mem_of_pop _ pop).mp hy with rfl | hy
        · by_contra none
          have noneRest : ∀ b ∈ (tieHeap key fav).intoVec rest, key b < k := by
            intro b hb
            have bIn := (BinaryHeap.mem_of_pop _ pop).mpr (.inr hb)
            refine lt_of_le_of_ne (keyY ▸ ((tieHeap key fav).pop_some pop).2 b bIn) ?_
            intro tie
            refine none ⟨b, (BinaryHeap.mem_push _).mpr (.inr hb), tie, ?_⟩
            refine tieHeap_pop_fav pop favY ?_ (tie.trans keyY.symm)
            exact (List.filter_append_perm fav _).mem_iff.mp bIn
          obtain ⟨out, whole, -⟩ := kept.split
          have popped := ((tieHeap key fav).pop_some pop).1
          have evLess : key ev < k := keyY ▸ less
          rw [(whole.trans (popped.append_right out)).countP_eq] at reached
          simp only [List.countP_append, List.countP_cons, List.countP_nil, evLess,
            decide_true, if_true] at reached
          rw [List.countP_eq_length.mpr (by simpa using noneRest)] at reached
          have := (tieHeap key fav).len_of_pop pop
          simp only [BinaryHeap.len] at this full
          omega
        · exact ⟨y, (BinaryHeap.mem_push _).mpr (.inr hy), keyY, favY⟩
      · exact ⟨y, by rw [offered]; exact hy, keyY, favY⟩

/-- Sorting what a bounded heap kept gives the first `limit` elements of the stable sort,
whatever the heap does with ties, exactly when no tie matters. -/
theorem keepSmallest_eq_take_iff (limit : Nat) (l : List α) :
    (∀ H : BinaryHeap key, sortByKey key (H.intoVec (H.keepSmallest limit l)) =
      (sortByKey key l).take limit) ↔ TieSafe key limit l := by
  classical
  constructor
  · intro agree
    by_contra broken
    simp only [TieSafe, not_forall] at broken
    obtain ⟨pre, ev, post, cut, reached, few, a, ha, keyA, differ⟩ := broken
    -- One of the two elements of this key is not the first of them; the adversary prefers it.
    obtain ⟨x, taken, keyX, notFirst⟩ : ∃ x, TakenIn key limit l x ∧ key x = key ev ∧
        l.find? (fun b => key b = key ev) ≠ some x := by
      by_cases first : l.find? (fun b => key b = key ev) = some ev
      · obtain ⟨p, q, rfl⟩ := List.append_of_mem ha
        refine ⟨a, ⟨p, q ++ ev :: post, by simp [cut], ?_⟩, keyA, ?_⟩
        · rw [keyA]
          refine lt_of_le_of_lt ?_ few
          exact (List.sublist_append_left p _).countP_le
        · rw [first]; exact fun h => differ (Option.some.inj h).symm
      · exact ⟨ev, ⟨pre, post, cut, few⟩, rfl, first⟩
    let fav : α → Bool := fun b => decide (l.find? (fun c => key c = key ev) ≠ some b)
    obtain ⟨y, hy, keyY, favY⟩ :=
      tieHeap_keeps_fav taken keyX (show fav x = true by simpa [fav] using notFirst) reached
    -- So the first element of this key in the result is one the adversary prefers.
    have heads := congrArg (List.find? fun b => key b = key ev) (agree (tieHeap key fav))
    rw [← List.head?_filter, filter_sortByKey, List.head?_filter] at heads
    obtain ⟨z, found, favZ⟩ : ∃ z, ((tieHeap key fav).intoVec
        ((tieHeap key fav).keepSmallest limit l)).find? (fun b => key b = key ev) = some z ∧
        fav z = true := by
      have yIn := (List.filter_append_perm fav _).mem_iff.mp hy
      have front : (((tieHeap key fav).keepSmallest limit l).filter fav).find?
          (fun b => key b = key ev) ≠ none := by
        intro none
        exact List.find?_eq_none.mp none y (List.mem_filter.mpr ⟨yIn, favY⟩) (by simpa using keyY)
      obtain ⟨z, hz⟩ := Option.ne_none_iff_exists'.mp front
      refine ⟨z, ?_, (List.mem_filter.mp (List.mem_of_find?_eq_some hz)).2⟩
      exact (List.find?_append).trans (by rw [hz]; rfl)
    rw [found] at heads
    have prefixed : (sortByKey key l).find? (fun b => key b = key ev) = some z := by
      rw [← List.take_append_drop limit (sortByKey key l), List.find?_append, ← heads]
      rfl
    rw [← List.head?_filter, filter_sortByKey, List.head?_filter] at prefixed
    simp [fav, prefixed] at favZ
  · intro safe H
    have keys := (kept_keepSmallest H limit l).map_key
    have left := safe.map_some (K := sortByKey key (H.intoVec (H.keepSmallest limit l)))
      fun x hx => ⟨keepSmallest_takenIn H limit l x (mem_sortByKey.mp hx),
        (kept_keepSmallest H limit l).countP_lt (mem_sortByKey.mp hx) (fun k => k < key x)
          (by simp)⟩
    have right := safe.map_some (K := (sortByKey key l).take limit)
      fun x hx => takenIn_of_mem_take hx
    rw [keys, ← right] at left
    exact List.map_injective_iff.mpr (Option.some_injective α) left

end RWave.Misc
