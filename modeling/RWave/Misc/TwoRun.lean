import Mathlib

/-!
# Programs whose result does not depend on the state they start from

A program works on a state and may fail; a failure keeps the state reached. `Agrees P m Q E` relates
two runs of one program: from any two states that satisfy `P` it has the same outcome, and a run
that starts in `P` ends in `Q` of its result or, if it fails, in `E`. The rules follow the program's
syntax. `Isolated I m` is the case of one invariant throughout; a sequence of isolated programs, run
one after the other, answers like each of them run alone (`runAll_results`).
-/

namespace RWave.Misc

variable {σ ε α β : Type}

/-- A program on a state that may fail. -/
abbrev Prog (σ ε α : Type) : Type := ExceptT ε (StateM σ) α

namespace Prog

/-- The outcome of a run, and the state it leaves. -/
def exec (m : Prog σ ε α) (s : σ) : Except ε α × σ := m.run s

/-- What a run answers. -/
def result (m : Prog σ ε α) (s : σ) : Except ε α := (m.exec s).1

/-- What a run leaves. -/
def final (m : Prog σ ε α) (s : σ) : σ := (m.exec s).2

/-- A function of the state, which stays. -/
def reads (f : σ → α) : Prog σ ε α := fun s => (.ok (f s), s)

/-- A step that returns a value and a new state. -/
def steps (f : σ → α × σ) : Prog σ ε α := fun s => (.ok (f s).1, (f s).2)

/-- The outcome of a computation that has no state. -/
def lift (x : Except ε α) : Prog σ ε α := fun s => (x, s)

@[simp] theorem result_lift (x : Except ε α) (s : σ) : (lift x : Prog σ ε α).result s = x := rfl

@[simp] theorem final_lift (x : Except ε α) (s : σ) : (lift x : Prog σ ε α).final s = s := rfl

theorem exec_bind (m : Prog σ ε α) (f : α → Prog σ ε β) (s : σ) :
    (m >>= f).exec s =
      match m.result s with
      | .ok a => (f a).exec (m.final s)
      | .error e => (.error e, m.final s) := by
  change (ExceptT.bindCont f (m.exec s).1 : StateM σ _) (m.exec s).2 = _
  rw [result, final]
  cases m.exec s with
  | mk outcome s' => cases outcome <;> rfl

theorem result_bind (m : Prog σ ε α) (f : α → Prog σ ε β) (s : σ) :
    (m >>= f).result s =
      match m.result s with
      | .ok a => (f a).result (m.final s)
      | .error e => .error e := by
  rw [result, exec_bind]
  cases m.result s <;> rfl

/-- A sequence succeeds if its first part does, and what follows does from where that part ends. -/
theorem result_bind_eq_ok {m : Prog σ ε α} {f : α → Prog σ ε β} {s : σ} {b : β} :
    (m >>= f).result s = .ok b ↔
      ∃ a, m.result s = .ok a ∧ (f a).result (m.final s) = .ok b := by
  rw [result_bind]
  cases m.result s with
  | ok a => simp
  | error e => simp

theorem final_bind (m : Prog σ ε α) (f : α → Prog σ ε β) (s : σ) :
    (m >>= f).final s =
      match m.result s with
      | .ok a => (f a).final (m.final s)
      | .error _ => m.final s := by
  rw [final, exec_bind]
  cases m.result s <;> rfl

/-- What follows a program without touching the state does not change what it leaves. -/
theorem final_bind_pure (m : Prog σ ε α) (g : α → β) (s : σ) :
    (m >>= fun a => Pure.pure (g a)).final s = m.final s := by
  rw [final_bind]
  cases m.result s <;> rfl

end Prog

open Prog

/-! ## Two runs -/

/-- From states in `P`, `m` has one outcome; it ends in `Q` of its result or fails in `E`. -/
structure Agrees (P : σ → Prop) (m : Prog σ ε α) (Q : α → σ → Prop) (E : σ → Prop) : Prop where
  same : ∀ s t, P s → P t → m.result s = m.result t
  normal : ∀ s a, P s → m.result s = .ok a → Q a (m.final s)
  failed : ∀ s e, P s → m.result s = .error e → E (m.final s)

namespace Agrees

variable {P : σ → Prop} {m : Prog σ ε α} {Q : α → σ → Prop} {E : σ → Prop}

/-- A computation without state. -/
theorem lift (x : Except ε α) (post : ∀ a s, x = .ok a → P s → Q a s) (error : ∀ s, P s → E s) :
    Agrees P (Prog.lift x) Q E where
  same _ _ _ _ := rfl
  normal s a hs ends := post a s ends hs
  failed s _ hs _ := error s hs

theorem pure (a : α) (post : ∀ s, P s → Q a s) (error : ∀ s, P s → E s) :
    Agrees P (Pure.pure a : Prog σ ε α) Q E :=
  lift (.ok a) (fun _ s same hs => Except.ok.inj same ▸ post s hs) error

/-- A function of the state that takes one value on `P`. -/
theorem reads {f : σ → α} (same : ∀ s t, P s → P t → f s = f t) (post : ∀ s, P s → Q (f s) s) :
    Agrees P (Prog.reads f : Prog σ ε α) Q E where
  same s t hs ht := congrArg Except.ok (same s t hs ht)
  normal s _ hs ends := Except.ok.inj ends ▸ post s hs
  failed _ _ _ ends := nomatch ends

theorem steps {f : σ → α × σ} (same : ∀ s t, P s → P t → (f s).1 = (f t).1)
    (post : ∀ s, P s → Q (f s).1 (f s).2) : Agrees P (Prog.steps f : Prog σ ε α) Q E where
  same s t hs ht := congrArg Except.ok (same s t hs ht)
  normal s _ hs ends := Except.ok.inj ends ▸ post s hs
  failed _ _ _ ends := nomatch ends

theorem bind {f : α → Prog σ ε β} {R : β → σ → Prop} (first : Agrees P m Q E)
    (next : ∀ a, Agrees (Q a) (f a) R E) : Agrees P (m >>= f) R E := by
  refine ⟨?_, ?_, ?_⟩
  · intro s t hs ht
    have one := first.same s t hs ht
    rw [result, result, exec_bind, exec_bind, ← one]
    cases ends : m.result s with
    | ok a =>
      exact (next a).same _ _ (first.normal s a hs ends) (first.normal t a ht (one ▸ ends))
    | error e => rfl
  · intro s b hs ends
    rw [result, exec_bind] at ends
    rw [final, exec_bind]
    cases outcome : m.result s with
    | ok a =>
      rw [outcome] at ends
      exact (next a).normal _ b (first.normal s a hs outcome) ends
    | error e =>
      rw [outcome] at ends
      cases ends
  · intro s e hs ends
    rw [result, exec_bind] at ends
    rw [final, exec_bind]
    cases outcome : m.result s with
    | ok a =>
      rw [outcome] at ends
      exact (next a).failed _ e (first.normal s a hs outcome) ends
    | error e' => exact first.failed s e' hs outcome

end Agrees

/-! ## One invariant -/

/-- `m` keeps the invariant however it ends, and its outcome is one for all states that have it. -/
def Isolated (I : σ → Prop) (m : Prog σ ε α) : Prop := Agrees I m (fun _ => I) I

namespace Isolated

variable {I : σ → Prop} {m : Prog σ ε α}

theorem keeps (h : Isolated I m) {s : σ} (inv : I s) : I (m.final s) := by
  cases ends : m.result s with
  | ok a => exact h.normal s a inv ends
  | error e => exact h.failed s e inv ends

theorem lift (x : Except ε α) : Isolated I (Prog.lift x) :=
  Agrees.lift x (fun _ _ _ inv => inv) fun _ inv => inv

theorem pure (a : α) : Isolated I (Pure.pure a : Prog σ ε α) :=
  Agrees.pure a (fun _ inv => inv) fun _ inv => inv

theorem bind {f : α → Prog σ ε β} (first : Isolated I m) (next : ∀ a, Isolated I (f a)) :
    Isolated I (m >>= f) :=
  Agrees.bind first next

/-- What is made of the result without touching the state. -/
theorem bindPure {g : α → β} (first : Isolated I m) :
    Isolated I (m >>= fun a => Pure.pure (g a)) :=
  first.bind fun a => Isolated.pure (g a)

theorem ite {p : Prop} [Decidable p] {m m' : Prog σ ε α} (yes : p → Isolated I m)
    (no : ¬ p → Isolated I m') : Isolated I (if p then m else m') := by
  split
  next holds => exact yes holds
  next fails => exact no fails

end Isolated

/-- Several programs, one after the other; a failure does not stop the rest. -/
def runAll (s : σ) : List (Prog σ ε α) → List (Except ε α) × σ
  | [] => ([], s)
  | m :: rest =>
    let (results, s') := runAll (m.final s) rest
    (m.result s :: results, s')

/-- Run one after the other, isolated programs answer like each of them run alone. -/
theorem runAll_results {I : σ → Prop} {programs : List (Prog σ ε α)}
    (isolated : ∀ m ∈ programs, Isolated I m) {s alone : σ} (inv : I s) (ref : I alone) :
    (runAll s programs).1 = programs.map (fun m => m.result alone) ∧ I (runAll s programs).2 := by
  induction programs generalizing s with
  | nil => exact ⟨rfl, inv⟩
  | cons m programs ih =>
    have first := isolated m List.mem_cons_self
    obtain ⟨results, final⟩ :=
      ih (fun m' member => isolated m' (List.mem_cons_of_mem _ member)) (first.keeps inv)
    refine ⟨?_, final⟩
    rw [List.map_cons, ← results, ← first.same s alone inv ref]
    rfl

end RWave.Misc
