import LiveForm.Machine
import Mathlib.Data.List.Basic

/-!
# Runs of machines

A run is cut into parts at will: `Runs m see c as c'` says that the machine gets from one
configuration to another and that `as` is what was seen on the way.  What is seen of a
configuration is up to the observer.
-/

namespace LiveForm

/-- The state that a move leads to. -/
def Move.state {σ φ ρ ε : Type} : Move σ φ ρ ε → σ
  | .call s _ => s
  | .reply s _ => s

theorem Move.state_embed {σ τ φ ψ ρ υ ε : Type} (state : σ → τ) (frame : φ → ψ) (answer : ρ → υ)
    (m : Move σ φ ρ ε) : (m.embed state frame answer).state = state m.state := by
  match m with
  | .call s fs => rfl
  | .reply s (.returned r) => rfl
  | .reply s (.raised e) => rfl

/-- The frames that a move puts in the place of its own. -/
def Move.frames {σ φ ρ ε : Type} : Move σ φ ρ ε → List φ
  | .call _ fs => fs
  | .reply _ _ => []

theorem Move.frames_embed {σ τ φ ψ ρ υ ε : Type} (state : σ → τ) (frame : φ → ψ) (answer : ρ → υ)
    (m : Move σ φ ρ ε) : (m.embed state frame answer).frames = m.frames.map frame := by
  match m with
  | .call s fs => rfl
  | .reply s (.returned r) => rfl
  | .reply s (.raised e) => rfl

namespace Machine

variable {σ φ ρ ε α : Type} [Inhabited ρ] {m : Machine σ φ ρ ε} {see : Config σ φ ρ ε → Option α}

theorem state_after (below : List φ) (m : Move σ φ ρ ε) : (after below m).state = m.state := by
  cases m <;> rfl

theorem stack_after (below : List φ) (m : Move σ φ ρ ε) :
    (after below m).stack = m.frames ++ below := by
  cases m <;> rfl

theorem run_of_stack_nil {c : Config σ φ ρ ε} (h : c.stack = []) (n : Nat) : m.run n c = c := by
  cases n with
  | zero => rfl
  | succ n => rw [run, if_pos (by rw [h]; rfl)]

theorem run_succ {c : Config σ φ ρ ε} (h : c.stack ≠ []) (n : Nat) :
    m.run (n + 1) c = m.run n (m.step c) := by
  rw [run, if_neg (by simpa using h)]

theorem run_add (a b : Nat) (c : Config σ φ ρ ε) : m.run (a + b) c = m.run b (m.run a c) := by
  induction a generalizing c with
  | zero => rw [Nat.zero_add, run]
  | succ a ih =>
    by_cases h : c.stack = []
    · rw [run_of_stack_nil h, run_of_stack_nil h, run_of_stack_nil h]
    · rw [Nat.succ_add, run_succ h, run_succ h, ih]

/-- What each step keeps holds all through a run. -/
theorem run_keeps {P : Config σ φ ρ ε → Prop} (hstep : ∀ {c}, P c → c.stack ≠ [] → P (m.step c))
    {c : Config σ φ ρ ε} (h : P c) (n : Nat) : P (m.run n c) := by
  induction n generalizing c with
  | zero => exact h
  | succ n ih =>
    by_cases hstack : c.stack = []
    · rw [run_of_stack_nil hstack]
      exact h
    · rw [run_succ hstack]
      exact ih (hstep h hstack)

/-- What an observer sees in so many steps. -/
def seen (m : Machine σ φ ρ ε) (see : Config σ φ ρ ε → Option α) :
    (steps : Nat) → Config σ φ ρ ε → List α
  | 0, _ => []
  | n + 1, c => if c.stack.isEmpty then [] else (see c).toList ++ seen m see n (m.step c)

theorem seen_of_stack_nil {c : Config σ φ ρ ε} (h : c.stack = []) (n : Nat) :
    m.seen see n c = [] := by
  cases n with
  | zero => rfl
  | succ n => rw [seen, if_pos (by rw [h]; rfl)]

theorem seen_succ {c : Config σ φ ρ ε} (h : c.stack ≠ []) (n : Nat) :
    m.seen see (n + 1) c = (see c).toList ++ m.seen see n (m.step c) := by
  rw [seen, if_neg (by simpa using h)]

theorem seen_add (a b : Nat) (c : Config σ φ ρ ε) :
    m.seen see (a + b) c = m.seen see a c ++ m.seen see b (m.run a c) := by
  induction a generalizing c with
  | zero => rw [Nat.zero_add, seen, run, List.nil_append]
  | succ a ih =>
    by_cases h : c.stack = []
    · rw [run_of_stack_nil h, seen_of_stack_nil h, seen_of_stack_nil h, seen_of_stack_nil h]
      rfl
    · rw [Nat.succ_add, seen_succ h, seen_succ h, run_succ h, ih, List.append_assoc]

/-- The machine gets from one configuration to the other, and this is what is seen on the way. -/
def Runs (m : Machine σ φ ρ ε) (see : Config σ φ ρ ε → Option α) (c : Config σ φ ρ ε)
    (as : List α) (c' : Config σ φ ρ ε) : Prop :=
  ∃ n, m.run n c = c' ∧ m.seen see n c = as

namespace Runs

variable {c c' c'' : Config σ φ ρ ε} {as bs : List α}

theorem refl (c : Config σ φ ρ ε) : Runs m see c [] c := ⟨0, rfl, rfl⟩

theorem trans (h : Runs m see c as c') (h' : Runs m see c' bs c'') :
    Runs m see c (as ++ bs) c'' := by
  obtain ⟨a, rfl, rfl⟩ := h
  obtain ⟨b, rfl, rfl⟩ := h'
  exact ⟨a + b, run_add a b c, seen_add a b c⟩

/-- The same where nothing is seen behind. -/
theorem trans_nil (h : Runs m see c as c') (h' : Runs m see c' [] c'') : Runs m see c as c'' := by
  have ht := h.trans h'
  rwa [List.append_nil] at ht

theorem step (h : c.stack ≠ []) : Runs m see c (see c).toList (m.step c) := by
  refine ⟨1, ?_, ?_⟩
  · rw [run_succ h, run]
  · rw [seen_succ h, seen, List.append_nil]

/-- A step in which nothing is seen, and the rest of the run. -/
theorem head (h : c.stack ≠ []) (hs : see c = none) (hr : Runs m see (m.step c) as c') :
    Runs m see c as c' := by
  have hstep : Runs m see c (see c).toList (m.step c) := step h
  rw [hs] at hstep
  exact hstep.trans hr

/-- A run that is evaluated to its end. -/
theorem ended {n : Nat} {r : Reply ρ ε} (hs : (m.run n c).stack.isEmpty = true)
    (hr : (m.run n c).reply = r) :
    Runs m see c (m.seen see n c) ⟨(m.run n c).state, [], r⟩ := by
  refine ⟨n, ?_, rfl⟩
  rw [← List.isEmpty_iff.mp hs, ← hr]

/-- Two runs that come to an end come to the same end. -/
theorem unique (h : Runs m see c as c') (h' : Runs m see c bs c'') (he : c'.stack = [])
    (he' : c''.stack = []) : as = bs ∧ c' = c'' := by
  obtain ⟨a, rfl, rfl⟩ := h
  obtain ⟨b, rfl, rfl⟩ := h'
  wlog hab : a ≤ b generalizing a b
  · obtain ⟨hs, hr⟩ := this b he' a he (Nat.le_of_not_le hab)
    exact ⟨hs.symm, hr.symm⟩
  · obtain ⟨k, rfl⟩ := Nat.exists_eq_add_of_le hab
    rw [run_add, seen_add, run_of_stack_nil he, seen_of_stack_nil he, List.append_nil]
    exact ⟨rfl, rfl⟩

/-- A run that comes to an end goes on to it from wherever it gets to. -/
theorem remaining {n : Nat} (h : Runs m see c as c') (he : (m.run n c).stack = []) :
    ∃ k ≤ n, (m.run k c').stack = [] := by
  obtain ⟨a, rfl, -⟩ := h
  rcases Nat.le_total a n with han | han
  · obtain ⟨k, rfl⟩ := Nat.exists_eq_add_of_le han
    rw [run_add] at he
    exact ⟨k, Nat.le_add_left k a, he⟩
  · obtain ⟨k, rfl⟩ := Nat.exists_eq_add_of_le han
    refine ⟨0, Nat.zero_le n, ?_⟩
    rw [run, run_add, run_of_stack_nil he]
    exact he

end Runs

/-- The machine comes to the configuration. -/
def Visits (m : Machine σ φ ρ ε) (c c' : Config σ φ ρ ε) : Prop := ∃ n, m.run n c = c'

theorem Visits.refl (c : Config σ φ ρ ε) : m.Visits c c := ⟨0, rfl⟩

theorem Runs.visits {c c' : Config σ φ ρ ε} {as : List α} (h : Runs m see c as c') :
    m.Visits c c' := by
  obtain ⟨n, hn, -⟩ := h
  exact ⟨n, hn⟩

theorem Visits.trans {c c' c'' : Config σ φ ρ ε} (h : m.Visits c c') (h' : m.Visits c' c'') :
    m.Visits c c'' := by
  obtain ⟨a, rfl⟩ := h
  obtain ⟨b, rfl⟩ := h'
  exact ⟨a + b, run_add a b c⟩

end Machine

end LiveForm
