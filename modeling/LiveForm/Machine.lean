/-!
# Machines of frames

The parts of this library that call back into their surroundings are written as machines.  What is
left to do when a call comes back is a *frame*, a value; the frames that wait form a stack.  So
between any two steps everything is at hand: the state, and what is still to be done.  A callback
may use the part that called it, at any depth, and a failure may pass through frames on its way
out; both are steps like others.

A part asks its surroundings by a frame of its own kind, an `Activity.ask`.  Whoever embeds the
part says what such a frame does.
-/

namespace LiveForm

/-- How a call comes back: with an answer, or with an error. -/
inductive Reply (ρ ε : Type) where
  | returned (r : ρ)
  | raised (e : ε)
  deriving DecidableEq

/-- What a frame does when it goes on. -/
inductive Move (σ φ ρ ε : Type) where
  /-- Other frames take its place; the first one goes on at once, each later one when the one
  before it is done. -/
  | call (s : σ) (frames : List φ)
  /-- It is done. -/
  | reply (s : σ) (r : Reply ρ ε)

namespace Move

variable {σ τ φ ψ ρ υ ε : Type}

/-- Is done, with an answer. -/
def ret (s : σ) (r : ρ) : Move σ φ ρ ε := .reply s (.returned r)

/-- Is done, with an error. -/
def fail (s : σ) (e : ε) : Move σ φ ρ ε := .reply s (.raised e)

/-- The same move in larger surroundings. -/
def embed (state : σ → τ) (frame : φ → ψ) (answer : ρ → υ) : Move σ φ ρ ε → Move τ ψ υ ε
  | call s fs => .call (state s) (fs.map frame)
  | reply s (.returned r) => .reply (state s) (.returned (answer r))
  | reply s (.raised e) => .reply (state s) (.raised e)

end Move

/-- A frame of a part: one of its own, or a question to its surroundings. -/
inductive Activity (φ κ : Type) where
  | own (f : φ)
  | ask (k : κ)
  deriving DecidableEq

/-- The frame of a part in larger surroundings, where each question is a frame too. -/
def Activity.elim {φ κ ψ : Type} (own : φ → ψ) (ask : κ → ψ) : Activity φ κ → ψ
  | .own f => own f
  | .ask k => ask k

/-! ## Running -/

/-- A machine: how each frame goes on after a reply. -/
abbrev Machine (σ φ ρ ε : Type) := φ → Reply ρ ε → σ → Move σ φ ρ ε

/-- A machine in the middle of its work: the state, the frames that wait, and the last reply. -/
structure Config (σ φ ρ ε : Type) where
  state : σ
  stack : List φ
  reply : Reply ρ ε

namespace Machine

variable {σ φ ρ ε : Type} [Inhabited ρ]

/-- The configuration after a move of the frame that was on top of these. -/
def after (below : List φ) : Move σ φ ρ ε → Config σ φ ρ ε
  | .call s fs => ⟨s, fs ++ below, .returned default⟩
  | .reply s r => ⟨s, below, r⟩

/-- Lets the frame on top go on. -/
def step (m : Machine σ φ ρ ε) (c : Config σ φ ρ ε) : Config σ φ ρ ε :=
  match c.stack with
  | [] => c
  | f :: below => after below (m f c.reply c.state)

/-- Takes at most so many steps, until no frame is left. -/
def run (m : Machine σ φ ρ ε) : (steps : Nat) → Config σ φ ρ ε → Config σ φ ρ ε
  | 0, c => c
  | n + 1, c => if c.stack.isEmpty then c else run m n (m.step c)

/-- More steps than any run takes that comes to an end. -/
def patience : Nat := Nat.pow 10 12

/-- Runs a machine from a move until nothing is left to do. -/
def complete (m : Machine σ φ ρ ε) (move : Move σ φ ρ ε) : σ × Reply ρ ε :=
  let c := m.run patience (after [] move)
  (c.state, c.reply)

end Machine

end LiveForm
