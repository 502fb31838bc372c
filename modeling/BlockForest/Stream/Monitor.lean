/-!
# Progress and cancellation

Whoever starts a walk over a stream may watch it and stop it. Before each block the walk asks
whether to go on, and it reports how much of the whole is done. A `Monitor` answers the
questions by their number and keeps what it was asked and told; one that always agrees stands
for a walk that nobody watches.
-/

set_option autoImplicit false

namespace BlockForest

/-- The watcher of a walk. -/
structure Monitor where
  answer : Nat → Bool
  polls : Nat
  reports : List (Nat × Nat)

namespace Monitor

/-- A monitor that was not asked anything yet. -/
def of (answer : Nat → Bool) : Monitor := ⟨answer, 0, []⟩

/-- A monitor that never stops a walk. -/
def always : Monitor := of fun _ => true

/-- A monitor that lets a number of blocks pass. -/
def upTo (count : Nat) : Monitor := of fun n => n < count

/-- Asks whether to go on. -/
def poll (m : Monitor) : Bool × Monitor := (m.answer m.polls, { m with polls := m.polls + 1 })

/-- Reports how much of the whole is done. -/
def report (m : Monitor) (done total : Nat) : Monitor :=
  { m with reports := m.reports ++ [(done, total)] }

end Monitor

end BlockForest
