/-!
# Programs that look at a clock

A `Timed` program may ask what time it is and go on with the answer. `Timed.run` answers from a given clock;
a program is the same for all clocks until it asks.
-/

namespace PlaceRoute

/-- A program that may ask for the time, in nanoseconds since some fixed moment. -/
inductive Timed (α : Type) where
  | done (a : α)
  | ask (next : Nat → Timed α)

namespace Timed

/-- Runs a program and goes on with its result. -/
def bind {α β : Type} : Timed α → (α → Timed β) → Timed β
  | done a, f => f a
  | ask next, f => ask fun time => (next time).bind f

instance : Monad Timed where
  pure := done
  bind := bind

/-- The time. -/
def now : Timed Nat := ask done

/-- Runs a program from the reading `i` of a clock on. -/
def runFrom {α : Type} (clock : Nat → Nat) : Nat → Timed α → α
  | _, done a => a
  | i, ask next => runFrom clock (i + 1) (next (clock i))

/-- The result of a program, when `clock i` answers its question `i`. -/
def run {α : Type} (clock : Nat → Nat) (x : Timed α) : α := runFrom clock 0 x

end Timed
end PlaceRoute
