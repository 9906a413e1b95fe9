import PlaceRoute.Proofs.Solver.Operation

/-!
# Commands of a solver and what they mean

A `Command` is one operation on a solver; its operands are terms built before, by number. A `Run` is a solver after
some commands, together with what the commands mean: each term with its ordinary meaning over the values of the free
terms (`Env`), and the meanings of the active assertions, scope by scope. `Run.step` performs a command and records what
it means; a term is recorded only if the operation succeeds. A command that the program breaks off at is not performed.
-/

namespace PlaceRoute

open PlaceRoute.Sat (Literal Clause Cnf Assignment Engine AgreeBelow)

namespace Solver

/-! ## Meanings -/

/-- Values of the free booleans and the free words, numbered in the order in which they were made. -/
structure Env where
  bool : Nat → Bool
  word : Nat → Nat

/-- A boolean term and what it means. -/
structure BoolTerm where
  literal : Literal
  meaning : Env → Bool

/-- A word and the number that it means. -/
structure WordTerm where
  word : Word
  width : Nat
  meaning : Env → Nat

/-- Connectives of two terms. -/
inductive Connective where
  | and
  | or
  | xor
  | iff
  | implies

namespace Connective

/-- The truth table. -/
def sem : Connective → Bool → Bool → Bool
  | and => (· && ·)
  | or => (· || ·)
  | xor => (· ^^ ·)
  | iff => (· == ·)
  | implies => fun p q => !p || q

/-- The operation of the solver. -/
def build : Connective → Literal → Literal → SolverM Literal
  | and => Solver.and
  | or => Solver.or
  | xor => Solver.xor
  | iff => Solver.iff
  | implies => Solver.implies

theorem build_implements (c : Connective) : Implements c.build c.sem := by
  cases c with
  | and => exact and_means
  | or => exact or_means
  | xor => exact xor_means
  | iff => exact iff_means
  | implies => exact implies_means

end Connective

/-- Operations on two words of one width. -/
inductive WordOp where
  | and
  | or
  | xor
  | add
  | sub

namespace WordOp

/-- The operation on numbers below `2 ^ n`. -/
def sem (n : Nat) : WordOp → Nat → Nat → Nat
  | and => (· &&& ·)
  | or => (· ||| ·)
  | xor => (· ^^^ ·)
  | add => fun x y => (x + y) % 2 ^ n
  | sub => fun x y => (x + (2 ^ n - y)) % 2 ^ n

/-- The operation of the solver. -/
def build : WordOp → Word → Word → CheckedM Word
  | and => andWord
  | or => orWord
  | xor => xorWord
  | add => addWord
  | sub => subWord

variable {s : Solver} {x y : Word} {n : Nat} {f g : Assignment → Nat}

theorem build_denotes (op : WordOp) (hs : s.WellFormed) (hx : s.Denotes x n f) (hy : s.Denotes y n g) :
    Succeeds (op.build x y) s fun out t => t.Denotes out n fun a => op.sem n (f a) (g a) := by
  cases op with
  | and => exact andWord_denotes hs hx hy
  | or => exact orWord_denotes hs hx hy
  | xor => exact xorWord_denotes hs hx hy
  | add => exact addWord_denotes hs hx hy
  | sub => exact subWord_denotes hs hx hy

end WordOp

/-- Comparisons of two words of one width. -/
inductive Comparison where
  | eq
  | lt
  | le

namespace Comparison

/-- The comparison of numbers. -/
def sem : Comparison → Nat → Nat → Bool
  | eq => fun x y => x == y
  | lt => fun x y => decide (x < y)
  | le => fun x y => decide (x ≤ y)

/-- The operation of the solver. -/
def build : Comparison → Word → Word → CheckedM Literal
  | eq => eqWord
  | lt => ltWord
  | le => leWord

variable {s : Solver} {x y : Word} {n : Nat} {f g : Assignment → Nat}

theorem build_means (op : Comparison) (hs : s.WellFormed) (hx : s.Denotes x n f) (hy : s.Denotes y n g) :
    Succeeds (op.build x y) s fun out t => t.Means out fun a => op.sem (f a) (g a) := by
  cases op with
  | eq => exact eqWord_means hs hx hy
  | lt => exact ltWord_means hs hx hy
  | le => exact leWord_means hs hx hy

end Comparison

/-! ## Commands -/

/-- An operation on a solver; its operands are the numbers of terms built before. -/
inductive Command where
  | freshBool
  | constant (b : Bool)
  | negate (p : Nat)
  | connect (c : Connective) (p q : Nat)
  | choose (p q r : Nat)
  | all (ps : List Nat)
  | any (ps : List Nat)
  | bit (v : Nat) (i : Nat)
  | compare (c : Comparison) (v w : Nat)
  | isZero (v : Nat)
  | freshWord (width : Nat)
  | constantWord (width value : Nat)
  | ofBits (ps : List Nat)
  | negateWord (v : Nat)
  | combine (op : WordOp) (v w : Nat)
  | chooseWord (p v w : Nat)
  | shiftRight (v : Nat) (k : UInt64)
  | shiftLeft (v : Nat) (k : Nat)
  | concat (hi lo : Nat)
  | extract (v : Nat) (hi lo : Nat)
  | zeroExtend (v : Nat) (k : Nat)
  | assert (p : Nat)
  | push
  | pop
  | reset
  | check

/-- Whether the model of the last check stays. -/
def Command.KeepsModel : Command → Prop
  | pop | reset | check => False
  | _ => True

/-- The free terms, from the oldest on. -/
structure Free where
  bools : List Literal
  words : List Word

/-- The meanings of the active assertions. -/
structure Assertions where
  /-- What was asserted outside of scopes. -/
  base : List (Env → Bool)
  /-- What was asserted in the open scopes, innermost first. -/
  scopes : List (List (Env → Bool))

namespace Assertions

/-- No assertion. -/
def none : Assertions := ⟨[], []⟩

/-- One more assertion in the innermost scope. -/
def add (f : Env → Bool) (q : Assertions) : Assertions :=
  match q.scopes with
  | [] => { q with base := f :: q.base }
  | fs :: scopes => { q with scopes := (f :: fs) :: scopes }

/-- All active assertions hold. -/
structure Satisfied (q : Assertions) (e : Env) : Prop where
  base : ∀ f ∈ q.base, f e = true
  scopes : ∀ fs ∈ q.scopes, ∀ f ∈ fs, f e = true

end Assertions

/-- A solver, the terms built on it from the oldest on, and what is asserted on it. -/
structure Run where
  solver : Solver
  bools : List BoolTerm
  words : List WordTerm
  free : Free
  asserted : Assertions

namespace Run

/-- A new solver. -/
def new : Run := ⟨.new, [], [], ⟨[], []⟩, .none⟩

/-- Builds a boolean term, which is kept unless the step fails. -/
def addBool (r : Run) (m : CheckedM Literal) (f : Env → Bool) : Run :=
  match m.run.run r.solver with
  | (.ok l, s) => { r with solver := s, bools := r.bools ++ [⟨l, f⟩] }
  | (.error _, s) => { r with solver := s }

/-- Builds a word, which is kept unless the step fails. -/
def addWord (r : Run) (m : CheckedM Word) (n : Nat) (f : Env → Nat) : Run :=
  match m.run.run r.solver with
  | (.ok w, s) => { r with solver := s, words := r.words ++ [⟨w, n, f⟩] }
  | (.error _, s) => { r with solver := s }

/-- The run after a command, unless an operand does not exist or the program breaks off. -/
def step? (engine : Engine) (r : Run) : Command → Option Run
  | .freshBool =>
    let (l, s) := fresh.run r.solver
    let meaning (e : Env) : Bool := e.bool r.free.bools.length
    some { r with
      solver := s
      bools := r.bools ++ [⟨l, meaning⟩]
      free := { r.free with bools := r.free.bools ++ [l] } }
  | .constant b => some (r.addBool (pure (ofBool b)) fun _ => b)
  | .negate p => do
    let p ← r.bools[p]?
    some (r.addBool (pure (-p.literal)) fun e => !p.meaning e)
  | .connect c p q => do
    let p ← r.bools[p]?
    let q ← r.bools[q]?
    some (r.addBool (c.build p.literal q.literal) fun e => c.sem (p.meaning e) (q.meaning e))
  | .choose p q k => do
    let p ← r.bools[p]?
    let q ← r.bools[q]?
    let k ← r.bools[k]?
    some (r.addBool (ite p.literal q.literal k.literal) fun e => if p.meaning e then q.meaning e else k.meaning e)
  | .all ps => do
    let ps ← ps.mapM (r.bools[·]?)
    some (r.addBool (andAll (ps.map (·.literal))) fun e => ps.all (·.meaning e))
  | .any ps => do
    let ps ← ps.mapM (r.bools[·]?)
    some (r.addBool (orAll (ps.map (·.literal))) fun e => ps.any (·.meaning e))
  | .bit v i => do
    let v ← r.words[v]?
    let l ← v.word[i]?
    some (r.addBool (pure l) fun e => (v.meaning e).testBit i)
  | .compare c v w => do
    let v ← r.words[v]?
    let w ← r.words[w]?
    some (r.addBool (c.build v.word w.word) fun e => c.sem (v.meaning e) (w.meaning e))
  | .isZero v => do
    let v ← r.words[v]?
    some (r.addBool (isZero v.word) fun e => v.meaning e == 0)
  | .freshWord n =>
    let (w, s) := (freshWord n).run r.solver
    let meaning (e : Env) : Nat := e.word r.free.words.length % 2 ^ n
    some { r with
      solver := s
      words := r.words ++ [⟨w, n, meaning⟩]
      free := { r.free with words := r.free.words ++ [w] } }
  | .constantWord n value => some (r.addWord (pure (constWord n value)) n fun _ => value % 2 ^ n)
  | .ofBits ps => do
    let ps ← ps.mapM (r.bools[·]?)
    some (r.addWord (pure (ps.map (·.literal))) ps.length fun e => Bits.value (ps.map (·.meaning e)))
  | .negateWord v => do
    let v ← r.words[v]?
    some (r.addWord (pure (notWord v.word)) v.width fun e => 2 ^ v.width - 1 - v.meaning e)
  | .combine op v w => do
    let v ← r.words[v]?
    let w ← r.words[w]?
    some (r.addWord (op.build v.word w.word) v.width fun e => op.sem v.width (v.meaning e) (w.meaning e))
  | .chooseWord p v w => do
    let p ← r.bools[p]?
    let v ← r.words[v]?
    let w ← r.words[w]?
    some (r.addWord (iteWord p.literal v.word w.word) v.width fun e => if p.meaning e then v.meaning e else w.meaning e)
  | .shiftRight v k => do
    let v ← r.words[v]?
    let w ← shiftRight? v.word k
    some (r.addWord (pure w) v.width fun e => v.meaning e / 2 ^ k.toNat)
  | .shiftLeft v k => do
    let v ← r.words[v]?
    some (r.addWord (pure (shiftLeft v.word k)) v.width fun e => v.meaning e * 2 ^ k % 2 ^ v.width)
  | .concat hi lo => do
    let hi ← r.words[hi]?
    let lo ← r.words[lo]?
    some (r.addWord (pure (concat hi.word lo.word)) (hi.width + lo.width)
      fun e => 2 ^ lo.width * hi.meaning e + lo.meaning e)
  | .extract v hi lo => do
    let v ← r.words[v]?
    some (r.addWord (liftExcept (extract v.word hi lo)) (hi + 1 - lo)
      fun e => v.meaning e / 2 ^ lo % 2 ^ (hi + 1 - lo))
  | .zeroExtend v k => do
    let v ← r.words[v]?
    some (r.addWord (pure (zeroExtend v.word k)) (v.width + k) v.meaning)
  | .assert p => do
    let p ← r.bools[p]?
    some { r with solver := ((assert p.literal).run r.solver).2, asserted := r.asserted.add p.meaning }
  | .push => some { r with solver := (push.run r.solver).2, asserted.scopes := [] :: r.asserted.scopes }
  | .pop => some { r with solver := (pop.run.run r.solver).2, asserted.scopes := r.asserted.scopes.tail }
  | .reset => some new
  | .check => some { r with solver := ((check engine).run r.solver).2 }
where
  /-- A step that needs no solver. -/
  liftExcept {α : Type} (x : Except Solver.Error α) : CheckedM α := ExceptT.mk (pure x)

/-- The run after a command; one that is not performed changes nothing. -/
def step (engine : Engine) (r : Run) (c : Command) : Run := (r.step? engine c).getD r

/-- The run after some commands. -/
def steps (engine : Engine) (r : Run) (commands : List Command) : Run := commands.foldl (step engine) r

end Run

end Solver
end PlaceRoute
