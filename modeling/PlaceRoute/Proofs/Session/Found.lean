import PlaceRoute.Proofs.Session.Steps

/-!
# The models that a search finds

`Session.optimizeFound` optimises as `Session.optimize` does, and also returns the models that the solver found on the way, in order.
Without these it is the same program (`Session.map_fst_optimizeFound`), so every run of the one is a run of the other
(`Session.exists_found_of_run`).
-/

namespace PlaceRoute

/-! ## Programs that look at a clock -/

namespace Timed

variable {α β : Type}

instance : LawfulMonad Timed := .mk' Timed
  (fun x => by
    show x.bind done = x
    induction x with
    | done a => rfl
    | ask next ih => exact congrArg ask (funext ih))
  (fun _ _ => rfl)
  (fun x f k => by
    show (x.bind f).bind k = x.bind fun a => (f a).bind k
    induction x with
    | done a => rfl
    | ask next ih => exact congrArg ask (funext ih))

theorem run_map (f : α → β) (x : Timed α) (clock : Nat → Nat) : (f <$> x).run clock = f (x.run clock) := by
  suffices hall : ∀ i, (f <$> x).runFrom clock i = f (x.runFrom clock i) from hall 0
  induction x with
  | done a => exact fun _ => rfl
  | ask next ih => exact fun i => ih (clock i) (i + 1)

end Timed

namespace Session
section
variable (p : Problem) (o : SearchOptions) (objective : Objective) (families : List Family)

/-! ## Searches that remember -/

/-- A step of the search, with the model that it found. -/
def advanceFound (s : Search) (bound : Nat) : SessionM (Search × Option Model) := do
  let (count, found) ← seek p o objective families s bound
  let s ← settle p o objective { s with count := count } bound found
  let s := s.record
  tell (.probed bound found.isSome s.floor s.upper)
  pure (s, found)

/-- Searches for at most `fuel` steps, with the models found before and on the way. -/
def searchFound (start : Nat) : Nat → Search → List Model → SessionM (Search × List Model)
  | 0, s, found => pure (s, found)
  | fuel + 1, s, found => do
    match s.next o (← expired o start) with
    | .finish => pure (s, found)
    | .stop reason => do
      tell (.stopped s.floor s.upper reason)
      pure (s, found)
    | .freeze => do searchFound start fuel (← freeze p o s) found
    | .probe bound => do
      let (s, m) ← advanceFound p o objective families s bound
      searchFound start fuel s (found ++ m.toList)

/-- The search from the first model on, with all models that it found. -/
def minimizeFound : SessionM (Optimization × List Model) := do
  let start ← now
  match ← firstSearch p o objective families with
  | none => pure (.unsatisfiable, [])
  | some s => do
    let (s, found) ← searchFound p o objective families start s.maxSteps s [s.best]
    return (.best s.optimum, found)

/-- The optimisation, with all models that it found. -/
def optimizeFound : SessionM (Optimization × List Model) := do
  let asserted := (← get).asserted
  if o.freezePlacement && o.cutoff.isNone then tell .freezeWithoutCutoff
  minimizeFound p o objective (if asserted.isEmpty then Family.all else asserted)

/-! ## Without the memory -/

theorem map_fst_advanceFound (s : Search) (bound : Nat) :
    Prod.fst <$> advanceFound p o objective families s bound = advance p o objective families s bound := by
  unfold advanceFound advance
  simp only [map_bind, map_pure]

/-- By induction on the steps left. -/
theorem map_fst_searchFound (start fuel : Nat) (s : Search) (found : List Model) :
    Prod.fst <$> searchFound p o objective families start fuel s found = search p o objective families start fuel s := by
  induction fuel generalizing s found with
  | zero => exact map_pure ..
  | succ fuel ih =>
    rw [searchFound, search, map_bind]
    refine bind_congr fun expired => ?_
    cases s.next o expired with
    | finish => exact map_pure ..
    | stop reason => simp only [map_bind, map_pure]
    | freeze => simp only [map_bind, ih]
    | probe bound => simp only [map_bind, ih, ← map_fst_advanceFound, bind_map_left]

theorem map_fst_minimizeFound : Prod.fst <$> minimizeFound p o objective families = do
    let start ← now
    match ← firstSearch p o objective families with
    | none => pure .unsatisfiable
    | some s => return .best (← search p o objective families start s.maxSteps s).optimum := by
  unfold minimizeFound
  rw [map_bind]
  refine bind_congr fun start => ?_
  rw [map_bind]
  refine bind_congr fun first => ?_
  cases first with
  | none => exact map_pure ..
  | some s =>
    simp only [← map_fst_searchFound p o objective families start s.maxSteps s [s.best], map_bind, map_pure, bind_map_left]

theorem map_fst_optimizeFound : Prod.fst <$> optimizeFound p o objective = optimize p o objective := by
  unfold optimizeFound optimize
  rw [map_bind]
  refine bind_congr fun s => ?_
  dsimp only
  split
  · rw [map_bind]
    exact bind_congr fun _ => map_fst_minimizeFound ..
  · exact map_fst_minimizeFound ..

end

/-- Every run of an optimisation finds models on the way. -/
theorem exists_found_of_run {p : Problem} {o : SearchOptions} {objective : Objective} {s s' : Session} {clock : Nat → Nat}
    {result : Optimization} (hrun : ((optimize p o objective).run.run s).run clock = (.ok result, s')) :
    ∃ found, ((optimizeFound p o objective).run.run s).run clock = (.ok (result, found), s') := by
  rw [← map_fst_optimizeFound, ExceptT.run_map, StateT.run_map, Timed.run_map] at hrun
  generalize ((optimizeFound p o objective).run.run s).run clock = r at hrun ⊢
  obtain ⟨e | ⟨result', found⟩, s''⟩ := r
  · cases hrun
  · cases hrun
    exact ⟨found, rfl⟩

end Session
end PlaceRoute
