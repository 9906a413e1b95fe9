import PlaceRoute.Proofs.Session.Steps

/-!
# What the result of an optimisation depends on

From two sessions steps may run side by side (`Together`): whatever the clock says, they return the same, end with the same encoder and
leave the families that each session has asserted. Steps that look at nothing but the encoder do so from any two sessions with the same
encoder (`Blind`). An optimisation starts over with a new encoder, so it does so from any two sessions, once it has chosen its families
(`optimizeOver_together`).
-/

namespace PlaceRoute

/-! ## Programs that look at a clock -/

namespace Timed

variable {α β γ δ : Type} {R : α → β → Prop} {Q : γ → δ → Prop} {x : Timed α} {y : Timed β}

/-- Two programs that ask for the time alike and end with results that `R` relates, whatever the answers are. -/
inductive Alike {α β : Type} (R : α → β → Prop) : Timed α → Timed β → Prop
  | done {a : α} {b : β} : R a b → Alike R (.done a) (.done b)
  | ask {next : Nat → Timed α} {next' : Nat → Timed β} : (∀ time, Alike R (next time) (next' time)) →
      Alike R (.ask next) (.ask next')

theorem Alike.bind {f : α → Timed γ} {g : β → Timed δ} (h : Alike R x y) (hf : ∀ a b, R a b → Alike Q (f a) (g b)) :
    Alike Q (x.bind f) (y.bind g) := by
  induction h with
  | done hab => exact hf _ _ hab
  | ask _ ih => exact .ask ih

theorem Alike.mono {R' : α → β → Prop} (h : Alike R x y) (hr : ∀ a b, R a b → R' a b) : Alike R' x y := by
  induction h with
  | done hab => exact .done (hr _ _ hab)
  | ask _ ih => exact .ask ih

theorem Alike.run (h : Alike R x y) (clock : Nat → Nat) : R (x.run clock) (y.run clock) := by
  suffices hall : ∀ i, R (x.runFrom clock i) (y.runFrom clock i) from hall 0
  induction h with
  | done hab => exact fun _ => hab
  | ask _ ih => exact fun i => ih (clock i) (i + 1)

end Timed

/-! ## Steps side by side -/

/-- The outcomes of two runs, from `s` and from `s'`, are the same and the runs asserted no family. -/
structure SameOutcome {α : Type} (s s' : Session) (r r' : Except Halt α × Session) : Prop where
  result : r.1 = r'.1
  encoder : r.2.encoder = r'.2.encoder
  left : r.2.asserted = s.asserted
  right : r'.2.asserted = s'.asserted

/-- From `s` and from `s'` the steps have the same outcome. -/
def Together {α : Type} (m : SessionM α) (s s' : Session) : Prop :=
  Timed.Alike (SameOutcome s s') (m.run.run s) (m.run.run s')

/-- The steps have the same outcome from any two sessions with the same encoder. -/
def Blind {α : Type} (m : SessionM α) : Prop := ∀ s s', s.encoder = s'.encoder → Together m s s'

section
variable {α β ε : Type} {m : SessionM α} {f : α → SessionM β} {s s' : Session} {p : Problem} {o : SearchOptions}
  {objective : Objective} {families : List Family}

theorem Together.bind (h : Together m s s') (hf : ∀ x, Blind (f x)) : Together (m >>= f) s s' := by
  refine Timed.Alike.bind h fun r r' hr => ?_
  obtain ⟨x | x, s₁⟩ := r
  · obtain ⟨y | y, s₁'⟩ := r'
    · cases hr.result
      exact .done ⟨rfl, hr.encoder, hr.left, hr.right⟩
    · cases hr.result
  · obtain ⟨y | y, s₁'⟩ := r'
    · cases hr.result
    · cases hr.result
      refine (hf x s₁ s₁' hr.encoder).mono fun q q' hq => ?_
      exact ⟨hq.result, hq.encoder, hq.left.trans hr.left, hq.right.trans hr.right⟩

/-- Steps that run beside themselves assert no family. -/
theorem Together.always (h : Together m s s) : (m.run.run s).Always fun r => r.2.asserted = s.asserted := by
  suffices hall : ∀ {x y : Timed (Except Halt α × Session)}, Timed.Alike (SameOutcome s s) x y →
      x.Always fun r => r.2.asserted = s.asserted from hall h
  intro x y hxy
  induction hxy with
  | done hab => exact hab.left
  | ask _ ih => exact ih

namespace Blind

theorem bind (h : Blind m) (hf : ∀ x, Blind (f x)) : Blind (m >>= f) := fun s s' hs => (h s s' hs).bind hf

theorem pure (x : α) : Blind (pure x : SessionM α) := fun _ _ hs => .done ⟨rfl, hs, rfl, rfl⟩

theorem throw (e : Halt) : Blind (throw e : SessionM α) := fun _ _ hs => .done ⟨rfl, hs, rfl, rfl⟩

theorem now : Blind Session.now := fun _ _ hs => .ask fun _ => .done ⟨rfl, hs, rfl, rfl⟩

theorem tell (n : Notice) : Blind (Session.tell n) := fun _ _ hs => .done ⟨rfl, hs, rfl, rfl⟩

/-- Changes to the records of a session. -/
theorem modify {g : Session → Session} (h : ∀ s, (g s).encoder = s.encoder) (h' : ∀ s, (g s).asserted = s.asserted) :
    Blind (modify g : SessionM Unit) := fun s s' hs => .done ⟨rfl, (h s).trans (hs.trans (h s').symm), h' s, h' s'⟩

theorem ofResult (wrap : ε → Halt) (r : Except ε α) : Blind (Session.ofResult wrap r) := by
  cases r with
  | ok x => exact pure x
  | error e => exact throw _

theorem attempt (n : EncodeM α) : Blind (Session.attempt n) := by
  intro s s' hs
  have hrun : n.run.run s.encoder = n.run.run s'.encoder := congrArg _ hs
  exact .done ⟨congrArg (Except.ok ·.1) hrun, congrArg Prod.snd hrun, rfl, rfl⟩

theorem encode (n : EncodeM α) : Blind (Session.encode n) := (attempt n).bind (ofResult _)

theorem build (n : EncodeM α) : Blind (Session.build n) := by
  refine now.bind fun start => (attempt n).bind fun r => now.bind fun stop => bind (modify ?_ ?_) fun _ => ofResult _ r
  · exact fun _ => rfl
  · exact fun _ => rfl

theorem solve : Blind (Session.solve p) := by
  refine bind (modify ?_ ?_) fun _ => now.bind fun start => (encode _).bind fun sat => now.bind fun stop =>
    bind (modify ?_ ?_) fun _ => pure sat
  all_goals exact fun _ => rfl

theorem extract : Blind Session.extract := by
  intro s s' hs
  have hread (s : Session) : Session.extract.run.run s =
      (Session.ofEncoded (s.encoder.store.extract s.encoder.solver)).run.run s := rfl
  unfold Together
  rw [hread s, hread s', hs]
  exact ofResult _ _ s s' hs

theorem solveModel : Blind (Session.solveModel p) := by
  refine solve.bind fun sat => ?_
  split
  · exact extract.bind fun _ => pure _
  · exact pure _

theorem inScope (h : Blind m) : Blind (Session.inScope m) := by
  have hlift : Blind (ExceptT.lift m.run : SessionM (Except Halt α)) := fun s s' hs =>
    Timed.Alike.bind (h s s' hs) fun r r' hr => .done ⟨congrArg Except.ok hr.result, hr.encoder, hr.left, hr.right⟩
  exact (encode _).bind fun _ => hlift.bind fun r => (encode _).bind fun _ => ofResult _ r

/-! ### Steps of a search -/

theorem probe (count : Count) (lower upper : Nat) : Blind (Session.probe p count lower upper) :=
  (encode _).bind fun _ => solveModel

theorem score (m : Model) : Blind (Session.score p o objective m) := by
  have hconfirm : Blind (discard (Session.confirm p m)) := by
    refine bind ?_ fun _ => pure _
    unfold Session.confirm
    split
    · exact pure _
    · exact (tell _).bind fun _ => throw _
  unfold Session.score
  split
  · exact hconfirm.bind fun _ => ofResult _ _
  · exact ofResult _ _

/-- Whatever the sessions held before. -/
theorem rebuild_together (pins : List (Key × Bool)) : Together (Session.rebuild p objective families pins) s s' := by
  have hrest (n : EncodeM Count) : Blind (Session.declare p >>= fun _ => Session.build n) := (build _).bind fun _ => build n
  exact (hrest _ { s with encoder := .new } { s' with encoder := .new } rfl).mono fun _ _ h =>
    ⟨h.result, h.encoder, h.left, h.right⟩

theorem freeze (s : Search) : Blind (Session.freeze p o s) := by
  unfold Session.freeze
  dsimp only
  split
  · exact (encode _).bind fun _ => (tell _).bind fun _ => pure _
  · exact (tell _).bind fun _ => pure _

theorem seek (s : Search) (bound : Nat) : Blind (Session.seek p o objective families s bound) := by
  unfold Session.seek
  split
  · exact (inScope (probe _ _ _)).bind fun _ => pure _
  · exact bind (fun _ _ _ => rebuild_together _) fun _ => bind (probe _ _ _) fun _ => pure _

theorem advance (s : Search) (bound : Nat) : Blind (Session.advance p o objective families s bound) := by
  have hsettle (s : Search) (found : Option Model) : Blind (Session.settle p o objective s bound found) := by
    cases found with
    | none => exact pure _
    | some m => exact (score m).bind fun _ => pure _
  exact (seek s bound).bind fun _ => (hsettle _ _).bind fun _ => (tell _).bind fun _ => pure _

theorem expired (start : Nat) : Blind (Session.expired o start) := by
  unfold Session.expired
  split
  · exact pure _
  · exact now.bind fun _ => pure _

/-- By induction on the steps left. -/
theorem search (start fuel : Nat) (s : Search) : Blind (Session.search p o objective families start fuel s) := by
  induction fuel generalizing s with
  | zero => exact pure _
  | succ fuel ih =>
    rw [Session.search]
    refine (expired start).bind fun expired => ?_
    cases s.next o expired with
    | finish => exact pure _
    | stop reason => exact (tell _).bind fun _ => pure _
    | freeze => exact (freeze s).bind ih
    | probe bound => exact (advance s bound).bind ih

end Blind

/-! ## Optimisations -/

variable (p o objective families) in
/-- The optimisation over given families. -/
def Session.optimizeOver : SessionM Optimization := do
  if o.freezePlacement && o.cutoff.isNone then tell .freezeWithoutCutoff
  let start ← now
  match ← firstSearch p o objective families with
  | none => pure .unsatisfiable
  | some s => return .best (← search p o objective families start s.maxSteps s).optimum

/-- The families of a list, or all if it has none. -/
def Family.orAll (families : List Family) : List Family := if families.isEmpty then Family.all else families

/-- The families that an optimisation is over: those asserted, or all. -/
def Session.chosen (s : Session) : List Family := Family.orAll s.asserted

/-- An optimisation chooses its families first. -/
theorem Session.optimize_eq :
    Session.optimize p o objective = get >>= fun s => Session.optimizeOver p o objective s.chosen := by
  unfold Session.optimize Session.optimizeOver
  refine bind_congr fun s => ?_
  cases o.freezePlacement && o.cutoff.isNone with
  | true =>
    refine bind_congr fun _ => bind_congr fun start => bind_congr fun found => ?_
    cases found <;> rfl
  | false =>
    refine bind_congr fun start => bind_congr fun found => ?_
    cases found <;> rfl

theorem Session.run_get {f : Session → SessionM α} : (get >>= f : SessionM α).run.run s = (f s).run.run s := rfl

/-- From any two sessions an optimisation over given families has the same outcome. -/
theorem optimizeOver_together : Together (Session.optimizeOver p o objective families) s s' := by
  have hrest (start : Nat) (s s' : Session) : Together (do
      match ← Session.firstSearch p o objective families with
      | none => pure Optimization.unsatisfiable
      | some s => return Optimization.best (← Session.search p o objective families start s.maxSteps s).optimum) s s' := by
    have hfirst : Together (Session.firstSearch p o objective families) s s' := by
      refine (Blind.rebuild_together []).bind fun count => Blind.solveModel.bind fun found => ?_
      cases found with
      | none => exact .pure _
      | some m => exact (Blind.score m).bind fun _ => (Blind.tell _).bind fun _ => .pure _
    refine hfirst.bind fun found => ?_
    cases found with
    | none => exact .pure _
    | some s => exact (Blind.search start s.maxSteps s).bind fun _ => .pure _
  -- The notice and the look at the clock leave the encoders different, but the rest does not look at them.
  unfold Session.optimizeOver
  split
  · exact .ask fun start => (hrest start _ _).mono fun _ _ h => ⟨h.result, h.encoder, h.left, h.right⟩
  · exact .ask fun start => hrest start s s'

/-- An optimisation asserts no family. -/
theorem optimize_asserted (s : Session) :
    ((Session.optimize p o objective).run.run s).Always fun r => r.2.asserted = s.asserted := by
  rw [Session.optimize_eq, Session.run_get]
  exact optimizeOver_together.always

end
end PlaceRoute
