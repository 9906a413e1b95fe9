import PlaceRoute.Proofs.Mapping.Captures
import PlaceRoute.Session.Optimize

/-!
# Steps of a session

* `Timed.Always P x`: whatever the clock says, the program `x` ends with a result that satisfies `P`;
* `Leads excused m s post`: from the session `s` the steps `m` succeed, whatever the clock says, with a result and a session
  that satisfy `post`; they may fail only if `excused` holds.
-/

namespace PlaceRoute

/-! ## Programs that look at a clock -/

namespace Timed

variable {α β : Type} {x : Timed α} {f : α → Timed β} {P : α → Prop} {Q : β → Prop}

/-- Whatever the clock says, the program ends with a result that satisfies `P`. -/
def Always {α : Type} (P : α → Prop) : Timed α → Prop
  | done a => P a
  | ask next => ∀ time, (next time).Always P

theorem Always.bind (h : x.Always P) (hf : ∀ a, P a → (f a).Always Q) : (x.bind f).Always Q := by
  induction x with
  | done a => exact hf a h
  | ask next ih => exact fun time => ih time (h time)

theorem Always.mono {Q : α → Prop} (h : x.Always P) (hp : ∀ a, P a → Q a) : x.Always Q := by
  induction x with
  | done a => exact hp a h
  | ask next ih => exact fun time => ih time (h time)

theorem Always.and {Q : α → Prop} (h : x.Always P) (h' : x.Always Q) : x.Always fun a => P a ∧ Q a := by
  induction x with
  | done a => exact ⟨h, h'⟩
  | ask next ih => exact fun time => ih time (h time) (h' time)

theorem Always.run (h : x.Always P) (clock : Nat → Nat) : P (x.run clock) := by
  suffices hall : ∀ i, P (x.runFrom clock i) from hall 0
  induction x with
  | done a => exact fun _ => h
  | ask next ih => exact fun i => ih (clock i) (h (clock i)) (i + 1)

end Timed

/-! ## Steps -/

/-- The steps succeed with a result and a session that satisfy `post`; they fail only if that is excused. -/
def Leads {α : Type} (excused : Prop) (m : SessionM α) (s : Session) (post : α → Session → Prop) : Prop :=
  (m.run.run s).Always fun r => match r.1 with
    | .ok x => post x r.2
    | .error _ => excused

namespace Leads

variable {α β ε : Type} {excused : Prop} {m : SessionM α} {f : α → SessionM β} {s : Session}
  {post post' : α → Session → Prop} {after : β → Session → Prop}

theorem pure {x : α} (h : post x s) : Leads excused (pure x) s post := h

theorem bind (h : Leads excused m s post) (hf : ∀ x s', post x s' → Leads excused (f x) s' after) :
    Leads excused (m >>= f) s after := by
  refine Timed.Always.bind h fun r hr => ?_
  obtain ⟨x | x, s'⟩ := r
  · exact hr
  · exact hf x s' hr

theorem mono (h : Leads excused m s post) (hp : ∀ x s', post x s' → post' x s') : Leads excused m s post' := by
  refine Timed.Always.mono h fun r hr => ?_
  obtain ⟨x | x, s'⟩ := r
  · exact hr
  · exact hp x s' hr

/-- Steps whose failure nothing excuses end with a result. -/
theorem exists_ok (h : Leads False m s post) (clock : Nat → Nat) :
    ∃ x s', (m.run.run s).run clock = (.ok x, s') ∧ post x s' := by
  have hrun := h.run clock
  generalize hr : (m.run.run s).run clock = r at hrun
  obtain ⟨e | x, s'⟩ := r
  · exact hrun.elim
  · exact ⟨x, s', rfl, hrun⟩

/-- A failure is passed on. -/
theorem throw {e : Halt} (h : excused) : Leads excused (throw e : SessionM α) s post := h

theorem get : Leads excused (MonadState.get : SessionM Session) s fun x s' => x = s ∧ s' = s := ⟨rfl, rfl⟩

theorem modify (g : Session → Session) : Leads excused (modify g : SessionM Unit) s fun _ s' => s' = g s := rfl

theorem tell (n : Notice) : Leads excused (Session.tell n) s fun _ s' => s'.encoder = s.encoder := rfl

theorem now : Leads excused Session.now s fun _ s' => s' = s := fun _ => rfl

theorem ofResult {wrap : ε → Halt} {r : Except ε α} {x : α} (h : r = .ok x) (hx : post x s) :
    Leads excused (Session.ofResult wrap r) s post := by
  rw [h]
  exact hx

variable {n : EncodeM α} {x : α} {e : Encoder}

theorem attempt (h : n.run.run s.encoder = (.ok x, e)) :
    Leads excused (Session.attempt n) s fun r s' => r = .ok x ∧ s' = { s with encoder := e } := by
  have hrun : (Session.attempt n).run.run s =
      .done (.ok (n.run.run s.encoder).1, { s with encoder := (n.run.run s.encoder).2 }) := rfl
  unfold Leads
  rw [hrun, h]
  exact ⟨rfl, rfl⟩

theorem encode (h : n.run.run s.encoder = (.ok x, e)) :
    Leads excused (Session.encode n) s fun y s' => y = x ∧ s'.encoder = e := by
  refine (attempt h).bind fun r s' hr => ?_
  obtain ⟨rfl, rfl⟩ := hr
  exact ofResult rfl ⟨rfl, rfl⟩

theorem build_keeps (h : n.run.run s.encoder = (.ok x, e)) :
    Leads excused (Session.build n) s fun y s' => y = x ∧ s'.encoder = e ∧ s'.asserted = s.asserted := by
  refine now.bind fun start s₁ h₁ => ?_
  subst h₁
  refine (attempt h).bind fun r s₂ h₂ => ?_
  obtain ⟨rfl, rfl⟩ := h₂
  refine now.bind fun stop s₃ h₃ => ?_
  subst h₃
  refine (modify _).bind fun _ s₄ h₄ => ?_
  subst h₄
  exact ofResult rfl ⟨rfl, rfl, rfl⟩

theorem build (h : n.run.run s.encoder = (.ok x, e)) :
    Leads excused (Session.build n) s fun y s' => y = x ∧ s'.encoder = e :=
  (build_keeps h).mono fun _ _ h' => ⟨h'.1, h'.2.1⟩

/-- Where failing is excused, steps need not succeed. -/
theorem encode_excused (h : excused) : Leads excused (Session.encode n) s fun _ _ => True := by
  have hrun : (Session.attempt n).run.run s =
      .done (.ok (n.run.run s.encoder).1, { s with encoder := (n.run.run s.encoder).2 }) := rfl
  have hattempt : Leads excused (Session.attempt n) s fun _ _ => True := by
    unfold Leads
    rw [hrun]
    trivial
  refine hattempt.bind fun r s' _ => ?_
  cases r with
  | ok x => exact trivial
  | error e => exact h

theorem lift (h : Leads excused m s post) : Leads excused (ExceptT.lift m.run) s fun r s' =>
    match r with
    | .ok x => post x s'
    | .error _ => excused :=
  Timed.Always.bind h fun _ hr => hr

/-- Steps in a scope; the scope is closed even if they fail. -/
theorem inScope (h : ∀ s', s'.encoder = { s.encoder with solver := (Solver.push.run s.encoder.solver).2 } →
      Leads excused m s' fun x s'' => ∃ t, Solver.pop.run.run s''.encoder.solver = (.ok (), t) ∧
        ∀ s₁ : Session, s₁.encoder = { s''.encoder with solver := t } → post x s₁) :
    Leads excused (Session.inScope m) s post := by
  have hpush : (Encoder.build Solver.push).run.run s.encoder =
    (.ok (), { s.encoder with solver := (Solver.push.run s.encoder.solver).2 }) := rfl
  refine (encode hpush).bind fun _ s' hs' => ?_
  refine (lift (h s' hs'.2)).bind fun r s'' hr => ?_
  cases r with
  | error e => exact (encode_excused hr).bind fun _ _ _ => hr
  | ok x =>
    obtain ⟨t, hpop, hpost⟩ := hr
    have hclose : (Encoder.checked Solver.pop).run.run s''.encoder = (.ok (), { s''.encoder with solver := t }) := by
      have hbuild : (Encoder.build Solver.pop.run).run.run s''.encoder =
          (.ok (.ok ()), { s''.encoder with solver := t }) := by
        show (Except.ok (Solver.pop.run.run s''.encoder.solver).1,
          { s''.encoder with solver := (Solver.pop.run.run s''.encoder.solver).2 }) = _
        rw [hpop]
      exact (Encodes.run_bind hbuild).trans rfl
    refine (encode hclose).bind fun _ s₁ hs₁ => ?_
    exact ofResult rfl (hpost s₁ hs₁.2)

/-- An optimisation is a search from a first model, over the families asserted so far or, if there are none, over all. -/
theorem optimize {p : Problem} {o : SearchOptions} {objective : Objective} {families : List Family}
    {post : Optimization → Session → Prop} (hfamilies : families = if s.asserted.isEmpty then Family.all else s.asserted)
    (h : ∀ (start : Nat) (s' : Session), s'.calls = s.calls → Leads excused (do
      match ← Session.firstSearch p o objective families with
      | none => Pure.pure .unsatisfiable
      | some s => return .best (← Session.search p o objective families start s.maxSteps s).optimum) s' post) :
    Leads excused (Session.optimize p o objective) s post := by
  subst hfamilies
  unfold Session.optimize
  refine get.bind fun _ s₁ h₁ => ?_
  obtain ⟨rfl, rfl⟩ := h₁
  dsimp only
  split
  · refine (modify _).bind fun _ s₂ h₂ => now.bind fun start s₃ h₃ => ?_
    subst h₂ h₃
    exact h start _ rfl
  · refine now.bind fun start s₂ h₂ => ?_
    subst h₂
    exact h start _ rfl

end Leads
end PlaceRoute
