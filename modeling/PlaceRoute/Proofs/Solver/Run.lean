import PlaceRoute.Proofs.Solver.Build

/-!
# Runs of a solver

Every command keeps the invariant (`Run.Sound.step`), so that every run has it (`Run.Sound.steps`). Therefore a check
answers yes exactly if the active assertions can hold together, its model gives every term its meaning, and what was
asserted in a closed scope has no influence (`check_meets_assertions`).
-/

namespace PlaceRoute

open PlaceRoute.Sat (Literal Clause Cnf Assignment Engine AgreeBelow)

namespace Solver

namespace Run

variable {r r' : Run} {engine : Engine}

/-- Commands that keep the model keep the terms, too. -/
theorem Sound.follows (h : r.Sound) {c : Command} (hc : c.KeepsModel) (hr' : r.step? engine c = some r') :
    r.Follows r' := by
  obtain ⟨retired, hr⟩ := h.represents
  cases c
  case freshBool => exact h.freshBool hr'
  case freshWord n => exact h.freshWord hr'
  case assert p =>
    simp only [step?, Option.bind_eq_bind, Option.bind_eq_some_iff, Option.some.injEq] at hr'
    obtain ⟨p, hp, rfl⟩ := hr'
    have hassert := hr.assert (h.bools p (List.mem_of_getElem? hp))
    rw [assert_run p.literal r.solver] at hassert ⊢
    exact ⟨⟨⟨retired, hassert⟩, fun p hp => (h.bools p hp).with .., fun v hv => (h.words v hv).with ..⟩,
      List.prefix_refl _, List.prefix_refl _, rfl⟩
  case push =>
    cases hr'
    have hst := fresh_grows hr.wellFormed
    exact ⟨⟨⟨retired, hr.push⟩, fun p hp => ((h.bools p hp).grow hst id).with ..,
      fun v hv => ((h.words v hv).grow hst id).with ..⟩, List.prefix_refl _, List.prefix_refl _, rfl⟩
  all_goals first | exact absurd hc id | exact h.buildBool hr' rfl | exact h.buildWord hr' rfl

/-- Every command keeps the invariant. -/
theorem Sound.step (engine : Engine) (h : r.Sound) (c : Command) : (r.step engine c).Sound := by
  unfold Run.step
  cases hr' : r.step? engine c with
  | none => exact h
  | some r' =>
    rw [Option.getD_some]
    obtain ⟨retired, hr⟩ := h.represents
    cases c
    case pop =>
      cases hr'
      refine ⟨hr.pop, fun p hp => ?_, fun v hv => ?_⟩
      · cases hscopes : r.solver.scopes with
        | nil => rw [pop_run_nil hscopes]; exact h.bools p hp
        | cons act acts => rw [pop_run_cons hscopes]; exact (h.bools p hp).with ..
      · cases hscopes : r.solver.scopes with
        | nil => rw [pop_run_nil hscopes]; exact h.words v hv
        | cons act acts => rw [pop_run_cons hscopes]; exact (h.words v hv).with ..
    case reset =>
      cases hr'
      exact sound_new
    case check =>
      cases hr'
      exact ⟨⟨retired, hr.check engine⟩, fun p hp => (h.bools p hp).with .., fun v hv => (h.words v hv).with ..⟩
    all_goals
      refine (h.follows ?_ hr').sound
      exact trivial

theorem Sound.steps (engine : Engine) (h : r.Sound) (commands : List Command) : (r.steps engine commands).Sound := by
  induction commands generalizing r with
  | nil => exact h
  | cons c commands ih => exact ih (h.step engine c)

theorem Sound.follows_steps (engine : Engine) (h : r.Sound) {commands : List Command} (hc : ∀ c ∈ commands, c.KeepsModel) :
    r.Follows (r.steps engine commands) := by
  induction commands generalizing r with
  | nil => exact .refl h
  | cons c commands ih =>
    obtain ⟨hc, hcommands⟩ := List.forall_mem_cons.mp hc
    have hstep : r.Follows (r.step engine c) := by
      unfold Run.step
      cases hr' : r.step? engine c with
      | none => exact .refl h
      | some r' => exact h.follows hc hr'
    exact hstep.trans (ih hstep.sound hcommands)

end Run

/-! ## Closed scopes -/

/-- Whether a command leaves the scopes as they are. -/
def Command.KeepsScopes : Command → Prop
  | push | pop | reset => False
  | _ => True

/-- Commands that close every scope that they open, and no other. -/
inductive Balanced : List Command → Prop where
  | nil : Balanced []
  | cons {c : Command} {commands : List Command} : c.KeepsScopes → Balanced commands → Balanced (c :: commands)
  | scope {body commands : List Command} : Balanced body → Balanced commands →
    Balanced (.push :: body ++ .pop :: commands)

namespace Run

variable {r : Run} {engine : Engine}

theorem steps_append (r : Run) (commands more : List Command) :
    r.steps engine (commands ++ more) = (r.steps engine commands).steps engine more := List.foldl_append ..

/-- Building a term asserts nothing. -/
theorem asserted_addBool (r : Run) (m : CheckedM Literal) (f : Env → Bool) : (r.addBool m f).asserted = r.asserted := by
  unfold Run.addBool
  split <;> rfl

theorem asserted_addWord (r : Run) (m : CheckedM Word) (n : Nat) (f : Env → Nat) :
    (r.addWord m n f).asserted = r.asserted := by
  unfold Run.addWord
  split <;> rfl

/-- A command that leaves the scopes as they are can only add an assertion. -/
theorem asserted_step {c : Command} (hc : c.KeepsScopes) :
    (r.step engine c).asserted = r.asserted ∨ ∃ f, (r.step engine c).asserted = r.asserted.add f := by
  unfold Run.step
  cases hr' : r.step? engine c with
  | none => exact Or.inl rfl
  | some r' =>
    rw [Option.getD_some]
    cases c
    case assert p =>
      simp only [step?, Option.bind_eq_bind, Option.bind_eq_some_iff, Option.some.injEq] at hr'
      obtain ⟨p, hp, rfl⟩ := hr'
      exact Or.inr ⟨_, rfl⟩
    all_goals first
      | exact absurd hc id
      | cases hr'; exact Or.inl rfl
      | (simp only [step?, Option.bind_eq_bind, Option.bind_eq_some_iff, Option.some.injEq] at hr'
         obtain ⟨_, -, rfl⟩ := hr'
         exact Or.inl (by first | exact asserted_addBool .. | exact asserted_addWord ..))
      | (simp only [step?, Option.bind_eq_bind, Option.bind_eq_some_iff, Option.some.injEq] at hr'
         obtain ⟨_, -, _, -, rfl⟩ := hr'
         exact Or.inl (by first | exact asserted_addBool .. | exact asserted_addWord ..))
      | (simp only [step?, Option.bind_eq_bind, Option.bind_eq_some_iff, Option.some.injEq] at hr'
         obtain ⟨_, -, _, -, _, -, rfl⟩ := hr'
         exact Or.inl (by first | exact asserted_addBool .. | exact asserted_addWord ..))

theorem asserted_pop (engine : Engine) (r : Run) :
    (r.step engine .pop).asserted = { r.asserted with scopes := r.asserted.scopes.tail } := rfl

/-- Balanced commands can only add assertions to the innermost scope. -/
theorem asserted_steps (engine : Engine) {commands : List Command} (hc : Balanced commands) {fs : List (Env → Bool)}
    {scopes : List (List (Env → Bool))} (hr : r.asserted.scopes = fs :: scopes) :
    ∃ gs, (r.steps engine commands).asserted = { r.asserted with scopes := gs :: scopes } := by
  induction hc generalizing r fs scopes with
  | nil => exact ⟨fs, by rw [← hr]; rfl⟩
  | @cons c commands hc hcommands ih =>
    have hstep : ∃ gs, (r.step engine c).asserted = { r.asserted with scopes := gs :: scopes } := by
      rcases asserted_step hc with h | ⟨f, h⟩
      · exact ⟨fs, by rw [h, ← hr]⟩
      · exact ⟨f :: fs, by rw [h, Assertions.add, hr]⟩
    obtain ⟨gs, hgs⟩ := hstep
    obtain ⟨hs, hhs⟩ := ih (r := r.step engine c) (congrArg Assertions.scopes hgs)
    exact ⟨hs, by rw [hgs] at hhs; exact hhs⟩
  | @scope body commands hbody hcommands ihb ihc =>
    obtain ⟨gs, hgs⟩ := ihb (r := r.step engine .push) (congrArg ([] :: ·) hr)
    have hpop : (((r.step engine .push).steps engine body).step engine .pop).asserted = r.asserted := by
      rw [asserted_pop, hgs, List.tail_cons, ← hr]
      rfl
    obtain ⟨hs, hhs⟩ := ihc (r := ((r.step engine .push).steps engine body).step engine .pop)
      ((congrArg Assertions.scopes hpop).trans hr)
    refine ⟨hs, ?_⟩
    rw [steps_append]
    rw [hpop] at hhs
    exact hhs

/-- A scope that was closed leaves no assertion. -/
theorem asserted_closed {body : List Command} (hbody : Balanced body) :
    (r.steps engine (.push :: body ++ [.pop])).asserted = r.asserted := by
  obtain ⟨gs, hgs⟩ := asserted_steps (r := r.step engine .push) engine hbody rfl
  have hpop := asserted_pop engine ((r.step engine .push).steps engine body)
  rw [hgs] at hpop
  rw [steps_append]
  exact hpop

end Run

/-! ## Whole runs -/

section
variable {engine : Engine}

/-- After any commands on a new solver: a check answers yes exactly if the active assertions can hold together. Its
model gives every term built so far its meaning under values that satisfy them, and keeps doing so until the next
check, closed scope or reset. What happened in a closed scope does not change the answer. -/
theorem check_meets_assertions (hengine : engine.Correct) (commands : List Command) :
    let r := Run.new.steps engine commands
    let answer := ((check engine).run r.solver).1
    (answer = true ↔ ∃ e, r.asserted.Satisfied e) ∧
    (answer = true → ∃ e, r.asserted.Satisfied e ∧ ∀ more : List Command, (∀ c ∈ more, c.KeepsModel) →
      let later := (r.step engine .check).steps engine more
      (∀ p ∈ r.bools, p ∈ later.bools ∧ later.solver.boolValue p.literal = .ok (p.meaning e)) ∧
      ∀ v ∈ r.words, v ∈ later.words ∧ (v.width ≤ 64 → later.solver.wordValue v.word = .ok (v.meaning e))) ∧
    ∀ body : List Command, Balanced body →
      ((check engine).run (r.steps engine (.push :: body ++ [.pop])).solver).1 = answer := by
  intro r answer
  have hr : r.Sound := Run.sound_new.steps engine commands
  obtain ⟨retired, hrep⟩ := hr.represents
  have hiff := hrep.check_iff hengine
  refine ⟨hiff, fun hsat => ?_, fun body hbody => ?_⟩
  · have hanswer : answer = (engine.solve r.solver.problem).isSome := Option.isSome_map
    rw [hanswer, Option.isSome_iff_exists] at hsat
    obtain ⟨a, ha⟩ := hsat
    obtain ⟨hresp, hsatisfied⟩ := hrep.satisfied (hengine.sound ha)
    refine ⟨_, hsatisfied, fun more hmore => ?_⟩
    have hmodel : (r.step engine .check).solver.model = some (restrict r.solver.vars a) := by
      show (engine.solve r.solver.problem).map _ = _
      rw [ha]
      rfl
    have hfollows := (hr.step engine .check).follows_steps engine hmore
    have hcurrent : ((r.step engine .check).steps engine more).solver.currentModel = .ok (restrict r.solver.vars a) := by
      unfold currentModel
      rw [hfollows.model, hmodel]
    have hkept := agreeBelow_restrict r.solver.vars a
    refine ⟨fun p hp => ⟨hfollows.bools.subset hp, ?_⟩, fun v hv => ⟨hfollows.words.subset hv, fun hwidth => ?_⟩⟩
    · have hread := hr.bools p hp
      unfold boolValue
      rw [hcurrent, ← hread.eval hresp (r.free.agrees_env a), ← hkept.eval hread.lt]
      rfl
    · have hread := hr.words v hv
      unfold wordValue
      rw [hcurrent, List.take_of_length_le (hread.width.trans_le hwidth),
        ← hread.eval hresp (r.free.agrees_env a), Word.toNat_eq, ← Word.bits_congr hkept hread.lt, ← Word.toNat_eq]
      rfl
  · obtain ⟨retired', hrep'⟩ := (hr.steps engine (.push :: body ++ [.pop])).represents
    rw [Bool.eq_iff_iff, hrep'.check_iff hengine, Run.asserted_closed hbody]
    exact hiff.symm

/-- A boolean and its negation are asserted in a scope; after the scope the boolean can be asserted. -/
theorem closed_scope_answers_yes :
    Sat.exhaustive.Correct ∧ ((check Sat.exhaustive).run (Run.new.steps Sat.exhaustive
      [.freshBool, .push, .negate 0, .assert 0, .assert 1, .pop, .assert 0]).solver).1 = true := by
  refine ⟨Sat.exhaustive_isCorrect, (check_meets_assertions Sat.exhaustive_isCorrect _).1.mpr ?_⟩
  refine ⟨⟨fun _ => true, fun _ => 0⟩, ?_, ?_⟩
  · exact List.forall_mem_singleton.mpr rfl
  · exact List.forall_mem_nil _

end

end Solver
end PlaceRoute
