import PlaceRoute.Proofs.Session.Steps

/-!
# Solver calls of a search

`Calls m k`: the steps `m`, if they succeed, call the solver `k` times. Only `Session.solveModel` calls it, once; every step of a
search does so once (`advance_calls`), whether it probes the solver in use or a new one. So an optimisation that finds a mapping
calls the solver once more than it counts steps (`optimize_calls`).
-/

namespace PlaceRoute

/-- Steps that succeed call the solver `k` times. -/
def Calls {α : Type} (m : SessionM α) (k : Nat) : Prop := ∀ s, Leads True m s fun _ s' => s'.calls = s.calls + k

namespace Calls

variable {α β ε : Type} {m : SessionM α} {f : α → SessionM β} {k : Nat} {p : Problem} {o : SearchOptions}
  {objective : Objective} {families : List Family}

/-! ## Steps of a session -/

theorem pure (x : α) : Calls (pure x : SessionM α) 0 := fun _ => Leads.pure rfl

theorem throw (e : Halt) : Calls (throw e : SessionM α) k := fun _ => Leads.throw trivial

/-- Steps that do not call the solver come first. -/
theorem after (h : Calls m 0) (hf : ∀ x, Calls (f x) k) : Calls (m >>= f) k := fun s =>
  (h s).bind fun x s' h' => (hf x s').mono fun _ _ h'' => by rw [h'', h', Nat.add_zero]

/-- Steps that do not call the solver come last. -/
theorem andThen (h : Calls m k) (hf : ∀ x, Calls (f x) 0) : Calls (m >>= f) k := fun s =>
  (h s).bind fun x s' h' => (hf x s').mono fun _ _ h'' => by rw [h'', h', Nat.add_zero]

theorem now : Calls Session.now 0 := fun _ _ => rfl

theorem tell (n : Notice) : Calls (Session.tell n) 0 := fun _ => rfl

theorem ofResult (wrap : ε → Halt) (r : Except ε α) : Calls (Session.ofResult wrap r) 0 := by
  cases r with
  | ok x => exact pure x
  | error e => exact throw _

theorem attempt (n : EncodeM α) : Calls (Session.attempt n) 0 := fun _ => rfl

theorem encode (n : EncodeM α) : Calls (Session.encode n) 0 := (attempt n).after (ofResult _)

theorem modify {g : Session → Session} (h : ∀ s, (g s).calls = s.calls + k) : Calls (modify g : SessionM Unit) k := h

theorem build (n : EncodeM α) : Calls (Session.build n) 0 := by
  refine now.after fun start => (attempt n).after fun r => now.after fun stop => ?_
  exact (modify fun _ => rfl).after fun _ => ofResult _ r

theorem solveModel : Calls (Session.solveModel p) 1 := by
  have hsolve : Calls (Session.solve p) 1 := by
    refine (modify fun _ => rfl).andThen fun _ => now.after fun start => (encode _).after fun sat => now.after fun stop => ?_
    exact (modify fun _ => rfl).after fun _ => pure sat
  refine hsolve.andThen fun sat => ?_
  split
  · have hextract : Calls Session.extract 0 := fun s => Leads.get.bind fun e s' h' => by
      obtain ⟨rfl, rfl⟩ := h'
      exact ofResult _ _ _
    exact hextract.after fun _ => pure _
  · exact pure _

/-- A scope is opened and closed without a call. -/
theorem inScope (h : Calls m k) : Calls (Session.inScope m) k := by
  refine (encode _).after fun _ s => (Leads.lift (h s)).bind fun r s' hr => ?_
  cases r with
  | error e => exact (encode _ s').bind fun _ _ _ => Leads.throw trivial
  | ok x => exact (encode _ s').bind fun _ s₁ h₁ => Leads.pure (h₁.trans hr)

theorem rebuild (pins : List (Key × Bool)) : Calls (Session.rebuild p objective families pins) 0 :=
  (modify fun _ => rfl).after fun _ => (build _).after fun _ => build _

theorem probe (count : Count) (lower upper : Nat) : Calls (Session.probe p count lower upper) 1 :=
  (encode _).after fun _ => solveModel

/-! ## Steps of a search -/

theorem seek (s : Search) (bound : Nat) : Calls (Session.seek p o objective families s bound) 1 := by
  unfold Session.seek
  split
  · exact (inScope (probe _ _ _)).andThen fun _ => pure _
  · exact (rebuild _).after fun _ => andThen (probe _ _ _) fun _ => pure _

theorem score (m : Model) : Calls (Session.score p o objective m) 0 := by
  have hconfirm : Calls (discard (Session.confirm p m)) 0 := by
    refine after ?_ fun _ => pure _
    unfold Session.confirm
    split
    · exact pure _
    · exact (tell _).after fun _ => throw _
  unfold Session.score
  split
  · exact hconfirm.after fun _ => ofResult _ _
  · exact ofResult _ _

end Calls

section
variable {p : Problem} {o : SearchOptions} {objective : Objective} {families : List Family}

theorem advance_calls (s : Search) (bound : Nat) (t : Session) :
    Leads True (Session.advance p o objective families s bound) t fun s' t' =>
      s'.iterations = s.iterations + 1 ∧ t'.calls = t.calls + 1 := by
  unfold Session.advance
  refine (Calls.seek s bound t).bind fun r t₁ h₁ => ?_
  have hsettle : Leads True (Session.settle p o objective { s with count := r.1 } bound r.2) t₁ fun s' t₂ =>
      s'.iterations = s.iterations ∧ t₂.calls = t₁.calls := by
    cases r.2 with
    | none => exact Leads.pure ⟨rfl, rfl⟩
    | some m => exact (Calls.score m t₁).bind fun c t₂ h₂ => Leads.pure ⟨rfl, h₂⟩
  refine hsettle.bind fun s' t₂ h₂ => (Calls.tell _ t₂).bind fun _ t₃ h₃ => Leads.pure ⟨congrArg (· + 1) h₂.1, ?_⟩
  omega

theorem freeze_calls (s : Search) (t : Session) : Leads True (Session.freeze p o s) t fun s' t' =>
    s'.iterations = s.iterations ∧ t'.calls = t.calls := by
  unfold Session.freeze
  dsimp only
  split
  · exact (Calls.encode _ t).bind fun _ t₁ h₁ => (Calls.tell _ t₁).bind fun _ _ h₂ => Leads.pure ⟨rfl, h₂.trans h₁⟩
  · exact (Calls.tell _ t).bind fun _ _ h₁ => Leads.pure ⟨rfl, h₁⟩

/-- By induction on the steps left. -/
theorem search_calls (start fuel : Nat) (s : Search) (t : Session) :
    Leads True (Session.search p o objective families start fuel s) t fun s' t' =>
      t'.calls + s.iterations = t.calls + s'.iterations := by
  induction fuel generalizing s t with
  | zero => exact Leads.pure rfl
  | succ fuel ih =>
    have hexpired : Calls (Session.expired o start) 0 := by
      unfold Session.expired
      split
      · exact .pure _
      · exact Calls.now.after fun _ => .pure _
    rw [Session.search]
    refine (hexpired t).bind fun expired t₁ h₁ => ?_
    cases s.next o expired with
    | finish => exact Leads.pure (by omega)
    | stop reason => exact (Calls.tell _ t₁).bind fun _ t₂ h₂ => Leads.pure (by omega)
    | freeze =>
      refine (freeze_calls s t₁).bind fun s' t₂ h₂ => (ih s' t₂).mono fun s'' t₃ h₃ => ?_
      omega
    | probe bound =>
      refine (advance_calls s bound t₁).bind fun s' t₂ h₂ => (ih s' t₂).mono fun s'' t₃ h₃ => ?_
      omega

theorem firstSearch_calls (t : Session) : Leads True (Session.firstSearch p o objective families) t fun found t' =>
    ∀ s, found = some s → s.iterations = 0 ∧ t'.calls = t.calls + 1 := by
  refine (Calls.rebuild [] t).bind fun count t₁ h₁ => (Calls.solveModel t₁).bind fun found t₂ h₂ => ?_
  cases found with
  | none => exact Leads.pure nofun
  | some m =>
    refine (Calls.score m t₂).bind fun c t₃ h₃ => (Calls.tell _ t₃).bind fun _ t₄ h₄ => Leads.pure fun s hs => ?_
    cases hs
    exact ⟨rfl, by omega⟩

theorem optimize_calls (p : Problem) (o : SearchOptions) (objective : Objective) (t : Session) :
    Leads True (Session.optimize p o objective) t fun result t' => ∀ b, result = .best b → t'.calls = t.calls + 1 + b.iterations := by
  refine Leads.optimize rfl fun start t₁ h₁ => (firstSearch_calls t₁).bind fun found t₂ h₂ => ?_
  cases found with
  | none => exact Leads.pure nofun
  | some s =>
    obtain ⟨hzero, hcalls⟩ := h₂ s rfl
    refine (search_calls start s.maxSteps s t₂).bind fun s' t₃ h₃ => Leads.pure fun b hb => ?_
    cases hb
    show t₃.calls = t.calls + 1 + s'.iterations
    omega

end
end PlaceRoute
