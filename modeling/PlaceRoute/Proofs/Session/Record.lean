import PlaceRoute.Proofs.Session.Attest
import PlaceRoute.Proofs.Session.Best
import PlaceRoute.Proofs.Session.Declared

/-!
# Families on record

A session records the families that calls list for assertion, and an optimisation is over the families on record. The record does
not say which calls failed: after any calls it is `listed calls` (`Made.asserted`). So a call that failed is as good as not made
only if the families that it lists are on record anyway. `Session.optimize_after_calls` says exactly when that is, and that only
calls on a session where nothing is declared are concerned.
-/

namespace PlaceRoute

namespace Session

/-! ## Lists of families -/

section
variable {l l' families more : List Family} {f : Family}

theorem mem_addFamilies : f ∈ addFamilies l families ↔ f ∈ l ∨ f ∈ families := by
  unfold addFamilies
  induction families generalizing l with
  | nil => simp
  | cons g families ih =>
    rw [List.foldl_cons, ih, List.mem_cons]
    split
    · next hg =>
      constructor
      · rintro (h | h) <;> simp [h]
      · rintro (h | rfl | h) <;> simp [*]
    · simp [or_assoc]

theorem addFamilies_append : addFamilies l (families ++ more) = addFamilies (addFamilies l families) more :=
  List.foldl_append

theorem prefix_addFamilies : l <+: addFamilies l families := by
  unfold addFamilies
  induction families generalizing l with
  | nil => exact List.prefix_rfl
  | cons g families ih =>
    rw [List.foldl_cons]
    refine List.IsPrefix.trans ?_ ih
    split
    · exact List.prefix_rfl
    · exact List.prefix_append l [g]

/-- Families that are added first are added to no effect if they come first anyway. -/
theorem addFamilies_eq_of_prefix (h : l <+: l') (h' : l' <+: addFamilies l families) :
    addFamilies l' families = addFamilies l families := by
  unfold addFamilies at h' ⊢
  induction families generalizing l l' with
  | nil => exact h'.eq_of_length_le h.length_le
  | cons g families ih =>
    rw [List.foldl_cons] at h' ⊢
    rw [List.foldl_cons]
    by_cases hlength : l'.length ≤ l.length
    · rw [h.eq_of_length_le hlength]
    · -- The next family is one of those that come first.
      have hnext : (if g ∈ l then l else l ++ [g]) <+: l' := by
        split
        · exact h
        · next hg =>
          refine List.prefix_of_prefix_length_le ?_ h' (by rw [List.length_append, List.length_singleton]; omega)
          rw [if_neg hg]
          exact prefix_addFamilies
      have hg : g ∈ l' := hnext.subset (by split <;> simp [*])
      rw [if_pos hg]
      exact ih hnext h'

end

/-! ## Calls -/

/-- A call on a session. -/
inductive Call where
  | declare
  | assert (families : List Family)
  | solve
  | optimize (o : SearchOptions) (objective : Objective)

namespace Call

/-- The steps of a call, whose result is dropped. -/
def steps (p : Problem) : Call → SessionM Unit
  | declare => Session.declare p
  | assert families => assertFamilies p families
  | solve => discard (Session.solve p)
  | optimize o objective => discard (Session.optimize p o objective)

/-- The families that a call lists for assertion. -/
def families : Call → List Family
  | assert families => families
  | _ => []

/-- Whether a call declares the decisions. -/
def declares : Call → Bool
  | declare | optimize .. => true
  | _ => false

variable {p : Problem} {s : Session}

/-- Families are recorded whether or not generating them succeeds. -/
theorem steps_assert (families : List Family) : (((assert families).steps p).run.run s).Always fun r =>
    r.1.isOk = ((generate p families).run.run s.encoder).1.isOk ∧ r.2.asserted = addFamilies s.asserted families := by
  intro start stop
  show ((ofEncoded ((generate p families).run.run s.encoder).1).run.run _).Always _
  cases ((generate p families).run.run s.encoder).1 <;> exact ⟨rfl, rfl⟩

/-- A call records the families that it lists, whether or not it fails. -/
theorem steps_asserted (call : Call) :
    ((call.steps p).run.run s).Always fun r => r.2.asserted = addFamilies s.asserted call.families := by
  cases call with
  | declare => exact (Blind.build _ s s rfl).always
  | assert families => exact (steps_assert families).mono fun _ h => h.2
  | solve => exact (Blind.solve.bind (fun _ => .pure ()) s s rfl).always
  | optimize o objective =>
    refine (optimize_asserted s).bind fun r hr => ?_
    obtain ⟨e | x, s'⟩ := r
    · exact hr
    · exact hr

variable (p) in
/-- The keys that are known to a session, by whether the decisions are declared. -/
def known (declared : Bool) : List Key := if declared then allKeys p.graph p.design else []

section
variable (hg : p.graph.WellWired) (hd : p.design.WellWired)
include hg hd

theorem steps_ready {declared : Bool} (h : s.encoder.Ready (known p declared)) (call : Call) :
    Steady (known p (declared || call.declares)) (call.steps p) s fun _ _ => True := by
  cases call with
  | declare =>
    rw [show (declared || declare.declares) = true from Bool.or_true declared]
    refine .declare hg hd ?_
    cases declared with
    | false => exact Or.inl h
    | true => exact Or.inr h
  | assert families =>
    rw [show (declared || (assert families).declares) = declared from Bool.or_false declared]
    refine .assertFamilies h ?_
    cases declared with
    | false => exact .generate_bare h families
    | true =>
      obtain ⟨e, hrun, hlater⟩ := exists_generate_run hg hd h families
      exact .of_run hrun hlater trivial
  | solve =>
    rw [show (declared || solve.declares) = declared from Bool.or_false declared]
    exact (Steady.solve h).bind fun _ _ h₁ _ => .pure h₁ trivial
  | optimize o objective =>
    rw [show (declared || (optimize o objective).declares) = true from Bool.or_true declared]
    exact (Steady.optimize hg hd s).bind fun _ _ h₁ _ => .pure h₁ trivial

/-- Families are asserted on declared decisions. -/
theorem assert_isOk (families : List Family) (h : s.encoder.Ready (allKeys p.graph p.design)) :
    (((assert families).steps p).run.run s).Always fun r => r.1.isOk = true := by
  obtain ⟨e, hrun, -⟩ := exists_generate_run hg hd h families
  refine (steps_assert families).mono fun r hr => ?_
  rw [hr.1, hrun]
  rfl

end
end Call

/-! ## Runs of calls -/

/-- Makes calls one after the other, and notes which of them succeed. -/
def make (p : Problem) : List Call → StateT Session Timed (List (Call × Bool))
  | [] => pure []
  | call :: calls => do
    let r ← (call.steps p).run
    return (call, r.isOk) :: (← make p calls)

/-- The families that calls list for assertion, in order and each once. -/
def listed (calls : List Call) : List Family := addFamilies [] (calls.flatMap Call.families)

/-- The calls that succeeded. -/
def succeeded (made : List (Call × Bool)) : List Call := (made.filter fun c => c.2).map Prod.fst

/-- The calls that failed. -/
def failed (made : List (Call × Bool)) : List Call := (made.filter fun c => !c.2).map Prod.fst

/-- The result of an optimisation. -/
def outcome (p : Problem) (o : SearchOptions) (objective : Objective) (s : Session) (clock : Nat → Nat) :
    Except Halt Optimization :=
  (((optimize p o objective).run.run s).run clock).1

/-- Once a call has declared the decisions, calls that assert families succeed. -/
def InOrder (made : List (Call × Bool)) : Prop :=
  made.Pairwise fun c c' => c.1.declares = true → ∀ families, c'.1 = .assert families → c'.2 = true

/-- What calls on a new session have made of it. -/
structure Made (p : Problem) (made : List (Call × Bool)) (s : Session) : Prop where
  asserted : s.asserted = listed (made.map Prod.fst)
  ready : s.encoder.Ready (Call.known p (made.any fun c => c.1.declares))
  inOrder : InOrder made

section
variable {p : Problem} {calls more : List Call} {call : Call} {made : List (Call × Bool)} {s : Session} {f : Family}

theorem mem_listed : f ∈ listed calls ↔ ∃ call ∈ calls, f ∈ call.families := by
  rw [listed, mem_addFamilies, List.mem_flatMap]
  simp

theorem listed_append : listed (calls ++ more) = addFamilies (listed calls) (more.flatMap Call.families) := by
  unfold listed
  rw [List.flatMap_append, addFamilies_append]

theorem made_new : Made p [] {} := ⟨rfl, Encoder.models_new.ready, .nil⟩

section
variable (hg : p.graph.WellWired) (hd : p.design.WellWired)
include hg hd

/-- One more call. -/
theorem Made.step (h : Made p made s) (call : Call) :
    ((call.steps p).run.run s).Always fun r => Made p (made ++ [(call, r.1.isOk)]) r.2 := by
  have hsucceeds : ((call.steps p).run.run s).Always fun r =>
      ∀ c ∈ made, c.1.declares = true → ∀ families, call = .assert families → r.1.isOk = true := by
    cases call with
    | assert families =>
      by_cases hdeclared : (made.any fun c => c.1.declares) = true
      · have hready := h.ready
        rw [hdeclared] at hready
        exact (Call.assert_isOk hg hd families hready).mono fun _ hr _ _ _ _ _ => hr
      · refine (Call.steps_asserted (.assert families)).mono fun _ _ c hc hdeclares => ?_
        exact absurd (List.any_eq_true.mpr ⟨c, hc, hdeclares⟩) hdeclared
    | _ => exact (Call.steps_asserted _).mono fun _ _ _ _ _ _ => nofun
  have hall := ((Call.steps_asserted call).and (Call.steps_ready hg hd h.ready call)).and hsucceeds
  refine hall.mono fun r hr => ⟨?_, ?_, List.pairwise_append.mpr ⟨h.inOrder, List.pairwise_singleton .., ?_⟩⟩
  · rw [hr.1.1, h.asserted, List.map_append, listed_append]
    simp
  · rw [List.any_append]
    simpa using hr.1.2.1
  · intro c hc c' hc'
    obtain rfl := List.mem_singleton.mp hc'
    exact hr.2 c hc

/-- By induction on the calls. -/
theorem Made.make (calls : List Call) (h : Made p made s) :
    ((Session.make p calls).run s).Always fun r => r.1.map Prod.fst = calls ∧ Made p (made ++ r.1) r.2 := by
  induction calls generalizing made s with
  | nil => exact ⟨rfl, by simpa using h⟩
  | cons call calls ih =>
    refine Timed.Always.bind (h.step hg hd call) fun r hr => Timed.Always.bind (ih hr) fun q hq => ?_
    rw [List.append_assoc] at hq
    exact ⟨congrArg _ hq.1, hq.2⟩

end
end

/-! ## What counts -/

/-- What an optimisation after the calls `made` is over, and the part that calls that failed have in it. -/
structure Recorded (p : Problem) (made : List (Call × Bool)) (s : Session) : Prop where
  /-- The families listed in all calls count. -/
  chosen : s.chosen = Family.orAll (listed (made.map Prod.fst))
  /-- Nothing else that the session holds counts. -/
  outcome_eq : ∀ o objective clock,
    outcome p o objective s clock = (((optimizeOver p o objective s.chosen).run.run {}).run clock).1
  inOrder : InOrder made
  /-- The families listed in calls that succeeded are those that count if the others list no further one. -/
  exact_iff : (∀ f, f ∈ s.chosen ↔ f ∈ Family.orAll (listed (succeeded made))) ↔
    (∀ f ∈ listed (failed made), f ∈ listed (succeeded made)) ∨
      listed (succeeded made) = [] ∧ ∀ f, f ∈ listed (failed made)
  /-- That is so if decisions are declared before families are asserted. -/
  exact_of_declared : (∀ earlier families later, made.map Prod.fst = earlier ++ .assert families :: later →
      ∃ call ∈ earlier, call.declares = true) →
    s.chosen = Family.orAll (listed (succeeded made)) ∧ ∀ call ∈ failed made, call.families = []

section
variable {p : Problem} {calls earlier later : List Call} {call : Call} {made : List (Call × Bool)} {s s' : Session} {f : Family}
  {families families' : List Family}

theorem mem_orAll : f ∈ Family.orAll families ↔ families = [] ∨ f ∈ families := by
  unfold Family.orAll
  cases families with
  | nil => simp [Family.mem_all]
  | cons => simp

/-- More families make no difference if they are there anyway, or if there are none but these, which are all. -/
theorem mem_orAll_iff {more : List Family} (h : ∀ f, f ∈ families ↔ f ∈ families' ∨ f ∈ more) :
    (∀ f, f ∈ Family.orAll families ↔ f ∈ Family.orAll families') ↔
      (∀ f ∈ more, f ∈ families') ∨ families' = [] ∧ ∀ f, f ∈ more := by
  have hnil : families = [] ↔ families' = [] ∧ more = [] := by
    simp only [List.eq_nil_iff_forall_not_mem, h, not_or, forall_and]
  simp only [mem_orAll, h, hnil]
  rcases families' with - | ⟨g, families'⟩
  · rcases more with - | ⟨g, more⟩
    · simp
    · have hg : ¬ ∀ f, f ∈ g :: more → False := fun hall => hall g List.mem_cons_self
      simp only [reduceCtorEq, and_false, false_or, true_or, List.not_mem_nil, true_and, iff_true]
      exact (or_iff_right hg).symm
  · simp only [reduceCtorEq, false_and, false_or, or_false, or_iff_left_iff_imp]

theorem orAll_eq_iff (hsubset : families' ⊆ families) : Family.orAll families' = Family.orAll families ↔
    families = families' ∨ families' = [] ∧ families = Family.all := by
  unfold Family.orAll
  cases families' with
  | nil =>
    cases families with
    | nil => simp
    | cons f families => simp [eq_comm]
  | cons f' families' =>
    cases families with
    | nil => exact absurd (hsubset List.mem_cons_self) List.not_mem_nil
    | cons f families => simp [eq_comm]

/-- A call does not count if what is listed up to it comes first anyway. -/
theorem listed_eq_iff : listed (earlier ++ call :: later) = listed (earlier ++ later) ↔
    listed (earlier ++ [call]) <+: listed (earlier ++ later) := by
  have hcall : listed (earlier ++ call :: later) = addFamilies (listed (earlier ++ [call])) (later.flatMap Call.families) := by
    rw [← listed_append, List.append_assoc, List.singleton_append]
  rw [hcall]
  constructor
  · intro h
    rw [← h]
    exact prefix_addFamilies
  · intro h
    have hearlier : listed earlier <+: listed (earlier ++ [call]) := by
      rw [listed_append]
      exact prefix_addFamilies
    have hlater : listed (earlier ++ later) = addFamilies (listed earlier) (later.flatMap Call.families) := listed_append
    rw [hlater] at h ⊢
    exact addFamilies_eq_of_prefix hearlier h

theorem outcome_eq (o : SearchOptions) (objective : Objective) (clock : Nat → Nat) :
    outcome p o objective s clock = (((optimizeOver p o objective s.chosen).run.run {}).run clock).1 := by
  unfold outcome
  rw [optimize_eq, run_get]
  exact (optimizeOver_together.run clock).result

@[simp] theorem mem_succeeded : call ∈ succeeded made ↔ (call, true) ∈ made := by simp [succeeded]

@[simp] theorem mem_failed : call ∈ failed made ↔ (call, false) ∈ made := by simp [failed]

/-- A call succeeds or fails. -/
theorem mem_listed_iff : f ∈ listed (made.map Prod.fst) ↔ f ∈ listed (succeeded made) ∨ f ∈ listed (failed made) := by
  simp only [mem_listed, mem_succeeded, mem_failed]
  constructor
  · rintro ⟨call, hcall, hf⟩
    obtain ⟨⟨_, ok⟩, hmem, rfl⟩ := List.mem_map.mp hcall
    cases ok with
    | true => exact Or.inl ⟨_, hmem, hf⟩
    | false => exact Or.inr ⟨_, hmem, hf⟩
  · rintro (⟨call, hmem, hf⟩ | ⟨call, hmem, hf⟩)
    · exact ⟨call, List.mem_map_of_mem hmem, hf⟩
    · exact ⟨call, List.mem_map_of_mem hmem, hf⟩

/-- Calls that list nothing may be left out. -/
theorem listed_succeeded (h : ∀ call ∈ failed made, call.families = []) :
    listed (succeeded made) = listed (made.map Prod.fst) := by
  unfold listed
  congr 1
  induction made with
  | nil => rfl
  | cons c made ih =>
    obtain ⟨call, ok⟩ := c
    cases ok with
    | true => exact congrArg (call.families ++ ·) (ih h)
    | false =>
      obtain ⟨hcall, hmade⟩ := List.forall_mem_cons.mp h
      rw [List.map_cons, List.flatMap_cons, hcall]
      exact ih hmade

/-- If decisions are declared before, no call that asserts families fails. -/
theorem InOrder.families_of_failed (h : InOrder made) (hdeclared : ∀ earlier families later,
      made.map Prod.fst = earlier ++ .assert families :: later → ∃ call ∈ earlier, call.declares = true) :
    ∀ call ∈ failed made, call.families = [] := by
  intro call hcall
  cases call with
  | assert families =>
    obtain ⟨before, after, rfl⟩ := List.append_of_mem (mem_failed.mp hcall)
    obtain ⟨_, hmem, hdeclares⟩ := hdeclared (before.map Prod.fst) families (after.map Prod.fst) (by simp)
    obtain ⟨c, hc, rfl⟩ := List.mem_map.mp hmem
    exact absurd ((List.pairwise_append.mp h).2.2 c hc _ List.mem_cons_self hdeclares families rfl) Bool.false_ne_true
  | _ => rfl

theorem Made.recorded (h : Made p made s) : Recorded p made s where
  chosen := congrArg Family.orAll h.asserted
  outcome_eq := outcome_eq
  inOrder := h.inOrder
  exact_iff := by
    rw [chosen, h.asserted]
    exact mem_orAll_iff fun f => mem_listed_iff
  exact_of_declared hdeclared := by
    have hfailed := h.inOrder.families_of_failed hdeclared
    refine ⟨?_, hfailed⟩
    rw [chosen, h.asserted, listed_succeeded hfailed]

end

/-- **What is on record counts.** Make any calls on a new session, for a built graph and a design. An optimisation after them is over
the families listed in all calls, whether these failed or not, and has the result that it has on a new session. Calls that assert
families fail only before any call has declared decisions; if that is done first, it is over the families listed in calls that
succeeded. In any case one call changes nothing exactly if what is listed up to it comes first without it, or if nothing is listed
without it and it lists all. -/
theorem optimize_after_calls {f : Fabric} {options : GraphOptions} {p : Problem} {operations : SortedMap String String}
    {ties : List NamedTie} {duplicates : SortedSet String} (hg : Graph.build f options = .ok p.graph)
    (hd : Design.new operations ties duplicates = .ok p.design) {calls : List Call} {made : List (Call × Bool)} {s : Session}
    {clock : Nat → Nat} (hrun : ((make p calls).run {}).run clock = (made, s)) :
    made.map Prod.fst = calls ∧ Recorded p made s ∧
    ∀ {earlier call later}, calls = earlier ++ call :: later →
      ∀ {made' s' clock'}, ((make p (earlier ++ later)).run {}).run clock' = (made', s') →
        (s'.chosen = s.chosen ↔ listed (earlier ++ [call]) <+: listed (earlier ++ later) ∨
          listed (earlier ++ later) = [] ∧ listed calls = Family.all) ∧
        (s'.chosen = s.chosen → ∀ o objective clock, outcome p o objective s' clock = outcome p o objective s clock) := by
  have hmade {calls : List Call} {made : List (Call × Bool)} {s : Session} {clock : Nat → Nat}
      (hrun : ((make p calls).run {}).run clock = (made, s)) : made.map Prod.fst = calls ∧ Made p made s := by
    have h := (made_new.make (Graph.wellWired_build hg) (Design.wellWired_new hd) calls).run clock
    rwa [hrun] at h
  obtain ⟨hcalls, h⟩ := hmade hrun
  refine ⟨hcalls, h.recorded, fun {earlier call later} heq {made' s' clock'} hrun' => ?_⟩
  obtain ⟨hcalls', h'⟩ := hmade hrun'
  constructor
  · rw [chosen, chosen, h.asserted, h'.asserted, hcalls, hcalls', orAll_eq_iff, heq, listed_eq_iff]
    intro f hf
    obtain ⟨c, hc, hf⟩ := mem_listed.mp hf
    refine mem_listed.mpr ⟨c, ?_, hf⟩
    rw [heq]
    simp only [List.mem_append, List.mem_cons] at hc ⊢
    exact hc.imp_right Or.inr
  · intro hchosen o objective clock
    rw [outcome_eq, outcome_eq, hchosen]

/-- If decisions are declared first, what is asserted counts. -/
theorem line_optimize_after_calls : ∃ (p : Problem) (made : List (Call × Bool)) (s : Session),
    Graph.build .line {} = .ok p.graph ∧
    Design.new (.ofList [("c", "const"), ("s", "store")]) [⟨"c", "s", 0⟩] ∅ = .ok p.design ∧
    ((make p [.declare, .assert [.opPlacement], .solve]).run {}).run (fun _ => 0) = (made, s) ∧
    s.chosen = Family.orAll (listed (succeeded made)) ∧ s.chosen = [.opPlacement] := by
  obtain ⟨g, d, hg, hd⟩ := exists_line
  let p : Problem := ⟨g, d, Sat.exhaustive⟩
  obtain ⟨⟨made, s⟩, hrun⟩ : ∃ r, ((make p [.declare, .assert [.opPlacement], .solve]).run {}).run (fun _ => 0) = r := ⟨_, rfl⟩
  obtain ⟨hcalls, hrecorded, -⟩ := optimize_after_calls (p := p) hg hd hrun
  refine ⟨p, made, s, hg, hd, hrun, (hrecorded.exact_of_declared fun earlier families later heq => ?_).1, ?_⟩
  · rw [hcalls] at heq
    cases earlier with
    | nil => cases heq
    | cons call earlier => exact ⟨call, List.mem_cons_self, (List.cons.inj heq).1 ▸ rfl⟩
  · rw [hrecorded.chosen, hcalls]
    rfl

/-! ## A call that counts although it failed -/

section
variable {p : Problem} {objective : Objective} {s : Session}
  (hg : p.graph.WellWired) (hd : p.design.WellWired) (hengine : p.engine.Correct)
include hg hd hengine

/-- Without values the first model is the best. -/
theorem optimize_once_best {δ : Key → Bool} (hδ : ∀ f ∈ s.chosen, f.Holds p.graph p.design δ) (hvalues : p.design.values = []) :
    Leads False (optimize p .once objective) s fun result _ => ∃ b, result = .best b := by
  have heval (m : Model) : objective.eval p.graph p.design m = .ok 0 := by
    unfold Objective.eval Model.tracePaths
    rw [hvalues]
    rfl
  refine Leads.optimize rfl fun start t₁ _ => ?_
  have hfirst : Leads False (firstSearch p .once objective s.chosen) t₁ fun found _ => ∃ x, found = some x ∧ x.upper = 0 := by
    refine (rebuild_leads hg hd objective s.chosen (List.forall_mem_nil _)).bind fun count t₂ h₂ => ?_
    refine (solveModel_leads hengine h₂.offers).bind fun found t₃ h₃ => ?_
    cases found with
    | none => exact absurd ⟨hδ, List.forall_mem_nil _⟩ (h₃.2 δ)
    | some m =>
      refine (score_once (heval m)).bind fun c t₄ h₄ => (Leads.tell _).bind fun _ _ _ => Leads.pure ⟨_, rfl, h₄⟩
  refine hfirst.bind fun found t₂ hfound => ?_
  obtain ⟨x, rfl, hupper⟩ := hfound
  have hsearch (fuel : Nat) : Leads False (search p .once objective s.chosen start fuel x) t₂ fun _ _ => True := by
    cases fuel with
    | zero => exact Leads.pure trivial
    | succ fuel =>
      have hexpired : Leads False (expired .once start) t₂ fun _ _ => True := Leads.pure trivial
      rw [search]
      refine hexpired.bind fun expired t₃ _ => ?_
      rw [Search.next, if_pos (by rw [hupper]; exact Nat.zero_le _)]
      exact Leads.pure trivial
  exact (hsearch x.maxSteps).bind fun y _ _ => Leads.pure ⟨y.optimum, rfl⟩

theorem optimize_unsatisfiable {o : SearchOptions} (hnone : ∀ δ, ¬ ∀ f ∈ s.chosen, f.Holds p.graph p.design δ) :
    Leads False (optimize p o objective) s fun result _ => result = .unsatisfiable := by
  refine Leads.optimize rfl fun start t₁ _ => ?_
  refine (firstSearch_loaded hg hd hengine fun m _ hm => absurd hm (hnone _)).bind fun found t₂ h₂ => ?_
  cases found with
  | none => exact Leads.pure rfl
  | some x => exact absurd h₂.2.2.1.2 (hnone _)

end

end Session

/-- One unit that adds. -/
def Fabric.adder : Fabric where
  blocks := [{
    location := ⟨0, 0⟩
    instances := [⟨"alu", .functionalUnit, [], [], SortedSet.ofList ["add"]⟩]
    muxes := []
    operandPorts := [] }]
  ties := []

/-- There is no mapping of two additions to one unit. But after a call that failed to assert one family, because nothing was declared,
an optimisation is over that family and finds a model. -/
theorem Session.failed_assert_counts : ∃ (p : Problem) (s : Session) (b : Optimum), Graph.build .adder {} = .ok p.graph ∧
    Design.new (.ofList [("a", "add"), ("b", "add")]) [] ∅ = .ok p.design ∧ p.engine.Correct ∧
    ((make p [.assert [.opPlacement]]).run {}).run (fun _ => 0) = ([(.assert [.opPlacement], false)], s) ∧
    outcome p .once ⟨.mux, .ite⟩ s (fun _ => 0) = .ok (.best b) ∧
    outcome p .once ⟨.mux, .ite⟩ {} (fun _ => 0) = .ok .unsatisfiable := by
  have hfacts : ((Graph.build .adder {}).toOption.any fun g =>
      (Design.new (.ofList [("a", "add"), ("b", "add")]) [] ∅).toOption.any fun d => decide (
        Feasibility.of g d = .infeasible "add" 2 1 ∧ d.values = [] ∧
        Family.OpsPlaced g d (fun _ => true) ∧
        ((generate ⟨g, d, Sat.exhaustive⟩ [.opPlacement]).run.run .new).1.isOk = false)) = true := by decide +kernel
  obtain ⟨g, hg, hfacts⟩ := exists_ok_of_any hfacts
  obtain ⟨d, hd, hfacts⟩ := exists_ok_of_any hfacts
  obtain ⟨hinfeasible, hvalues, hplaced, hfails⟩ := of_decide_eq_true hfacts
  have hgw := Graph.wellWired_build hg
  have hdw := Design.wellWired_new hd
  let p : Problem := ⟨g, d, Sat.exhaustive⟩
  have hmake : ((make p [.assert [.opPlacement]]).run {}).Always fun r =>
      r.1 = [(.assert [.opPlacement], false)] ∧ r.2.chosen = [.opPlacement] := by
    refine Timed.Always.bind (Call.steps_assert [.opPlacement]) fun r hr => ?_
    refine ⟨by rw [hr.1]; exact congrArg (fun ok => [(_, ok)]) hfails, ?_⟩
    show Family.orAll r.2.asserted = _
    rw [hr.2]
    rfl
  obtain ⟨⟨made, s⟩, hrun⟩ : ∃ r, ((make p [.assert [.opPlacement]]).run {}).run (fun _ => 0) = r := ⟨_, rfl⟩
  obtain ⟨rfl, hchosen⟩ := hrun ▸ hmake.run fun _ => 0
  have hholds : ∀ f ∈ s.chosen, f.Holds g d fun _ => true := by
    rw [hchosen]
    exact List.forall_mem_singleton.mpr hplaced
  have hbest : Leads False (optimize p .once ⟨.mux, .ite⟩) s _ :=
    optimize_once_best hgw hdw Sat.exhaustive_isCorrect hholds hvalues
  have hnone : Leads False (optimize p .once ⟨.mux, .ite⟩) {} _ :=
    optimize_unsatisfiable hgw hdw Sat.exhaustive_isCorrect fun δ hall =>
      not_allHold_of_infeasible hdw hinfeasible fun f => hall f (Family.mem_all f)
  obtain ⟨_, _, hbest, b, rfl⟩ := hbest.exists_ok fun _ => 0
  obtain ⟨_, _, hnone, rfl⟩ := hnone.exists_ok fun _ => 0
  exact ⟨p, s, b, hg, hd, Sat.exhaustive_isCorrect, hrun, congrArg Prod.fst hbest, congrArg Prod.fst hnone⟩

end PlaceRoute
