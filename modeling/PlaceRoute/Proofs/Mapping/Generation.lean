import PlaceRoute.Proofs.Mapping.Faithful
import PlaceRoute.Proofs.Mapping.Offers
import PlaceRoute.Proofs.Solver.Later

/-!
# Generation on declared decisions

Declaring the decisions about a mapping gives each its own variable, in the order of declaration (`Encoder.declare_numbers`).
From there a session generates formulas of families, counts and windows, asserts terms, opens and closes scopes and checks,
in any order and however often: `Encoder.Reached`. No such step takes a decision back or loses a literal of a count
(`Encoder.Primed.later`), which is all that generation rests on, so it never fails (`generation_succeeds`).
-/

namespace PlaceRoute

open PlaceRoute.Sat (Literal Engine)

/-- What steps come to if they succeed is what they were shown to come to. -/
theorem Encodes.of_run {α : Type} {m : EncodeM α} {e e' : Encoder} {post : α → Encoder → Prop} {x : α} (h : Encodes m e post)
    (hrun : m.run.run e = (.ok x, e')) : e.GrowsTo e' ∧ post x e' := by
  obtain ⟨y, e₁, hrun₁, hgrow, hpost⟩ := h
  obtain ⟨hx, rfl⟩ := Prod.mk.inj (hrun₁.symm.trans hrun)
  obtain rfl := Except.ok.inj hx
  exact ⟨hgrow, hpost⟩

/-! ## Declaring -/

/-- The decisions about mapping a design onto a graph: each operation on each unit, each net and each flow on each node. -/
def Key.Concerns (g : Graph) (d : Design) : Key → Prop
  | place u op => u ∈ g.units ∧ ∃ o ∈ d.operations, o.id = op
  | route n v => n ∈ g.ids ∧ ∃ value ∈ d.values, value.id = v
  | routeTo n v t => n ∈ g.ids ∧ ∃ value ∈ d.values, value.id = v ∧ t ∈ value.dsts

theorem mem_allKeys_iff {g : Graph} {d : Design} {k : Key} : k ∈ allKeys g d ↔ k.Concerns g d := by
  cases k with
  | place u op => simp [allKeys, Key.Concerns]
  | route n v => simp [allKeys, Key.Concerns, eq_comm (a := v)]
  | routeTo n v t => simp [allKeys, Key.Concerns, and_comm]

namespace Encoder

variable {e e' : Encoder} {keys : List Key} {counts : List Count} {count : Count}

/-- Keys that are declared one after the other are one variable each, in this order. -/
theorem declare_numbers (he : e.solver.WellFormed) (hnodup : keys.Nodup) (hnew : ∀ k ∈ keys, e.store.vars[k]? = none) :
    ∃ e', (keys.forM fun k => discard (Encoder.declare k 1)).run.run e = (.ok (), e') ∧ e'.solver.WellFormed ∧
      e'.solver.vars = e.solver.vars + keys.length ∧ e'.store.anonymous = e.store.anonymous ∧
      ∀ k, e'.store.vars[k]? = if k ∈ keys then some [⟨e.solver.vars + keys.idxOf k, true⟩] else e.store.vars[k]? := by
  induction keys generalizing e with
  | nil => exact ⟨e, rfl, he, rfl, rfl, fun k => (if_neg List.not_mem_nil).symm⟩
  | cons k keys ih =>
    obtain ⟨hk, hnodup⟩ := List.nodup_cons.mp hnodup
    obtain ⟨hknew, hnew⟩ := List.forall_mem_cons.mp hnew
    have hnot : e.store.vars.contains k = false := by
      rw [Bool.eq_false_iff]
      exact fun hc => contains_iff.mp hc hknew
    have hrun := (Encodes.run_bind (f := fun _ => pure ()) (declare_run hnot 1)).trans rfl
    have hget (k' : Key) : (e.store.vars.insert k [⟨e.solver.vars, true⟩])[k']? =
        if k = k' then some [⟨e.solver.vars, true⟩] else e.store.vars[k']? := by
      rw [Std.TreeMap.getElem?_insert]
      simp
    obtain ⟨e', hrun', hwf, hvars, hanonymous, hstore⟩ := ih
      (e := ⟨((Solver.freshWord 1).run e.solver).2, { e.store with vars := e.store.vars.insert k [⟨e.solver.vars, true⟩] }⟩)
      (Solver.freshWord_free 1 he).1.wellFormed hnodup fun k' hk' => by
        have hne : k ≠ k' := fun h => hk (h ▸ hk')
        rw [hget k', if_neg hne]
        exact hnew k' hk'
    refine ⟨e', (Encodes.run_bind (f := fun _ => keys.forM _) hrun).trans hrun', hwf, ?_, hanonymous, fun k' => ?_⟩
    · rw [hvars, List.length_cons]
      show e.solver.vars + 1 + _ = _
      omega
    · rw [hstore k', hget k']
      by_cases hkk : k = k'
      · subst hkk
        rw [if_neg hk, if_pos rfl, if_pos List.mem_cons_self, List.idxOf_cons_self, Nat.add_zero]
      · rw [if_neg hkk, List.idxOf_cons_ne _ hkk]
        simp only [List.mem_cons, Ne.symm hkk, false_or]
        have hvars₁ : ((Solver.freshWord 1).run e.solver).2.vars = e.solver.vars + 1 := rfl
        rw [hvars₁, Nat.add_assoc, Nat.add_comm 1]

/-! ## What generation rests on -/

/-- The keys are declared, and the counts speak of variables of the solver. -/
structure Primed (e : Encoder) (keys : List Key) (counts : List Count) : Prop where
  ready : e.Ready keys
  lt : ∀ count ∈ counts, ∀ l ∈ count.literals, l.var < e.solver.vars

theorem Primed.later (h : e.Primed keys counts) (hvars : e'.store.vars = e.store.vars) (hs : e.solver.Later e'.solver) :
    e'.Primed keys counts where
  ready := h.ready.of_vars hvars hs.wellFormed hs.vars_le
  lt count hcount l hl := Nat.lt_of_lt_of_le (h.lt count hcount l hl) hs.vars_le

theorem Primed.grow (h : e.Primed keys counts) (hgrow : e.GrowsTo e') : e'.Primed keys counts :=
  h.later hgrow.vars hgrow.solver.later

theorem Primed.cons (h : e.Primed keys counts) (hcount : ∀ l ∈ count.literals, l.var < e.solver.vars) :
    e.Primed keys (count :: counts) := ⟨h.ready, List.forall_mem_cons.mpr ⟨hcount, h.lt⟩⟩

theorem Ready.mem_keys_iff (h : e.Ready keys) {k : Key} : k ∈ e.store.keys ↔ k ∈ keys := by
  have hkeys : k ∈ e.store.keys ↔ e.store.vars[k]? ≠ none := by
    rw [← contains_iff, ← Std.TreeMap.mem_iff_contains]
    exact Std.TreeMap.mem_keys
  rw [hkeys]
  refine ⟨h.only, fun hk hnone => ?_⟩
  obtain ⟨l, hl⟩ := h.declared k hk
  simp [literal?, hnone] at hl

/-! ## Steps -/

variable {g : Graph} {d : Design}

theorem Primed.generate (hd : d.WellWired) (hg : g.WellWired) (h : e.Primed (allKeys g d) counts) (f : Family) :
    Encodes (f.generate g d) e fun formula e' => formula.var < e'.solver.vars :=
  (f.generate_captures hd hg h.ready).mono fun _ _ _ ⟨_, _, hformula⟩ => hformula.lt

theorem Primed.window (h : e.Primed keys counts) (hcount : count ∈ counts) (lower upper : Nat) :
    Encodes (Encoder.checked (count.window lower upper)) e fun formula e' => formula.var < e'.solver.vars :=
  (Encodes.checked (Count.window_means count h.ready.wellFormed (h.lt count hcount) lower upper)).mono
    fun _ _ _ hformula => hformula.1

variable (g d) in
/-- The encoders that a session comes to once it has declared its decisions, with the counts that it built on the way. -/
inductive Reached : Encoder → List Count → Prop where
  | declared {e : Encoder} : (declareAll g d).run.run .new = (.ok (), e) → Reached e []
  | family {e e' : Encoder} {counts : List Count} {formula : Literal} (f : Family) : Reached e counts →
      (f.generate g d).run.run e = (.ok formula, e') → Reached e' counts
  | objective {e e' : Encoder} {counts : List Count} {defined : Literal} {count : Count} (o : Objective) :
      Reached e counts → (o.encode g d).run.run e = (.ok (defined, count), e') → Reached e' (count :: counts)
  | window {e e' : Encoder} {counts : List Count} {count : Count} {formula : Literal} (lower upper : Nat) :
      Reached e counts → count ∈ counts →
      (Encoder.checked (count.window lower upper)).run.run e = (.ok formula, e') → Reached e' counts
  | assert {e : Encoder} {counts : List Count} {l : Literal} : Reached e counts → l.var < e.solver.vars →
      Reached { e with solver := ((Solver.assert l).run e.solver).2 } counts
  | push {e : Encoder} {counts : List Count} : Reached e counts →
      Reached { e with solver := (Solver.push.run e.solver).2 } counts
  | pop {e : Encoder} {counts : List Count} : Reached e counts →
      Reached { e with solver := (Solver.pop.run.run e.solver).2 } counts
  | check {e : Encoder} {counts : List Count} (engine : Engine) : Reached e counts →
      Reached { e with solver := ((Solver.check engine).run e.solver).2 } counts

/-- No step takes a decision back or loses a literal of a count. -/
theorem Reached.primed (hd : d.WellWired) (hg : g.WellWired) (h : Reached g d e counts) : e.Primed (allKeys g d) counts := by
  induction h with
  | declared hrun =>
    obtain ⟨e₁, hrun₁, h₁⟩ := declare_models [] (allKeys_nodup hg hd) models_new
    obtain ⟨-, rfl⟩ := Prod.mk.inj (hrun₁.symm.trans hrun)
    exact ⟨h₁.ready, List.forall_mem_nil _⟩
  | family f _ hrun ih => exact ih.grow ((ih.generate hd hg f).of_run hrun).1
  | objective o _ hrun ih =>
    obtain ⟨hgrow, hdefines⟩ := (o.encode_defines ih.ready).of_run hrun
    exact (ih.grow hgrow).cons hdefines.lt
  | window lower upper _ hcount hrun ih => exact ih.grow ((ih.window hcount lower upper).of_run hrun).1
  | assert _ hl ih => exact ih.later rfl (Solver.later_assert ih.ready.wellFormed hl)
  | push _ ih => exact ih.later rfl (Solver.later_push ih.ready.wellFormed)
  | pop _ ih => exact ih.later rfl (Solver.later_pop ih.ready.wellFormed)
  | check engine _ ih => exact ih.later rfl (Solver.later_check engine ih.ready.wellFormed)

/-- The declared keys are the decisions about the mapping, and every step of generation succeeds with a term of the
solver. -/
structure Serves (g : Graph) (d : Design) (e : Encoder) (counts : List Count) : Prop where
  keys : ∀ k, k ∈ e.store.keys ↔ k.Concerns g d
  family : ∀ f : Family, ∃ formula e', (f.generate g d).run.run e = (.ok formula, e') ∧ formula.var < e'.solver.vars
  objective : ∀ o : Objective, ∃ defined count e', (o.encode g d).run.run e = (.ok (defined, count), e') ∧
    defined.var < e'.solver.vars
  window : ∀ count ∈ counts, ∀ lower upper, ∃ formula e',
    (Encoder.checked (count.window lower upper)).run.run e = (.ok formula, e') ∧ formula.var < e'.solver.vars

theorem Primed.serves (hd : d.WellWired) (hg : g.WellWired) (h : e.Primed (allKeys g d) counts) : Serves g d e counts where
  keys _ := h.ready.mem_keys_iff.trans mem_allKeys_iff
  family f := by
    obtain ⟨formula, e', hrun, -, hlt⟩ := h.generate hd hg f
    exact ⟨formula, e', hrun, hlt⟩
  objective o := by
    obtain ⟨⟨defined, count⟩, e', hrun, -, hdefines⟩ := o.encode_defines h.ready
    exact ⟨defined, count, e', hrun, hdefines.pinned.lt defined List.mem_cons_self⟩
  window count hcount lower upper := by
    obtain ⟨formula, e', hrun, -, hlt⟩ := h.window hcount lower upper
    exact ⟨formula, e', hrun, hlt⟩

end Encoder

/-- **Generation never fails.** For a built graph and a design every decision about mappings, and nothing else, is declared
once, as one variable of a new solver. From there on generating any family, any objective and any window of a count that
was built succeeds, whatever was generated, asserted, opened, closed and checked before. -/
theorem generation_succeeds {f : Fabric} {options : GraphOptions} {g : Graph} {operations : SortedMap String String}
    {ties : List NamedTie} {duplicates : SortedSet String} {d : Design} (hg : Graph.build f options = .ok g)
    (hd : Design.new operations ties duplicates = .ok d) :
    (∀ k, k ∈ allKeys g d ↔ k.Concerns g d) ∧ (allKeys g d).Nodup ∧
    (∃ e, (declareAll g d).run.run .new = (.ok (), e) ∧ e.store.keys.Perm (allKeys g d) ∧ e.store.anonymous = 0 ∧
      e.solver.vars = 1 + (allKeys g d).length ∧
      ∀ k ∈ allKeys g d, e.store.bit k = .ok ⟨1 + (allKeys g d).idxOf k, true⟩) ∧
    ∀ e counts, Encoder.Reached g d e counts → Encoder.Serves g d e counts := by
  have hwired := Graph.wellWired_build hg
  have hdwired := Design.wellWired_new hd
  have hnodup := allKeys_nodup hwired hdwired
  refine ⟨fun k => mem_allKeys_iff, hnodup, ?_, fun e counts h => (h.primed hdwired hwired).serves hdwired hwired⟩
  obtain ⟨e, hrun, -, hvars, hanonymous, hstore⟩ :=
    Encoder.declare_numbers (e := .new) Solver.wellFormed_new hnodup fun k _ => rfl
  have hprimed := (Encoder.Reached.declared hrun).primed hdwired hwired
  refine ⟨e, hrun, ?_, hanonymous, hvars, fun k hk => Encoder.bit_of_literal? ?_⟩
  · exact (List.perm_ext_iff_of_nodup Std.TreeMap.nodup_keys hnodup).mpr fun k => hprimed.ready.mem_keys_iff
  · unfold Encoder.literal?
    rw [hstore k, if_pos hk]
    rfl

/-- For the line the routing nodes are counted, and generation goes on with that count. -/
theorem line_generation_succeeds : ∃ (g : Graph) (d : Design), Graph.build .line {} = .ok g ∧
    Design.new (.ofList [("c", "const"), ("s", "store")]) [⟨"c", "s", 0⟩] ∅ = .ok d ∧
    ∃ e e' defined count, (declareAll g d).run.run .new = (.ok (), e) ∧
      (Objective.encode ⟨.routing, .bitHack⟩ g d).run.run e = (.ok (defined, count), e') ∧
      Encoder.Serves g d e' [count] := by
  obtain ⟨g, d, hg, hd⟩ := exists_line
  obtain ⟨-, -, ⟨e, hrun, -⟩, hserves⟩ := generation_succeeds hg hd
  have hdeclared := Encoder.Reached.declared hrun
  obtain ⟨defined, count, e', hrun', -⟩ := (hserves e [] hdeclared).objective ⟨.routing, .bitHack⟩
  exact ⟨g, d, hg, hd, e, e', defined, count, hrun, hrun', hserves e' [count] (hdeclared.objective _ hrun')⟩

end PlaceRoute
