import PlaceRoute.Proofs.Mapping.Window
import PlaceRoute.Proofs.Solver.Later
import PlaceRoute.Proofs.Solver.Run

/-!
# What the window of a count admits

A count that was encoded once can be bounded in every later solver. In all four encodings the defining formula asks nothing
of the counted terms, and together with the window it admits exactly the values under which the number of true terms lies in
the window (`Count.encode_window_admits`).
-/

namespace PlaceRoute

namespace Count

open PlaceRoute.Sat (Assignment Engine AgreeBelow)
open Solver (BoolTerm Env Command Run)

/-- How many terms are true. -/
def trueTerms (terms : List BoolTerm) (env : Env) : Nat := terms.countP (·.meaning env)

theorem count_bits_eq {r : Run} (hr : r.Sound) {terms : List BoolTerm} (hterms : ∀ p ∈ terms, p ∈ r.bools) {env : Env}
    {a : Assignment} (ha : r.solver.Respects a) (hagrees : r.free.Agrees env a) :
    (Word.bits a (terms.map (·.literal))).count true = trueTerms terms env := by
  have hvalues : Word.bits a (terms.map (·.literal)) = terms.map (·.meaning env) := by
    rw [Word.bits, List.map_map]
    exact List.map_congr_left fun p hp => (hr.bools p (hterms p hp)).eval ha hagrees
  rw [hvalues, List.count, List.countP_map, trueTerms]
  exact List.countP_congr fun p _ => by simp

/-- After any commands on a new solver some of its terms, in any number, are counted in some encoding. The count is made
without fail, and every assignment extends to the helper variables so that the defining formula holds. In every later
solver, and for all bounds, the window of the count is made without fail; where the defining formula holds, the window
says whether the number of true terms lies in it, and the two together admit the values of the free terms under which
it does, whatever the encoding. -/
theorem encode_window_admits (engine : Engine) (commands : List Command) (store : Store) (encoding : PopcountEncoding)
    (terms : List BoolTerm) (hterms : ∀ p ∈ terms, p ∈ (Run.new.steps engine commands).bools) :
    let r := Run.new.steps engine commands
    ∃ defined count e, (encode encoding (terms.map (·.literal))).run.run ⟨r.solver, store⟩ = (.ok (defined, count), e) ∧
      r.solver.Later e.solver ∧ defined.var < e.solver.vars ∧
      (∀ a, r.solver.Respects a →
        ∃ b, AgreeBelow r.solver.vars a b ∧ e.solver.Respects b ∧ defined.eval b = true) ∧
      ∀ later, e.solver.Later later → ∀ lower upper,
        ∃ window t, (count.window lower upper).run.run later = (.ok window, t) ∧
          (∀ env a, t.Respects a → r.free.Agrees env a → defined.eval a = true →
            (window.eval a = true ↔ lower ≤ trueTerms terms env ∧ trueTerms terms env < upper)) ∧
          ∀ env, (∃ a, t.Respects a ∧ r.free.Agrees env a ∧ defined.eval a = true ∧ window.eval a = true) ↔
            lower ≤ trueTerms terms env ∧ trueTerms terms env < upper := by
  intro r
  have hr : r.Sound := Run.sound_new.steps engine commands
  obtain ⟨retired, hrep⟩ := hr.represents
  have hlt : ∀ l ∈ terms.map (·.literal), l.var < r.solver.vars := by
    rw [List.forall_mem_map]
    exact fun p hp => (hr.bools p (hterms p hp)).lt
  obtain ⟨⟨defined, count⟩, e, hencode, hgrow, hdefines⟩ :=
    encode_defines (e := ⟨r.solver, store⟩) encoding hrep.wellFormed hlt
  have hextend : ∀ a, r.solver.Respects a →
      ∃ b, AgreeBelow r.solver.vars a b ∧ e.solver.Respects b ∧ defined.eval b = true := fun a ha => by
    obtain ⟨b, hab, hb, hd⟩ := hdefines.pinned.extend ha
    exact ⟨b, hab, hb, hd _ List.mem_cons_self⟩
  have hdlt : defined.var < e.solver.vars := hdefines.pinned.lt _ List.mem_cons_self
  refine ⟨defined, count, e, hencode, hgrow.solver.later, hdlt, hextend, fun later hlater lower upper => ?_⟩
  have hcount : ∀ l ∈ count.literals, l.var < later.vars := fun l hl =>
    Nat.lt_of_lt_of_le (hdefines.lt l hl) hlater.vars_le
  obtain ⟨hgrow', window, hwindow, -, hmeans⟩ := window_means count hlater.wellFormed hcount lower upper
  have hholds : ∀ env a, ((count.window lower upper).run.run later).2.Respects a → r.free.Agrees env a →
      defined.eval a = true →
      (window.eval a = true ↔ lower ≤ trueTerms terms env ∧ trueTerms terms env < upper) := by
    intro env a ha hagrees hd
    have hresp := hlater.respects (hgrow'.respects ha)
    rw [hmeans a _ ha (hdefines.is hresp hd), decide_eq_true_eq,
      count_bits_eq hr hterms (hgrow.solver.respects hresp) hagrees]
  refine ⟨window, _, Prod.ext hwindow rfl, hholds, fun env => ⟨?_, fun hcounted => ?_⟩⟩
  · rintro ⟨a, ha, hagrees, hd, hw⟩
    exact (hholds env a ha hagrees hd).mp hw
  · obtain ⟨a, ha, hagrees, -⟩ := hrep.extend env fun _ => true
    obtain ⟨b, hab, hb, hd⟩ := hextend a ha
    obtain ⟨c, hbc, hc⟩ := (hlater.trans hgrow'.later).extend hb
    have hac : AgreeBelow r.solver.vars a c := hab.trans (hbc.mono hgrow.solver.vars_le)
    have hagrees' := hagrees.congr hrep.bools_lt hrep.words_lt hac
    have hd' : defined.eval c = true := by
      rw [← hbc.eval hdlt]
      exact hd
    exact ⟨c, hc, hagrees', hd', (hholds env c hc hagrees' hd').mpr hcounted⟩

/-- Of two booleans and the negation of the first at least two are true exactly if the second boolean is, also after the
defining formula was asserted and a scope opened. -/
theorem two_of_three_admits :
    let r := Run.new.steps Sat.exhaustive [.freshBool, .freshBool, .negate 0]
    ∃ defined count e, (encode .bitHack (r.bools.map (·.literal))).run.run ⟨r.solver, default⟩ = (.ok (defined, count), e) ∧
      ∃ window t, (count.window 2 4).run.run (Solver.push.run ((Solver.assert defined).run e.solver).2).2 =
          (.ok window, t) ∧
        ∀ env, (∃ a, t.Respects a ∧ r.free.Agrees env a ∧ defined.eval a = true ∧ window.eval a = true) ↔
          env.bool 1 = true := by
  intro r
  obtain ⟨defined, count, e, hencode, hlater, hdlt, -, hwindow⟩ := encode_window_admits Sat.exhaustive
    [.freshBool, .freshBool, .negate 0] default .bitHack r.bools fun _ hp => hp
  have hasserted := Solver.later_assert hlater.wellFormed hdlt
  obtain ⟨window, t, hrun, -, hadmits⟩ := hwindow _ (hasserted.trans (Solver.later_push hasserted.wellFormed)) 2 4
  refine ⟨defined, count, e, hencode, window, t, hrun, fun env => (hadmits env).trans ?_⟩
  have hmeanings : r.bools.map (·.meaning env) = [env.bool 0, env.bool 1, !env.bool 0] := rfl
  have hcount : trueTerms r.bools env = [env.bool 0, env.bool 1, !env.bool 0].count true := by
    rw [← hmeanings, trueTerms, List.count, List.countP_map]
    exact List.countP_congr fun p _ => by simp
  rw [hcount]
  cases env.bool 0 <;> cases env.bool 1 <;> decide

end Count
end PlaceRoute
