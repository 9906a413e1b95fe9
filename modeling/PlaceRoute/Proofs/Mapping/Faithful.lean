import PlaceRoute.Proofs.Graph.Build
import PlaceRoute.Proofs.Mapping.Models
import PlaceRoute.Sat.Exhaustive

/-!
# The encoding is faithful

Decisions about mapping a design onto a built graph extend to an assignment that satisfies the asserted families exactly if
they satisfy what each family asks (`decisions_extend_iff`), whatever the families, their order and their number.
-/

namespace PlaceRoute

namespace Encoder

variable {e : Encoder} {keys : List Key} {P : (Key → Bool) → Prop} {δ : Key → Bool}

/-- Decisions extend to an assignment of helper words and gates that satisfies all clauses. -/
def Extends (e : Encoder) (keys : List Key) (δ : Key → Bool) : Prop :=
  ∃ a, e.solver.Holds a ∧ ∀ k ∈ keys, ∃ l, e.store.bit k = .ok l ∧ l.eval a = δ k

theorem Models.extends_iff (h : e.Models keys P) : e.Extends keys δ ↔ P δ := by
  constructor
  · rintro ⟨a, ha, hbits⟩
    exact h.ready.read_eq_iff.mpr hbits ▸ h.sound ha
  · intro hp
    obtain ⟨a, ha, hread⟩ := h.complete hp
    exact ⟨a, ha, h.ready.read_eq_iff.mp hread⟩

end Encoder

/-- Families asserted on the declared decisions of a built graph and a design hold, with helper words and gates chosen
suitably, exactly for the decisions that satisfy each family. -/
theorem decisions_extend_iff {f : Fabric} {options : GraphOptions} {p : Problem} {operations : SortedMap String String}
    {ties : List NamedTie} {duplicates : SortedSet String} (hg : Graph.build f options = .ok p.graph)
    (hd : Design.new operations ties duplicates = .ok p.design) (families : List Family) :
    ∃ e, (do
      declareAll p.graph p.design
      Session.generate p families : EncodeM Unit).run.run .new = (.ok (), e) ∧
      ∀ δ, e.Extends (allKeys p.graph p.design) δ ↔ ∀ family ∈ families, family.Holds p.graph p.design δ := by
  obtain ⟨e, hrun, h⟩ := encode_models (Graph.wellWired_build hg) (Design.wellWired_new hd) families
  exact ⟨e, hrun, fun δ => h.extends_iff⟩

/-- A source of constants that drives a sink through its operand port. -/
def Fabric.line : Fabric where
  blocks := [{
    location := ⟨0, 0⟩
    instances := [⟨"source", .functionalUnit, [], ["out"], SortedSet.ofList ["const"]⟩,
      ⟨"sink", .functionalUnit, ["a"], [], SortedSet.ofList ["store"]⟩]
    muxes := []
    operandPorts := [⟨"port", "in", "out", 0⟩] }]
  ties := [⟨⟨⟨0, 0⟩, "source", "out"⟩, ⟨0, 0⟩, "port", "in"⟩, ⟨⟨⟨0, 0⟩, "port", "out"⟩, ⟨0, 0⟩, "sink", "a"⟩]

/-- Its graph, and a design of one value. -/
theorem exists_line : ∃ (g : Graph) (d : Design), Graph.build .line {} = .ok g ∧
    Design.new (.ofList [("c", "const"), ("s", "store")]) [⟨"c", "s", 0⟩] ∅ = .ok d := ⟨_, _, rfl, rfl⟩

theorem line_decisions_extend_iff : ∃ p : Problem, Graph.build .line {} = .ok p.graph ∧
    Design.new (.ofList [("c", "const"), ("s", "store")]) [⟨"c", "s", 0⟩] ∅ = .ok p.design ∧
    ∃ e, (do
      declareAll p.graph p.design
      Session.generate p [.portPlacement, .opPlacement, .portPlacement] : EncodeM Unit).run.run .new = (.ok (), e) ∧
      ∀ δ, e.Extends (allKeys p.graph p.design) δ ↔
        ∀ family ∈ [Family.portPlacement, .opPlacement, .portPlacement], family.Holds p.graph p.design δ := by
  obtain ⟨g, d, hg, hd⟩ := exists_line
  exact ⟨⟨g, d, Sat.exhaustive⟩, hg, hd, decisions_extend_iff (p := ⟨g, d, Sat.exhaustive⟩) hg hd _⟩

end PlaceRoute
