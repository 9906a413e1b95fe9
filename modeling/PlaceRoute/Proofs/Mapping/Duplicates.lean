import PlaceRoute.Proofs.Design.Exact
import PlaceRoute.Proofs.Mapping.Accept
import PlaceRoute.Proofs.Mapping.Faithful
import PlaceRoute.Proofs.Session.Bounds

/-!
# Allowing copies

Which opcodes may be placed several times changes a design in the marks of its operations only (`Design.new_eq_mark`). More marks
never lose a mapping: decisions that satisfy every family still do (`Family.allHold_mark`), and a model that passes the check
passes it with the same solution (`Model.verify_mark`).

The source of a value may go from "every flow leaves where it is placed" to "the net does". The first gives the second, since
nets are flows and every value has a terminal (`Family.netsStartAtSources_mark`).
-/

namespace PlaceRoute

/-- The operation, which may be placed several times if its opcode is one of `duplicates`. -/
def Operation.mark (duplicates : SortedSet String) (op : Operation) : Operation :=
  { op with duplicate := op.opcode ∈ duplicates }

namespace Design

variable {g : Graph} {d : Design} {δ : Key → Bool} {few many duplicates : SortedSet String}
  {operations : SortedMap String String} {ties : List NamedTie}

/-- The design whose operations with an opcode of `duplicates` may be placed several times. -/
def mark (duplicates : SortedSet String) (d : Design) : Design :=
  ⟨d.operations.map (·.mark duplicates), d.values⟩

theorem op?_mark {i : OpId} : (d.mark duplicates).op? i = (d.op? i).map (·.mark duplicates) := List.getElem?_map

theorem allKeys_mark : allKeys g (d.mark duplicates) = allKeys g d := by
  unfold allKeys mark
  simp only [List.map_map]
  rfl

/-- The opcodes that may be placed several times decide the marks and nothing else. -/
theorem new_eq_mark : Design.new operations ties many = (Design.new operations ties few).map (Design.mark many) := by
  unfold Design.new
  cases ties.foldlM (Wiring.add operations.keys) ⟨∅, ∅⟩ with
  | error e => rfl
  | ok w =>
    simp only [ok_bind]
    show Except.ok _ = Except.ok _
    unfold mark
    simp only [List.map_map]
    rfl

/-- All operations that may be placed several times keep their mark. -/
def MarksWithin (d : Design) (duplicates : SortedSet String) : Prop :=
  ∀ op ∈ d.operations, op.duplicate = true → op.opcode ∈ duplicates

theorem marksWithin_new (hd : Design.new operations ties few = .ok d) (hsub : ∀ opcode ∈ few, opcode ∈ many) :
    d.MarksWithin many := fun _ hop hdup => hsub _ (((describes_new hd).duplicate hop).mp hdup)

end Design

/-! ## Decisions -/

namespace Family

variable {g : Graph} {d : Design} {δ : Key → Bool} {many : SortedSet String}

theorem opsPlaced_mark (hmarks : d.MarksWithin many) (h : OpsPlaced g d δ) : OpsPlaced g (d.mark many) δ := by
  refine List.forall_mem_map.mpr fun op hop => ?_
  have hplaced := h op hop
  show if decide (op.opcode ∈ many) = true then ∃ u ∈ g.units, δ (.place u op.id) = true
    else g.units.countP (fun u => δ (.place u op.id)) = 1
  by_cases hdup : op.duplicate = true
  · rw [if_pos hdup] at hplaced
    rwa [if_pos (decide_eq_true (hmarks op hop hdup))]
  · rw [if_neg hdup] at hplaced
    split
    · exact List.countP_pos_iff.mp (hplaced ▸ Nat.one_pos)
    · exact hplaced

/-- A net whose flows all leave the source where it is placed leaves it there itself: it has a terminal. -/
theorem netsStartAtSources_mark (hd : d.WellWired) (hg : g.WellWired) (hmarks : d.MarksWithin many)
    (hnets : NetsAreFlows g d δ) (h : NetsStartAtSources g d δ) : NetsStartAtSources g (d.mark many) δ := by
  intro u hu v hv src hsrc
  rw [Design.op?_mark] at hsrc
  obtain ⟨op, hop, rfl⟩ := Option.map_eq_some_iff.mp hsrc
  have hstart := h u hu v hv op hop
  show if supports g u op = true then
      if decide (op.opcode ∈ many) = true then δ (.route u v.id) = δ (.place u op.id)
      else ∀ t ∈ v.dsts, δ (.routeTo u v.id t) = δ (.place u op.id)
    else δ (.route u v.id) = false ∧ ∀ t ∈ v.dsts, δ (.routeTo u v.id t) = false
  by_cases hsup : supports g u op = true
  · rw [if_pos hsup] at hstart ⊢
    by_cases hdup : op.duplicate = true
    · rw [if_pos hdup] at hstart
      rwa [if_pos (decide_eq_true (hmarks op (List.mem_of_getElem? hop) hdup))]
    · rw [if_neg hdup] at hstart
      split
      · obtain ⟨t, ht⟩ := List.exists_mem_of_ne_nil _ (hd.dsts_ne_nil hv)
        have hnet := hnets u (hg.mem_ids.mpr (hg.has_of_unit hu)) v hv
        rw [Bool.eq_iff_iff, hnet]
        constructor
        · rintro ⟨t, ht, hflow⟩
          rwa [← hstart t ht]
        · intro hplace
          exact ⟨t, ht, (hstart t ht).trans hplace⟩
      · exact hstart
  · rwa [if_neg hsup] at hstart ⊢

/-- Decisions that satisfy every family do so when more opcodes may be placed several times. -/
theorem allHold_mark (hd : d.WellWired) (hg : g.WellWired) (hmarks : d.MarksWithin many) (h : AllHold g d δ) :
    AllHold g (d.mark many) δ := by
  intro f
  cases f with
  | opPlacement => exact opsPlaced_mark hmarks (h .opPlacement)
  | peExclusivity =>
    intro u hu
    show (d.operations.map (·.mark many)).countP _ ≤ 1
    rw [List.countP_map]
    exact h .peExclusivity u hu
  | peLegality => exact fun u hu => List.forall_mem_map.mpr fun op hop => h .peLegality u hu op hop
  | routeExclusivity => exact h .routeExclusivity
  | initValue => exact netsStartAtSources_mark hd hg hmarks (h .routingResourceUsage) (h .initValue)
  | portPlacement =>
    intro u hu n hn v t hflow dst hdst
    rw [Design.op?_mark] at hdst
    obtain ⟨op, hop, rfl⟩ := Option.map_eq_some_iff.mp hdst
    exact h .portPlacement u hu n hn v t hflow op hop
  | inputConnectivity => exact h .inputConnectivity
  | outputConnectivity => exact h .outputConnectivity
  | routingResourceUsage => exact h .routingResourceUsage

end Family

/-! ## Models that pass the check -/

namespace Model

variable {g : Graph} {d : Design} {m : Model} {many : SortedSet String}

theorem checkOperation_mark {op : Operation} (hmark : op.duplicate = true → op.opcode ∈ many)
    (h : m.checkOperation g op = .ok ()) : m.checkOperation g (op.mark many) = .ok () := by
  unfold checkOperation at h ⊢
  dsimp only at h ⊢
  split at h
  · cases h
  next hplaced =>
  split at h
  · cases h
  next honce =>
  have honce' : ¬((m.hosts g (op.mark many).id).length ≠ 1 ∧ (!(op.mark many).duplicate) = true) := by
    rintro ⟨hmany, hnot⟩
    refine honce ⟨hmany, ?_⟩
    rw [Bool.not_eq_true'] at hnot ⊢
    exact Bool.eq_false_iff.mpr fun hdup => of_decide_eq_false hnot (hmark hdup)
  rw [if_neg (c := (m.hosts g (op.mark many).id).isEmpty = true) hplaced, if_neg honce']
  exact h

theorem checkUnit_mark {u : NodeId} : m.checkUnit g (d.mark many) u = m.checkUnit g d u := by
  unfold checkUnit Design.mark
  simp only [List.filter_map, List.map_map]
  rfl

theorem checkPlacement_mark {placements : SortedMap OpId (List NodeId)} (hmarks : d.MarksWithin many)
    (h : m.checkPlacement g d = .ok placements) : m.checkPlacement g (d.mark many) = .ok placements := by
  unfold checkPlacement at h ⊢
  obtain ⟨⟨⟩, hops, h⟩ := bind_eq_ok h
  have hops' : (d.mark many).operations.forM (m.checkOperation g) = .ok () :=
    forM_eq_ok_iff.mpr (List.forall_mem_map.mpr fun op hop =>
      checkOperation_mark (hmarks op hop) (forM_eq_ok_iff.mp hops op hop))
  have hunits : m.checkUnit g (d.mark many) = m.checkUnit g d := funext fun _ => checkUnit_mark
  have hhosts : (d.mark many).operations.map (fun op => (op.id, m.hosts g op.id)) =
      d.operations.map fun op => (op.id, m.hosts g op.id) := List.map_map
  rw [hops', ok_bind, hunits, hhosts]
  exact h

/-- Paths are traced by numbers and told of by names. -/
theorem tracePaths_mark : m.tracePaths g (d.mark many) = m.tracePaths g d := by
  have hname (op : OpId) : (d.mark many).nameOf op = d.nameOf op := by
    unfold Design.nameOf
    rw [Design.op?_mark, Option.map_map]
    rfl
  have htext (t : Terminal) : (d.mark many).terminalText t = d.terminalText t := by
    unfold Design.terminalText
    rw [hname]
  have hwalk (v : ValueId) (t : Terminal) (targets : List NodeId) (fuel : Nat) (n : NodeId) :
      m.walk g (d.mark many) v t targets fuel n = m.walk g d v t targets fuel n := by
    induction fuel generalizing n with
    | zero => simp only [walk, htext]
    | succ fuel ih => simp only [walk, htext, ih]
  unfold tracePaths traceFlow
  simp only [htext, hwalk]
  rfl

/-- A model that passes the check does so, with the same solution, when more opcodes may be placed several times. -/
theorem verify_mark {s : Solution} (hmarks : d.MarksWithin many) (h : m.verify g d = .ok s) :
    m.verify g (d.mark many) = .ok s := by
  obtain ⟨hplacement, hnodes, hpaths⟩ := verify_eq_ok h
  have hnodes' : m.checkNodes g (d.mark many) = .ok s.nets := hnodes
  unfold verify
  rw [checkPlacement_mark hmarks hplacement, hnodes', tracePaths_mark, hpaths]
  rfl

end Model

/-- **More copies never lose a mapping.** Whatever opcodes may be placed several times, the same operations and ties make a
design, or fail alike, and the designs differ in these marks only. If more opcodes may be, assignments that satisfy all
nine families still do, and models that pass the check still pass it, with the same solution. -/
theorem mappings_mono {f : Fabric} {options : GraphOptions} {g : Graph} {operations : SortedMap String String}
    {ties : List NamedTie} {few many : SortedSet String} (hg : Graph.build f options = .ok g)
    (hsub : ∀ opcode ∈ few, opcode ∈ many) :
    Design.new operations ties many = (Design.new operations ties few).map (Design.mark many) ∧
    ∀ d, Design.new operations ties few = .ok d →
      (∀ engine : Sat.Engine, ∃ e e',
        (do
          declareAll g d
          Session.generate ⟨g, d, engine⟩ Family.all : EncodeM Unit).run.run .new = (.ok (), e) ∧
        (do
          declareAll g (d.mark many)
          Session.generate ⟨g, d.mark many, engine⟩ Family.all : EncodeM Unit).run.run .new = (.ok (), e') ∧
        allKeys g (d.mark many) = allKeys g d ∧
        ∀ δ, e.Extends (allKeys g d) δ → e'.Extends (allKeys g d) δ) ∧
      ∀ m s, Model.verify g d m = .ok s → Model.verify g (d.mark many) m = .ok s := by
  refine ⟨Design.new_eq_mark, fun d hd => ⟨fun engine => ?_, fun m s => Model.verify_mark (Design.marksWithin_new hd hsub)⟩⟩
  have hmarked : Design.new operations ties many = .ok (d.mark many) := by
    rw [Design.new_eq_mark, hd]
    rfl
  have hwired := Graph.wellWired_build hg
  obtain ⟨e, hrun, h⟩ := encode_models (p := ⟨g, d, engine⟩) hwired (Design.wellWired_new hd) Family.all
  obtain ⟨e', hrun', h'⟩ := encode_models (p := ⟨g, d.mark many, engine⟩) hwired (Design.wellWired_new hmarked) Family.all
  refine ⟨e, e', hrun, hrun', Design.allKeys_mark, fun δ hδ => ?_⟩
  have hall := (Family.forall_mem_iff_allHold Family.mem_all).mp (h.extends_iff.mp hδ)
  have hall' := Family.allHold_mark (Design.wellWired_new hd) hwired (Design.marksWithin_new hd hsub) hall
  exact Design.allKeys_mark ▸ h'.extends_iff.mpr ((Family.forall_mem_iff_allHold Family.mem_all).mpr hall')

/-- The line is mapped as before when its constant may be placed several times. -/
theorem line_mappings_mono : ∃ (g : Graph) (d : Design) (s : Solution), Graph.build .line {} = .ok g ∧
    (∀ opcode ∈ (∅ : SortedSet String), opcode ∈ SortedSet.ofList ["const"]) ∧
    Design.new (.ofList [("c", "const"), ("s", "store")]) [⟨"c", "s", 0⟩] ∅ = .ok d ∧ Model.line.verify g d = .ok s ∧
    Design.new (.ofList [("c", "const"), ("s", "store")]) [⟨"c", "s", 0⟩] (.ofList ["const"]) =
      .ok (d.mark (.ofList ["const"])) ∧
    Model.line.verify g (d.mark (.ofList ["const"])) = .ok s := by
  obtain ⟨g, d, hg, hd⟩ := exists_line
  obtain ⟨s, hs⟩ := line_verify hg hd (line_isMapping hg hd)
  have hsub : ∀ opcode ∈ (∅ : SortedSet String), opcode ∈ SortedSet.ofList ["const"] := by decide
  obtain ⟨hnew, hmono⟩ := @mappings_mono _ _ _ (.ofList [("c", "const"), ("s", "store")]) [⟨"c", "s", 0⟩] _ _ hg hsub
  exact ⟨g, d, s, hg, hsub, hd, hs, by rw [hnew, hd]; rfl, (hmono d hd).2 _ s hs⟩

end PlaceRoute
