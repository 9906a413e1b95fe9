import PlaceRoute.Proofs.Graph.Build

/-!
# Edges with tie nodes on them

`Draft.Splits base d cut` says that `d` is `base` with tie nodes on the edges of `cut`, which join muxes. Putting a tie on one
more edge adds it to the list (`Splits.splitWithTie`), so both ways to break cycles split the draft that they start from
(`exists_splits_of_breakCycles`): one at edges that walks find, the other at all edges between muxes (`splits_of_allMuxEdges`).
-/

namespace PlaceRoute
namespace Graph

/-! ## Walks over edges -/

section
variable {next : NodeId → List Edge} {P : NodeId → Prop} {Q : Edge → Prop}

/-- A walk finds edges only that lead away from nodes that it can reach. -/
theorem forall_back_explore (hnext : ∀ n e, P n → e ∈ next n → P e.dst ∧ Q e) {fuel : Nat} {path : List NodeId} {n : NodeId}
    {w : Walk} (hn : P n) (hw : ∀ e ∈ w.back, Q e) : ∀ e ∈ (w.explore next fuel path n).back, Q e := by
  induction fuel generalizing path n w with
  | zero => exact hw
  | succ fuel ih =>
    unfold Walk.explore
    dsimp only
    refine List.foldlRecOn (motive := fun w : Walk => ∀ e ∈ w.back, Q e) (next n) _ hw fun w hw e he => ?_
    obtain ⟨hdst, hq⟩ := hnext n e hn he
    split
    · exact List.forall_mem_cons.mpr ⟨hq, hw⟩
    split
    · exact hw
    · exact ih hdst hw

theorem forall_mem_backEdges (hnext : ∀ n e, P n → e ∈ next n → P e.dst ∧ Q e) {roots : List NodeId}
    (hroots : ∀ n ∈ roots, P n) : ∀ e ∈ backEdges next roots, Q e := by
  intro e he
  unfold backEdges at he
  refine List.foldlRecOn (motive := fun w : Walk => ∀ e ∈ w.back, Q e) roots _ (List.forall_mem_nil Q)
    (fun w hw n hn => ?_) e (List.mem_reverse.mp he)
  split
  · exact hw
  · exact forall_back_explore hnext (hroots n hn) hw

end

namespace Draft

/-- The edge into the tie node on an edge. -/
def toTie (e : Edge) (tie : NodeId) : Edge := ⟨e.src, e.srcPort, tie, e.dstPort⟩

/-- The edge out of the tie node on an edge. -/
def fromTie (e : Edge) (tie : NodeId) : Edge := ⟨tie, tieOutput e, e.dst, e.dstPort⟩

variable {base d d' : Draft} {cut edges : List Edge} {e x : Edge} {i : Nat}

theorem kind?_lt {kind : NodeKind} (h : d.kind? i = some kind) : i < d.slots.size := by
  obtain ⟨n, hn, -⟩ := Option.map_eq_some_iff.mp h
  exact node?_lt hn

/-- Nodes keep their kinds when an edge to a node other than a unit is added. -/
theorem kind?_wire_of_ne (hd : d.Sound) (h : d.wire e = .ok d')
    (hdst : ∀ ops operands, d.kind? e.dst ≠ some (.functionalUnit ops operands)) : d'.kind? i = d.kind? i := by
  rcases kind?_wire hd h with ⟨ops, operands, operand, hunit, -⟩ | ⟨-, hkind⟩
  · exact absurd hunit (hdst ops operands)
  · exact hkind i

/-- The draft after a tie was put on an edge to a mux. -/
theorem splitWithTie_eq_ok (hd : d.Sound) (h : d.splitWithTie e = .ok d') (hdst : d.kind? e.dst = some .mux) :
    d.Has e ∧ d'.slots.size = d.slots.size + 1 ∧
    (∀ i : Nat, d'.kind? i = if i = d.slots.size then some .tie else d.kind? i) ∧
    ∀ x, d'.Has x ↔ d.Has x ∧ x ≠ e ∨ x = toTie e d.slots.size ∨ x = fromTie e d.slots.size := by
  unfold Draft.splitWithTie at h
  obtain ⟨d₁, h₁, h⟩ := bind_eq_ok h
  obtain ⟨src, hsrc, h⟩ := bind_eq_ok h
  obtain ⟨dst, hdst', h⟩ := bind_eq_ok h
  obtain ⟨d₃, h₃, h⟩ := bind_eq_ok h
  have hd₁ := hd.unwire h₁
  have hsize₁ := size_unwire h₁
  have hd₂ : (d₁.addNode (tieName src dst e) src.context .tie [e.dstPort] [tieOutput e]).2.Sound := hd₁.addNode nofun
  have hkind₂ (i : Nat) : (d₁.addNode (tieName src dst e) src.context .tie [e.dstPort] [tieOutput e]).2.kind? i =
      if i = d.slots.size then some .tie else d.kind? i := by
    have hkind₁ : d₁.kind? i = d.kind? i := by
      rw [kind?_unwire hd h₁]
      split
      · next hi => rw [hi, hdst]; rfl
      · rfl
    rw [kind?_addNode, hkind₁, hsize₁]
  have hd₃ := hd₂.wire h₃
  have hkind₃ (i : Nat) : d₃.kind? i = if i = d.slots.size then some .tie else d.kind? i := by
    rw [kind?_wire_of_ne hd₂ h₃ fun ops operands heq => ?_, hkind₂]
    rw [hkind₂] at heq
    dsimp only at heq
    rw [if_pos hsize₁] at heq
    cases heq
  have hlast : e.dst ≠ d.slots.size := Nat.ne_of_lt (kind?_lt hdst)
  have hkind₄ (i : Nat) : d'.kind? i = if i = d.slots.size then some .tie else d.kind? i := by
    rw [kind?_wire_of_ne hd₃ h fun ops operands heq => ?_, hkind₃]
    rw [hkind₃, if_neg hlast, hdst] at heq
    cases heq
  refine ⟨(unwire_eq_ok hd h₁).1, ?_, hkind₄, fun x => ?_⟩
  · rw [size_wire h, size_wire h₃, ← hsize₁]
    exact Array.size_push ..
  · rw [has_wire hd₃ h, has_wire hd₂ h₃, has_addNode, has_unwire hd h₁, ← hsize₁]
    show x = fromTie e d₁.slots.size ∨ x = toTie e d₁.slots.size ∨ d.Has x ∧ x ≠ e ↔ _
    rw [or_left_comm, or_comm, or_assoc, or_comm, or_assoc]

/-! ## Edges between muxes -/

theorem isMux_iff {n : Node} : n.isMux = true ↔ n.kind = .mux := by
  unfold Node.isMux
  cases n.kind <;> simp

theorem any_isMux_iff : (d.node? i).any (·.isMux) = true ↔ d.kind? i = some .mux := by
  unfold kind?
  rw [Option.any_eq_true, Option.map_eq_some_iff]
  exact exists_congr fun n => and_congr_right fun _ => isMux_iff

theorem mem_muxEdges (hd : d.Sound) : e ∈ muxEdges d.node? i ↔ d.Has e ∧ e.src = i ∧ d.kind? e.dst = some .mux := by
  unfold muxEdges
  rw [List.mem_filter, any_isMux_iff]
  cases hi : d.node? i with
  | none =>
    refine iff_of_false (fun h => List.not_mem_nil h.1) ?_
    rintro ⟨he, rfl, -⟩
    obtain ⟨⟨n, hn⟩, -⟩ := hd.ends he
    rw [hi] at hn
    cases hn
  | some n => rw [Option.map_some, Option.getD_some, hd.mem_outgoing hi, and_assoc]

theorem mem_filter_isMux (hd : d.Sound) : (∃ n ∈ d.nodes.filter (·.isMux), n.id = i) ↔ d.kind? i = some .mux := by
  constructor
  · rintro ⟨n, hn, rfl⟩
    obtain ⟨hn, hmux⟩ := List.mem_filter.mp hn
    rw [kind?_of_node? ((mem_nodes hd).mp hn), isMux_iff.mp hmux]
  · intro h
    obtain ⟨n, hn, hmux⟩ := Option.map_eq_some_iff.mp h
    exact ⟨n, List.mem_filter.mpr ⟨(mem_nodes hd).mpr (hd.id hn ▸ hn), isMux_iff.mpr hmux⟩, hd.id hn⟩

/-- Both ends of an edge are muxes. -/
def JoinsMuxes (d : Draft) (e : Edge) : Prop := d.Has e ∧ d.kind? e.src = some .mux ∧ d.kind? e.dst = some .mux

theorem mem_allMuxEdges (hd : d.Sound) : e ∈ d.allMuxEdges ↔ d.JoinsMuxes e := by
  unfold allMuxEdges
  rw [List.mem_flatMap]
  constructor
  · rintro ⟨n, hn, he⟩
    obtain ⟨hhas, hsrc, hdst⟩ := (mem_muxEdges hd).mp he
    exact ⟨hhas, (mem_filter_isMux hd).mp ⟨n, hn, hsrc.symm⟩, hdst⟩
  · rintro ⟨hhas, hsrc, hdst⟩
    obtain ⟨n, hn, hid⟩ := (mem_filter_isMux hd).mpr hsrc
    exact ⟨n, hn, (mem_muxEdges hd).mpr ⟨hhas, hid.symm, hdst⟩⟩

/-- The edges that are found to close a cycle join muxes. -/
theorem joinsMuxes_of_mem_muxBackEdges (hd : d.Sound) (he : e ∈ muxBackEdges d.node? d.ids) : d.JoinsMuxes e := by
  refine forall_mem_backEdges (P := fun n => d.kind? n = some .mux) (fun n e hn he => ?_) (fun n hn => ?_) e he
  · obtain ⟨hhas, rfl, hdst⟩ := (mem_muxEdges hd).mp he
    exact ⟨hdst, hhas, hn, hdst⟩
  · exact any_isMux_iff.mp (List.mem_filter.mp hn).2

/-! ## Splits -/

/-- The draft `d` is `base` with tie nodes on the edges of `cut`, in their order. -/
structure Splits (base d : Draft) (cut : List Edge) : Prop where
  size : d.slots.size = base.slots.size + cut.length
  old : ∀ i : Nat, i < base.slots.size → d.kind? i = base.kind? i
  tie : ∀ j < cut.length, d.kind? (base.slots.size + j) = some .tie
  has : ∀ {x : Edge}, d.Has x ↔ base.Has x ∧ x ∉ cut ∨ ∃ j e, cut[j]? = some e ∧
    (x = toTie e (base.slots.size + j) ∨ x = fromTie e (base.slots.size + j))
  joins : ∀ e ∈ cut, base.JoinsMuxes e
  nodup : cut.Nodup

namespace Splits

theorem refl (base : Draft) : base.Splits base [] where
  size := rfl
  old _ _ := rfl
  tie _ h := absurd h (Nat.not_lt_zero _)
  has := by simp
  joins := by simp
  nodup := List.nodup_nil

/-- A mux of a split draft is a mux that was there before. -/
theorem kind?_mux (hs : base.Splits d cut) : d.kind? i = some .mux ↔ base.kind? i = some .mux := by
  constructor
  · intro h
    by_cases hi : i < base.slots.size
    · rw [← hs.old i hi, h]
    · have hlt := kind?_lt h
      rw [hs.size] at hlt
      have htie := hs.tie (i - base.slots.size) (by omega)
      rw [Nat.add_sub_cancel' (Nat.le_of_not_lt hi), h] at htie
      cases htie
  · intro h
    rw [hs.old i (kind?_lt h), h]

/-- An edge between muxes of a split draft was there before, and is not split. -/
theorem has_of_mux (hs : base.Splits d cut) (he : d.Has e) (hsrc : base.kind? e.src = some .mux)
    (hdst : base.kind? e.dst = some .mux) : base.Has e ∧ e ∉ cut := by
  rcases hs.has.mp he with he | ⟨j, x, -, rfl | rfl⟩
  · exact he
  · have hlt : base.slots.size + j < base.slots.size := kind?_lt hdst
    omega
  · have hlt : base.slots.size + j < base.slots.size := kind?_lt hsrc
    omega

/-- Splitting edges between muxes leaves the others. -/
theorem joinsMuxes_iff (hs : base.Splits d cut) : d.JoinsMuxes e ↔ base.JoinsMuxes e ∧ e ∉ cut := by
  unfold JoinsMuxes
  rw [hs.kind?_mux, hs.kind?_mux]
  constructor
  · rintro ⟨he, hsrc, hdst⟩
    obtain ⟨he, hcut⟩ := hs.has_of_mux he hsrc hdst
    exact ⟨⟨he, hsrc, hdst⟩, hcut⟩
  · rintro ⟨⟨he, hmux⟩, hcut⟩
    exact ⟨hs.has.mpr (Or.inl ⟨he, hcut⟩), hmux⟩

/-- Putting a tie on one more edge between muxes. -/
theorem splitWithTie (hs : base.Splits d cut) (hd : d.Sound) (h : d.splitWithTie e = .ok d')
    (hsrc : base.kind? e.src = some .mux) (hdst : base.kind? e.dst = some .mux) : base.Splits d' (cut ++ [e]) := by
  obtain ⟨he, hsize, hkind, hhas⟩ := splitWithTie_eq_ok hd h (hs.kind?_mux.mpr hdst)
  obtain ⟨hbase, hnot⟩ := hs.has_of_mux he hsrc hdst
  refine ⟨?_, fun i hi => ?_, fun j hj => ?_, fun {x} => ?_, ?_, ?_⟩
  · rw [hsize, hs.size, List.length_append, List.length_singleton, Nat.add_assoc]
  · rw [hkind, if_neg (by rw [hs.size]; omega), hs.old i hi]
  · rw [List.length_append, List.length_singleton] at hj
    rw [hkind, hs.size]
    split
    · rfl
    · exact hs.tie j (by omega)
  · -- The ends of `e` are older than all ties.
    have htie {j : Nat} {y : Edge} (h : x = toTie y (base.slots.size + j) ∨ x = fromTie y (base.slots.size + j)) : x ≠ e := by
      intro hxe
      rcases h with h | h
      · exact Nat.ne_of_lt (Nat.lt_add_right j (kind?_lt hdst)) (congrArg Edge.dst (hxe.symm.trans h))
      · exact Nat.ne_of_lt (Nat.lt_add_right j (kind?_lt hsrc)) (congrArg Edge.src (hxe.symm.trans h))
    rw [hhas, hs.has, hs.size, List.mem_append, List.mem_singleton, not_or]
    constructor
    · rintro (⟨⟨hx, hcut⟩ | ⟨j, y, hj, hxy⟩, hne⟩ | hxy)
      · exact Or.inl ⟨hx, hcut, hne⟩
      · exact Or.inr ⟨j, y, getElem?_concat_eq_some_iff.mpr (Or.inl hj), hxy⟩
      · exact Or.inr ⟨cut.length, e, getElem?_concat_eq_some_iff.mpr (Or.inr ⟨rfl, rfl⟩), hxy⟩
    · rintro (⟨hx, hcut, hne⟩ | ⟨j, y, hj, hxy⟩)
      · exact Or.inl ⟨Or.inl ⟨hx, hcut⟩, hne⟩
      · rcases getElem?_concat_eq_some_iff.mp hj with hj | ⟨rfl, rfl⟩
        · exact Or.inl ⟨Or.inr ⟨j, y, hj, hxy⟩, htie hxy⟩
        · exact Or.inr hxy
  · rw [List.forall_mem_append, List.forall_mem_singleton]
    exact ⟨hs.joins, hbase, hsrc, hdst⟩
  · exact List.nodup_append.mpr ⟨hs.nodup, List.nodup_singleton e, fun x hx y hy hxy =>
      hnot (List.mem_singleton.mp hy ▸ hxy ▸ hx)⟩

/-- Putting ties on edges between muxes, one after the other. -/
theorem foldlM (hs : base.Splits d cut) (hd : d.Sound)
    (hmux : ∀ e ∈ edges, base.kind? e.src = some .mux ∧ base.kind? e.dst = some .mux)
    (h : edges.foldlM Draft.splitWithTie d = .ok d') : d'.Sound ∧ base.Splits d' (cut ++ edges) := by
  induction edges generalizing d cut with
  | nil =>
    cases h
    exact ⟨hd, (List.append_nil cut).symm ▸ hs⟩
  | cons e edges ih =>
    obtain ⟨⟨hsrc, hdst⟩, hmux⟩ := List.forall_mem_cons.mp hmux
    rw [List.foldlM_cons] at h
    obtain ⟨d₁, h₁, h⟩ := bind_eq_ok h
    obtain ⟨hd', hs'⟩ := ih (hs.splitWithTie hd h₁ hsrc hdst) (hd.splitWithTie h₁) hmux h
    rw [List.append_assoc] at hs'
    exact ⟨hd', hs'⟩

end Splits

/-! ## Both ways to break cycles -/

section
variable {P : Draft → Prop} (hsplit : ∀ {e : Edge} {d d' : Draft}, P d → d.Sound → d.kind? e.src = some .mux →
  d.kind? e.dst = some .mux → d.splitWithTie e = .ok d' → P d')
include hsplit

/-- What putting ties on edges between muxes keeps. Muxes stay muxes, so the edges that are left still join muxes. -/
theorem splitWithTies_induction (hd : d.Sound) (hP : P d)
    (hmux : ∀ e ∈ edges, d.kind? e.src = some .mux ∧ d.kind? e.dst = some .mux)
    (h : edges.foldlM Draft.splitWithTie d = .ok d') : d'.Sound ∧ P d' := by
  induction edges generalizing d with
  | nil =>
    cases h
    exact ⟨hd, hP⟩
  | cons e edges ih =>
    obtain ⟨⟨hsrc, hdst⟩, hmux⟩ := List.forall_mem_cons.mp hmux
    rw [List.foldlM_cons] at h
    obtain ⟨d₁, h₁, h⟩ := bind_eq_ok h
    obtain ⟨-, -, hkind, -⟩ := splitWithTie_eq_ok hd h₁ hdst
    have hstays {i : NodeId} (hi : d.kind? i = some .mux) : d₁.kind? i = some .mux := by
      rw [hkind, if_neg (Nat.ne_of_lt (kind?_lt hi)), hi]
    exact ih (hd.splitWithTie h₁) (hsplit hP hd hsrc hdst h₁) (fun x hx => (hmux x hx).imp hstays hstays) h

/-- What breaking cycles keeps, which splits no edges but those between muxes. -/
theorem breakCycles_joined_induction {policy : CycleBreak} (hd : d.Sound) (hP : P d) (h : d.breakCycles policy = .ok d') :
    P d' := by
  have hrounds {fuel : Nat} {d : Draft} (hd : d.Sound) (hP : P d) (h : d.breakBackEdges fuel = .ok d') : P d' := by
    induction fuel generalizing d with
    | zero =>
      cases h
      exact hP
    | succ fuel ih =>
      unfold Draft.breakBackEdges at h
      dsimp only at h
      split at h
      · cases h
        exact hP
      · obtain ⟨d₁, h₁, h⟩ := bind_eq_ok h
        obtain ⟨hd₁, hP₁⟩ := splitWithTies_induction hsplit hd hP (fun e he => (joinsMuxes_of_mem_muxBackEdges hd he).2) h₁
        exact ih hd₁ hP₁ h
  cases policy with
  | backEdges => exact hrounds hd hP h
  | allMuxEdges => exact (splitWithTies_induction hsplit hd hP (fun _ he => ((mem_allMuxEdges hd).mp he).2) h).2
  | none =>
    cases h
    exact hP

end

/-- Every policy splits some edges between muxes. -/
theorem exists_splits_of_breakCycles {policy : CycleBreak} (hd : d.Sound) (h : d.breakCycles policy = .ok d') :
    ∃ cut, d.Splits d' cut :=
  breakCycles_joined_induction (P := fun d' => ∃ cut, d.Splits d' cut)
    (fun ⟨_, hs⟩ hd hsrc hdst h => ⟨_, hs.splitWithTie hd h (hs.kind?_mux.mp hsrc) (hs.kind?_mux.mp hdst)⟩) hd ⟨[], .refl d⟩ h

/-- Splitting all edges between muxes. -/
theorem splits_of_allMuxEdges (hd : d.Sound) (h : d.breakCycles .allMuxEdges = .ok d') : d.Splits d' d.allMuxEdges :=
  ((Splits.refl d).foldlM hd (fun _ he => ((mem_allMuxEdges hd).mp he).2) h).2

end Draft
end Graph
end PlaceRoute
