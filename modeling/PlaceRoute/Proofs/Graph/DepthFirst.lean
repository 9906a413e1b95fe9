import Mathlib.Data.List.Nodup
import Mathlib.Data.List.Perm.Subperm
import PlaceRoute.Graph.Cycle

/-!
# Depth-first walks find cycles

The edges that depth-first walks from all roots find cut all cycles, and each lies on one (`CutsCycles`, `cutsCycles_backEdges`).
While a walk is under way, two things are kept (`Walk.Exact`): every edge of a node that was left was found or leads to a node
that was left before (`Exhausted`), and every edge that was found lies on a cycle. The nodes on the way are a trail to the node
at hand, so an edge back to one of them closes a cycle; they are different roots, so the fuel lasts.
-/

namespace PlaceRoute
namespace Graph

/-! ## Trails and cycles -/

/-- A trail of edges from one node to another. -/
inductive Trail (P : Edge → Prop) : NodeId → NodeId → List Edge → Prop
  | nil (i : NodeId) : Trail P i i []
  | cons {e : Edge} {j : NodeId} {es : List Edge} : P e → Trail P e.dst j es → Trail P e.src j (e :: es)

/-- A trail that has edges and comes back to where it starts. -/
def Cycle (P : Edge → Prop) (es : List Edge) : Prop := es ≠ [] ∧ ∃ i, Trail P i i es

section
variable {P Q : Edge → Prop} {i j k : NodeId} {e : Edge} {es xs : List Edge}

theorem Trail.append (h : Trail P i j es) (h' : Trail P j k xs) : Trail P i k (es ++ xs) := by
  induction h with
  | nil => exact h'
  | cons he _ ih => exact .cons he (ih h')

theorem Trail.mono (hPQ : ∀ e, P e → Q e) (h : Trail P i j es) : Trail Q i j es := by
  induction h with
  | nil i => exact .nil i
  | cons he _ ih => exact .cons (hPQ _ he) ih

/-- A trail over edges that stand for others gives a trail of these. -/
theorem Trail.transport {R : NodeId → NodeId → Prop} (hR : ∀ {i k k'}, R i k → R i k' → k = k')
    (hstep : ∀ e, P e → ∃ x, Q x ∧ R e.src x.src ∧ R e.dst x.dst) (h : Trail P i j es) (hi : R i k) :
    ∃ k' xs, R j k' ∧ Trail Q k k' xs ∧ xs.length = es.length := by
  induction h generalizing k with
  | nil i => exact ⟨k, [], hi, .nil k, rfl⟩
  | cons he _ ih =>
    obtain ⟨x, hx, hsrc, hdst⟩ := hstep _ he
    obtain ⟨k', xs, hj, hxs, hlen⟩ := ih hdst
    obtain rfl := hR hi hsrc
    exact ⟨k', x :: xs, hj, .cons hx hxs, congrArg Nat.succ hlen⟩

theorem Cycle.mono (hPQ : ∀ e, P e → Q e) (h : Cycle P es) : Cycle Q es := by
  obtain ⟨hne, i, hes⟩ := h
  exact ⟨hne, i, hes.mono hPQ⟩

/-- The first edge of a cycle. -/
theorem Cycle.exists_edge (h : Cycle P es) : ∃ e, P e := by
  obtain ⟨hne, i, hes⟩ := h
  cases hes with
  | nil => exact absurd rfl hne
  | cons he _ => exact ⟨_, he⟩

/-- The edges of `back` lie on cycles, and without them there is no cycle. -/
structure CutsCycles (P : Edge → Prop) (back : List Edge) : Prop where
  nil_iff : back = [] ↔ ∀ es, ¬ Cycle P es
  onCycle : ∀ e ∈ back, ∃ es, Cycle P es ∧ e ∈ es
  acyclic : ∀ es, ¬ Cycle (fun e => P e ∧ e ∉ back) es

/-- There is a cycle exactly if there are edges to cut. -/
theorem CutsCycles.of_acyclic {back : List Edge} (honCycle : ∀ e ∈ back, ∃ es, Cycle P es ∧ e ∈ es)
    (hacyclic : ∀ es, ¬ Cycle (fun e => P e ∧ e ∉ back) es) : CutsCycles P back := by
  refine ⟨⟨?_, ?_⟩, honCycle, hacyclic⟩
  · rintro rfl es hes
    refine hacyclic es (hes.mono ?_)
    intro e he
    exact ⟨he, List.not_mem_nil⟩
  · intro hnone
    refine List.eq_nil_iff_forall_not_mem.mpr ?_
    intro e he
    obtain ⟨es, hes, -⟩ := honCycle e he
    exact hnone es hes

end

/-! ## Nodes that a walk has left -/

section
variable {next : NodeId → List Edge} {P : Edge → Prop} {back back' : List Edge} {done : List NodeId} {i j : NodeId}
  {es : List Edge}

/-- Every edge of a node that was left was found or leads to a node that was left before it. -/
def Exhausted (next : NodeId → List Edge) (back : List Edge) : List NodeId → Prop
  | [] => True
  | n :: older => (∀ e ∈ next n, e ∈ back ∨ e.dst ∈ older) ∧ Exhausted next back older

theorem Exhausted.mono (hback : back ⊆ back') (h : Exhausted next back done) : Exhausted next back' done := by
  induction done with
  | nil => exact trivial
  | cons n older ih =>
    obtain ⟨hn, holder⟩ := h
    refine ⟨?_, ih holder⟩
    intro e he
    exact (hn e he).imp_left fun hmem => hback hmem

variable (hnext : ∀ {e : Edge}, P e → e ∈ next e.src)
include hnext

/-- An edge that was not found leads from a node that was left to one that was left before. -/
theorem Exhausted.mem_of_edge {e : Edge} (h : Exhausted next back done) (he : P e) (hback : e ∉ back)
    (hsrc : e.src ∈ done) : e.dst ∈ done := by
  induction done with
  | nil => cases hsrc
  | cons n older ih =>
    obtain ⟨hn, holder⟩ := h
    rcases List.mem_cons.mp hsrc with rfl | hsrc
    · exact List.mem_cons_of_mem _ ((hn e (hnext he)).resolve_left hback)
    · exact List.mem_cons_of_mem _ (ih holder hsrc)

/-- So a trail over such edges stays among the nodes that were left. -/
theorem Exhausted.mem_of_trail (h : Exhausted next back done) (hes : Trail (fun e => P e ∧ e ∉ back) i j es)
    (hi : i ∈ done) : j ∈ done := by
  induction hes with
  | nil => exact hi
  | cons he _ ih => exact ih (h.mem_of_edge hnext he.1 he.2 hi)

/-- It does not come back, as every edge of it leads to a node that was left before. -/
theorem Exhausted.not_cycle (h : Exhausted next back done) (hi : i ∈ done) :
    ∀ es, Trail (fun e => P e ∧ e ∉ back) i i es → es = [] := by
  induction done with
  | nil => cases hi
  | cons n older ih =>
    intro es hes
    obtain ⟨hn, holder⟩ := h
    by_cases hold : i ∈ older
    · exact ih holder hold es hes
    · have hin : i = n := (List.mem_cons.mp hi).resolve_right hold
      cases hes with
      | nil => rfl
      | @cons e _ es he hes =>
        have hdst : e.dst ∈ older := (hn e (hin ▸ hnext he.1)).resolve_left he.2
        exact absurd (holder.mem_of_trail hnext hes hdst) hold

end

/-! ## Walks -/

/-- What was left and found stays so. -/
structure Walk.Extends (w v : Walk) : Prop where
  done : w.done ⊆ v.done
  back : w.back ⊆ v.back

theorem Walk.Extends.refl (w : Walk) : w.Extends w := ⟨List.Subset.refl _, List.Subset.refl _⟩

theorem Walk.Extends.trans {w v u : Walk} (h : w.Extends v) (h' : v.Extends u) : w.Extends u :=
  ⟨List.Subset.trans h.done h'.done, List.Subset.trans h.back h'.back⟩

/-- The nodes that were left are exhausted, and the edges that were found lie on cycles. -/
structure Walk.Exact (next : NodeId → List Edge) (P : Edge → Prop) (w : Walk) : Prop where
  exhausted : Exhausted next w.back w.done
  onCycle : ∀ e ∈ w.back, ∃ es, Cycle P es ∧ e ∈ es

section
variable {next : NodeId → List Edge} {P : Edge → Prop} {roots path : List NodeId} {n : NodeId} {w : Walk} {fuel : Nat}

/-- Steps that keep a walk exact and see to their own item see to all items. -/
theorem Walk.Exact.foldl {α : Type} (step : Walk → α → Walk) (Seen : α → Walk → Prop) (items : List α)
    (hmono : ∀ {x v u}, Seen x v → Walk.Extends v u → Seen x u)
    (hstep : ∀ v : Walk, v.Exact next P → ∀ x ∈ items,
      (step v x).Exact next P ∧ v.Extends (step v x) ∧ Seen x (step v x))
    (hw : w.Exact next P) : (items.foldl step w).Exact next P ∧ w.Extends (items.foldl step w) ∧
      ∀ x ∈ items, Seen x (items.foldl step w) := by
  induction items generalizing w with
  | nil => exact ⟨hw, .refl w, List.forall_mem_nil _⟩
  | cons x items ih =>
    obtain ⟨hexact, hextends, hseen⟩ := hstep w hw x List.mem_cons_self
    have hrest := fun v hv y hy => hstep v hv y (List.mem_cons_of_mem x hy)
    obtain ⟨hexact', hextends', hseen'⟩ := ih hrest hexact
    exact ⟨hexact', hextends.trans hextends', List.forall_mem_cons.mpr ⟨hmono hseen hextends', hseen'⟩⟩

/-- The nodes on the way to `n` are different roots and lead to it. The fuel and they together are more than the roots, so a
walk that runs out of fuel would have met more roots than there are. -/
structure OnTheWay (P : Edge → Prop) (roots : List NodeId) (fuel : Nat) (path : List NodeId) (n : NodeId) : Prop where
  fuel : roots.length < fuel + path.length
  nodup : (n :: path).Nodup
  roots : ∀ m ∈ n :: path, m ∈ roots
  trail : ∀ m ∈ n :: path, ∃ es, Trail P m n es

namespace OnTheWay

variable {e : Edge}

theorem fuel_pos (h : OnTheWay P roots fuel path n) : 0 < fuel := by
  have hle : (n :: path).length ≤ roots.length := (h.nodup.subperm h.roots).length_le
  have hfuel := h.fuel
  rw [List.length_cons] at hle
  omega

theorem root (hn : n ∈ roots) : OnTheWay P roots (roots.length + 1) [] n where
  fuel := Nat.lt_succ_self _
  nodup := List.nodup_singleton n
  roots := List.forall_mem_singleton.mpr hn
  trail := List.forall_mem_singleton.mpr ⟨[], .nil n⟩

/-- One edge further, to a node that is not on the way. -/
theorem step (h : OnTheWay P roots (fuel + 1) path n) (he : P e) (hen : e.src = n) (hroot : e.dst ∈ roots)
    (hnew : e.dst ∉ n :: path) : OnTheWay P roots fuel (n :: path) e.dst where
  fuel := by
    have hfuel := h.fuel
    rw [List.length_cons]
    omega
  nodup := List.nodup_cons.mpr ⟨hnew, h.nodup⟩
  roots := List.forall_mem_cons.mpr ⟨hroot, h.roots⟩
  trail := by
    refine List.forall_mem_cons.mpr ⟨⟨[], .nil _⟩, ?_⟩
    intro m hm
    obtain ⟨es, hes⟩ := h.trail m hm
    have hlast : Trail P n e.dst [e] := hen ▸ .cons he (.nil _)
    exact ⟨es ++ [e], hes.append hlast⟩

/-- An edge back to a node on the way closes a cycle. -/
theorem exists_cycle (h : OnTheWay P roots fuel path n) (he : P e) (hen : e.src = n) (hback : e.dst ∈ n :: path) :
    ∃ es, Cycle P es ∧ e ∈ es := by
  obtain ⟨es, hes⟩ := h.trail e.dst hback
  have hround : Trail P e.src e.src (e :: es) := .cons he (hen.symm ▸ hes)
  exact ⟨e :: es, ⟨List.cons_ne_nil _ _, e.src, hround⟩, List.mem_cons_self⟩

end OnTheWay

variable (hP : ∀ {e : Edge}, P e ↔ e.src ∈ roots ∧ e ∈ next e.src) (hsrc : ∀ {n : NodeId}, ∀ e ∈ next n, e.src = n)
  (hdst : ∀ {e : Edge}, P e → e.dst ∈ roots)
include hP hsrc hdst

/-- Exploring a node leaves it, and keeps a walk exact. -/
theorem Walk.Exact.explore (hway : OnTheWay P roots fuel path n) (hw : w.Exact next P) :
    (w.explore next fuel path n).Exact next P ∧ w.Extends (w.explore next fuel path n) ∧
      n ∈ (w.explore next fuel path n).done := by
  induction fuel generalizing path n w with
  | zero => exact absurd hway.fuel_pos (Nat.lt_irrefl 0)
  | succ fuel ih =>
    -- Going through the node's edges, each is found or leads to a node that was left.
    obtain ⟨hexact, hextends, hseen⟩ := Walk.Exact.foldl
      (fun w e => if e.dst ∈ n :: path then { w with back := e :: w.back }
        else if e.dst ∈ w.done then w else w.explore next fuel (n :: path) e.dst)
      (fun e v => e ∈ v.back ∨ e.dst ∈ v.done) (next n) (fun hx hvu => hx.imp (fun hmem => hvu.back hmem) (fun hmem => hvu.done hmem))
      (by
        intro v hv e he
        have hen : e.src = n := hsrc e he
        have hPe : P e := hP.mpr ⟨hen ▸ hway.roots n List.mem_cons_self, hen ▸ he⟩
        by_cases hpath : e.dst ∈ n :: path
        · rw [if_pos hpath]
          have hgrows : v.back ⊆ e :: v.back := List.subset_cons_self _ _
          have hcycles : ∀ x ∈ e :: v.back, ∃ es, Cycle P es ∧ x ∈ es :=
            List.forall_mem_cons.mpr ⟨hway.exists_cycle hPe hen hpath, hv.onCycle⟩
          exact ⟨⟨hv.exhausted.mono hgrows, hcycles⟩, ⟨List.Subset.refl _, hgrows⟩, Or.inl List.mem_cons_self⟩
        · rw [if_neg hpath]
          by_cases hdone : e.dst ∈ v.done
          · rw [if_pos hdone]
            exact ⟨hv, .refl v, Or.inr hdone⟩
          · rw [if_neg hdone]
            obtain ⟨hexact, hextends, hleft⟩ := ih (hway.step hPe hen (hdst hPe) hpath) hv
            exact ⟨hexact, hextends, Or.inr hleft⟩)
      hw
    exact ⟨⟨⟨hseen, hexact.exhausted⟩, hexact.onCycle⟩, ⟨List.Subset.trans hextends.done (List.subset_cons_self _ _), hextends.back⟩,
      List.mem_cons_self⟩

/-- The edges that depth-first walks from all roots find cut all cycles, and each lies on one. -/
theorem cutsCycles_backEdges : CutsCycles P (backEdges next roots) := by
  have hstart : (⟨[], []⟩ : Walk).Exact next P := ⟨trivial, List.forall_mem_nil _⟩
  obtain ⟨hexact, -, hseen⟩ := Walk.Exact.foldl
    (fun w n => if n ∈ w.done then w else w.explore next (roots.length + 1) [] n) (fun n v => n ∈ v.done) roots
    (fun hx hvu => hvu.done hx)
    (by
      intro v hv n hn
      by_cases hdone : n ∈ v.done
      · rw [if_pos hdone]
        exact ⟨hv, .refl v, hdone⟩
      · rw [if_neg hdone]
        exact hv.explore hP hsrc hdst (.root hn))
    hstart
  unfold backEdges
  refine CutsCycles.of_acyclic ?_ ?_
  · intro e he
    exact hexact.onCycle e (List.mem_reverse.mp he)
  · rintro es ⟨hne, i, hes⟩
    have hkept := hes.mono (Q := fun e => P e ∧ e ∉ _) fun e he => ⟨he.1, fun hmem => he.2 (List.mem_reverse.mpr hmem)⟩
    have hstays := hexact.exhausted.not_cycle (i := i) fun he => (hP.mp he).2
    cases hes with
    | nil => exact hne rfl
    | cons he _ => exact hne (hstays (hseen _ (hP.mp he.1).1) _ hkept)

end

end Graph
end PlaceRoute
