import PlaceRoute.Proofs.Design.Wiring

/-!
# Designs are what their ties say

When operations and ties make a design, and which (`Design.new_exact`). After each tie the wiring holds the ties read so far and
nothing else (`Wiring.Draws.add`), so two lists of the same ties make one wiring (`Wiring.Draws.fanout_eq`), and the design
that is assembled from it tells of every tie in three places (`Design.Describes`).
-/

namespace PlaceRoute

theorem Terminal.compare_eq_lt {s t : Terminal} :
    compare s t = .lt ↔ s.op < t.op ∨ s.op = t.op ∧ s.operand < t.operand := by
  show (compare s.op t.op).then (compare s.operand t.operand) = .lt ↔ _
  rw [Ordering.then_eq_lt, Nat.compare_eq_lt, Nat.compare_eq_eq, Nat.compare_eq_lt]

namespace Design

/-- Ties that make a design: they join named operations, and no operand has two sources. -/
structure Wirable (names : List String) (ties : List NamedTie) : Prop where
  src : ∀ tie ∈ ties, tie.src ∈ names
  dst : ∀ tie ∈ ties, tie.dst ∈ names
  driver : ∀ tie ∈ ties, ∀ tie' ∈ ties, tie.dst = tie'.dst → tie.operand = tie'.operand → tie.src = tie'.src

/-- The tie goes from the operation with the number `src` to the terminal. -/
structure Joins (names : List String) (tie : NamedTie) (src : OpId) (t : Terminal) : Prop where
  src : names[src]? = some tie.src
  dst : names[t.op]? = some tie.dst
  operand : t.operand = tie.operand

/-- The wiring holds the ties and nothing else. -/
structure Wiring.Draws (names : List String) (ties : List NamedTie) (w : Wiring) : Prop where
  joins : ∀ tie ∈ ties, ∃ src t, Joins names tie src t
  driver : ∀ {src : OpId} {t : Terminal}, w.drivers.get? t = some src ↔ ∃ tie ∈ ties, Joins names tie src t
  fanout : ∀ {src : OpId} {t : Terminal},
    (∃ dsts, w.fanout.get? src = some dsts ∧ t ∈ dsts) ↔ ∃ tie ∈ ties, Joins names tie src t
  dsts_ne_empty : ∀ {src : OpId} {dsts : SortedSet Terminal}, w.fanout.get? src = some dsts → ∃ t, t ∈ dsts

/-! ## One tie -/

section
variable {names : List String} {w w' : Wiring} {tie tie' : NamedTie} {ties more : List NamedTie} {src src' : OpId}
  {t : Terminal}

theorem place_unique (hnames : names.Nodup) {name : String} {i j : OpId} (hi : names[i]? = some name)
    (hj : names[j]? = some name) : i = j :=
  (List.getElem?_inj (List.getElem?_eq_some_iff.mp hi).1 hnames).mp (hi.trans hj.symm)

theorem Wiring.find_eq_ok_iff (hnames : names.Nodup) {name : String} {id : OpId} :
    find names name = .ok id ↔ names[id]? = some name := by
  have hplace : names.idxOf? name = some id ↔ names[id]? = some name := by
    rw [List.idxOf?_eq_some_iff]
    constructor
    · rintro ⟨hlt, hname, -⟩
      rw [List.getElem?_eq_getElem hlt, hname]
    · intro h
      obtain ⟨hlt, hname⟩ := List.getElem?_eq_some_iff.mp h
      exact ⟨hlt, hname, fun j hj heq => Nat.ne_of_lt hj ((List.getElem_inj hnames).mp (heq.trans hname.symm))⟩
  rw [← hplace, find]
  cases names.idxOf? name <;> simp

/-- A tie is added where its operations are named and its operand has no other source. -/
theorem Wiring.add_eq_ok_iff (hnames : names.Nodup) : w.add names tie = .ok w' ↔
    ∃ src t, Joins names tie src t ∧ (∀ other, w.drivers.get? t = some other → other = src) ∧
      w' = ⟨w.fanout.alter src fun dsts => (dsts.getD ∅).insert t, w.drivers.insert t src⟩ := by
  unfold Wiring.add
  constructor
  · intro h
    obtain ⟨src, hsrc, h⟩ := bind_eq_ok h
    obtain ⟨dst, hdst, h⟩ := bind_eq_ok h
    refine ⟨src, ⟨dst, tie.operand⟩, ⟨(find_eq_ok_iff hnames).mp hsrc, (find_eq_ok_iff hnames).mp hdst, rfl⟩, ?_⟩
    dsimp only at h
    cases hother : w.drivers.get? ⟨dst, tie.operand⟩ with
    | none =>
      rw [hother] at h
      cases h
      exact ⟨nofun, rfl⟩
    | some other =>
      rw [hother] at h
      dsimp only at h
      by_cases hsame : other = src
      · rw [if_neg (not_not_intro hsame)] at h
        cases h
        exact ⟨fun _ heq => Option.some.inj heq ▸ hsame, rfl⟩
      · rw [if_pos hsame] at h
        cases h
  · rintro ⟨src, ⟨dst, i⟩, ⟨hsrc, hdst, rfl⟩, hfree, rfl⟩
    rw [(find_eq_ok_iff hnames).mpr hsrc, (find_eq_ok_iff hnames).mpr hdst]
    simp only [ok_bind]
    cases hother : w.drivers.get? ⟨dst, tie.operand⟩ with
    | none => rfl
    | some other =>
      dsimp only
      rw [if_neg (not_not_intro (hfree other hother))]
      rfl

/-- A tie joins two places only. -/
theorem Joins.iff (hnames : names.Nodup) (h : Joins names tie src t) {src' : OpId} {t' : Terminal} :
    Joins names tie src' t' ↔ src' = src ∧ t' = t := by
  constructor
  · intro h'
    obtain ⟨dst, i⟩ := t
    obtain ⟨dst', i'⟩ := t'
    obtain rfl : dst' = dst := place_unique hnames h'.dst h.dst
    obtain rfl : i' = i := h'.operand.trans h.operand.symm
    exact ⟨place_unique hnames h'.src h.src, rfl⟩
  · rintro ⟨rfl, rfl⟩
    exact h

theorem Wiring.draws_empty (names : List String) : Wiring.Draws names [] ⟨∅, ∅⟩ where
  joins := nofun
  driver := iff_of_false nofun (by simp)
  fanout := iff_of_false (by rintro ⟨_, h, -⟩; cases h) (by simp)
  dsts_ne_empty := nofun

theorem exists_mem_concat {α : Type} {l : List α} {x : α} {P : α → Prop} :
    (∃ y ∈ l ++ [x], P y) ↔ (∃ y ∈ l, P y) ∨ P x := by
  simp [or_and_right, exists_or]

/-- One more tie. -/
theorem Wiring.Draws.add (h : w.Draws names ties) (hnames : names.Nodup) (hadd : w.add names tie = .ok w') :
    w'.Draws names (ties ++ [tie]) := by
  obtain ⟨src₀, t₀, hjoins, hfree, rfl⟩ := (Wiring.add_eq_ok_iff hnames).mp hadd
  have hfanout (src : OpId) : (w.fanout.alter src₀ fun dsts => (dsts.getD ∅).insert t₀).get? src =
      if src₀ = src then some (((w.fanout.get? src₀).getD ∅).insert t₀) else w.fanout.get? src := SortedMap.get?_insert
  have hold {src : OpId} {t : Terminal} : t ∈ (w.fanout.get? src).getD ∅ ↔ ∃ dsts, w.fanout.get? src = some dsts ∧ t ∈ dsts := by
    cases w.fanout.get? src with
    | none => exact iff_of_false List.not_mem_nil (by simp)
    | some dsts => simp
  constructor
  · refine List.forall_mem_append.mpr ⟨h.joins, List.forall_mem_singleton.mpr ⟨src₀, t₀, hjoins⟩⟩
  · intro src t
    rw [exists_mem_concat, ← h.driver, hjoins.iff hnames, SortedMap.get?_insert]
    by_cases ht : t₀ = t
    · subst ht
      rw [if_pos rfl, Option.some.injEq, and_iff_left rfl]
      exact ⟨fun heq => .inr heq.symm, fun hor => hor.elim (fun hdriver => (hfree src hdriver).symm) Eq.symm⟩
    · rw [if_neg ht, or_iff_left fun heq => ht heq.2.symm]
  · intro src t
    rw [exists_mem_concat, ← h.fanout, hjoins.iff hnames, hfanout]
    by_cases hsrc : src₀ = src
    · subst hsrc
      simp [hold, or_comm]
    · rw [if_neg hsrc, or_iff_left fun heq => hsrc heq.1.symm]
  · intro src dsts hdsts
    rw [hfanout] at hdsts
    split at hdsts
    · cases hdsts
      exact ⟨t₀, SortedSet.mem_insert.mpr (.inl rfl)⟩
    · exact h.dsts_ne_empty hdsts

/-! ## All ties -/

theorem Wiring.Draws.foldlM (h : w.Draws names ties) (hnames : names.Nodup)
    (hfold : more.foldlM (Wiring.add names) w = .ok w') : w'.Draws names (ties ++ more) := by
  induction more generalizing ties w with
  | nil =>
    cases hfold
    rwa [List.append_nil]
  | cons tie more ih =>
    rw [List.foldlM_cons] at hfold
    obtain ⟨w₁, hadd, hfold⟩ := bind_eq_ok hfold
    rw [List.append_cons]
    exact ih (h.add hnames hadd) hfold

/-- Ties that a wiring holds can be wired. -/
theorem Wiring.Draws.wirable (h : w.Draws names ties) (hnames : names.Nodup) : Wirable names ties where
  src tie htie := by
    obtain ⟨src, t, hjoins⟩ := h.joins tie htie
    exact List.mem_of_getElem? hjoins.src
  dst tie htie := by
    obtain ⟨src, t, hjoins⟩ := h.joins tie htie
    exact List.mem_of_getElem? hjoins.dst
  driver tie htie tie' htie' hdst hoperand := by
    obtain ⟨src, t, hjoins⟩ := h.joins tie htie
    obtain ⟨src', t', hjoins'⟩ := h.joins tie' htie'
    obtain rfl : t = t' := by
      obtain ⟨dst, i⟩ := t
      obtain ⟨dst', i'⟩ := t'
      obtain rfl : dst = dst' := place_unique hnames (hdst ▸ hjoins.dst) hjoins'.dst
      obtain rfl : i = i' := hjoins.operand.trans (hoperand.trans hjoins'.operand.symm)
      rfl
    obtain rfl : src = src' := by
      refine Option.some.inj ((h.driver.mpr ⟨tie, htie, hjoins⟩).symm.trans (h.driver.mpr ⟨tie', htie', hjoins'⟩))
    exact Option.some.inj (hjoins.src.symm.trans hjoins'.src)

/-- Ties that can be wired are. -/
theorem Wiring.exists_foldlM (h : w.Draws names ties) (hnames : names.Nodup) (hall : Wirable names (ties ++ more)) :
    ∃ w', more.foldlM (Wiring.add names) w = .ok w' := by
  induction more generalizing ties w with
  | nil => exact ⟨w, rfl⟩
  | cons tie more ih =>
    have hmem : tie ∈ ties ++ tie :: more := by simp
    obtain ⟨src, hsrc⟩ := List.getElem?_of_mem (hall.src tie hmem)
    obtain ⟨dst, hdst⟩ := List.getElem?_of_mem (hall.dst tie hmem)
    have hjoins : Joins names tie src ⟨dst, tie.operand⟩ := ⟨hsrc, hdst, rfl⟩
    obtain ⟨w₁, hadd⟩ : ∃ w₁, w.add names tie = .ok w₁ := by
      refine ⟨_, (Wiring.add_eq_ok_iff hnames).mpr ⟨src, _, hjoins, fun other hother => ?_, rfl⟩⟩
      obtain ⟨tie', htie', hjoins'⟩ := h.driver.mp hother
      have hsame : tie'.src = tie.src := by
        refine hall.driver tie' (List.mem_append_left _ htie') tie hmem ?_ hjoins'.operand.symm
        exact Option.some.inj (hjoins'.dst.symm.trans hdst)
      exact place_unique hnames (hsame ▸ hjoins'.src) hsrc
    rw [List.append_cons] at hall
    obtain ⟨w', hfold⟩ := ih (h.add hnames hadd) hall
    exact ⟨w', by rw [List.foldlM_cons, hadd]; exact hfold⟩

/-- The ties determine the wiring. -/
theorem Wiring.Draws.values_eq {ties' : List NamedTie} (h : w.Draws names ties) (h' : w'.Draws names ties')
    (hties : ∀ tie, tie ∈ ties' ↔ tie ∈ ties) : w.values = w'.values := by
  have hsame {src : OpId} {t : Terminal} : (∃ dsts, w.fanout.get? src = some dsts ∧ t ∈ dsts) ↔
      ∃ dsts, w'.fanout.get? src = some dsts ∧ t ∈ dsts := by
    rw [h.fanout, h'.fanout]
    exact exists_congr fun tie => and_congr_left' (hties tie).symm
  have hfanout : w.fanout = w'.fanout := by
    refine SortedMap.ext_get? fun src => Option.ext fun dsts => ?_
    have hto {v v' : Wiring} (hne : ∀ {dsts}, v.fanout.get? src = some dsts → ∃ t, t ∈ dsts)
        (hvv' : ∀ {t}, (∃ dsts, v.fanout.get? src = some dsts ∧ t ∈ dsts) ↔ ∃ dsts, v'.fanout.get? src = some dsts ∧ t ∈ dsts)
        (hdsts : v.fanout.get? src = some dsts) : v'.fanout.get? src = some dsts := by
      obtain ⟨t, ht⟩ := hne hdsts
      obtain ⟨dsts', hdsts', -⟩ := hvv'.mp ⟨dsts, hdsts, ht⟩
      rw [hdsts', Option.some.injEq]
      refine SortedSet.ext_mem fun t => ?_
      have ht := hvv' (t := t)
      rw [hdsts, hdsts'] at ht
      simpa using ht.symm
    exact ⟨hto h.dsts_ne_empty hsame, hto h'.dsts_ne_empty hsame.symm⟩
  unfold Wiring.values
  rw [hfanout]

end

/-! ## The design -/

section
variable {operations : SortedMap String String} {ties ties' : List NamedTie} {duplicates : SortedSet String} {d : Design}

/-- Where an operation stands in a list that is in the order of names is seen by comparing its name. -/
theorem mem_of_compare {ops : List Operation} {op : Operation} {k : Nat} (hk : k < ops.length)
    (h : ops.Pairwise fun a b => compare a.name b.name = .lt) (hop : op ∈ ops) :
    match compare op.name ops[k].name with
    | .lt => op ∈ ops.take k
    | .eq => op = ops[k]
    | .gt => op ∈ ops.drop (k + 1) := by
  have hops : ops.take k ++ ops[k] :: ops.drop (k + 1) = ops := by
    rw [← List.drop_eq_getElem_cons, List.take_append_drop]
  obtain ⟨-, hhigh, hlow⟩ := List.pairwise_append.mp (hops.symm ▸ h)
  rcases List.mem_append.mp (hops.symm ▸ hop) with hop | hop
  · rw [hlow op hop ops[k] List.mem_cons_self]
    exact hop
  · rcases List.mem_cons.mp hop with rfl | hop
    · rw [(Std.ReflCmp.compare_self : compare ops[k].name ops[k].name = .eq)]
    · rw [Std.OrientedCmp.gt_iff_lt.mpr ((List.pairwise_cons.mp hhigh).1 op hop)]
      exact hop

/-- A name is found by halving where the operations are in the order of their names. -/
theorem searchName_eq_some_iff {name : String} {ops : List Operation} {op : Operation}
    (h : ops.Pairwise fun a b => compare a.name b.name = .lt) : searchName name ops = some op ↔ op ∈ ops ∧ op.name = name := by
  fun_induction searchName name ops with
  | case1 => simp
  | case2 ops hne hpos hhalf middle hcmp ih =>
    rw [ih (h.sublist (List.take_sublist _ _))]
    refine and_congr_left fun hname => ⟨List.mem_of_mem_take, fun hop => ?_⟩
    have hwhere := mem_of_compare hhalf h hop
    rwa [hname, hcmp] at hwhere
  | case3 ops hne hpos hhalf middle hcmp =>
    rw [Option.some.injEq]
    constructor
    · rintro rfl
      exact ⟨List.getElem_mem _, (Std.LawfulEqOrd.eq_of_compare hcmp).symm⟩
    · rintro ⟨hop, hname⟩
      have hwhere := mem_of_compare hhalf h hop
      rw [hname, hcmp] at hwhere
      exact hwhere.symm
  | case4 ops hne hpos hhalf middle hcmp ih =>
    rw [ih (h.sublist (List.drop_sublist _ _))]
    refine and_congr_left fun hname => ⟨List.mem_of_mem_drop, fun hop => ?_⟩
    have hwhere := mem_of_compare hhalf h hop
    rwa [hname, hcmp] at hwhere

/-- The design has the operations in the order of their names, and its values, in the order of their sources, connect what the
ties do: each tie is told of by the value of its source and by the inputs of its destination. -/
structure Describes (operations : SortedMap String String) (ties : List NamedTie) (duplicates : SortedSet String)
    (d : Design) : Prop extends d.WellWired where
  entries : d.operations.map (fun op => (op.name, op.opcode)) = operations.toList
  names : (d.operations.map (·.name)).Pairwise (· < ·)
  duplicate : ∀ {op : Operation}, op ∈ d.operations → (op.duplicate = true ↔ op.opcode ∈ duplicates)
  opByName : ∀ {name : String} {op : Operation}, d.opByName? name = some op ↔ op ∈ d.operations ∧ op.name = name
  opByName_isSome : ∀ {name : String}, (d.opByName? name).isSome ↔ name ∈ operations.keys
  srcs : (d.values.map (·.src)).Pairwise (· < ·)
  dsts : ∀ {v : Value}, v ∈ d.values → v.dsts.Pairwise fun a b => a.op < b.op ∨ a.op = b.op ∧ a.operand < b.operand
  output_iff : ∀ {op : Operation} {v : Value}, op ∈ d.operations → v ∈ d.values → (op.output = some v.id ↔ v.src = op.id)
  tie_iff_dst : ∀ {src dst : Operation} {i : Nat}, src ∈ d.operations → dst ∈ d.operations →
    (⟨src.name, dst.name, i⟩ ∈ ties ↔ ∃ v ∈ d.values, src.output = some v.id ∧ ⟨dst.id, i⟩ ∈ v.dsts)
  tie_iff_input : ∀ {src dst : Operation} {i : Nat}, src ∈ d.operations → dst ∈ d.operations →
    (⟨src.name, dst.name, i⟩ ∈ ties ↔ ∃ j, src.output = some j ∧ dst.inputs.get? i = some j)

/-- The wiring of a design. -/
theorem exists_draws (h : Design.new operations ties duplicates = .ok d) : ∃ w : Wiring,
    w.Draws operations.keys ties ∧ d.values = w.values ∧
    d.operations.map (fun op => (op.name, op.opcode)) = operations.toList ∧
    ∀ op ∈ d.operations, op.duplicate = decide (op.opcode ∈ duplicates) := by
  unfold Design.new at h
  obtain ⟨w, hw, h⟩ := bind_eq_ok h
  cases h
  refine ⟨w, (Wiring.draws_empty _).foldlM operations.keys_nodup hw, rfl, ?_, List.forall_mem_map.mpr fun _ _ => rfl⟩
  rw [List.map_map]
  exact List.zipIdx_map_fst 0 _

theorem Wiring.map_src_values (w : Wiring) : w.values.map (·.src) = w.fanout.keys := by
  unfold Wiring.values SortedMap.keys
  rw [List.map_map]
  conv_rhs => rw [← List.zipIdx_map_fst 0 w.fanout.toList, List.map_map]
  rfl

/-- The values of a wiring, by their sources. -/
theorem Wiring.exists_value_iff {w : Wiring} {src : OpId} {t : Terminal} :
    (∃ v ∈ w.values, v.src = src ∧ t ∈ v.dsts) ↔ ∃ dsts, w.fanout.get? src = some dsts ∧ t ∈ dsts := by
  constructor
  · rintro ⟨v, hv, rfl, ht⟩
    obtain ⟨i, hi⟩ := List.getElem?_of_mem hv
    obtain ⟨-, dsts, hdsts, heq⟩ := Wiring.getElem?_values hi
    exact ⟨dsts, SortedMap.get?_eq_some_iff.mpr hdsts, by rwa [heq] at ht⟩
  · rintro ⟨dsts, hdsts, ht⟩
    have hsrc : src ∈ w.values.map (·.src) := by
      rw [Wiring.map_src_values]
      exact List.mem_map_of_mem (SortedMap.get?_eq_some_iff.mp hdsts)
    obtain ⟨v, hv, rfl⟩ := List.mem_map.mp hsrc
    obtain ⟨i, hi⟩ := List.getElem?_of_mem hv
    obtain ⟨-, dsts', hdsts', heq⟩ := Wiring.getElem?_values hi
    have hsame := SortedMap.toList_inj hdsts' (SortedMap.get?_eq_some_iff.mp hdsts)
    exact ⟨v, hv, rfl, by rwa [heq, hsame]⟩

theorem WellWired.output_iff {op : Operation} {v : Value} (hd : d.WellWired) (hop : op ∈ d.operations) (hv : v ∈ d.values) :
    op.output = some v.id ↔ v.src = op.id := by
  constructor
  · intro hout
    obtain ⟨w, hw, hsrc⟩ := hd.output hop hout
    obtain rfl := Option.some.inj (hw.symm.trans (hd.value?_of_mem hv))
    exact hsrc
  · intro hsrc
    obtain ⟨op', hop', hout⟩ := hd.src hv
    rw [hsrc, hd.op?_of_mem hop] at hop'
    exact Option.some.inj hop' ▸ hout

/-- A terminal of a value is an input of its operation. -/
theorem WellWired.dst_iff_input {src dst : Operation} {i : Nat} (hd : d.WellWired) (hdst : dst ∈ d.operations) :
    (∃ v ∈ d.values, src.output = some v.id ∧ ⟨dst.id, i⟩ ∈ v.dsts) ↔
      ∃ j, src.output = some j ∧ dst.inputs.get? i = some j := by
  constructor
  · rintro ⟨v, hv, hout, ht⟩
    obtain ⟨op, hop, hin⟩ := hd.dst hv ht
    obtain rfl := Option.some.inj (hop.symm.trans (hd.op?_of_mem hdst))
    exact ⟨v.id, hout, SortedMap.get?_eq_some_iff.mpr hin⟩
  · rintro ⟨j, hout, hin⟩
    obtain ⟨v, hv, ht⟩ := hd.input hdst (SortedMap.get?_eq_some_iff.mp hin)
    exact ⟨v, List.mem_of_getElem? hv, by rwa [hd.value_id hv], ht⟩

theorem describes_new (h : Design.new operations ties duplicates = .ok d) : d.Describes operations ties duplicates := by
  obtain ⟨w, hw, hvalues, hentries, hduplicate⟩ := exists_draws h
  have hd := wellWired_new h
  have hkeys : d.operations.map (·.name) = operations.keys := by
    unfold SortedMap.keys
    rw [← hentries, List.map_map]
    rfl
  have hincreasing : (d.operations.map (·.name)).Pairwise fun a b => compare a b = .lt := by
    rw [hkeys]
    exact List.pairwise_map.mpr operations.increasing
  have hname {op : Operation} (hop : op ∈ d.operations) : operations.keys[op.id]? = some op.name := by
    have hget : d.operations[op.id]? = some op := hd.op?_of_mem hop
    rw [← hkeys, List.getElem?_map, hget]
    rfl
  have hfind {name : String} {op : Operation} : d.opByName? name = some op ↔ op ∈ d.operations ∧ op.name = name :=
    searchName_eq_some_iff (List.pairwise_map.mp hincreasing)
  have hdst {src dst : Operation} {i : Nat} (hsrc : src ∈ d.operations) (hdst : dst ∈ d.operations) :
      ⟨src.name, dst.name, i⟩ ∈ ties ↔ ∃ v ∈ d.values, src.output = some v.id ∧ ⟨dst.id, i⟩ ∈ v.dsts := by
    have houtput : (∃ v ∈ d.values, src.output = some v.id ∧ ⟨dst.id, i⟩ ∈ v.dsts) ↔
        ∃ v ∈ w.values, v.src = src.id ∧ ⟨dst.id, i⟩ ∈ v.dsts := by
      rw [← hvalues]
      exact exists_congr fun v => and_congr_right fun hv => and_congr_left' (hd.output_iff hsrc hv)
    rw [houtput, Wiring.exists_value_iff, hw.fanout]
    constructor
    · exact fun htie => ⟨_, htie, hname hsrc, hname hdst, rfl⟩
    · rintro ⟨⟨s, t, k⟩, htie, hjoins⟩
      obtain rfl := Option.some.inj (hjoins.src.symm.trans (hname hsrc))
      obtain rfl := Option.some.inj (hjoins.dst.symm.trans (hname hdst))
      obtain rfl := hjoins.operand
      exact htie
  exact {
    toWellWired := hd
    entries := hentries
    names := hincreasing.imp compareOfLessAndEq_eq_lt.mp
    duplicate := fun hop => by rw [hduplicate _ hop, decide_eq_true_eq]
    opByName := hfind
    opByName_isSome := fun {name} => by
      rw [Option.isSome_iff_exists, ← hkeys, List.mem_map]
      exact exists_congr fun op => hfind
    srcs := by
      rw [hvalues, Wiring.map_src_values]
      exact List.pairwise_map.mpr (w.fanout.increasing.imp Nat.compare_eq_lt.mp)
    dsts := fun {v} hv => by
      obtain ⟨i, hi⟩ := List.getElem?_of_mem (hvalues ▸ hv)
      obtain ⟨-, dsts, -, heq⟩ := Wiring.getElem?_values hi
      rw [heq]
      exact dsts.increasing.imp Terminal.compare_eq_lt.mp
    output_iff := hd.output_iff
    tie_iff_dst := hdst
    tie_iff_input := fun hsrc hdst' => (hdst hsrc hdst').trans (hd.dst_iff_input hdst') }

theorem Wirable.exists_draws {names : List String} (hnames : names.Nodup) (h : Wirable names ties) :
    ∃ w, ties.foldlM (Wiring.add names) ⟨∅, ∅⟩ = .ok w ∧ w.Draws names ties := by
  obtain ⟨w, hw⟩ := Wiring.exists_foldlM (Wiring.draws_empty names) hnames h
  exact ⟨w, hw, (Wiring.draws_empty names).foldlM hnames hw⟩

theorem exists_new_iff : (∃ d, Design.new operations ties duplicates = .ok d) ↔ Wirable operations.keys ties := by
  constructor
  · rintro ⟨d, hd⟩
    obtain ⟨w, hw, -⟩ := exists_draws hd
    exact hw.wirable operations.keys_nodup
  · intro h
    obtain ⟨w, hw, -⟩ := h.exists_draws operations.keys_nodup
    exact ⟨_, by rw [Design.new, hw]; rfl⟩

/-- Another list of the same ties. -/
theorem new_of_mem_iff {ties' : List NamedTie} (hties : ∀ tie, tie ∈ ties' ↔ tie ∈ ties)
    (hd : Design.new operations ties duplicates = .ok d) : Design.new operations ties' duplicates = .ok d := by
  have hall := exists_new_iff.mp ⟨d, hd⟩
  obtain ⟨w, hw, hdraws⟩ := hall.exists_draws operations.keys_nodup
  have hall' : Wirable operations.keys ties' := ⟨fun tie h => hall.src tie ((hties tie).mp h),
    fun tie h => hall.dst tie ((hties tie).mp h),
    fun tie h tie' h' => hall.driver tie ((hties tie).mp h) tie' ((hties tie').mp h')⟩
  obtain ⟨w', hw', hdraws'⟩ := hall'.exists_draws operations.keys_nodup
  have hvalues := hdraws.values_eq hdraws' hties
  unfold Design.new at hd ⊢
  rw [hw, ok_bind] at hd
  rw [hw', ok_bind, ← hvalues]
  exact hd

end

/-- **Exactness.** Ties make a design exactly if their operations are named and no operand has two sources. The design tells of
every tie as the list does, so it depends neither on the order of the ties nor on how often one is listed. -/
theorem new_exact (operations : SortedMap String String) (ties : List NamedTie) (duplicates : SortedSet String) :
    ((∃ d, Design.new operations ties duplicates = .ok d) ↔ Wirable operations.keys ties) ∧
    ∀ d, Design.new operations ties duplicates = .ok d → d.Describes operations ties duplicates ∧
      ∀ ties', (∀ tie, tie ∈ ties' ↔ tie ∈ ties) → Design.new operations ties' duplicates = .ok d :=
  ⟨exists_new_iff, fun _ hd => ⟨describes_new hd, fun _ hties => new_of_mem_iff hties hd⟩⟩

/-- A sum that is fed back to itself, with a tie that is listed twice and in another order. -/
theorem feedback_new_exact : ∃ d,
    Design.new (.ofList [("sum", "add"), ("one", "const")]) [⟨"one", "sum", 0⟩, ⟨"sum", "sum", 1⟩] ∅ = .ok d ∧
    d.Describes (.ofList [("sum", "add"), ("one", "const")]) [⟨"one", "sum", 0⟩, ⟨"sum", "sum", 1⟩] ∅ ∧
    Design.new (.ofList [("sum", "add"), ("one", "const")])
      [⟨"sum", "sum", 1⟩, ⟨"one", "sum", 0⟩, ⟨"sum", "sum", 1⟩] ∅ = .ok d := by
  have hexact := new_exact (.ofList [("sum", "add"), ("one", "const")]) [⟨"one", "sum", 0⟩, ⟨"sum", "sum", 1⟩] ∅
  obtain ⟨d, hd⟩ := hexact.1.mpr ⟨by decide, by decide, by decide⟩
  obtain ⟨hdescribes, hsame⟩ := hexact.2 d hd
  exact ⟨d, hd, hdescribes, hsame _ fun tie => by simp [or_comm, or_left_comm]⟩

end Design
end PlaceRoute
