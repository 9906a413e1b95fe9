import PlaceRoute.Proofs.Dot.Parser
import PlaceRoute.Proofs.Sorted
import Mathlib.Data.List.Nodup

/-!
# The netlists that are read

Tokens make a netlist exactly if they derive statements by the grammar and the statements can be executed: every node has an
opcode, every chain of arrows an operand, and no name is declared twice. The netlist holds the operations that the statements
declare and, in their order, a tie for each arrow (`Netlist.ofTokens_exact`).

Statements are read one after the other and executed as they are read. Where tokens derive a graph, reading them executes its
statements (`DerivesGraph.executes`), and tokens that are read derive a graph (`ofTokens_sound`). What is left is what
a list of statements does (`foldlM_execute_eq_ok_iff`).
-/

namespace PlaceRoute
namespace Dot

variable {endLine : Nat} {n n' : Netlist} {tokens : List Token} {s : Statement} {ss : List Statement}
  {ts used rest : List Located}

/-! ## Statements -/

theorem DerivesStatements.head? (h : DerivesStatements tokens ss) : tokens = [] ∨ ∃ name, tokens.head? = some (.id name) := by
  cases h with
  | nil => exact .inl rfl
  | cons hs _ _ =>
    obtain ⟨name, hname⟩ := hs.head?
    exact .inr ⟨name, by simp [List.head?_append, hname]⟩

theorem DerivesStatements.executes (h : DerivesStatements tokens ss) (endLine l : Nat) (n : Netlist) (rest : List Located)
    (hused : used.map Located.token = tokens) : statements endLine n (used ++ ⟨.rbrace, l⟩ :: rest) =
      ss.foldlM Netlist.execute n >>= fun n => .ok (n, rest) := by
  induction h generalizing n used with
  | nil =>
    cases List.map_eq_nil_iff.mp hused
    rw [List.nil_append, statements]
    rfl
  | @cons tokens separator more s ss hs hseparator hmore ih =>
    simp only [List.map_eq_append_iff] at hused
    obtain ⟨_, more, rfl, ⟨first, separator, rfl, rfl, rfl⟩, rfl⟩ := hused
    -- After the statement there is a semicolon, another statement or the closing brace.
    have hnext : Ends (more ++ ⟨.rbrace, l⟩ :: rest) ∧ current (more ++ ⟨.rbrace, l⟩ :: rest) ≠ some .semicolon := by
      unfold Ends
      rw [current_append]
      rcases hmore.head? with hnil | ⟨name, hname⟩
      · simp [hnil, current]
      · simp [hname]
    rw [List.append_assoc, List.append_assoc, List.foldlM_cons, bind_assoc]
    simp only [List.mem_pair, List.map_eq_nil_iff, List.map_eq_singleton_iff] at hseparator
    rcases hseparator with rfl | ⟨⟨_, l'⟩, rfl, rfl⟩
    · rw [List.nil_append, hs.executes hnext.1, skip, if_neg hnext.2]
      exact bind_congr fun n => ih n rfl
    · rw [hs.executes (by simp [Ends, current])]
      exact bind_congr fun n => ih n rfl

theorem statements_sound {n : Netlist} {ts : List Located} {r} (h : statements endLine n ts = .ok r) :
    ∃ used l ss, ts = used ++ ⟨.rbrace, l⟩ :: r.2 ∧ DerivesStatements (used.map Located.token) ss := by
  by_cases hclose : current ts = some .rbrace
  · obtain ⟨l, rest, rfl⟩ := exists_of_current hclose
    rw [statements] at h
    cases h
    exact ⟨[], l, [], rfl, .nil⟩
  cases ts with
  | nil =>
    rw [statements] at h
    cases h
  | cons t ts =>
    rw [statements_cons fun ht => hclose (congrArg some ht)] at h
    obtain ⟨⟨s, rest, hlt⟩, hs, h⟩ := bind_eq_ok h
    obtain ⟨n', -, h⟩ := bind_eq_ok h
    obtain ⟨used, hused, hderives⟩ := statement_sound hs
    obtain ⟨separator, hskip, hseparator⟩ := exists_skip .semicolon rest
    have := length_skip_le .semicolon rest
    obtain ⟨more, l, ss, hmore, hss⟩ := statements_sound h
    dsimp only at hused hderives hmore
    refine ⟨used ++ separator ++ more, l, s :: ss, ?_, ?_⟩
    · rw [hused, hskip, hmore, List.append_assoc, List.append_assoc]
    · rw [List.map_append, List.map_append]
      exact .cons hderives hseparator hss
termination_by ts.length

/-! ## Graphs -/

/-- Where tokens derive a graph, reading them executes its statements, one after the other. -/
theorem DerivesGraph.executes {read : Tokens} (h : DerivesGraph (read.tokens.map Located.token) ss) :
    Netlist.ofTokens read = ss.foldlM Netlist.execute ⟨∅, []⟩ := by
  generalize hread : read.tokens.map Located.token = tokens at h
  obtain ⟨hopening, hbody⟩ := h
  simp only [List.map_eq_append_iff, List.map_eq_singleton_iff] at hread
  obtain ⟨_, _, hread, ⟨opening, body, rfl, rfl, hbody'⟩, ⟨_, l⟩, rfl, rfl⟩ := hread
  rw [List.append_assoc] at hread
  rw [ofTokens_opening hopening hread, hbody.executes _ l _ [] hbody', bind_assoc]
  cases ss.foldlM Netlist.execute ⟨∅, []⟩ <;> rfl

/-- Tokens that make a netlist derive a graph. -/
theorem ofTokens_sound {read : Tokens} (h : Netlist.ofTokens read = .ok n) :
    ∃ ss, DerivesGraph (read.tokens.map Located.token) ss := by
  obtain ⟨opening, body, hread, hopening⟩ := exists_opening h
  rw [ofTokens_opening hopening hread] at h
  obtain ⟨⟨n', rest⟩, hstatements, h⟩ := bind_eq_ok h
  obtain ⟨used, l, ss, hbody, hss⟩ := statements_sound hstatements
  dsimp only at h hbody
  split at h
  · cases h
  next hrest =>
  have hnil : rest = [] := by simpa using hrest
  refine ⟨ss, ?_⟩
  rw [hread, hbody, hnil, List.map_append, List.map_append, ← List.append_assoc]
  exact .graph hopening hss

/-! ## What statements do -/

/-- The attribute has the value in the last place where it is written. -/
def Attributes.Sets (attributes : Attributes) (name value : String) : Prop :=
  ∃ before after, attributes = before ++ (name, value) :: after ∧ ∀ pair ∈ after, pair.1 ≠ name

theorem Attributes.get?_eq_some_iff {attributes : Attributes} {name value : String} :
    attributes.get? name = some value ↔ attributes.Sets name value := by
  unfold Attributes.get? Attributes.Sets
  rw [List.lookup_eq_some_iff]
  constructor
  · rintro ⟨after, before, h, hne⟩
    refine ⟨before.reverse, after.reverse, ?_, fun pair hpair => ?_⟩
    · rw [← List.reverse_reverse attributes, h]
      simp
    · exact (bne_iff_ne.mp (hne pair (List.mem_reverse.mp hpair))).symm
  · rintro ⟨before, after, rfl, hne⟩
    exact ⟨after.reverse, before.reverse, by simp, fun pair hpair =>
      bne_iff_ne.mpr (hne pair (List.mem_reverse.mp hpair)).symm⟩

/-- A node has an opcode, and a chain of arrows an operand. -/
def Statement.IsComplete : Statement → Prop
  | .chain _ [] attributes => ∃ opcode, attributes.Sets "opcode" opcode
  | .chain _ (_ :: _) attributes => ∃ text operand, attributes.Sets "operand" text ∧ readOperand? text = some operand
  | _ => True

/-- The operation that a statement declares, if any, and its opcode. -/
def Statement.operations : Statement → List (String × String)
  | .chain name [] attributes => ((attributes.get? "opcode").map fun opcode => (name, opcode)).toList
  | _ => []

/-- One tie for each arrow of a statement. -/
def Statement.ties : Statement → List NamedTie
  | .chain first rest attributes =>
    ((attributes.get? "operand").bind readOperand?).toList.flatMap fun operand =>
      ((first :: rest).zip rest).map fun (src, dst) => ⟨src, dst, operand⟩
  | _ => []

/-- What one statement does. -/
theorem execute_eq_ok_iff : n.execute s = .ok n' ↔ s.IsComplete ∧
    (∀ e ∈ s.operations, n.operations.contains e.1 = false) ∧
    ⟨s.operations.foldl (fun m e => m.insert e.1 e.2) n.operations, n.ties ++ s.ties⟩ = n' := by
  have hidle (h : s.operations = []) (h' : s.ties = []) (hs : s.IsComplete) :
      (Except.ok n : Except Error Netlist) = .ok n' ↔ s.IsComplete ∧
        (∀ e ∈ s.operations, n.operations.contains e.1 = false) ∧
        ⟨s.operations.foldl (fun m e => m.insert e.1 e.2) n.operations, n.ties ++ s.ties⟩ = n' := by
    simp [h, h', hs]
  cases s with
  | defaults => exact hidle rfl rfl trivial
  | setting name value => exact hidle rfl rfl trivial
  | chain first names attributes =>
    cases names with
    | nil =>
      have hties : (Statement.chain first [] attributes).ties = [] := by simp [Statement.ties]
      rw [hties, List.append_nil]
      simp only [Netlist.execute, Statement.IsComplete, Statement.operations, ← Attributes.get?_eq_some_iff]
      cases attributes.get? "opcode" with
      | none => simp
      | some opcode =>
        cases hnew : n.operations.contains first with
        | true => simp [hnew]
        | false => simp [hnew]
    | cons second names =>
      have hcomplete : (Statement.chain first (second :: names) attributes).IsComplete ↔
          ∃ operand, (attributes.get? "operand").bind readOperand? = some operand := by
        simp only [Statement.IsComplete, ← Attributes.get?_eq_some_iff, Option.bind_eq_some_iff]
        exact exists_comm
      rw [hcomplete]
      simp only [Netlist.execute, Statement.operations, Statement.ties]
      cases (attributes.get? "operand").bind readOperand? with
      | none => simp
      | some operand => simp

theorem Statement.nodup_operations (s : Statement) : (s.operations.map Prod.fst).Nodup := by
  cases s with
  | defaults => exact .nil
  | setting name value => exact .nil
  | chain name names attributes =>
    cases names with
    | nil => cases h : attributes.get? "opcode" <;> simp [operations, h]
    | cons second names => exact .nil

/-- What the statements of a graph do, one after the other. -/
theorem foldlM_execute_eq_ok_iff : ss.foldlM Netlist.execute n = .ok n' ↔ (∀ s ∈ ss, s.IsComplete) ∧
    ((ss.flatMap Statement.operations).map Prod.fst).Nodup ∧
    (∀ e ∈ ss.flatMap Statement.operations, n.operations.contains e.1 = false) ∧
    ⟨(ss.flatMap Statement.operations).foldl (fun m e => m.insert e.1 e.2) n.operations,
      n.ties ++ ss.flatMap Statement.ties⟩ = n' := by
  induction ss generalizing n with
  | nil =>
    rw [List.foldlM_nil]
    simp [pure, Except.pure]
  | cons s ss ih =>
    have hbind : (n.execute s >>= fun n => ss.foldlM Netlist.execute n) = .ok n' ↔
        ∃ n₁, n.execute s = .ok n₁ ∧ ss.foldlM Netlist.execute n₁ = .ok n' := by
      refine ⟨bind_eq_ok, ?_⟩
      rintro ⟨n₁, hs, hss⟩
      rw [hs]
      exact hss
    simp only [List.foldlM_cons, hbind, execute_eq_ok_iff, ih, List.flatMap_cons, List.map_append, List.nodup_append,
      List.forall_mem_append, List.forall_mem_cons, List.foldl_append]
    constructor
    · rintro ⟨_, ⟨hs, hnew, rfl⟩, hss, hnodup, hnews, rfl⟩
      simp only [SortedMap.contains_foldl_insert_eq_false_iff] at hnews
      refine ⟨⟨hs, hss⟩, ⟨s.nodup_operations, hnodup, ?_⟩, ⟨hnew, fun e he => (hnews e he).2⟩, by rw [List.append_assoc]⟩
      rintro _ hfirst _ hlater rfl
      obtain ⟨e, he, hname⟩ := List.mem_map.mp hfirst
      obtain ⟨e', he', rfl⟩ := List.mem_map.mp hlater
      exact (hnews e' he').1 e he hname
    · rintro ⟨⟨hs, hss⟩, ⟨-, hnodup, hdisjoint⟩, ⟨hnew, hnews⟩, rfl⟩
      refine ⟨_, ⟨hs, hnew, rfl⟩, hss, hnodup, fun e he => ?_, by rw [List.append_assoc]⟩
      refine SortedMap.contains_foldl_insert_eq_false_iff.mpr ⟨fun e' he' => ?_, hnews e he⟩
      exact hdisjoint _ (List.mem_map_of_mem he') _ (List.mem_map_of_mem he)

/-- The statements of a graph can be executed: nodes have an opcode, chains of arrows an operand, and each name is declared
once. -/
structure IsSound (ss : List Statement) : Prop where
  complete : ∀ s ∈ ss, s.IsComplete
  once : ((ss.flatMap Statement.operations).map Prod.fst).Nodup

/-- The netlist holds the operations that the statements declare and, in order, a tie for each of their arrows. -/
structure Netlist.Holds (n : Netlist) (ss : List Statement) : Prop where
  operations : ∀ name opcode, n.operations.get? name = some opcode ↔ (name, opcode) ∈ ss.flatMap Statement.operations
  ties : n.ties = ss.flatMap Statement.ties

/-- From an empty netlist statements are executed if they can be, and then the netlist holds what they say. -/
theorem foldlM_execute_empty_iff : ss.foldlM Netlist.execute ⟨∅, []⟩ = .ok n ↔ IsSound ss ∧ n.Holds ss := by
  have hlist (honce : ((ss.flatMap Statement.operations).map Prod.fst).Nodup) (name opcode : String) :
      (SortedMap.ofList (ss.flatMap Statement.operations)).get? name = some opcode ↔
        (name, opcode) ∈ ss.flatMap Statement.operations := by
    rw [SortedMap.get?_eq_some_iff]
    exact SortedMap.mem_toList_ofList fun he he' => congrArg Prod.snd (List.inj_on_of_nodup_map honce he he' rfl)
  rw [foldlM_execute_eq_ok_iff]
  constructor
  · rintro ⟨hcomplete, honce, -, rfl⟩
    exact ⟨⟨hcomplete, honce⟩, hlist honce, List.nil_append _⟩
  · rintro ⟨hsound, hholds⟩
    refine ⟨hsound.complete, hsound.once, fun e _ => rfl, ?_⟩
    obtain ⟨operations, ties⟩ := n
    have hoperations : operations = .ofList (ss.flatMap Statement.operations) := SortedMap.ext_get? fun name =>
      Option.ext fun opcode => (hholds.operations name opcode).trans (hlist hsound.once name opcode).symm
    have hties : ties = ss.flatMap Statement.ties := hholds.ties
    rw [hoperations, hties]
    rfl

/-- **Reading accepts the grammar and nothing else.** Tokens make a netlist exactly if they derive statements in which every
node has an opcode, every chain of arrows an operand, and no name is declared twice. However they derive them, the netlist
holds what the statements declare. -/
theorem Netlist.ofTokens_exact (read : Tokens) :
    ((∃ n, Netlist.ofTokens read = .ok n) ↔ ∃ ss, DerivesGraph (read.tokens.map Located.token) ss ∧ IsSound ss) ∧
    ∀ n ss, Netlist.ofTokens read = .ok n → DerivesGraph (read.tokens.map Located.token) ss → IsSound ss ∧ n.Holds ss := by
  have hexecutes {n : Netlist} {ss : List Statement} (hread : Netlist.ofTokens read = .ok n)
      (hss : DerivesGraph (read.tokens.map Located.token) ss) : IsSound ss ∧ n.Holds ss :=
    foldlM_execute_empty_iff.mp (hss.executes.symm.trans hread)
  refine ⟨⟨fun ⟨n, hread⟩ => ?_, fun ⟨ss, hss, hsound⟩ => ?_⟩, fun n ss => hexecutes⟩
  · obtain ⟨ss, hss⟩ := ofTokens_sound hread
    exact ⟨ss, hss, (hexecutes hread hss).1⟩
  · exact ⟨_, hss.executes.trans (foldlM_execute_eq_ok_iff.mpr ⟨hsound.complete, hsound.once, fun _ _ => rfl, rfl⟩)⟩

/-- Two nodes, the second without a semicolon after it, and an arrow between them, all on one line. -/
def Tokens.line : Tokens where
  tokens := [.id "digraph", .lbrace,
    .id "c", .lbracket, .id "opcode", .equals, .id "const", .rbracket, .semicolon,
    .id "s", .lbracket, .id "opcode", .equals, .id "store", .rbracket,
    .id "c", .arrow, .id "s", .lbracket, .id "operand", .equals, .id "0", .rbracket, .rbrace].map (⟨·, 1⟩)
  endLine := 1

theorem line_ofTokens_exact : ∃ n ss, Netlist.ofTokens .line = .ok n ∧ DerivesGraph (Tokens.line.tokens.map Located.token) ss ∧
    IsSound ss ∧ n.Holds ss := by
  have hconst := @DerivesStatement.chain "c" _ _ _ _ (by decide) .nil (derivesLists_attribute "opcode" "const")
  have hstore := @DerivesStatement.chain "s" _ _ _ _ (by decide) .nil (derivesLists_attribute "opcode" "store")
  have hchain := @DerivesStatement.chain "c" _ _ _ _ (by decide) (@DerivesArrows.cons "s" _ _ .nil)
    (derivesLists_attribute "operand" "0")
  have hbody := @DerivesStatements.cons _ [.semicolon] _ _ _ hconst (by simp)
    (@DerivesStatements.cons _ [] _ _ _ hstore (by simp) (@DerivesStatements.cons _ [] _ _ _ hchain (by simp) .nil))
  have hline : DerivesGraph (Tokens.line.tokens.map Located.token) _ :=
    DerivesGraph.graph (@DerivesOpening.opening none none "digraph" nofun rfl) hbody
  have hsound : IsSound [.chain "c" [] [("opcode", "const")], .chain "s" [] [("opcode", "store")],
      .chain "c" ["s"] [("operand", "0")]] := by
    refine ⟨?_, by decide⟩
    simp only [List.forall_mem_cons]
    exact ⟨⟨"const", [], [], rfl, nofun⟩, ⟨"store", [], [], rfl, nofun⟩, ⟨"0", 0, ⟨[], [], rfl, nofun⟩, by decide⟩, nofun⟩
  obtain ⟨hiff, hholds⟩ := Netlist.ofTokens_exact .line
  obtain ⟨n, hn⟩ := hiff.mpr ⟨_, hline, hsound⟩
  exact ⟨n, _, hn, hline, hholds n _ hn hline⟩

end Dot
end PlaceRoute
