import PlaceRoute.Proofs.Dot.Lexer
import PlaceRoute.Proofs.Dot.Parser
import PlaceRoute.Proofs.Design.Wiring

/-!
# Reading what was written

`Design.ofDot` on the text that `Netlist.print` writes, for netlists whose names can stand in quotes
(`Netlist.Printable`). The text has the tokens of its lines (`exists_lex_print`), and the lines declare the operations
and make the ties again, but for keywords: quotes do not keep a name from being taken for one. An operation named
`graph`, `node` or `edge` is read over (`Design.ofDot_print`), and one named `subgraph`, like a tie from any of the four,
makes the text an error (`Design.exists_ofDot_print_eq_error`). So reading gives the netlist's design exactly if no
operation is named like a keyword (`Design.ofDot_print_eq_new`).
-/

namespace PlaceRoute
namespace Dot

variable {k : Nat} {c : Char}

/-! ## Numbers -/

theorem digitValue?_of_isDigit (h : c.isDigit = true) : Text.digitValue? c = some (c.toNat - '0'.toNat) := by
  unfold Char.isDigit at h
  rw [Bool.and_eq_true, decide_eq_true_eq, decide_eq_true_eq] at h
  exact if_pos h

theorem isDigit_of_mem_repr (h : c ∈ k.repr.toList) : c.isDigit = true := by
  rw [Nat.toList_repr] at h
  exact Nat.isDigit_of_mem_toDigits (by decide) (by decide) h

/-- The decimal digits of a number stand for the number. -/
theorem numberOf_repr : Text.numberOf 10 k.repr.toList = k := by
  have hdigits (digits : List Char) (hdigit : ∀ c ∈ digits, c.isDigit = true) (n : Nat) :
      digits.foldl (fun n c => 10 * n + (Text.digitValue? c).getD 0) n = Nat.ofDigitChars 10 digits n := by
    induction digits generalizing n with
    | nil => rfl
    | cons c digits ih =>
      rw [List.foldl_cons, digitValue?_of_isDigit (hdigit c List.mem_cons_self)]
      exact ih (fun d hd => hdigit d (List.mem_cons_of_mem c hd)) _
  unfold Text.numberOf
  rw [hdigits _ (fun c => isDigit_of_mem_repr), Nat.toList_repr]
  exact Nat.ofDigitChars_toDigits (by decide) (by decide)

theorem repr_ne_nil : k.repr.toList ≠ [] := by
  rw [Nat.toList_repr]
  exact Nat.toDigits_ne_nil

/-- A written operand is read as the number that it is. -/
theorem readOperand?_repr (h : k < UInt32.size) : readOperand? k.repr = some k := by
  have hall : k.repr.toList.all Char.isDigit = true := List.all_eq_true.mpr fun c => isDigit_of_mem_repr
  unfold readOperand?
  extract_lets digits n
  have hdigits : digits = k.repr.toList := by
    unfold digits
    split
    · next digits heq =>
      have hdigit := isDigit_of_mem_repr (k := k) (c := '+') (by rw [heq]; exact List.mem_cons_self)
      exact absurd hdigit (by decide)
    · rfl
  have hn : n = k := by
    unfold n
    rw [hdigits, numberOf_repr]
  have hnumber : ¬(digits.isEmpty = true ∨ (!digits.all Char.isDigit) = true) := by
    rw [hdigits, hall]
    rintro (hempty | hfalse)
    · exact repr_ne_nil (List.isEmpty_iff.mp hempty)
    · cases hfalse
  rw [if_neg hnumber, if_pos (by rw [hn]; exact h), hn]

/-! ## The tokens of a netlist -/

theorem yields_lineEnd : Yields "];\n".toList [.rbracket, .semicolon] :=
  (yields_mark rfl).append ((yields_mark rfl).append yields_newLine)

/-- An opening bracket and the name of an attribute. -/
theorem yields_key (c : Char) (word : List Char) (hc : isWordStart c = true) (hminus : c ≠ '-')
    (hword : word.all isWordChar = true) :
    Yields ([' ', '['] ++ (c :: word ++ ['='])) [.lbracket, .id (String.ofList (c :: word)), .equals] :=
  (yields_space.append (yields_mark rfl)).append (yields_word c word hc hminus hword (by decide) (yields_mark rfl))

theorem yields_operationLine {name opcode : String} (hname : Quotable name) (hopcode : Quotable opcode) :
    Yields (operationLine name opcode) (nodeTokens name "opcode" opcode) := by
  have hname := (yields_space.append yields_space).append (yields_quoted hname)
  have hkey := yields_key 'o' ['p', 'c', 'o', 'd', 'e'] (by decide) (by decide) (by decide)
  exact ((hname.append hkey).append (yields_quoted hopcode)).append yields_lineEnd

theorem yields_tieLine {tie : NamedTie} (hsrc : Quotable tie.src) (hdst : Quotable tie.dst) :
    Yields (tieLine tie) (edgeTokens tie.src tie.dst "operand" tie.operand.repr) := by
  obtain ⟨c, word, hrepr⟩ := List.exists_cons_of_ne_nil (repr_ne_nil (k := tie.operand))
  have hdigit : ∀ d ∈ c :: word, d.isDigit = true := fun d hd => isDigit_of_mem_repr (k := tie.operand) (hrepr ▸ hd)
  have hword {d : Char} (h : d ∈ c :: word) : isWordChar d = true := by
    simp [isWordChar, isIdChar, Char.isAlphanum, hdigit d h]
  have hminus : c ≠ '-' := by
    rintro rfl
    exact absurd (hdigit '-' List.mem_cons_self) (by decide)
  have hname : String.ofList (c :: word) = tie.operand.repr := by
    rw [← hrepr, String.ofList_toList]
  have hvalue := yields_word c word (by simp [isWordStart, hword]) hminus
    (List.all_eq_true.mpr fun d hd => hword (List.mem_cons_of_mem c hd)) (by decide) yields_lineEnd
  have hkey := yields_key 'o' ['p', 'e', 'r', 'a', 'n', 'd'] (by decide) (by decide) (by decide)
  have hsrc := (yields_space.append yields_space).append (yields_quoted hsrc)
  have harrow := (yields_space.append yields_arrow).append yields_space
  have hline := (((hsrc.append harrow).append (yields_quoted hdst)).append hkey).append hvalue
  unfold tieLine
  rw [List.append_assoc, hrepr]
  rw [hname] at hline
  exact hline

/-- The tokens of the lines of a netlist. -/
def Netlist.lines (n : Netlist) : List Token :=
  (n.operations.toList.flatMap fun e => nodeTokens e.1 "opcode" e.2) ++
    n.ties.flatMap fun tie => edgeTokens tie.src tie.dst "operand" tie.operand.repr

/-- A netlist whose names and opcodes can stand in quotes and whose operands have 32 bits. -/
structure Netlist.Printable (n : Netlist) : Prop where
  name : ∀ e ∈ n.operations.toList, Quotable e.1
  opcode : ∀ e ∈ n.operations.toList, Quotable e.2
  src : ∀ tie ∈ n.ties, Quotable tie.src
  dst : ∀ tie ∈ n.ties, Quotable tie.dst
  operand : ∀ tie ∈ n.ties, tie.operand < UInt32.size

variable {n : Netlist}

/-- The tokens of a written netlist. -/
theorem exists_lex_print (hn : n.Printable) :
    ∃ read : Tokens, read.tokens.map Located.token = graphTokens n.lines ∧ lex n.print = .ok read := by
  have hopen : Yields "digraph \x7b\n".toList [.id "digraph", .lbrace] :=
    yields_word 'd' ['i', 'g', 'r', 'a', 'p', 'h'] (by decide) (by decide) (by decide) (by decide)
      (yields_space.append ((yields_mark rfl).append yields_newLine))
  have hbody : Yields n.body n.lines :=
    (Yields.flatMap fun e he => yields_operationLine (hn.name e he) (hn.opcode e he)).append
      (Yields.flatMap fun tie ht => yields_tieLine (hn.src tie ht) (hn.dst tie ht))
  have hclose : Yields "\x7d\n".toList [.rbrace] := (yields_mark rfl).append yields_newLine
  have hall := (hopen.append hbody).append hclose
  rw [List.append_assoc] at hall
  exact hall.lex

/-! ## The netlist of the tokens -/

/-- A statement for each operation declares them all, in order. -/
theorem foldlM_declare {m : SortedMap String String} {l : List (String × String)}
    (h : m.toList = n.operations.toList ++ l) :
    l.foldlM (fun n e => n.execute (.chain e.1 [] [("opcode", e.2)])) n = .ok ⟨m, n.ties⟩ := by
  induction l generalizing n with
  | nil =>
    rw [List.append_nil] at h
    rw [SortedMap.ext_toList h]
    rfl
  | cons e l ih =>
    have hlt : ∀ e' ∈ n.operations.toList, compare e'.1 e.1 = .lt := by
      have hincreasing := m.increasing
      rw [h] at hincreasing
      exact fun e' he' => (List.pairwise_append.mp hincreasing).2.2 e' he' e List.mem_cons_self
    have hnew : n.operations.contains e.1 = false := by
      unfold SortedMap.contains
      rw [Option.isSome_eq_false_iff, Option.isNone_iff_eq_none, Option.eq_none_iff_forall_ne_some]
      intro opcode hget
      have hlt := hlt _ (SortedMap.get?_eq_some_iff.mp hget)
      exact absurd (hlt.symm.trans Std.ReflCmp.compare_self) (by decide)
    have hstep : n.execute (.chain e.1 [] [("opcode", e.2)]) =
        .ok { n with operations := n.operations.insert e.1 e.2 } := by
      unfold Netlist.execute
      simp [Attributes.get?, hnew]
    rw [List.foldlM_cons, hstep, ok_bind]
    refine ih ?_
    rw [SortedMap.toList_insert_of_lt hlt, List.append_assoc]
    exact h

/-- A statement for each tie makes them all, in order. -/
theorem foldlM_tie {ties : List NamedTie} (h : ∀ tie ∈ ties, tie.operand < UInt32.size) :
    ties.foldlM (fun n tie => n.execute (.chain tie.src [tie.dst] [("operand", tie.operand.repr)])) n =
      .ok { n with ties := n.ties ++ ties } := by
  induction ties generalizing n with
  | nil => rw [List.append_nil]; rfl
  | cons tie ties ih =>
    have hstep : n.execute (.chain tie.src [tie.dst] [("operand", tie.operand.repr)]) =
        .ok { n with ties := n.ties ++ [tie] } := by
      unfold Netlist.execute
      simp [Attributes.get?, readOperand?_repr (h tie List.mem_cons_self)]
    rw [List.foldlM_cons, hstep, ok_bind, ih fun tie' htie' => h tie' (List.mem_cons_of_mem tie htie')]
    rw [List.append_assoc]
    rfl

/-- What the lines of a netlist are read as, when none is refused: the operations whose names are no words for defaults,
and all ties. -/
theorem Netlist.ofTokens_lines {read : Tokens} (hn : n.Printable)
    (h : read.tokens.map Located.token = graphTokens n.lines)
    (hsub : ∀ name ∈ n.operations.keys, ¬Spells "subgraph" name) (hsrc : ∀ tie ∈ n.ties, ¬IsKeyword tie.src) :
    Netlist.ofTokens read = .ok ⟨n.operations.filter fun name _ => !decide (IsDefaults name), n.ties⟩ := by
  have hoperation : ∀ e ∈ n.operations.toList, Reads (nodeTokens e.1 "opcode" e.2) fun n =>
      if (!decide (IsDefaults e.1)) = true then n.execute (.chain e.1 [] [("opcode", e.2)]) else pure n := by
    intro e he
    by_cases hdefaults : IsDefaults e.1
    · simpa [hdefaults, pure, Except.pure] using reads_defaults hdefaults
    · have hname : ¬IsKeyword e.1 := fun hname => hname.elim (hsub e.1 (List.mem_map_of_mem he)) hdefaults
      simpa [hdefaults] using reads_node hname
  have htie : ∀ tie ∈ n.ties, Reads (edgeTokens tie.src tie.dst "operand" tie.operand.repr) fun n =>
      n.execute (.chain tie.src [tie.dst] [("operand", tie.operand.repr)]) := fun tie ht => reads_edge (hsrc tie ht)
  rw [ofTokens_of_reads h ((Reads.flatMap hoperation).append (Reads.flatMap htie)), ← List.foldlM_filter,
    foldlM_declare (m := n.operations.filter fun name _ => !decide (IsDefaults name)) rfl, ok_bind, foldlM_tie hn.operand]
  rfl

/-- A name or a source that no line can start with makes the lines an error. -/
theorem Netlist.refuses_lines
    (h : (∃ name ∈ n.operations.keys, Spells "subgraph" name) ∨ ∃ tie ∈ n.ties, IsKeyword tie.src) : Refuses n.lines := by
  have hoperation (name opcode : String) :
      (∃ f, Reads (nodeTokens name "opcode" opcode) f) ∨ Refuses (nodeTokens name "opcode" opcode) := by
    by_cases hname : IsKeyword name
    · rcases hname with hsub | hdefaults
      · exact .inr (refuses_node hsub)
      · exact .inl ⟨_, reads_defaults hdefaults⟩
    · exact .inl ⟨_, reads_node hname⟩
  have htie (src dst operand : String) :
      (∃ f, Reads (edgeTokens src dst "operand" operand) f) ∨ Refuses (edgeTokens src dst "operand" operand) := by
    by_cases hsrc : IsKeyword src
    · exact .inr (refuses_edge hsrc)
    · exact .inl ⟨_, reads_edge hsrc⟩
  unfold Netlist.lines
  rw [List.flatMap_def, List.flatMap_def, ← List.flatten_append]
  have hlines : ∀ line ∈ n.operations.toList.map (fun e => nodeTokens e.1 "opcode" e.2) ++
      n.ties.map (fun tie => edgeTokens tie.src tie.dst "operand" tie.operand.repr),
      (∃ f, Reads line f) ∨ Refuses line := by
    intro line hline
    rcases List.mem_append.mp hline with hline | hline
    · obtain ⟨e, -, rfl⟩ := List.mem_map.mp hline
      exact hoperation e.1 e.2
    · obtain ⟨tie, -, rfl⟩ := List.mem_map.mp hline
      exact htie tie.src tie.dst tie.operand.repr
  rcases h with ⟨name, hname, hsub⟩ | ⟨tie, hmem, hsrc⟩
  · obtain ⟨e, he, rfl⟩ := List.mem_map.mp hname
    exact .flatten (List.mem_append_left _ (List.mem_map_of_mem he)) (refuses_node hsub) hlines
  · exact .flatten (List.mem_append_right _ (List.mem_map_of_mem hmem)) (refuses_edge hsrc) hlines

end Dot

namespace Design
open Dot

variable {n : Netlist} {duplicates : SortedSet String} {d : Design}

/-- Of a written netlist all is read but the operations that are named like a word for defaults. -/
theorem ofDot_print (hn : n.Printable) (hsub : ∀ name ∈ n.operations.keys, ¬Spells "subgraph" name)
    (hsrc : ∀ tie ∈ n.ties, ¬IsKeyword tie.src) : Design.ofDot n.print duplicates =
      (Design.new (n.operations.filter fun name _ => !decide (IsDefaults name)) n.ties duplicates).mapError .design := by
  obtain ⟨read, htokens, hlex⟩ := exists_lex_print hn
  unfold Design.ofDot
  rw [hlex]
  simp only [Except.mapError, ok_bind]
  rw [Netlist.ofTokens_lines hn htokens hsub hsrc]
  rfl

/-- No design is read where an operation is named `subgraph` or a tie comes from a keyword. -/
theorem exists_ofDot_print_eq_error (hn : n.Printable)
    (h : (∃ name ∈ n.operations.keys, Spells "subgraph" name) ∨ ∃ tie ∈ n.ties, IsKeyword tie.src) :
    ∃ e, Design.ofDot n.print duplicates = .error (.dot e) := by
  obtain ⟨read, htokens, hlex⟩ := exists_lex_print hn
  obtain ⟨e, he⟩ := ofTokens_of_refuses htokens (Netlist.refuses_lines h)
  refine ⟨e, ?_⟩
  unfold Design.ofDot
  rw [hlex]
  simp only [Except.mapError, ok_bind]
  rw [he]
  rfl

/-- A written netlist without keywords is read as it is. -/
theorem ofDot_print_of_not_keyword (hn : n.Printable) (hkeys : ∀ name ∈ n.operations.keys, ¬IsKeyword name)
    (hsrc : ∀ tie ∈ n.ties, ¬IsKeyword tie.src) :
    Design.ofDot n.print duplicates = (Design.new n.operations n.ties duplicates).mapError .design := by
  have hall : n.operations.filter (fun name _ => !decide (IsDefaults name)) = n.operations := by
    refine SortedMap.ext_toList (List.filter_eq_self.mpr fun e he => ?_)
    have hname : ¬IsDefaults e.1 := fun h => hkeys e.1 (List.mem_map_of_mem he) (.inr h)
    simpa using hname
  rw [ofDot_print hn (fun name hname h => hkeys name hname (.inl h)) hsrc, hall]

/-- Reading gives the design of a written netlist only if no operation is named like a keyword: one that was read over
would be missing. -/
theorem not_keyword_of_ofDot_print (hn : n.Printable) (hd : Design.new n.operations n.ties duplicates = .ok d)
    (hread : Design.ofDot n.print duplicates = .ok d) : ∀ name ∈ n.operations.keys, ¬IsKeyword name := by
  intro name hname hkeyword
  by_cases hrefused : (∃ name ∈ n.operations.keys, Spells "subgraph" name) ∨ ∃ tie ∈ n.ties, IsKeyword tie.src
  · obtain ⟨e, he⟩ : ∃ e, Design.ofDot n.print duplicates = .error (.dot e) := exists_ofDot_print_eq_error hn hrefused
    rw [hread] at he
    cases he
  · push Not at hrefused
    rw [ofDot_print hn hrefused.1 hrefused.2] at hread
    have hlength := (length_operations (mapError_eq_ok hread)).symm.trans (length_operations hd)
    have hall := List.length_filter_eq_length_iff.mp hlength
    obtain ⟨e, he, rfl⟩ := List.mem_map.mp hname
    have hdefaults : ¬IsDefaults e.1 := by simpa using hall e he
    exact hkeyword.elim (hrefused.1 _ hname) hdefaults

/-- **Round trip.** The text of a netlist gives its design, or the error of its ties, when no line starts with a keyword;
a netlist that has a design is read as that design only then. -/
theorem ofDot_print_eq_new (hn : n.Printable) :
    ((∀ name ∈ n.operations.keys, ¬IsKeyword name) → (∀ tie ∈ n.ties, ¬IsKeyword tie.src) →
      Design.ofDot n.print duplicates = (Design.new n.operations n.ties duplicates).mapError .design) ∧
    ∀ d, Design.new n.operations n.ties duplicates = .ok d →
      (Design.ofDot n.print duplicates = .ok d ↔ ∀ name ∈ n.operations.keys, ¬IsKeyword name) := by
  refine ⟨ofDot_print_of_not_keyword hn, fun d hd => ⟨not_keyword_of_ofDot_print hn hd, fun hkeys => ?_⟩⟩
  rw [ofDot_print_of_not_keyword hn hkeys fun tie htie => hkeys _ (src_mem_keys hd htie), hd]
  rfl

/-- Operations whose names are empty, and a line break with a quote after it. -/
def quotes : Netlist := ⟨.ofList [("", "const"), ("\n\"", "a\\\"dd")], [⟨"", "\n\"", 7⟩]⟩

theorem quotes_ofDot_print : quotes.Printable ∧ (∀ name ∈ quotes.operations.keys, ¬IsKeyword name) ∧
    (∀ tie ∈ quotes.ties, ¬IsKeyword tie.src) ∧ (Design.new quotes.operations quotes.ties ∅).toOption.isSome = true ∧
    Design.ofDot quotes.print ∅ = (Design.new quotes.operations quotes.ties ∅).mapError .design := by
  have hquotes : quotes.Printable := ⟨by decide, by decide, by decide, by decide, by decide⟩
  have hkeys : ∀ name ∈ quotes.operations.keys, ¬IsKeyword name := by decide
  have hsrc : ∀ tie ∈ quotes.ties, ¬IsKeyword tie.src := by decide
  exact ⟨hquotes, hkeys, hsrc, by decide, (ofDot_print_eq_new hquotes).1 hkeys hsrc⟩

/-- One operation, whose name is a word for defaults. -/
def hidden : Netlist := ⟨.ofList [("node", "add")], []⟩

example : hidden.print = "digraph \x7b\n  \"node\" [opcode=\"add\"];\n\x7d\n" := by decide

/-- The operation is read over. -/
theorem hidden_ofDot_print_ne : hidden.Printable ∧
    Design.ofDot hidden.print ∅ ≠ (Design.new hidden.operations hidden.ties ∅).mapError .design := by
  have hhidden : hidden.Printable := ⟨by decide, by decide, by decide, by decide, by decide⟩
  refine ⟨hhidden, fun heq => ?_⟩
  rw [ofDot_print hhidden (by decide) (by decide)] at heq
  have hlength := congrArg (fun result => result.toOption.map (·.operations.length)) heq
  revert hlength
  decide

end Design
end PlaceRoute
