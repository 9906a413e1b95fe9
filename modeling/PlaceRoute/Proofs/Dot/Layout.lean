import Mathlib.Data.Bool.AllAny
import Mathlib.Data.List.Infix
import PlaceRoute.Proofs.Dot.Lexer

/-!
# Tokens as they can be written

`Layout before apart text located` says that a text, which comes after `before`, is made of written tokens (`Writes`) and of
separators (`Separates`) with one of these at least between two tokens; each token stands on the line on which it starts. The
lexer gives back the tokens of every such text with their lines (`lex_layout`): each separator is passed over
(`lexFrom_separates`), each token is read up to its end (`lexFrom_writes`), and in both cases the lexer counts the line breaks
and knows where a line starts.
-/

namespace PlaceRoute
namespace Dot

/-! ## Layouts -/

/-- An ASCII letter or digit, an underscore, a point, or a character above ASCII. -/
def WordChar (c : Char) : Prop :=
  ('a' ≤ c ∧ c ≤ 'z') ∨ ('A' ≤ c ∧ c ≤ 'Z') ∨ ('0' ≤ c ∧ c ≤ '9') ∨ c = '_' ∨ c = '.' ∨ 128 ≤ c.toNat

instance (c : Char) : Decidable (WordChar c) := inferInstanceAs (Decidable (_ ∨ _))

/-- The ways to write a token: marks in one, and identifiers bare, with a minus at the start only, or in quotes. -/
inductive Writes : Token → List Char → Prop where
  | lbrace : Writes .lbrace ['{']
  | rbrace : Writes .rbrace ['}']
  | lbracket : Writes .lbracket ['[']
  | rbracket : Writes .rbracket [']']
  | equals : Writes .equals ['=']
  | semicolon : Writes .semicolon [';']
  | comma : Writes .comma [',']
  | arrow : Writes .arrow ['-', '>']
  | undirectedEdge : Writes .undirectedEdge ['-', '-']
  | word {c : Char} {word : List Char} (hc : WordChar c ∨ c = '-') (hword : ∀ d ∈ word, WordChar d) :
      Writes (.id (String.ofList (c :: word))) (c :: word)
  | quoted {name : String} (h : Quotable name) : Writes (.id name) (quoted name)

/-- The blanks of ASCII. -/
def blanks : List Char := [' ', '\t', '\n', '\x0c', '\r']

/-- Only blanks stand between the start of the last line of a text and its end. -/
inductive StartsLine : List Char → Prop where
  | start : StartsLine []
  | newLine {before : List Char} : StartsLine (before ++ ['\n'])
  | blank {before : List Char} {c : Char} (hc : c ∈ blanks) (h : StartsLine before) : StartsLine (before ++ [c])

/-- What separates tokens after some text: a blank, a comment of either kind, or a hash and the rest of a line that it begins. -/
inductive Separates (before : List Char) : List Char → Prop where
  | blank {c : Char} (hc : c ∈ blanks) : Separates before [c]
  | line {text : List Char} (h : '\n' ∉ text) : Separates before ('/' :: '/' :: (text ++ ['\n']))
  | block {text : List Char} (h : ¬['*', '/'] <:+: text) : Separates before ('/' :: '*' :: (text ++ ['*', '/']))
  | hash {text : List Char} (h : '\n' ∉ text) (hline : StartsLine before) : Separates before ('#' :: (text ++ ['\n']))

/-- A text of tokens and separators that comes after some other text, with the tokens on their lines. A token may come next where
nothing or a separator stands before. -/
inductive Layout : List Char → Bool → List Char → List Located → Prop where
  | nil {before : List Char} {apart : Bool} : Layout before apart [] []
  | separator {before separator text : List Char} {apart : Bool} {located : List Located} (hs : Separates before separator)
      (h : Layout (before ++ separator) true text located) : Layout before apart (separator ++ text) located
  | token {before word text : List Char} {token : Token} {located : List Located} (hw : Writes token word)
      (h : Layout (before ++ word) false text located) :
      Layout before true (word ++ text) (⟨token, 1 + before.count '\n'⟩ :: located)

variable {before text rest word : List Char} {token : Token} {located : List Located} {apart : Bool} {c : Char} {line : Nat}
  {clear : Bool}

/-! ## Characters -/

theorem isWordChar_iff : isWordChar c = true ↔ WordChar c := by
  unfold isWordChar isIdChar WordChar Char.isAlphanum Char.isAlpha Char.isUpper Char.isLower Char.isDigit
  simp only [Bool.or_eq_true, Bool.and_eq_true, decide_eq_true_iff, beq_iff_eq, ge_iff_le, Char.le_def]
  tauto

theorem isWordStart_iff : isWordStart c = true ↔ WordChar c ∨ c = '-' := by
  unfold isWordStart
  rw [Bool.or_eq_true, isWordChar_iff, beq_iff_eq]

theorem isBlank_of_mem (hc : c ∈ blanks) : isBlank c = true := List.all_eq_true.mp (by decide) c hc

/-- Only a blank ends a text at the start of a line. -/
theorem StartsLine.mem_blanks (h : StartsLine (before ++ [c])) : c ∈ blanks := by
  generalize htext : before ++ [c] = text at h
  cases h with
  | start => exact absurd htext (by simp)
  | newLine =>
    obtain rfl := (List.append_singleton_inj.mp htext).2
    decide
  | blank hc _ =>
    obtain rfl := (List.append_singleton_inj.mp htext).2
    exact hc

/-! ## Separators -/

theorem dropWhile_line (h : '\n' ∉ text) : (text ++ '\n' :: rest).dropWhile (· ≠ '\n') = '\n' :: rest := by
  have hall : ∀ d ∈ text, decide (d ≠ '\n') = true := fun d hd => decide_eq_true fun heq => h (heq ▸ hd)
  rw [List.dropWhile_append_of_pos hall, List.dropWhile_cons]
  rfl

/-- The first mark that can end a block comment ends it. -/
theorem closeComment_block (h : ¬['*', '/'] <:+: text) :
    closeComment line (text ++ '*' :: '/' :: rest) = .ok (line + text.count '\n', rest) := by
  induction text generalizing line with
  | nil => rfl
  | cons c text ih =>
    have hopen (after : List Char) (hc : c = '*') : text ++ '*' :: '/' :: rest ≠ '/' :: after := by
      intro heq
      cases text with
      | nil => cases heq
      | cons d text =>
        obtain rfl : d = '/' := (List.cons.inj heq).1
        exact h ⟨[], text, by rw [hc]; rfl⟩
    rw [List.cons_append, closeComment.eq_3 _ _ _ hopen, ih fun hinfix => h (List.infix_cons hinfix), List.count_cons, newLines]
    by_cases hc : c = '\n'
    · simp [hc]
      omega
    · simp [hc]

/-- A separator is passed over: the line breaks in it are counted, and a line that starts in or before it is seen to start. -/
theorem lexFrom_separates {separator : List Char} (hs : Separates before separator) (hclear : StartsLine before → clear = true) :
    ∃ clear', (StartsLine (before ++ separator) → clear' = true) ∧
      lexFrom line clear (separator ++ rest) = lexFrom (line + separator.count '\n') clear' rest := by
  cases hs with
  | @blank c hc =>
    by_cases hline : c = '\n'
    · subst hline
      exact ⟨true, fun _ => rfl, lexFrom_newLine⟩
    · refine ⟨clear, fun h => hclear ?_, ?_⟩
      · generalize htext : before ++ [c] = text at h
        cases h with
        | start => exact absurd htext (by simp)
        | newLine => exact absurd (List.append_singleton_inj.mp htext).2 hline
        | blank _ h => exact (List.append_singleton_inj.mp htext).1 ▸ h
      · rw [List.singleton_append, lexFrom_blank (isBlank_of_mem hc) hline, List.count_singleton]
        simp [hline]
  | @line text h =>
    refine ⟨true, fun _ => rfl, ?_⟩
    have hcount : ('/' :: '/' :: (text ++ ['\n'])).count '\n' = 1 := by simp [List.count_eq_zero_of_not_mem h]
    rw [hcount, List.cons_append, lexFrom, if_neg (by decide), if_neg (by decide), if_pos (Or.inl ⟨rfl, rfl⟩), List.cons_append,
      List.append_assoc, List.dropWhile_cons_of_pos (by decide), List.singleton_append, dropWhile_line h, lexFrom_newLine]
  | @block text h =>
    refine ⟨false, fun hstart => ?_, ?_⟩
    · have hlast : before ++ '/' :: '*' :: (text ++ ['*', '/']) = (before ++ '/' :: '*' :: (text ++ ['*'])) ++ ['/'] := by simp
      rw [hlast] at hstart
      exact absurd hstart.mem_blanks (by decide)
    · have hcount : ('/' :: '*' :: (text ++ ['*', '/'])).count '\n' = text.count '\n' := by simp
      have hclose : closeComment line (text ++ ['*', '/'] ++ rest) = .ok (line + text.count '\n', rest) := by
        rw [List.append_assoc]
        exact closeComment_block h
      rw [hcount]
      show lexFrom line clear ('/' :: '*' :: (text ++ ['*', '/'] ++ rest)) = _
      rw [lexFrom, if_neg (by decide), if_neg (by decide), if_neg (by simp), if_pos ⟨rfl, rfl⟩]
      split
      · next hfail => cases hclose.symm.trans hfail
      · next hdone =>
        cases hclose.symm.trans hdone
        rfl
  | @hash text h hline =>
    refine ⟨true, fun _ => rfl, ?_⟩
    have hcount : ('#' :: (text ++ ['\n'])).count '\n' = 1 := by simp [List.count_eq_zero_of_not_mem h]
    rw [hcount, List.cons_append, lexFrom, if_neg (by decide), if_neg (by decide), if_pos (Or.inr ⟨rfl, hclear hline⟩),
      List.append_assoc, List.singleton_append, dropWhile_line h, lexFrom_newLine]

/-! ## Tokens -/

/-- A text before which a word ends. -/
def EndsWord (text : List Char) : Prop := ∀ c ∈ text.head?, c ∈ blanks ∨ c = '/' ∨ c = '#'

/-- No token follows a token at once. -/
theorem Layout.endsWord (h : Layout before false text located) : EndsWord text := by
  generalize hapart : false = apart at h
  cases h with
  | nil => nofun
  | separator hs h =>
    intro c hc
    cases hs with
    | blank hblank =>
      cases hc
      exact Or.inl hblank
    | line => exact Or.inr (Or.inl (Option.some.inj hc).symm)
    | block => exact Or.inr (Or.inl (Option.some.inj hc).symm)
    | hash => exact Or.inr (Or.inr (Option.some.inj hc).symm)
  | token => cases hapart

theorem EndsWord.not_word (h : EndsWord text) (hc : c ∈ text.head?) : isWordChar c = false ∧ c ≠ '>' ∧ c ≠ '-' := by
  have hblanks : ∀ c ∈ blanks, isWordChar c = false ∧ c ≠ '>' ∧ c ≠ '-' := List.all_iff_forall_prop.mp (by decide)
  rcases h c hc with hc | rfl | rfl
  · exact hblanks c hc
  · decide
  · decide

/-- Quotes add no line breaks. -/
theorem count_quoted (name : String) : (quoted name).count '\n' = name.toList.count '\n' := by
  have hescape (text : List Char) : (text.flatMap escape).count '\n' = text.count '\n' := by
    induction text with
    | nil => rfl
    | cons c text ih =>
      rw [List.flatMap_cons, List.count_append, ih, escape, List.count_cons]
      split
      · next hc => simp [hc]
      · next hc => rw [List.count_singleton, Nat.add_comm]
  simp [quoted, hescape]

/-- A written token is read up to its end. -/
theorem lexFrom_writes (hw : Writes token word) (hrest : EndsWord rest) :
    lexFrom line clear (word ++ rest) = (lexFrom (line + word.count '\n') false rest).map (·.cons token line) := by
  cases hw with
  | @word c word hc hword =>
    have hword (d : Char) (hd : d ∈ word) : isWordChar d = true := isWordChar_iff.mpr (hword d hd)
    have hc : isWordStart c = true := isWordStart_iff.mpr hc
    have hmark (d : Char) (hd : d ∈ (word ++ rest).head?) : d ≠ '>' ∧ d ≠ '-' := by
      cases word with
      | nil => exact (hrest.not_word hd).2
      | cons e word =>
        cases hd
        have he := hword d List.mem_cons_self
        constructor <;> (rintro rfl; revert he; decide)
    have hbreak : '\n' ∉ c :: word := by
      intro hmem
      rcases List.mem_cons.mp hmem with rfl | hmem
      · exact absurd hc (by decide)
      · exact absurd (hword _ hmem) (by decide)
    rw [List.count_eq_zero_of_not_mem hbreak]
    exact lexFrom_word hc (fun _ => ⟨fun h => (hmark _ h).1 rfl, fun h => (hmark _ h).2 rfl⟩) (List.all_eq_true.mpr hword)
      fun d hd => (hrest.not_word hd).1
  | quoted h => rw [lexFrom_quoted h, count_quoted]
  | arrow => exact lexFrom_arrow
  | undirectedEdge =>
    show lexFrom line clear ('-' :: '-' :: rest) = _
    rw [lexFrom]
    simp [isBlank, punctuation?]
    rfl
  | _ => exact lexFrom_mark rfl

/-- No token ends with a blank. -/
theorem Writes.exists_last (hw : Writes token word) : ∃ text c, word = text ++ [c] ∧ c ∉ blanks := by
  cases hw with
  | @word c word hc hword =>
    have hne : c :: word ≠ [] := List.cons_ne_nil c word
    refine ⟨(c :: word).dropLast, (c :: word).getLast hne, (List.dropLast_append_getLast hne).symm, fun hblank => ?_⟩
    have hblanks : ∀ c ∈ blanks, isWordStart c = false := List.all_iff_forall_prop.mp (by decide)
    have hstart : isWordStart ((c :: word).getLast hne) = true := by
      rw [isWordStart_iff]
      rcases List.mem_cons.mp (List.getLast_mem hne) with heq | hmem
      · rw [heq]
        exact hc
      · exact Or.inl (hword _ hmem)
    rw [hblanks _ hblank] at hstart
    cases hstart
  | @quoted name => exact ⟨'"' :: name.toList.flatMap escape, '"', rfl, by decide⟩
  | arrow => exact ⟨['-'], '>', rfl, by decide⟩
  | undirectedEdge => exact ⟨['-'], '-', rfl, by decide⟩
  | _ => exact ⟨[], _, rfl, by decide⟩

/-- So after a token no line starts. -/
theorem Writes.not_startsLine (hw : Writes token word) : ¬StartsLine (before ++ word) := by
  obtain ⟨text, c, rfl, hc⟩ := hw.exists_last
  rw [← List.append_assoc]
  exact fun h => hc h.mem_blanks

/-! ## Whole texts -/

/-- The tokens of a layout are read from where it starts. The lexer is at the line of what stands before, and knows if only blanks
stand before on it. -/
theorem lexFrom_layout (h : Layout before apart text located) (hclear : StartsLine before → clear = true) :
    lexFrom (1 + before.count '\n') clear text = .ok ⟨located, 1 + (before ++ text).count '\n'⟩ := by
  induction h generalizing clear with
  | nil => rw [lexFrom, List.append_nil]
  | @separator before separator text _ located hs _ ih =>
    obtain ⟨clear', hclear', hlex⟩ : ∃ clear', (StartsLine (before ++ separator) → clear' = true) ∧
        lexFrom (1 + before.count '\n') clear (separator ++ text) =
          lexFrom (1 + before.count '\n' + separator.count '\n') clear' text := lexFrom_separates hs hclear
    rw [hlex, Nat.add_assoc, ← List.count_append, ih hclear', List.append_assoc]
  | @token before word text token located hw h ih =>
    rw [lexFrom_writes hw h.endsWord, Nat.add_assoc, ← List.count_append,
      ih fun hstart => absurd hstart hw.not_startsLine, List.append_assoc]
    rfl

/-- **Lexing undoes writing.** The tokens of a text are read in their order, each with the line that it starts on. -/
theorem lex_layout (h : Layout [] true text located) :
    lex (String.ofList text) = .ok ⟨located, 1 + text.count '\n'⟩ := by
  unfold lex
  rw [String.toList_ofList]
  exact lexFrom_layout h fun _ => rfl

/-- A quoted text and a number after comments of all kinds. -/
def commented : List Char := "# h\n /*\n->*/\"a\n\\\"b\" //\n-3".toList

theorem commented_lex : Layout [] true commented [⟨.id "a\n\"b", 3⟩, ⟨.id "-3", 5⟩] ∧
    lex (String.ofList commented) = .ok ⟨[⟨.id "a\n\"b", 3⟩, ⟨.id "-3", 5⟩], 5⟩ := by
  have h : Layout [] true commented [⟨.id "a\n\"b", 3⟩, ⟨.id "-3", 5⟩] := by
    show Layout [] true ('#' :: ([' ', 'h'] ++ ['\n']) ++ ([' '] ++ ('/' :: '*' :: (['\n', '-', '>'] ++ ['*', '/']) ++
      (quoted "a\n\"b" ++ ([' '] ++ ('/' :: '/' :: ([] ++ ['\n']) ++ (['-', '3'] ++ []))))))) _
    refine .separator (.hash (by decide) .start) (.separator (.blank (by decide)) (.separator (.block (by decide)) ?_))
    refine .token (.quoted (by decide)) (.separator (.blank (by decide)) (.separator (.line (by decide)) ?_))
    exact .token (.word (Or.inr rfl) (List.forall_mem_singleton.mpr (by decide))) .nil
  exact ⟨h, lex_layout h⟩

end Dot
end PlaceRoute
