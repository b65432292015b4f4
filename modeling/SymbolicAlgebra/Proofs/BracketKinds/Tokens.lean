/-
  Bracket kinds and tokens
  ========================
  Forgetting the kinds of the brackets of a text: every opener of a table becomes a
  round one, and so does every closer (`BracketTable.rounded`). Where every round
  bracket of the text is one of the table, no test of the lexer can tell the two
  texts apart, so their symbols are the same but for the kinds of the brackets
  (`ParserSettings.symbols_rounded`).
-/
import SymbolicAlgebra.Proofs.Grammar.Lexeme
import SymbolicAlgebra.Proofs.Printing.Spelling

namespace SymbolicAlgebra

open SymbolicAlgebra.Text

variable {table : BracketTable}

/-! ### Two computations side by side -/

/-- The second computation has a result exactly when the first has one, namely its image. -/
def Follows {ε ε' β γ : Type} (image : β → γ) (x : Except ε β) (y : Except ε' γ) : Prop :=
  match x with
  | .ok b => y = .ok (image b)
  | .error _ => ∃ cause, y = .error cause

namespace Follows

variable {ε ε' β γ β' γ' : Type} {image : β → γ}

theorem bind {image' : β' → γ'} {x : Except ε β} {y : Except ε' γ} {f : β → Except ε β'}
    {g : γ → Except ε' γ'} (first : Follows image x y)
    (next : ∀ b, x = .ok b → Follows image' (f b) (g (image b))) :
    Follows image' (x >>= f) (y >>= g) := by
  cases x with
  | ok b =>
    obtain rfl : y = .ok (image b) := first
    exact next b rfl
  | error _ =>
    obtain ⟨cause, rfl⟩ := first
    exact ⟨cause, rfl⟩

theorem refl {image : β → β} {x : Except ε β} (same : ∀ b, x = .ok b → image b = b) :
    Follows image x x := by
  cases x with
  | ok b => exact congrArg Except.ok (same b rfl).symm
  | error cause => exact ⟨cause, rfl⟩

theorem ite {c d : Prop} [Decidable c] [Decidable d] (same : c ↔ d) {x x' : Except ε β}
    {y y' : Except ε' γ} (yes : c → Follows image x y) (no : ¬ c → Follows image x' y') :
    Follows image (if c then x else x') (if d then y else y') := by
  by_cases holds : c
  · rw [if_pos holds, if_pos (same.1 holds)]
    exact yes holds
  · rw [if_neg holds, if_neg fun h => holds (same.2 h)]
    exact no holds

theorem ok_iff {x : Except ε β} {y : Except ε' γ} (h : Follows image x y) {c : γ} :
    y = .ok c ↔ ∃ b, x = .ok b ∧ image b = c := by
  cases x with
  | ok b =>
    obtain rfl : y = .ok (image b) := h
    simp
  | error _ =>
    obtain ⟨cause, rfl⟩ := h
    simp

end Follows

/-! ### Characters -/

namespace BracketTable

/-- The character without its kind of bracket. -/
def roundedChar (table : BracketTable) (c : Char) : Char :=
  if table.openers.contains c then '(' else if table.closers.contains c then ')' else c

/-- The text without its kinds of brackets. -/
def rounded (table : BracketTable) (text : String) : String :=
  String.ofList (text.toList.map table.roundedChar)

/-- Every round bracket of the text is a bracket of the table. -/
def Covers (table : BracketTable) (cs : List Char) : Prop := ∀ c ∈ cs, c ∈ round → c ∈ table

/-- A character opens, closes or is no bracket of the table. -/
theorem Valid.cases (valid : table.Valid) (c : Char) :
    (∃ b : BracketPair table, c = b.opener) ∨ (∃ b : BracketPair table, c = b.closer) ∨
      c ∉ table := by
  by_cases bracket : c ∈ table
  · obtain ⟨b, opens | closes⟩ := Token.exists_pair_of_mem valid bracket
    · exact .inl ⟨b, opens⟩
    · exact .inr (.inl ⟨b, closes⟩)
  · exact .inr (.inr bracket)

theorem mem_closers_pair (valid : table.Valid) (b : BracketPair table) :
    b.closer ∈ table.closers ∧ b.closer ∉ table.openers := by
  refine ⟨(BracketPair.mem_closers valid).2 ⟨b, rfl⟩, fun opens => ?_⟩
  obtain ⟨b', same⟩ := (BracketPair.mem_openers valid).1 opens
  have opening : b.closing = b'.opening := Symbol.eq_of_toList (by simp [same])
  have contrary := Symbol.isOpen_closing valid b
  rw [opening, Symbol.isOpen_opening valid] at contrary
  cases contrary

theorem not_mem_sides (valid : table.Valid) {c : Char} (other : c ∉ table) :
    c ∉ table.openers ∧ c ∉ table.closers := by
  refine ⟨fun opens => other (mem_of_mem_openers opens), fun closes => ?_⟩
  obtain ⟨b, rfl⟩ := (BracketPair.mem_closers valid).1 closes
  exact other (mem_of_mem_pairs b.listed).2

@[simp] theorem roundedChar_opener (valid : table.Valid) (b : BracketPair table) :
    table.roundedChar b.opener = '(' := by
  have opens := (BracketPair.mem_openers valid).2 ⟨b, rfl⟩
  simp [roundedChar, opens]

@[simp] theorem roundedChar_closer (valid : table.Valid) (b : BracketPair table) :
    table.roundedChar b.closer = ')' := by
  obtain ⟨closes, notOpens⟩ := mem_closers_pair valid b
  simp [roundedChar, closes, notOpens]

theorem roundedChar_of_not_mem (valid : table.Valid) {c : Char} (other : c ∉ table) :
    table.roundedChar c = c := by
  obtain ⟨notOpens, notCloses⟩ := not_mem_sides valid other
  simp [roundedChar, notOpens, notCloses]

theorem not_mem_of_isReserved (valid : table.Valid) {c : Char}
    (reserved : ParserSettings.isReserved c = true) : c ∉ table := by
  intro bracket
  rw [valid.free c bracket] at reserved
  cases reserved

theorem roundedChar_of_isReserved (valid : table.Valid) {c : Char}
    (reserved : ParserSettings.isReserved c = true) : table.roundedChar c = c :=
  roundedChar_of_not_mem valid (not_mem_of_isReserved valid reserved)

theorem map_roundedChar (valid : table.Valid) {cs : List Char}
    (reserved : ∀ c ∈ cs, ParserSettings.isReserved c = true) :
    cs.map table.roundedChar = cs := by
  conv_rhs => rw [← List.map_id cs]
  exact List.map_congr_left fun c hc => roundedChar_of_isReserved valid (reserved c hc)

/-- A test that only reserved characters pass does not see the kinds of brackets. -/
theorem test_roundedChar (valid : table.Valid) {test : Char → Bool}
    (passes : ∀ c, test c = true → ParserSettings.isReserved c = true) (c : Char) :
    test (table.roundedChar c) = test c := by
  have unreserved : ∀ {d}, ParserSettings.isReserved d = false → test d = false := by
    intro d free
    rw [← Bool.not_eq_true]
    intro passed
    rw [passes d passed] at free
    cases free
  rcases valid.cases c with ⟨b, rfl⟩ | ⟨b, rfl⟩ | other
  · rw [roundedChar_opener valid, unreserved (by decide),
      unreserved (valid.free _ (mem_of_mem_pairs b.listed).1)]
  · rw [roundedChar_closer valid, unreserved (by decide),
      unreserved (valid.free _ (mem_of_mem_pairs b.listed).2)]
  · rw [roundedChar_of_not_mem valid other]

theorem roundedChar_eq_iff (valid : table.Valid) {d : Char}
    (reserved : ParserSettings.isReserved d = true) (c : Char) :
    table.roundedChar c = d ↔ c = d := by
  have passes : ∀ e, (e == d) = true → ParserSettings.isReserved e = true :=
    fun e same => by rwa [eq_of_beq same]
  simpa using test_roundedChar valid passes c

/-- Openers stay openers, closers closers, and other characters no brackets. -/
theorem contains_roundedChar (valid : table.Valid) {c : Char} (covered : c ∈ round → c ∈ table) :
    round.openers.contains (table.roundedChar c) = table.openers.contains c ∧
      round.closers.contains (table.roundedChar c) = table.closers.contains c ∧
      round.contains (table.roundedChar c) = table.contains c := by
  rcases valid.cases c with ⟨b, rfl⟩ | ⟨b, rfl⟩ | other
  · have opens := (BracketPair.mem_openers valid).2 ⟨b, rfl⟩
    have notCloses : b.opener ∉ table.closers := by
      intro closes
      obtain ⟨b', same⟩ := (BracketPair.mem_closers valid).1 closes
      exact (mem_closers_pair valid b').2 (same ▸ opens)
    rw [roundedChar_opener valid]
    simp [opens, notCloses, mem_of_mem_openers opens]
    decide
  · obtain ⟨closes, notOpens⟩ := mem_closers_pair valid b
    rw [roundedChar_closer valid]
    simp [closes, notOpens, (mem_of_mem_pairs b.listed).2]
    decide
  · have notRound : c ∉ round := fun inside => other (covered inside)
    obtain ⟨notOpens, notCloses⟩ := not_mem_sides valid other
    obtain ⟨notOpens', notCloses'⟩ := not_mem_sides Token.valid_round notRound
    rw [roundedChar_of_not_mem valid other]
    simp only [List.contains_eq_mem, other, notOpens, notCloses, notRound, notOpens', notCloses',
      and_self]

theorem Covers.of_subset {cs ds : List Char} (h : Covers table ds) (inside : ∀ c ∈ cs, c ∈ ds) :
    Covers table cs := fun c hc => h c (inside c hc)

end BracketTable

namespace Token

open BracketTable

/-! ### Cutting -/

theorem compact_rounded (valid : table.Valid) (cs : List Char) :
    compact (cs.map table.roundedChar) = (compact cs).map table.roundedChar := by
  have blank : ∀ c, isBlank (table.roundedChar c) = isBlank c :=
    test_roundedChar valid fun c blank => by simp [ParserSettings.isReserved, blank]
  rw [compact, List.filter_map, compact]
  simp only [Function.comp_def, blank]

theorem collapseMinus_rounded (valid : table.Valid) (cs : List Char) :
    collapseMinus (cs.map table.roundedChar) = (collapseMinus cs).map table.roundedChar := by
  have minus : table.roundedChar '-' = '-' := roundedChar_of_isReserved valid (by decide)
  have plus : table.roundedChar '+' = '+' := roundedChar_of_isReserved valid (by decide)
  fun_induction collapseMinus cs with
  | case1 rest ih =>
    rw [List.map_cons, List.map_cons, minus, collapseMinus, ih, List.map_cons, plus]
  | case2 c rest single ih =>
    rw [List.map_cons, collapseMinus, ih, List.map_cons]
    intro rest' first second
    rw [roundedChar_eq_iff valid (by decide)] at first
    obtain ⟨d, tail, rfl, minus, -⟩ := List.map_eq_cons_iff.1 second
    rw [roundedChar_eq_iff valid (by decide)] at minus
    exact single tail first (by rw [minus])
  | case3 => rfl

/-- Reading off a run that only reserved characters continue. -/
theorem takeWhile_rounded (valid : table.Valid) {test : Char → Bool}
    (passes : ∀ c, test c = true → ParserSettings.isReserved c = true) (cs : List Char) :
    (cs.map table.roundedChar).takeWhile test = cs.takeWhile test ∧
      (cs.map table.roundedChar).dropWhile test = (cs.dropWhile test).map table.roundedChar := by
  have same : test ∘ table.roundedChar = test := funext (test_roundedChar valid passes)
  rw [List.takeWhile_map, List.dropWhile_map, same]
  refine ⟨map_roundedChar valid fun c hc => passes c ?_, rfl⟩
  exact List.all_eq_true.1 List.all_takeWhile c hc

/-- The pieces of a run of identifier characters hold no brackets. -/
theorem cutIdentifier_rounded (valid : table.Valid) {run : List Char}
    (reserved : ∀ c ∈ run, ParserSettings.isReserved c = true) {beforeBracket : Bool} :
    Follows (List.map (List.map table.roundedChar)) (cutIdentifier run beforeBracket)
      (cutIdentifier run beforeBracket) := by
  refine .refl fun front cutFront => ?_
  conv_rhs => rw [← List.map_id front]
  refine List.map_congr_left fun p hp => map_roundedChar valid fun c hc => reserved c ?_
  rw [← flatten_cutIdentifier cutFront]
  exact List.mem_flatten.2 ⟨p, hp, hc⟩

/-- A text is cut into the same pieces, but for the kinds of the brackets. -/
theorem cut_rounded (valid : table.Valid) {cs : List Char} (covered : Covers table cs)
    (text text' : String) (position : Nat) :
    Follows (List.map (List.map table.roundedChar)) (cut table text position cs)
      (cut .round text' position (cs.map table.roundedChar)) := by
  have identifier : ∀ c, isIdentifierChar c = true → ParserSettings.isReserved c = true :=
    fun c => isReserved_of_isIdentifierChar
  have initial : ∀ c, (isLetter c || c == '_') = true → ParserSettings.isReserved c = true := by
    intro c first
    refine identifier c ?_
    simp only [Bool.or_eq_true] at first
    rcases first with letter | underscore
    · simp [isIdentifierChar, isAlphanumeric_of_isLetter letter]
    · simp [isIdentifierChar, underscore]
  have signs : ∀ c, Symbol.operatorSigns.contains c = true → ParserSettings.isReserved c = true := by
    intro c sign
    rw [List.contains_iff_mem] at sign
    simp [ParserSettings.isReserved, ParserSettings.reservedSigns, sign]
  have separates : ∀ c, (c == Symbol.separator) = true → ParserSettings.isReserved c = true := by
    intro c same
    rw [eq_of_beq same]
    decide
  have numeral? := test_roundedChar valid fun _ => isReserved_of_isNumeralChar
  have initial? := test_roundedChar valid initial
  fun_induction cut table text position cs with
  | case1 position =>
    rw [List.map_nil, cut]
    exact rfl
  | case2 position c rest numeral run =>
    rename_i ih
    have behind : Covers table (rest.dropWhile isNumeralChar) :=
      covered.of_subset fun d hd => List.mem_cons_of_mem c ((List.dropWhile_sublist _).subset hd)
    obtain ⟨taken, dropped⟩ := takeWhile_rounded valid (fun _ => isReserved_of_isNumeralChar) rest
    have first := roundedChar_of_isReserved valid (isReserved_of_isNumeralChar numeral)
    have whole : (c :: run).map table.roundedChar = c :: run :=
      map_roundedChar valid (List.forall_mem_cons.2 ⟨isReserved_of_isNumeralChar numeral,
        fun d hd => isReserved_of_isNumeralChar (List.all_eq_true.1 List.all_takeWhile d hd)⟩)
    rw [List.map_cons, first, cut, if_pos numeral]
    dsimp only
    rw [taken, dropped]
    refine (ih behind).bind fun pieces _ => ?_
    change Except.ok _ = Except.ok _
    rw [List.map_cons, whole]
  | case3 position c rest numeral letter run after beforeBracket =>
    rename_i ih
    have behind : Covers table after :=
      covered.of_subset fun d hd => List.mem_cons_of_mem c ((List.dropWhile_sublist _).subset hd)
    obtain ⟨taken, dropped⟩ := takeWhile_rounded valid identifier rest
    have first := roundedChar_of_isReserved valid (initial c letter)
    rw [List.map_cons, first, cut, if_neg numeral, if_pos letter]
    dsimp only
    rw [taken, dropped]
    have shown : ∀ before, before = beforeBracket →
        Follows (List.map (List.map table.roundedChar))
          (do
            let front ← cutIdentifier (c :: run) beforeBracket
            return front ++ (← cut table text (position + 1 + run.length) after))
          (do
            let front ← cutIdentifier (c :: run) before
            return front ++ (← cut .round text' (position + 1 + run.length)
              (after.map table.roundedChar))) := by
      rintro _ rfl
      have word : Follows (List.map (List.map table.roundedChar))
          (cutIdentifier (c :: run) beforeBracket) (cutIdentifier (c :: run) beforeBracket) :=
        cutIdentifier_rounded valid (List.forall_mem_cons.2 ⟨initial c letter, fun d hd =>
          identifier d (List.all_eq_true.1 List.all_takeWhile d hd)⟩)
      refine word.bind fun front _ => (ih behind).bind fun pieces _ => ?_
      change Except.ok _ = Except.ok _
      rw [List.map_append]
    refine shown _ ?_
    rw [show rest.dropWhile isIdentifierChar = after from rfl]
    cases shape : after with
    | nil => simp [beforeBracket, shape]
    | cons d tail =>
      have opens := (contains_roundedChar valid (behind d (by simp [shape]))).1
      simp only [List.map_cons, opens, beforeBracket, shape]
  | case4 position c rest numeral letter stands ih =>
    have behind : Covers table rest := covered.of_subset fun d hd => List.mem_cons_of_mem c hd
    have inTable := (contains_roundedChar valid (covered c List.mem_cons_self)).2.2
    rw [List.map_cons, cut, if_neg (by rwa [numeral?]), if_neg (by rwa [initial? c]),
      if_pos (by rwa [test_roundedChar valid signs, inTable, test_roundedChar valid separates])]
    refine (ih behind).bind fun pieces _ => ?_
    exact rfl
  | case5 position c rest numeral letter stands =>
    have inTable := (contains_roundedChar valid (covered c List.mem_cons_self)).2.2
    rw [List.map_cons, cut, if_neg (by rwa [numeral?]), if_neg (by rwa [initial? c]),
      if_neg (by rwa [test_roundedChar valid signs, inTable, test_roundedChar valid separates])]
    exact ⟨_, rfl⟩

/-! ### Marking -/

/-- The piece without its kind of bracket. -/
def Piece.rounded (table : BracketTable) (p : Piece) : Piece := p.map table.roundedChar

/-- A single character or a word, and every round bracket in it is one of the table. -/
structure Roundable (table : BracketTable) (p : Piece) : Prop where
  covered : Covers table p
  shape : (∃ c, p = [c]) ∨ ∀ c ∈ p, ParserSettings.isReserved c = true

theorem Lexeme.roundable {p : Piece} (h : Lexeme table p) (covered : Covers table p) :
    Roundable table p :=
  ⟨covered, h.single_or_word.imp_right fun word c hc => (word.2 c hc).1⟩

namespace Roundable

variable {p : Piece}

/-- Only a single bracket changes. -/
theorem eq_or_bracket (valid : table.Valid) (h : Roundable table p) :
    p.rounded table = p ∧ (∀ c ∈ p, c ∉ table) ∨
      (∃ b : BracketPair table, p = [b.opener]) ∨ ∃ b : BracketPair table, p = [b.closer] := by
  rcases h.shape with ⟨c, rfl⟩ | word
  · rcases valid.cases c with ⟨b, rfl⟩ | ⟨b, rfl⟩ | other
    · exact .inr (.inl ⟨b, rfl⟩)
    · exact .inr (.inr ⟨b, rfl⟩)
    · exact .inl ⟨by simp [Piece.rounded, roundedChar_of_not_mem valid other], by simpa using other⟩
  · exact .inl ⟨map_roundedChar valid word, fun c hc => not_mem_of_isReserved valid (word c hc)⟩

theorem eq_singleton_iff (valid : table.Valid) {d : Char}
    (reserved : ParserSettings.isReserved d = true) (p : Piece) :
    p = [d] ↔ p.rounded table = [d] := by
  rw [Piece.rounded, List.map_eq_singleton_iff]
  constructor
  · rintro rfl
    exact ⟨d, rfl, roundedChar_of_isReserved valid reserved⟩
  · rintro ⟨c, rfl, same⟩
    rw [(roundedChar_eq_iff valid reserved c).1 same]

theorem beq_singleton (valid : table.Valid) {d : Char}
    (reserved : ParserSettings.isReserved d = true) (p : Piece) :
    (p.rounded table == [d]) = (p == [d]) := by
  rw [Bool.eq_iff_iff, beq_iff_eq, beq_iff_eq, ← eq_singleton_iff valid reserved]

theorem isOneOf_rounded {chars chars' : List Char} {p : Piece}
    (same : ∀ c ∈ p, chars'.contains (table.roundedChar c) = chars.contains c) :
    isOneOf chars' (p.rounded table) = isOneOf chars p := by
  unfold isOneOf Piece.rounded
  match p, same with
  | [], _ => rfl
  | [c], same => exact same c List.mem_cons_self
  | _ :: _ :: _, _ => rfl

theorem isBinarySign (valid : table.Valid) (p : Piece) :
    Token.isBinarySign (p.rounded table) = Token.isBinarySign p := by
  refine isOneOf_rounded fun c _ => test_roundedChar valid (fun d sign => ?_) c
  rw [List.contains_iff_mem] at sign
  have reserved : ∀ d ∈ Symbol.binarySigns, ParserSettings.isReserved d = true := by
    simp only [Symbol.binarySigns, List.forall_mem_cons]
    exact ⟨rfl, rfl, rfl, rfl, rfl, rfl, List.forall_mem_nil _⟩
  exact reserved d sign

theorem isOpener (valid : table.Valid) (h : Roundable table p) :
    isOneOf BracketTable.round.openers (p.rounded table) = isOneOf table.openers p :=
  isOneOf_rounded fun c hc => (contains_roundedChar valid (h.covered c hc)).1

theorem isCloser (valid : table.Valid) (h : Roundable table p) :
    isOneOf BracketTable.round.closers (p.rounded table) = isOneOf table.closers p :=
  isOneOf_rounded fun c hc => (contains_roundedChar valid (h.covered c hc)).2.1

/-- Neither a bracket nor its round image starts a word. -/
theorem startsWord (valid : table.Valid) (h : Roundable table p) :
    p.rounded table = p ∨ Token.startsWord p = false ∧ Token.startsWord (p.rounded table) = false := by
  have wordless : ∀ {s : Symbol}, s.Unreserved → Token.startsWord s.text.toList = false := by
    intro s free
    refine startsWord_unreserved (p := s.text.toList) ?_
    rwa [show Piece.symbol s.text.toList = s from Symbol.eq_of_toList (by simp)]
  rcases h.eq_or_bracket valid with ⟨same, -⟩ | ⟨b, rfl⟩ | ⟨b, rfl⟩
  · exact .inl same
  · refine .inr ⟨?_, ?_⟩
    · simpa using wordless (Symbol.unreserved_opening valid b)
    · simp only [Piece.rounded, List.map_cons, List.map_nil, roundedChar_opener valid]
      decide
  · refine .inr ⟨?_, ?_⟩
    · simpa using wordless (Symbol.unreserved_closing valid b)
    · simp only [Piece.rounded, List.map_cons, List.map_nil, roundedChar_closer valid]
      decide

theorem endsOperand (valid : table.Valid) (h : Roundable table p) :
    Token.endsOperand .round (p.rounded table) = Token.endsOperand table p := by
  have wordless : ∀ {table : BracketTable} {q : Piece}, Token.startsWord q = false →
      Token.endsOperand table q = (isOneOf table.closers q || q == ['!']) := by
    intro table q other
    rw [Token.endsOperand.eq_def]
    cases q with
    | nil => simp
    | cons c rest =>
      simp only [Token.startsWord, Bool.or_eq_false_iff] at other
      simp only [other.1, other.2, Bool.false_and, Bool.or_self]
      cases isOneOf table.closers (c :: rest) || c :: rest == ['!'] <;> rfl
  rcases h.startsWord valid with same | ⟨other, other'⟩
  · rw [Token.endsOperand.eq_def, Token.endsOperand.eq_def, h.isCloser valid, same]
  · rw [wordless other, wordless other', h.isCloser valid, beq_singleton valid (by decide)]

theorem startsOperand (valid : table.Valid) (h : Roundable table p) :
    Token.startsOperand .round (p.rounded table) = Token.startsOperand table p := by
  have words : ∀ (table : BracketTable) (q : Piece), Token.startsOperand table q =
      (isOneOf table.openers q || Token.startsWord q) := fun _ _ => rfl
  rw [words, words, h.isOpener valid]
  rcases h.startsWord valid with same | ⟨other, other'⟩
  · rw [same]
  · rw [other, other']

theorem expectsOperand (valid : table.Valid) {previous : Option Piece}
    (h : ∀ p, previous = some p → Roundable table p) :
    Token.expectsOperand .round (previous.map (Piece.rounded table)) =
      Token.expectsOperand table previous := by
  cases previous with
  | none => rfl
  | some p =>
    simp only [Token.expectsOperand, Option.map_some, isBinarySign valid, isNegationMark,
      isSeparator, beq_singleton valid (d := Symbol.negationMark) (by decide),
      beq_singleton valid (d := Symbol.separator) (by decide), (h p rfl).isOpener valid]

theorem dropsPlus (valid : table.Valid) {previous : Option Piece}
    (h : ∀ p, previous = some p → Roundable table p) :
    Token.dropsPlus .round (previous.map (Piece.rounded table)) =
      Token.dropsPlus table previous := by
  cases previous with
  | none => rfl
  | some p =>
    simp only [Token.dropsPlus, Option.map_some, isSeparator,
      beq_singleton valid (d := Symbol.separator) (by decide), (h p rfl).isOpener valid]

end Roundable

theorem rounded_mark (valid : table.Valid) {c : Char}
    (reserved : ParserSettings.isReserved c = true) : Piece.rounded table [c] = [c] :=
  map_roundedChar valid (by simpa using reserved)

theorem roundable_mark {c : Char} (other : c ∉ BracketTable.round) : Roundable table [c] :=
  ⟨fun _ hd inside => absurd (List.mem_singleton.1 hd ▸ inside) other, .inl ⟨c, rfl⟩⟩

/-- The pieces are marked at the same places. -/
theorem marked_rounded (valid : table.Valid) {previous : Option Piece} {pieces : List Piece}
    (last : ∀ p, previous = some p → Roundable table p)
    (roundable : ∀ p ∈ pieces, Roundable table p) :
    Follows (List.map (Piece.rounded table)) (marked table previous pieces)
      (marked .round (previous.map (Piece.rounded table)) (pieces.map (Piece.rounded table))) := by
  induction pieces generalizing previous with
  | nil =>
    cases previous with
    | none => exact rfl
    | some p =>
      simp only [marked, List.map_nil, Option.map_some, Roundable.isBinarySign valid,
        isNegationMark, Roundable.beq_singleton valid (d := Symbol.negationMark) (by decide)]
      exact .ite .rfl (fun _ => ⟨_, rfl⟩) fun _ => rfl
  | cons p rest ih =>
    obtain ⟨known, later⟩ := List.forall_mem_cons.1 roundable
    have behind : ∀ q, some p = some q → Roundable table q := by
      rintro _ ⟨⟩
      exact known
    have keep : Follows (List.map (Piece.rounded table))
        (do return p :: (← marked table (some p) rest))
        (do return p.rounded table :: (← marked .round (some (p.rounded table))
          (rest.map (Piece.rounded table)))) := (ih behind later).bind fun _ _ => rfl
    have sign : ∀ d, ParserSettings.isReserved d = true → (p = [d] ↔ p.rounded table = [d]) :=
      fun d reserved => Roundable.eq_singleton_iff valid reserved p
    have ends : ((previous.map (Piece.rounded table)).map (endsOperand .round)).getD false =
        (previous.map (endsOperand table)).getD false := by
      cases previous with
      | none => rfl
      | some q => exact (last q rfl).endsOperand valid
    rw [marked, List.map_cons, marked, Roundable.expectsOperand valid last,
      Roundable.dropsPlus valid last, ends, known.startsOperand valid, known.isCloser valid,
      Roundable.isBinarySign valid, Roundable.beq_singleton valid (by decide), isSeparator,
      isSeparator, Roundable.beq_singleton valid (by decide)]
    refine .ite .rfl (fun _ => ?_) fun _ => ?_
    · refine .ite (sign '-' (by decide)) (fun _ => ?_) fun _ => ?_
      · have behind : ∀ q, some [Symbol.negationMark] = some q → Roundable table q := by
          rintro _ ⟨⟩
          exact roundable_mark (by decide)
        have negation := ih behind later
        rw [Option.map_some, rounded_mark valid (by decide)] at negation
        refine negation.bind fun _ _ => ?_
        change Except.ok _ = Except.ok _
        rw [List.map_cons, rounded_mark valid (by decide)]
      · refine .ite (by rw [sign '+' (by decide)]) (fun _ => ih last later) fun _ => ?_
        refine .ite .rfl (fun _ => ⟨_, rfl⟩) fun _ => ?_
        exact .ite .rfl (fun _ => ⟨_, rfl⟩) fun _ => keep
    · refine .ite .rfl (fun _ => ?_) fun _ => keep
      refine (ih behind later).bind fun _ _ => ?_
      change Except.ok _ = Except.ok _
      rw [List.map_cons, List.map_cons, rounded_mark valid (by decide)]

/-- The tokens of a text are the same, but for the kinds of the brackets. -/
theorem ofCompact_rounded (valid : table.Valid) {cs : List Char} (covered : Covers table cs) :
    Follows (List.map (Piece.rounded table)) (ofCompact table cs)
        (ofCompact .round (cs.map table.roundedChar)) ∧
      ∀ out, ofCompact table cs = .ok out → ∀ p ∈ out, Roundable table p := by
  have pieces : ∀ pieces, cut table (String.ofList cs) 0 cs = .ok pieces →
      ∀ p ∈ pieces, Roundable table p := by
    intro pieces cutText p hp
    refine (lexeme_cut valid cutText p hp).roundable (covered.of_subset fun c hc => ?_)
    rw [← flatten_cut cutText]
    exact List.mem_flatten.2 ⟨p, hp, hc⟩
  constructor
  · refine (cut_rounded valid covered _ _ 0).bind fun front cutText => ?_
    have last : ∀ p, none = some p → Roundable table p := fun p impossible => by cases impossible
    exact marked_rounded valid last (pieces front cutText)
  · intro out made p hp
    obtain ⟨front, cutText, markText⟩ := bind_eq_ok.1 made
    rcases mem_marked markText hp with hp | rfl | rfl
    · exact pieces front cutText p hp
    · exact roundable_mark (by decide)
    · exact roundable_mark (by decide)

end Token

/-! ### Symbols -/

namespace Symbol

/-- The symbol without its kind of bracket. -/
def rounded (table : BracketTable) (s : Symbol) : Symbol := ⟨table.rounded s.text⟩

/-- A symbol and what it becomes without its kind of bracket. -/
inductive Recast (table : BracketTable) : Symbol → Symbol → Prop
  | other {s : Symbol} (free : ∀ c ∈ s.text.toList, c ∉ table ∧ c ∉ BracketTable.round) :
      Recast table s s
  | opening (b : BracketPair table) : Recast table b.opening Phrase.roundPair.opening
  | closing (b : BracketPair table) : Recast table b.closing Phrase.roundPair.closing

theorem recast_rounded (valid : table.Valid) {p : Token.Piece} (h : Token.Roundable table p) :
    Recast table p.symbol (p.symbol.rounded table) := by
  have image : p.symbol.rounded table = (p.rounded table).symbol := by
    rw [rounded, BracketTable.rounded, Token.Piece.toList_symbol]
    rfl
  rw [image]
  rcases h.eq_or_bracket valid with ⟨same, other⟩ | ⟨b, rfl⟩ | ⟨b, rfl⟩
  · rw [same]
    refine .other fun c hc => ?_
    rw [Token.Piece.toList_symbol] at hc
    exact ⟨other c hc, fun inside => other c hc (h.covered c hc inside)⟩
  · have left : Token.Piece.symbol [b.opener] = b.opening := eq_of_toList (by simp)
    have right : (Token.Piece.rounded table [b.opener]).symbol = Phrase.roundPair.opening :=
      eq_of_toList (by simp [Token.Piece.rounded, BracketTable.roundedChar_opener valid, Phrase.roundPair])
    rw [left, right]
    exact .opening b
  · have left : Token.Piece.symbol [b.closer] = b.closing := eq_of_toList (by simp)
    have right : (Token.Piece.rounded table [b.closer]).symbol = Phrase.roundPair.closing :=
      eq_of_toList (by simp [Token.Piece.rounded, BracketTable.roundedChar_closer valid, Phrase.roundPair])
    rw [left, right]
    exact .closing b

/-- A symbol without characters of a table neither opens nor closes in it. -/
theorem not_bracket_of_free (valid : table.Valid) {s : Symbol}
    (free : ∀ c ∈ s.text.toList, c ∉ table) :
    s.isOpen table = false ∧ s.isClose table = false := by
  rw [← Bool.not_eq_true, ← Bool.not_eq_true, isOpen_iff valid, isClose_iff valid]
  constructor
  · rintro ⟨b, rfl⟩
    exact free b.opener (by simp) (BracketTable.mem_of_mem_pairs b.listed).1
  · rintro ⟨b, rfl⟩
    exact free b.closer (by simp) (BracketTable.mem_of_mem_pairs b.listed).2

/-- Without its kind of bracket a symbol belongs to a class exactly when it does with it. -/
theorem Recast.isValid (valid : table.Valid) {s s' : Symbol} (h : Recast table s s') :
    s'.isValid .round = s.isValid table := by
  cases h with
  | other free =>
    have inTable := not_bracket_of_free valid fun c hc => (free c hc).1
    have inRound := not_bracket_of_free Token.valid_round fun c hc => (free c hc).2
    simp only [Symbol.isValid, inTable, inRound]
  | opening b =>
    rw [isValid_of_class valid (.opening b), isValid_of_class Token.valid_round (.opening _)]
  | closing b =>
    rw [isValid_of_class valid (.closing b), isValid_of_class Token.valid_round (.closing _)]

end Symbol

/-- The tokens of a text without its kinds of brackets are its tokens without theirs. -/
theorem Token.tokenize_rounded (valid : table.Valid) {text : String}
    (covered : table.Covers text.toList) :
    Follows (List.map table.rounded) (tokenize table text) (tokenize .round (table.rounded text)) ∧
      ∀ tokens, tokenize table text = .ok tokens →
        ∀ token ∈ tokens, Symbol.Recast table ⟨token⟩ (Symbol.rounded table ⟨token⟩) := by
  have compacted : table.Covers (collapseMinus (compact text.toList)) := by
    intro c hc inside
    rcases mem_collapseMinus hc with hc | rfl
    · exact covered c (List.mem_filter.1 hc).1 inside
    · exact absurd inside (by decide)
  obtain ⟨follows, roundable⟩ := ofCompact_rounded valid compacted
  constructor
  · rw [tokenize, tokenize, BracketTable.rounded, String.toList_ofList, compact_rounded valid,
      collapseMinus_rounded valid]
    refine follows.bind fun out _ => ?_
    change Except.ok _ = Except.ok _
    rw [List.map_map, List.map_map]
    congr 1
    refine List.map_congr_left fun p _ => ?_
    simp [BracketTable.rounded, Piece.rounded]
  · intro tokens lexed token listed
    obtain ⟨out, made, kept⟩ := bind_eq_ok.1 lexed
    obtain rfl := Except.ok.inj kept
    obtain ⟨p, hp, rfl⟩ := List.mem_map.1 listed
    exact Symbol.recast_rounded valid (roundable out made p hp)

theorem Symbol.classify_rounded (valid : table.Valid) {tokens : List String}
    (recast : ∀ token ∈ tokens, Recast table ⟨token⟩ (rounded table ⟨token⟩)) :
    Follows (List.map (rounded table)) (classify table tokens)
      (classify .round (tokens.map table.rounded)) := by
  induction tokens with
  | nil => exact rfl
  | cons token tokens ih =>
    obtain ⟨first, later⟩ := List.forall_mem_cons.1 recast
    have validated : Follows (rounded table) (validate table ⟨token⟩)
        (validate .round ⟨table.rounded token⟩) := by
      have same : (⟨table.rounded token⟩ : Symbol).isValid .round = (⟨token⟩ : Symbol).isValid table :=
        first.isValid valid
      rw [validate, validate, same]
      exact .ite .rfl (fun _ => rfl) fun _ => ⟨_, rfl⟩
    rw [classify, classify, List.mapM_cons, List.map_cons, List.mapM_cons]
    exact validated.bind fun s _ => (ih later).bind fun symbols _ => rfl

/-- The symbols of a text without its kinds of brackets are its symbols without theirs. -/
theorem ParserSettings.symbols_rounded {settings : ParserSettings}
    (checked : settings.check = .ok settings) {text : String}
    (covered : settings.brackets.Covers text.toList) :
    Follows (List.map (Symbol.rounded settings.brackets)) (settings.symbols text)
        (({} : ParserSettings).symbols (settings.brackets.rounded text)) ∧
      ∀ symbols, settings.symbols text = .ok symbols →
        ∀ s ∈ symbols, Symbol.Recast settings.brackets s (s.rounded settings.brackets) := by
  have valid := BracketTable.valid_of_check checked
  obtain ⟨follows, recast⟩ := Token.tokenize_rounded valid covered
  have tokens : Follows (List.map settings.brackets.rounded)
      ((Token.tokenize settings.brackets text).mapError Failure.parse)
      ((Token.tokenize .round (settings.brackets.rounded text)).mapError Failure.parse) := by
    cases lexed : Token.tokenize settings.brackets text with
    | ok tokens =>
      rw [lexed] at follows
      exact congrArg (Except.mapError Failure.parse) follows
    | error _ =>
      rw [lexed] at follows
      obtain ⟨cause, failed⟩ := follows
      exact ⟨.parse cause, congrArg (Except.mapError Failure.parse) failed⟩
  constructor
  · refine tokens.bind fun tokens lexed => Symbol.classify_rounded valid (recast tokens ?_)
    cases made : Token.tokenize settings.brackets text with
    | ok _ =>
      rw [made] at lexed
      exact congrArg Except.ok (Except.ok.inj lexed)
    | error _ =>
      rw [made] at lexed
      cases lexed
  · intro symbols lexed s hs
    obtain ⟨tokens, made, rfl, -⟩ := tokens_of_symbols lexed
    obtain ⟨token, listed, rfl⟩ := List.mem_map.1 hs
    exact recast tokens made token listed

end SymbolicAlgebra
