/-
  The order of symbols
  ====================
  Between the pieces of a text go markers, and an operator where none can stand is
  refused; what comes out is a sequence of symbols each of which can stand at its
  turn (`Token.alternating_marked`). With the classes of symbols settled, the tests
  that the marking makes on characters are tests on kinds.

  **`ParserSettings.alternating_symbols`** says so of the symbols of a whole text.
-/
import SymbolicAlgebra.Infix.Parser
import SymbolicAlgebra.Proofs.Grammar.Cut

namespace SymbolicAlgebra.Token

open SymbolicAlgebra.Text

variable {table : BracketTable}

/-! ### Tests on pieces -/

theorem eq_of_symbol_eq {p : Piece} {s : Symbol} (same : p.symbol = s) : p = s.text.toList := by
  rw [← same, Piece.toList_symbol]

theorem isOneOf_iff {chars : List Char} {p : Piece} :
    isOneOf chars p = true ↔ ∃ c ∈ chars, p = [c] := by
  unfold isOneOf
  split
  · simp
  · rename_i long
    refine ⟨fun h => by simp at h, ?_⟩
    rintro ⟨c, -, rfl⟩
    exact absurd rfl (long c)

theorem isOneOf_openers (valid : table.Valid) {p : Piece} :
    isOneOf table.openers p = true ↔ ∃ b : BracketPair table, p.symbol = b.opening := by
  rw [isOneOf_iff]
  constructor
  · rintro ⟨c, opens, rfl⟩
    obtain ⟨b, rfl⟩ := (BracketPair.mem_openers valid).1 opens
    exact ⟨b, Symbol.eq_of_toList (by simp)⟩
  · rintro ⟨b, same⟩
    exact ⟨b.opener, (BracketPair.mem_openers valid).2 ⟨b, rfl⟩, by simp [eq_of_symbol_eq same]⟩

theorem isOneOf_closers (valid : table.Valid) {p : Piece} :
    isOneOf table.closers p = true ↔ ∃ b : BracketPair table, p.symbol = b.closing := by
  rw [isOneOf_iff]
  constructor
  · rintro ⟨c, closes, rfl⟩
    obtain ⟨b, rfl⟩ := (BracketPair.mem_closers valid).1 closes
    exact ⟨b, Symbol.eq_of_toList (by simp)⟩
  · rintro ⟨b, same⟩
    exact ⟨b.closer, (BracketPair.mem_closers valid).2 ⟨b, rfl⟩, by simp [eq_of_symbol_eq same]⟩

/-- Whether a numeral or a word starts here. -/
def startsWord : Piece → Bool
  | c :: _ => isNumeralChar c || isLetter c
  | [] => false

/-- An operand starts with a digit, a point or a letter. -/
theorem startsWord_operand {p : Piece} (known : p.symbol.isOperand = true) :
    startsWord p = true := by
  have decimal : ∀ c, isDecimal c = true → isNumeralChar c = true := by
    intro c decimal
    simp [isNumeralChar, isDigit_of_isDecimal decimal]
  have cut : ∀ c rest, (withoutLineEnd p = c :: rest) → (isNumeralChar c || isLetter c) = true →
      startsWord p = true := by
    intro c rest shape word
    have front : ∃ rest', p = c :: rest' := by
      unfold withoutLineEnd at shape
      split at shape
      · cases p with
        | nil => cases shape
        | cons d tail =>
          cases tail with
          | nil => cases shape
          | cons e tail => exact ⟨_, by rw [(List.cons.inj shape).1]⟩
      · exact ⟨rest, shape⟩
    obtain ⟨rest', rfl⟩ := front
    exact word
  simp only [Symbol.isOperand, Bool.or_eq_true] at known
  rcases known with (number | constant) | name
  · rw [Symbol.isNumber, Symbol.numeral?, Piece.toList_symbol] at number
    cases shape : withoutLineEnd p with
    | nil => simp [shape] at number
    | cons c rest =>
      refine cut c rest shape ?_
      by_cases digit : isDecimal c = true
      · simp [decimal c digit]
      · simp only [Bool.not_eq_true] at digit
        by_cases point : c = '.'
        · subst point
          rfl
        · simp [shape, digit, point] at number
  · rw [Symbol.isConstant, Constant.ofSymbol?] at constant
    have spelled : ∀ text : String, p.symbol.text = text → p = text.toList := by
      rintro _ rfl
      exact (Piece.toList_symbol p).symm
    split at constant
    · rename_i pi
      rcases pi with pi | pi
      · rw [spelled _ pi]
        decide
      · rw [spelled _ pi]
        decide
    · split at constant
      · rename_i e
        rw [spelled _ e]
        decide
      · simp at constant
  · simp only [Symbol.isVariable, Bool.and_eq_true, isVariableName, Piece.toList_symbol] at name
    have letter := name.1
    split at letter
    · rename_i c shape
      exact cut c [] shape (by simp [isLetter_of_isAlpha letter])
    · rename_i c digits shape
      simp only [Bool.and_eq_true] at letter
      exact cut c _ shape (by simp [isLetter_of_isAlpha letter.1.1])
    · simp at letter

theorem startsWord_function {p : Piece} {f : Function} (named : p.symbol.function? = some f) :
    startsWord p = true := by
  obtain ⟨c, d, rest, rfl, alpha, -⟩ := name_of_function? named
  simp [startsWord, isLetter_of_isAlpha alpha]

theorem startsWord_unreserved {p : Piece} (free : p.symbol.Unreserved) : startsWord p = false := by
  obtain ⟨c, single, unreserved⟩ := free.character
  rw [Piece.toList_symbol] at single
  subst single
  simp only [ParserSettings.isReserved, isAlphanumeric, Bool.or_eq_false_iff] at unreserved
  obtain ⟨⟨reserved, ⟨letter, digit⟩, -⟩, -⟩ := unreserved
  have notPoint : c ≠ '.' := by
    rintro rfl
    exact absurd reserved (by decide)
  simp [startsWord, isNumeralChar, letter, digit, notPoint]

/-! ### Tests on kinds -/

/-- The marking sees of an unmarked piece of some class only its kind. -/
structure Seen (table : BracketTable) (p : Piece) (k : Kind) : Prop where
  binary : isBinarySign p = decide (k = .sign)
  negation : isNegationMark p = decide (k = .negation)
  separator : isSeparator p = decide (k = .comma)
  opener : isOneOf table.openers p = decide (k = .opening)
  closer : isOneOf table.closers p = decide (k = .closing)
  bang : (p == ['!']) = decide (k = .bang)
  word : startsWord p = decide (k = .operand ∨ k = .function)
  call : (Function.ofName? (String.ofList p)).isSome = decide (k = .function)

theorem seen (valid : table.Valid) {p : Piece} (plain : p ≠ [Symbol.multiplicationMark])
    (known : Symbol.Class table p.symbol) : Seen table p (p.symbol.kind table) := by
  constructor
  · rw [Bool.eq_iff_iff, decide_eq_true_iff, Symbol.kind_eq_sign valid known, isBinarySign,
      isOneOf_iff]
    constructor
    · rintro ⟨c, sign, rfl⟩
      simp only [Symbol.binarySigns, List.mem_cons, List.not_mem_nil, or_false] at sign
      rcases sign with rfl | rfl | rfl | rfl | rfl | rfl
      · exact ⟨.plus, rfl⟩
      · exact ⟨.minus, rfl⟩
      · exact ⟨.product .times, rfl⟩
      · exact ⟨.product .divided, rfl⟩
      · exact ⟨.power, rfl⟩
      · exact ⟨.product .remainder, rfl⟩
    · rintro ⟨g, same⟩
      have shape := eq_of_symbol_eq same
      rcases g with _ | _ | ⟨_ | _ | _ | _⟩ | _
      · exact ⟨'+', by decide, shape⟩
      · exact ⟨'-', by decide, shape⟩
      · exact ⟨'*', by decide, shape⟩
      · exact absurd shape plain
      · exact ⟨'%', by decide, shape⟩
      · exact ⟨'/', by decide, shape⟩
      · exact ⟨'^', by decide, shape⟩
  · rw [Bool.eq_iff_iff, decide_eq_true_iff, Symbol.kind_eq_negation valid known, isNegationMark,
      beq_iff_eq]
    refine ⟨fun shape => ?_, fun same => eq_of_symbol_eq same⟩
    rw [shape]
    rfl
  · rw [Bool.eq_iff_iff, decide_eq_true_iff, Symbol.kind_eq_comma valid known, isSeparator,
      beq_iff_eq]
    refine ⟨fun shape => ?_, fun same => eq_of_symbol_eq same⟩
    rw [shape]
    rfl
  · rw [Bool.eq_iff_iff, decide_eq_true_iff, Symbol.kind_eq_opening valid known,
      isOneOf_openers valid]
  · rw [Bool.eq_iff_iff, decide_eq_true_iff, Symbol.kind_eq_closing valid known,
      isOneOf_closers valid]
  · rw [Bool.eq_iff_iff, decide_eq_true_iff, Symbol.kind_eq_bang valid known, beq_iff_eq]
    refine ⟨fun shape => ?_, fun same => eq_of_symbol_eq same⟩
    rw [shape]
    rfl
  · generalize spelled : p.symbol = s at known
    have shape := eq_of_symbol_eq spelled
    cases known with
    | operand operand =>
      rw [Symbol.kind_operand operand, startsWord_operand (by rw [spelled, operand])]
      rfl
    | function named =>
      rw [Symbol.kind_function named, startsWord_function (by rw [spelled, named])]
      rfl
    | sign g =>
      rw [Symbol.kind_sign, shape]
      rcases g with _ | _ | ⟨_ | _ | _ | _⟩ | _ <;> decide
    | negation =>
      rw [Symbol.kind_negation, shape]
      decide
    | bang =>
      rw [Symbol.kind_bang, shape]
      decide
    | comma =>
      rw [Symbol.kind_comma, shape]
      decide
    | opening b =>
      rw [Symbol.kind_opening valid,
        startsWord_unreserved (spelled ▸ Symbol.unreserved_opening valid b)]
      rfl
    | closing b =>
      rw [Symbol.kind_closing valid,
        startsWord_unreserved (spelled ▸ Symbol.unreserved_closing valid b)]
      rfl
  · rw [Bool.eq_iff_iff, decide_eq_true_iff, Symbol.kind_eq_function valid known,
      Option.isSome_iff_exists]
    rfl

theorem Unmarked.kind (valid : table.Valid) {p : Piece} (unmarked : Unmarked p)
    (known : Symbol.Class table p.symbol) : p.symbol.kind table ≠ .negation := by
  intro negation
  exact unmarked.2 (eq_of_symbol_eq ((Symbol.kind_eq_negation valid known).1 negation))

theorem Seen.endsOperand {p : Piece} {k : Kind} (seen : Seen table p k) :
    Token.endsOperand table p = decide (k = .operand ∨ k = .bang ∨ k = .closing) := by
  have word := seen.word
  have call := seen.call
  rw [Token.endsOperand.eq_def, seen.closer, seen.bang]
  cases p with
  | nil =>
    have wordless : decide (k = .operand ∨ k = .function) = false := word.symm
    cases k <;> simp at wordless ⊢
  | cons c rest =>
    have letters : (isNumeralChar c || isLetter c) = decide (k = .operand ∨ k = .function) := word
    by_cases function : k = .function
    · obtain ⟨f, named⟩ : ∃ f, Symbol.function? (Piece.symbol (c :: rest)) = some f := by
        refine Option.isSome_iff_exists.1 ?_
        rw [function] at call
        exact call
      obtain ⟨d, e, tail, shape, -, notNumeral, -⟩ := name_of_function? named
      obtain rfl := (List.cons.inj shape).1
      have registered : (Function.ofName? (String.ofList (c :: rest))).isNone = false := by
        rw [← Option.not_isSome, call, function]
        rfl
      simp only [function, notNumeral, registered, Bool.and_false, Bool.or_false]
      rfl
    · have unregistered : (Function.ofName? (String.ofList (c :: rest))).isNone = true := by
        rw [← Option.not_isSome, call]
        simp [function]
      simp only [unregistered, Bool.and_true, letters]
      cases k <;> simp at function ⊢

theorem Seen.startsOperand {p : Piece} {k : Kind} (seen : Seen table p k) :
    Token.startsOperand table p = decide (k = .operand ∨ k = .function ∨ k = .opening) := by
  have words : Token.startsOperand table p = (isOneOf table.openers p || startsWord p) := rfl
  rw [words, seen.opener, seen.word]
  cases k <;> rfl

theorem Seen.expectsOperand {p : Piece} {k : Kind} (seen : Seen table p k) :
    Token.expectsOperand table (some p) =
      decide (k = .sign ∨ k = .negation ∨ k = .opening ∨ k = .comma) := by
  rw [Token.expectsOperand, seen.binary, seen.negation, seen.opener, seen.separator]
  cases k <;> rfl

theorem Seen.dropsPlus {p : Piece} {k : Kind} (seen : Seen table p k) :
    Token.dropsPlus table (some p) = decide (k = .opening ∨ k = .comma) := by
  rw [Token.dropsPlus, seen.opener, seen.separator]
  cases k <;> rfl

/-! ### Turns -/

/-- The turn behind a piece of the kind. -/
def turnBehind : Kind → Turn
  | .operand | .bang | .closing => .operator
  | .sign | .negation => .operand
  | .opening | .comma => .argument
  | .function => .bracket

/-- The turn behind the piece that was written last. -/
def turnAfter (table : BracketTable) : Option Piece → Turn
  | none => .operand
  | some p => turnBehind (p.symbol.kind table)

/-- The piece that was written last belongs to a class and is no mark of a multiplication. -/
def Known (table : BracketTable) (previous : Option Piece) : Prop :=
  ∀ p, previous = some p → Symbol.Class table p.symbol ∧ Seen table p (p.symbol.kind table)

theorem expecting_turnAfter {previous : Option Piece} (known : Known table previous) :
    expectsOperand table previous = true ↔ (turnAfter table previous).Expecting := by
  cases previous with
  | none => simp [expectsOperand, turnAfter, Turn.Expecting]
  | some p =>
    rw [(known p rfl).2.expectsOperand, turnAfter]
    cases p.symbol.kind table <;> simp [turnBehind, Turn.Expecting]

/-- A piece that starts an operand does so where an operand can stand. -/
theorem step_startsOperand (valid : table.Valid) {p : Piece} {t : Turn}
    (known : Symbol.Class table p.symbol)
    (starts : p.symbol.kind table = .operand ∨ p.symbol.kind table = .function ∨
      p.symbol.kind table = .opening) (due : t.Expecting) :
    t.Step table p.symbol (turnAfter table (some p)) := by
  rw [turnAfter]
  generalize p.symbol = s at known starts ⊢
  cases known with
  | operand operand =>
    rw [Symbol.kind_operand operand]
    exact .operand due operand
  | function named =>
    rw [Symbol.kind_function named]
    exact .function due named
  | opening b =>
    rw [Symbol.kind_opening valid]
    exact .opening due b
  | closing b => simp [Symbol.kind_closing valid b] at starts
  | _ => simp at starts

/-- A piece that starts no operand stands behind one, unless it is a negation mark. -/
theorem step_operator (valid : table.Valid) {p : Piece} (known : Symbol.Class table p.symbol)
    (starts : ¬ (p.symbol.kind table = .operand ∨ p.symbol.kind table = .function ∨
      p.symbol.kind table = .opening)) (unmarked : p.symbol.kind table ≠ .negation) :
    Turn.Step table .operator p.symbol (turnAfter table (some p)) := by
  rw [turnAfter]
  generalize p.symbol = s at known starts unmarked ⊢
  cases known with
  | operand operand => simp [Symbol.kind_operand operand] at starts
  | function named => simp [Symbol.kind_function named] at starts
  | opening b => simp [Symbol.kind_opening valid b] at starts
  | negation => simp at unmarked
  | closing b =>
    rw [Symbol.kind_closing valid]
    exact .closing b
  | sign g =>
    rw [Symbol.kind_sign]
    exact .sign g
  | bang =>
    rw [Symbol.kind_bang]
    exact .bang
  | comma =>
    rw [Symbol.kind_comma]
    exact .comma

/-- The rest of the pieces starts with an opening bracket when a function was written last. -/
def Called (table : BracketTable) (previous : Option Piece) (pieces : List Piece) : Prop :=
  turnAfter table previous = .bracket → ∃ c rest, pieces = [c] :: rest ∧ c ∈ table.openers

theorem not_called_of_unnamed {p : Piece} {pieces : List Piece}
    (known : Symbol.Class table p.symbol) (valid : table.Valid)
    (unnamed : p.symbol.function? = none) : Called table (some p) pieces := by
  intro bracket
  have function : p.symbol.kind table = .function := by
    rw [turnAfter] at bracket
    cases kind : p.symbol.kind table <;> simp [kind, turnBehind] at bracket ⊢
  obtain ⟨f, named⟩ := (Symbol.kind_eq_function valid known).1 function
  simp [unnamed] at named

theorem opening_of_mem_openers (valid : table.Valid) {c : Char} (opens : c ∈ table.openers) :
    ∃ b : BracketPair table, Piece.symbol [c] = b.opening := by
  obtain ⟨b, rfl⟩ := (BracketPair.mem_openers valid).1 opens
  exact ⟨b, Symbol.eq_of_toList (by simp)⟩

/-- The marked pieces are symbols each of which can stand at its turn. -/
theorem alternating_marked (valid : table.Valid) {previous : Option Piece}
    {pieces out : List Piece} (shape : WellCut table pieces) (known : Known table previous)
    (called : Called table previous pieces) (h : marked table previous pieces = .ok out)
    (classes : ∀ p ∈ out, Symbol.Class table p.symbol) :
    ∃ u, Alternating table (turnAfter table previous) (out.map Piece.symbol) u ∧
      (u = .argument ∨ u = .operator ∨ previous = none ∧ out = []) := by
  induction pieces generalizing previous out with
  | nil =>
    cases previous with
    | none =>
      obtain rfl := Except.ok.inj h
      exact ⟨_, .nil _, .inr (.inr ⟨rfl, rfl⟩)⟩
    | some q =>
      rw [marked] at h
      split at h
      · cases h
      · rename_i ended
        obtain rfl := Except.ok.inj h
        refine ⟨_, .nil _, ?_⟩
        rw [(known q rfl).2.binary, (known q rfl).2.negation] at ended
        rw [turnAfter]
        cases kind : q.symbol.kind table with
        | function =>
          obtain ⟨c, rest, impossible, -⟩ := called (by rw [turnAfter, kind]; rfl)
          cases impossible
        | sign => simp [kind] at ended
        | negation => simp [kind] at ended
        | _ => simp [turnBehind]
  | cons p rest ih =>
    have unmarked : Unmarked p := by
      cases shape with
      | plain unmarked _ _ => exact unmarked
      | call named _ _ =>
        constructor
        · rintro rfl
          cases named
        · rintro rfl
          cases named
    have tail : WellCut table rest := by
      cases shape with
      | plain _ _ next => exact next
      | call _ _ next => exact next
    have calledTail : Symbol.Class table p.symbol → Called table (some p) rest := by
      intro belongs
      cases shape with
      | plain _ unnamed _ => exact not_called_of_unnamed belongs valid unnamed
      | call _ opens _ => exact fun _ => ⟨_, _, rfl, opens⟩
    have keep : ∀ {out}, marked table (some p) rest = .ok out → Symbol.Class table p.symbol →
        (∀ q ∈ out, Symbol.Class table q.symbol) →
        ∃ u, Alternating table (turnAfter table (some p)) (out.map Piece.symbol) u ∧
          (u = .argument ∨ u = .operator) := by
      intro out later belongs classes
      have known : Known table (some p) := by
        rintro q same
        obtain rfl := Option.some.inj same
        exact ⟨belongs, seen valid unmarked.1 belongs⟩
      obtain ⟨u, fits, ended⟩ := ih tail known (calledTail belongs) later classes
      exact ⟨u, fits, by simpa using ended⟩
    rw [marked] at h
    split at h
    · rename_i expects
      have due := (expecting_turnAfter known).1 expects
      split at h
      · obtain ⟨later, taken, kept⟩ := bind_eq_ok.1 h
        obtain rfl := Except.ok.inj kept
        have mark : Known table (some [Symbol.negationMark]) := by
          rintro q same
          obtain rfl := Option.some.inj same
          exact ⟨.negation, seen valid (by decide) .negation⟩
        obtain ⟨u, fits, ended⟩ := ih tail mark (not_called_of_unnamed .negation valid rfl) taken
          fun q hq => classes q (by simp [hq])
        exact ⟨u, .cons (.negation due) fits, by simpa using ended⟩
      · rename_i notMinus
        split at h
        · have free : Called table previous rest := by
            intro bracket
            rw [bracket] at due
            rcases due with due | due
            · cases due
            · cases due
          exact ih tail known free h classes
        · split at h
          · cases h
          · rename_i signless
            split at h
            · cases h
            · rename_i unclosed
              obtain ⟨later, taken, kept⟩ := bind_eq_ok.1 h
              obtain rfl := Except.ok.inj kept
              have belongs := classes p (by simp)
              have sees := seen valid unmarked.1 belongs
              obtain ⟨u, fits, ended⟩ := keep taken belongs fun q hq => classes q (by simp [hq])
              have starts : p.symbol.kind table = .operand ∨ p.symbol.kind table = .function ∨
                  p.symbol.kind table = .opening := by
                have mark := unmarked.kind valid belongs
                rw [sees.binary, sees.bang] at signless
                rw [sees.closer, sees.separator] at unclosed
                cases kind : p.symbol.kind table <;> simp [kind] at signless unclosed mark ⊢
              exact ⟨u, .cons (step_startsOperand valid belongs starts due) fits,
                ended.imp_right Or.inl⟩
    · rename_i ends
      split at h
      · rename_i side
        obtain ⟨later, taken, kept⟩ := bind_eq_ok.1 h
        obtain rfl := Except.ok.inj kept
        cases previous with
        | none => simp at side
        | some q =>
          have belongs := classes p (by simp)
          have sees := seen valid unmarked.1 belongs
          simp only [Option.map_some, Option.getD_some, Bool.and_eq_true, sees.startsOperand,
            (known q rfl).2.endsOperand, decide_eq_true_eq] at side
          obtain ⟨ended, starts⟩ := side
          have operator : turnAfter table (some q) = .operator := by
            rw [turnAfter]
            rcases ended with kind | kind | kind <;> rw [kind] <;> rfl
          obtain ⟨u, fits, ended⟩ := keep taken belongs fun q hq => classes q (by simp [hq])
          have operand : Turn.Expecting .operand := .inl rfl
          refine ⟨u, ?_, ended.imp_right Or.inl⟩
          rw [operator]
          exact .cons (.sign (.product .juxtaposed))
            (.cons (step_startsOperand valid belongs starts operand) fits)
      · rename_i side
        obtain ⟨later, taken, kept⟩ := bind_eq_ok.1 h
        obtain rfl := Except.ok.inj kept
        have belongs := classes p (by simp)
        have sees := seen valid unmarked.1 belongs
        obtain ⟨u, fits, ended⟩ := keep taken belongs fun q hq => classes q (by simp [hq])
        cases previous with
        | none => exact absurd rfl ends
        | some q =>
          refine ⟨u, ?_, ended.imp_right Or.inl⟩
          by_cases function : q.symbol.kind table = .function
          · have bracket : turnAfter table (some q) = .bracket := by
              rw [turnAfter, function]
              rfl
            obtain ⟨c, tail, same, opens⟩ := called bracket
            obtain ⟨rfl, rfl⟩ := List.cons.inj same
            obtain ⟨b, spelled⟩ := opening_of_mem_openers valid opens
            have behind : turnAfter table (some [c]) = .argument := by
              rw [turnAfter, spelled, Symbol.kind_opening valid]
              rfl
            rw [behind] at fits
            rw [bracket, List.map_cons, spelled]
            exact .cons (.callOpening b) fits
          · have operator : turnAfter table (some q) = .operator := by
              rw [(known q rfl).2.expectsOperand] at ends
              rw [turnAfter]
              cases kind : q.symbol.kind table <;> simp [kind, turnBehind] at ends function ⊢
            have behind : endsOperand table q = true := by
              rw [(known q rfl).2.expectsOperand] at ends
              rw [(known q rfl).2.endsOperand]
              cases kind : q.symbol.kind table <;> simp [kind] at ends function ⊢
            have mark := unmarked.kind valid belongs
            simp only [Option.map_some, Option.getD_some, behind, Bool.true_and,
              sees.startsOperand, decide_eq_true_eq] at side
            rw [operator]
            exact .cons (step_operator valid belongs side mark) fits

/-- The tokens of a text without blanks stand each at its turn, the last of them where a text can
end. -/
theorem alternating_ofCompact (valid : table.Valid) {cs : List Char} {out : List Piece}
    (made : ofCompact table cs = .ok out) (classes : ∀ p ∈ out, Symbol.Class table p.symbol)
    (nonempty : out ≠ []) :
    ∃ u, Alternating table .operand (out.map Piece.symbol) u ∧ (u = .argument ∨ u = .operator) := by
  obtain ⟨pieces, cutText, markText⟩ := bind_eq_ok.1 made
  have first : Known table none := by
    intro p impossible
    cases impossible
  have called : Called table none pieces := by
    intro impossible
    cases impossible
  obtain ⟨u, fits, ended⟩ :=
    alternating_marked valid (wellCut_cut valid cutText) first called markText classes
  refine ⟨u, fits, ?_⟩
  rcases ended with ended | ended | ⟨-, empty⟩
  · exact .inl ended
  · exact .inr ended
  · exact absurd empty nonempty

/-! ### The characters of the pieces -/

theorem eq_nil_of_marked {previous : Option Piece} {out : List Piece}
    (h : marked table previous [] = .ok out) : out = [] := by
  unfold marked at h
  split at h
  · split at h
    · cases h
    · exact (Except.ok.inj h).symm
  · exact (Except.ok.inj h).symm

/-- Marking adds markers and keeps or drops pieces. -/
theorem mem_marked {previous : Option Piece} {pieces out : List Piece}
    (h : marked table previous pieces = .ok out) {p : Piece} (hp : p ∈ out) :
    p ∈ pieces ∨ p = [Symbol.multiplicationMark] ∨ p = [Symbol.negationMark] := by
  induction pieces generalizing previous out with
  | nil =>
    rw [eq_nil_of_marked h] at hp
    cases hp
  | cons q rest ih =>
    have later : ∀ {previous out}, marked table previous rest = .ok out → p ∈ out →
        p ∈ q :: rest ∨ p = [Symbol.multiplicationMark] ∨ p = [Symbol.negationMark] :=
      fun taken inside => (ih taken inside).imp_left (List.mem_cons_of_mem q)
    rw [marked] at h
    split at h
    · split at h
      · obtain ⟨others, taken, kept⟩ := bind_eq_ok.1 h
        obtain rfl := Except.ok.inj kept
        rcases List.mem_cons.1 hp with rfl | hp
        · exact .inr (.inr rfl)
        · exact later taken hp
      · split at h
        · exact later h hp
        · split at h
          · cases h
          · split at h
            · cases h
            · obtain ⟨others, taken, kept⟩ := bind_eq_ok.1 h
              obtain rfl := Except.ok.inj kept
              rcases List.mem_cons.1 hp with rfl | hp
              · exact .inl (by simp)
              · exact later taken hp
    · split at h
      · obtain ⟨others, taken, kept⟩ := bind_eq_ok.1 h
        obtain rfl := Except.ok.inj kept
        rcases List.mem_cons.1 hp with rfl | hp
        · exact .inr (.inl rfl)
        · rcases List.mem_cons.1 hp with rfl | hp
          · exact .inl (by simp)
          · exact later taken hp
      · obtain ⟨others, taken, kept⟩ := bind_eq_ok.1 h
        obtain rfl := Except.ok.inj kept
        rcases List.mem_cons.1 hp with rfl | hp
        · exact .inl (by simp)
        · exact later taken hp

theorem mem_collapseMinus {cs : List Char} {c : Char} (inside : c ∈ collapseMinus cs) :
    c ∈ cs ∨ c = '+' := by
  fun_induction collapseMinus cs with
  | case1 rest ih =>
    rcases List.mem_cons.1 inside with rfl | inside
    · exact .inr rfl
    · exact (ih inside).imp_left fun h => by simp [h]
  | case2 d rest _ ih =>
    rcases List.mem_cons.1 inside with rfl | inside
    · exact .inl (by simp)
    · exact (ih inside).imp_left fun h => by simp [h]
  | case3 => cases inside

/-- No token holds a blank. -/
theorem not_isBlank_of_tokenize {text : String} {tokens : List String}
    (h : tokenize table text = .ok tokens) {token : String} (listed : token ∈ tokens) {c : Char}
    (inside : c ∈ token.toList) : isBlank c = false := by
  obtain ⟨out, made, kept⟩ := bind_eq_ok.1 h
  obtain rfl := Except.ok.inj kept
  obtain ⟨pieces, cutText, markText⟩ := bind_eq_ok.1 made
  obtain ⟨p, hp, rfl⟩ := List.mem_map.1 listed
  rw [String.toList_ofList] at inside
  rcases mem_marked markText hp with hp | rfl | rfl
  · have inText : c ∈ collapseMinus (compact text.toList) := by
      rw [← flatten_cut cutText]
      exact List.mem_flatten.2 ⟨p, hp, inside⟩
    rcases mem_collapseMinus inText with inText | rfl
    · exact not_isBlank_of_mem_compact inText
    · decide
  · obtain rfl := List.mem_singleton.1 inside
    decide
  · obtain rfl := List.mem_singleton.1 inside
    decide

end SymbolicAlgebra.Token

namespace SymbolicAlgebra

variable {table : BracketTable}

/-- Classified tokens are symbols that belong to some class. -/
theorem Symbol.classify_eq_ok {tokens : List String} {symbols : List Symbol}
    (h : classify table tokens = .ok symbols) :
    symbols = tokens.map Symbol.mk ∧ ∀ s ∈ symbols, s.isValid table = true := by
  have each := mapM_eq_ok.1 h
  clear h
  induction each with
  | nil => simp
  | @cons text s tokens symbols first later ih =>
    rw [validate] at first
    split at first
    · rename_i known
      obtain rfl := Except.ok.inj first
      obtain ⟨rfl, valid⟩ := ih
      simp only [List.map_cons, List.mem_cons, forall_eq_or_imp, true_and]
      exact ⟨known, valid⟩
    · cases first

/-- The symbols of a text are its tokens, each of some class. -/
theorem ParserSettings.tokens_of_symbols {settings : ParserSettings} {text : String}
    {symbols : List Symbol} (h : settings.symbols text = .ok symbols) :
    ∃ tokens, Token.tokenize settings.brackets text = .ok tokens ∧
      symbols = tokens.map Symbol.mk ∧ ∀ s ∈ symbols, s.isValid settings.brackets = true := by
  obtain ⟨tokens, lexed, classified⟩ := bind_eq_ok.1 h
  cases made : Token.tokenize settings.brackets text with
  | error cause =>
    rw [made] at lexed
    cases lexed
  | ok _ =>
    rw [made] at lexed
    obtain rfl := Except.ok.inj lexed
    exact ⟨_, rfl, Symbol.classify_eq_ok classified⟩

/-- The symbols of a text stand each at its turn, the last of them where a text can end. -/
theorem ParserSettings.alternating_symbols {settings : ParserSettings}
    (checked : settings.check = .ok settings) {text : String} {symbols : List Symbol}
    (h : settings.symbols text = .ok symbols) (nonempty : symbols ≠ []) :
    ∃ u, Alternating settings.brackets .operand symbols u ∧ (u = .argument ∨ u = .operator) := by
  have valid := BracketTable.valid_of_check checked
  obtain ⟨tokens, made, rfl, known⟩ := tokens_of_symbols h
  obtain ⟨out, compacted, kept⟩ := bind_eq_ok.1 made
  obtain rfl := Except.ok.inj kept
  have classes : ∀ p ∈ out, Symbol.Class settings.brackets (Token.Piece.symbol p) :=
    fun p hp => Symbol.class_of_isValid valid (known _ (by
      simpa using ⟨p, hp, rfl⟩))
  have some_piece : out ≠ [] := by
    rintro rfl
    exact nonempty rfl
  rw [List.map_map]
  exact Token.alternating_ofCompact valid compacted classes some_piece

/-- No symbol of a text holds a line feed. -/
theorem ParserSettings.lineFeed_not_mem {settings : ParserSettings} {text : String}
    {symbols : List Symbol} (h : settings.symbols text = .ok symbols) :
    ∀ s ∈ symbols, '\n' ∉ s.text.toList := by
  obtain ⟨tokens, made, rfl, -⟩ := tokens_of_symbols h
  intro s hs inside
  obtain ⟨token, listed, rfl⟩ := List.mem_map.1 hs
  exact absurd (Token.not_isBlank_of_tokenize made listed inside) (by decide)

end SymbolicAlgebra
