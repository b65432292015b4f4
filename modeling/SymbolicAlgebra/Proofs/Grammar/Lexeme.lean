/-
  What tokens are
  ===============
  Every piece that a text is cut into is a numeral run, a known word, a sign or a
  bracket (`Token.lexeme_cut`), so the tests that the marking makes on the first
  character of a piece are tests on what the piece is (`Token.Lexeme.endsOperand_iff`,
  `Token.Lexeme.startsOperand_iff`).

  The tokens then tell the text: nothing is lost but plus signs that say nothing, and
  nothing is added but marks, each of them where it belongs
  (**`ParserSettings.tokenize_faithful`**).
-/
import SymbolicAlgebra.Proofs.Grammar.Alternation
import SymbolicAlgebra.Proofs.Grammar.Operand

namespace SymbolicAlgebra

open SymbolicAlgebra.Text

variable {table : BracketTable}

/-! ### Operands by their ends -/

/-- A run of digits and points. -/
def Symbol.IsRun (s : Symbol) : Prop :=
  s.text.toList ≠ [] ∧ ∀ c ∈ s.text.toList, Token.isNumeralChar c = true

/-- The symbols that an operand can end with. -/
def Symbol.EndsOperand (table : BracketTable) (s : Symbol) : Prop :=
  s.IsRun ∨ s.isConstant = true ∨ s.isVariable = true ∨ s.isClose table = true ∨ s = .bang

/-- The symbols that an operand can start with. -/
def Symbol.StartsOperand (table : BracketTable) (s : Symbol) : Prop :=
  s.IsRun ∨ s.isConstant = true ∨ s.isVariable = true ∨ s.isFunction = true ∨
    s.isOpen table = true

/-- The symbols behind which an operand is due. -/
def Symbol.LeadsOperand (table : BracketTable) (s : Symbol) : Prop :=
  (∃ c ∈ binarySigns, s.text.toList = [c]) ∨ s = .negation ∨ s.isOpen table = true ∨ s = .comma

/-- The mark of a multiplication that is not written. -/
def Symbol.juxtaposition : Symbol := ⟨"#"⟩

/-- Two symbols, or an end of the text and a symbol, that can be neighbours: a mark of a
multiplication stands between the end of an operand and the start of another, the two do not meet
without it, and a negation mark stands where an operand is due. -/
structure Symbol.Neighbours (table : BracketTable) (left right : Option Symbol) : Prop where
  behindMark : left = some juxtaposition → ∃ s, right = some s ∧ s.StartsOperand table
  beforeMark : right = some juxtaposition → ∃ s, left = some s ∧ s.EndsOperand table
  apart : ∀ s t, left = some s → right = some t → ¬ (s.EndsOperand table ∧ t.StartsOperand table)
  negated : right = some negation → ∀ s, left = some s → s.LeadsOperand table

theorem Symbol.not_isRun {s : Symbol} {c : Char} (spelled : s.text.toList = [c])
    (other : Token.isNumeralChar c = false) : ¬ s.IsRun := by
  rintro ⟨-, numeral⟩
  rw [numeral c (by simp [spelled])] at other
  cases other

theorem Symbol.Unreserved.not_isRun {s : Symbol} (free : s.Unreserved) : ¬ s.IsRun := by
  obtain ⟨c, spelled, unreserved⟩ := free.character
  refine Symbol.not_isRun spelled ?_
  rw [← Bool.not_eq_true, Token.isNumeralChar, Bool.or_eq_true, beq_iff_eq]
  rintro (digit | rfl)
  · simp [ParserSettings.isReserved, isAlphanumeric_of_isDigit digit] at unreserved
  · exact absurd unreserved (by decide)

/-- A mark neither starts nor ends an operand. -/
theorem Symbol.mark_apart (valid : table.Valid) {s : Symbol}
    (mark : s = juxtaposition ∨ s = negation) :
    ¬ s.StartsOperand table ∧ ¬ s.EndsOperand table := by
  have notOpen : s.isOpen table ≠ true := by
    rw [Ne, isOpen_iff valid]
    rintro ⟨b, rfl⟩
    rcases mark with mark | mark
    · exact (unreserved_opening valid b).ne_sign (.product .juxtaposed) mark
    · exact (unreserved_opening valid b).ne_negation mark
  have notClose : s.isClose table ≠ true := by
    rw [Ne, isClose_iff valid]
    rintro ⟨b, rfl⟩
    rcases mark with mark | mark
    · exact (unreserved_closing valid b).ne_sign (.product .juxtaposed) mark
    · exact (unreserved_closing valid b).ne_negation mark
  rcases mark with rfl | rfl
  · have notRun : ¬ juxtaposition.IsRun := Symbol.not_isRun (c := '#') rfl (by decide)
    exact ⟨by simp [StartsOperand, notRun, notOpen]; decide,
      by simp [EndsOperand, notRun, notClose]; decide⟩
  · have notRun : ¬ negation.IsRun := Symbol.not_isRun (c := '~') rfl (by decide)
    exact ⟨by simp [StartsOperand, notRun, notOpen]; decide,
      by simp [EndsOperand, notRun, notClose]; decide⟩

namespace Token

/-! ### Lexemes -/

/-- The pieces that a text can be cut into. -/
inductive Lexeme (table : BracketTable) : Piece → Prop
  | run {p : Piece} (run : p.symbol.IsRun) : Lexeme table p
  | name {p : Piece} (inside : ∀ c ∈ p, isIdentifierChar c = true)
      (known : p.symbol.isConstant = true ∨ p.symbol.isVariable = true) : Lexeme table p
  | function {p : Piece} {f : Function} (inside : ∀ c ∈ p, isIdentifierChar c = true)
      (named : p.symbol.function? = some f) : Lexeme table p
  | sign {c : Char} (sign : c ∈ Symbol.operatorSigns) : Lexeme table [c]
  | comma : Lexeme table [Symbol.separator]
  | opening (b : BracketPair table) : Lexeme table [b.opener]
  | closing (b : BracketPair table) : Lexeme table [b.closer]

theorem known_of_isVariableName {p : Piece} (formed : isVariableName p.symbol.text = true) :
    p.symbol.isConstant = true ∨ p.symbol.isVariable = true := by
  cases constant : p.symbol.isConstant with
  | true => exact .inl rfl
  | false => exact .inr (by simp [Symbol.isVariable, formed, constant])

theorem lexeme_takePiece {cs rest : List Char} {piece : Piece}
    (inside : ∀ c ∈ cs, isIdentifierChar c = true) (taken : takePiece? cs = some (piece, rest)) :
    Lexeme table piece := by
  have inner : ∀ c ∈ piece, isIdentifierChar c = true := by
    intro c hc
    refine inside c ?_
    rw [← takePiece?_append taken]
    exact List.mem_append_left _ hc
  have single : '\n' ∉ piece := fun line => absurd (inner _ line) (by decide)
  have name : (∀ text : String, text.toList = piece → isVariableName text = true) →
      Lexeme table piece := fun formed =>
    .name inner (known_of_isVariableName (formed _ (Piece.toList_symbol piece)))
  unfold takePiece? at taken
  split at taken
  · cases taken
    exact .name inner (.inl (by decide))
  · cases taken
    exact .name inner (.inl (by decide))
  · split at taken
    · rename_i alpha
      split at taken
      · dsimp only at taken
        split at taken
        · cases taken
          exact name fun text spelled => by
            simp [isVariableName, spelled, withoutLineEnd_eq_self single, alpha]
        · rename_i some_digit
          cases taken
          rw [List.isEmpty_iff] at some_digit
          exact name fun text spelled => by
            simp [isVariableName, spelled, withoutLineEnd_eq_self single, alpha, some_digit,
              List.all_takeWhile]
      · cases taken
        exact name fun text spelled => by
          simp [isVariableName, spelled, withoutLineEnd_eq_self single, alpha]
    · split at taken
      · rename_i decimal
        cases taken
        refine .run ⟨by simp, fun d hd => ?_⟩
        rw [Piece.toList_symbol] at hd
        have place : isDecimal d = true := by
          rcases List.mem_cons.1 hd with rfl | hd
          · exact decimal
          · exact List.all_eq_true.1 List.all_takeWhile d hd
        simp [isNumeralChar, isDigit_of_isDecimal place]
      · cases taken
  · cases taken

theorem lexeme_pieces {cs : List Char} {pieces : List Piece}
    (inside : ∀ c ∈ cs, isIdentifierChar c = true) (h : pieces? cs = some pieces) :
    ∀ p ∈ pieces, Lexeme table p := by
  fun_induction pieces? cs generalizing pieces with
  | case1 cs empty =>
    obtain rfl := Option.some.inj h
    simp
  | case2 cs _ missed => cases h
  | case3 cs _ piece rest taken ih =>
    obtain ⟨others, found, rfl⟩ := Option.map_eq_some_iff.1 h
    have behind : ∀ c ∈ rest, isIdentifierChar c = true := by
      intro c hc
      refine inside c ?_
      rw [← takePiece?_append taken]
      exact List.mem_append_right _ hc
    exact List.forall_mem_cons.2 ⟨lexeme_takePiece inside taken, ih behind found⟩

theorem lexeme_cutIdentifier {run : List Char} {beforeBracket : Bool} {pieces : List Piece}
    (inside : ∀ c ∈ run, isIdentifierChar c = true)
    (h : cutIdentifier run beforeBracket = .ok pieces) : ∀ p ∈ pieces, Lexeme table p := by
  unfold cutIdentifier at h
  dsimp only at h
  split at h
  · rename_i whole
    obtain rfl := Except.ok.inj h
    refine List.forall_mem_singleton.2 ?_
    simp only [Bool.or_eq_true, Bool.and_eq_true] at whole
    rcases whole with (⟨-, callable⟩ | constant) | formed
    · obtain ⟨f, named⟩ := Option.isSome_iff_exists.1 callable
      exact .function inside named
    · exact .name inside (.inl constant)
    · exact .name inside (known_of_isVariableName formed)
  · split at h
    · cases h
    · rename_i front cutFront
      obtain rfl := Except.ok.inj h
      have plain : ∀ p ∈ front, Lexeme table p :=
        lexeme_pieces (fun c hc => inside c (List.mem_of_mem_take hc)) cutFront
      by_cases bracket : beforeBracket = true
      · cases found : functionSuffix? run with
        | none => simpa [bracket, found] using plain
        | some name =>
          obtain ⟨suffix, f, registered, spelled⟩ := functionSuffix?_isSuffix found
          have named : name.symbol.function? = some f := by
            rw [← spelled, Symbol.function?, Piece.symbol, String.ofList_toList]
            exact Function.ofName?_name registered
          have last : Lexeme table name :=
            .function (fun c hc => inside c (suffix.subset hc)) named
          obtain ⟨c, d, rest, rfl, -⟩ := name_of_function? named
          simp only [bracket, if_true, Option.getD_some] at plain ⊢
          intro p hp
          rcases List.mem_append.1 hp with hp | hp
          · exact plain p hp
          · obtain rfl := List.mem_singleton.1 hp
            exact last
      · simpa [bracket] using plain

theorem exists_pair_of_mem {c : Char} (valid : table.Valid) (bracket : c ∈ table) :
    ∃ b : BracketPair table, c = b.opener ∨ c = b.closer := by
  have listed : ∃ o x, (o, x) ∈ table.pairs ∧ (c = o ∨ c = x) := by
    induction table using BracketTable.pairs.induct with
    | case1 o x rest ih =>
      rw [BracketTable.pairs]
      rcases List.mem_cons.1 bracket with rfl | bracket
      · exact ⟨c, x, List.mem_cons_self, .inl rfl⟩
      · rcases List.mem_cons.1 bracket with rfl | bracket
        · exact ⟨o, c, List.mem_cons_self, .inr rfl⟩
        · obtain ⟨o', x', listed, same⟩ := ih valid.tail.1 bracket
          exact ⟨o', x', List.mem_cons_of_mem _ listed, same⟩
    | case2 table short =>
      rw [valid.eq_nil short] at bracket
      cases bracket
  obtain ⟨o, x, listed, same⟩ := listed
  exact ⟨⟨o, x, listed⟩, same⟩

/-- Every piece of a text is a lexeme. -/
theorem lexeme_cut (valid : table.Valid) {text : String} {position : Nat} {cs : List Char}
    {pieces : List Piece} (h : cut table text position cs = .ok pieces) :
    ∀ p ∈ pieces, Lexeme table p := by
  fun_induction cut table text position cs generalizing pieces with
  | case1 position =>
    obtain rfl := Except.ok.inj h
    simp
  | case2 position c rest numeral run =>
    rename_i ih
    obtain ⟨others, later, kept⟩ := bind_eq_ok.1 h
    obtain rfl := Except.ok.inj kept
    refine List.forall_mem_cons.2 ⟨.run ⟨by simp, ?_⟩, ih later⟩
    rw [Piece.toList_symbol]
    exact List.forall_mem_cons.2 ⟨numeral, List.all_eq_true.1 List.all_takeWhile⟩
  | case3 position c rest numeral letter run after beforeBracket =>
    rename_i ih
    obtain ⟨front, cutFront, h⟩ := bind_eq_ok.1 h
    obtain ⟨others, later, kept⟩ := bind_eq_ok.1 h
    obtain rfl := Except.ok.inj kept
    have inside : ∀ d ∈ c :: run, isIdentifierChar d = true := by
      refine List.forall_mem_cons.2 ⟨?_, List.all_eq_true.1 List.all_takeWhile⟩
      simp only [Bool.or_eq_true, beq_iff_eq] at letter
      rcases letter with letter | rfl
      · simp [isIdentifierChar, isAlphanumeric_of_isLetter letter]
      · rfl
    intro p hp
    rcases List.mem_append.1 hp with hp | hp
    · exact lexeme_cutIdentifier inside cutFront p hp
    · exact ih later p hp
  | case4 position c rest numeral letter stands ih =>
    obtain ⟨others, later, kept⟩ := bind_eq_ok.1 h
    obtain rfl := Except.ok.inj kept
    refine List.forall_mem_cons.2 ⟨?_, ih later⟩
    simp only [Bool.or_eq_true, List.contains_iff_mem, beq_iff_eq] at stands
    rcases stands with (sign | bracket) | rfl
    · exact .sign sign
    · obtain ⟨b, rfl | rfl⟩ := exists_pair_of_mem valid bracket
      · exact .opening b
      · exact .closing b
    · exact .comma
  | case5 position c rest numeral letter stands => cases h

/-! ### What the marking sees of a lexeme -/

theorem starts_of_isRun {p : Piece} (run : p.symbol.IsRun) :
    ∃ c rest, p = c :: rest ∧ isNumeralChar c = true := by
  obtain ⟨nonempty, numeral⟩ := run
  rw [Piece.toList_symbol] at nonempty numeral
  obtain ⟨c, rest, rfl⟩ := List.exists_cons_of_ne_nil nonempty
  exact ⟨c, rest, rfl, numeral c List.mem_cons_self⟩

/-- A lexeme that is no numeral run belongs to a class. -/
theorem Lexeme.known (valid : table.Valid) {p : Piece} (h : Lexeme table p) :
    p.symbol.IsRun ∨ Symbol.Class table p.symbol ∧
      ((p.symbol.isConstant = true ∨ p.symbol.isVariable = true) ∨
        ¬ p.symbol.IsRun ∧ p.symbol.isOperand = false) := by
  have single : ∀ {c : Char}, isNumeralChar c = false → ¬ (Piece.symbol [c]).IsRun :=
    fun other => Symbol.not_isRun (Piece.toList_symbol _) other
  cases h with
  | run run => exact .inl run
  | name inside known =>
    refine .inr ⟨.operand ?_, .inl known⟩
    rcases known with known | known <;> simp [Symbol.isOperand, known]
  | function inside named =>
    obtain ⟨c, d, rest, rfl, alpha, notNumeral, -⟩ := name_of_function? named
    refine .inr ⟨.function named, .inr ⟨?_, Symbol.isOperand_of_function? named⟩⟩
    rintro ⟨-, numeral⟩
    rw [numeral c (by simp)] at notNumeral
    cases notNumeral
  | sign sign =>
    simp only [Symbol.operatorSigns, List.mem_cons, List.not_mem_nil, or_false] at sign
    rcases sign with rfl | rfl | rfl | rfl | rfl | rfl | rfl
    · exact .inr ⟨.sign .plus, .inr ⟨single (by decide), rfl⟩⟩
    · exact .inr ⟨.sign .minus, .inr ⟨single (by decide), rfl⟩⟩
    · exact .inr ⟨.sign (.product .times), .inr ⟨single (by decide), rfl⟩⟩
    · exact .inr ⟨.sign (.product .divided), .inr ⟨single (by decide), rfl⟩⟩
    · exact .inr ⟨.sign .power, .inr ⟨single (by decide), rfl⟩⟩
    · exact .inr ⟨.sign (.product .remainder), .inr ⟨single (by decide), rfl⟩⟩
    · exact .inr ⟨.bang, .inr ⟨single (by decide), rfl⟩⟩
  | comma => exact .inr ⟨.comma, .inr ⟨single (by decide), rfl⟩⟩
  | opening b =>
    have same : Piece.symbol [b.opener] = b.opening := Symbol.eq_of_toList (by simp)
    have free := Symbol.unreserved_opening valid b
    rw [same]
    exact .inr ⟨.opening b, .inr ⟨free.not_isRun, free.isOperand⟩⟩
  | closing b =>
    have same : Piece.symbol [b.closer] = b.closing := Symbol.eq_of_toList (by simp)
    have free := Symbol.unreserved_closing valid b
    rw [same]
    exact .inr ⟨.closing b, .inr ⟨free.not_isRun, free.isOperand⟩⟩

theorem Lexeme.unmarked (valid : table.Valid) {p : Piece} (h : Lexeme table p) :
    p.symbol ≠ .juxtaposition ∧ p.symbol ≠ .negation := by
  have other : ∀ {c : Char} {s : Symbol}, s.text.toList = [c] → c ∉ p → p.symbol ≠ s := by
    rintro c s spelled fresh rfl
    rw [Piece.toList_symbol] at spelled
    exact fresh (by simp [spelled])
  have free : Symbol.multiplicationMark ∉ p ∧ Symbol.negationMark ∉ p := by
    have inner : ∀ {test : Char → Bool}, (∀ c ∈ p, test c = true) →
        test Symbol.multiplicationMark = false → test Symbol.negationMark = false →
        Symbol.multiplicationMark ∉ p ∧ Symbol.negationMark ∉ p := by
      intro test inside first second
      exact ⟨fun mark => by simp [inside _ mark] at first,
        fun mark => by simp [inside _ mark] at second⟩
    have bracket : ∀ {c : Char}, ParserSettings.isReserved c = false →
        Symbol.multiplicationMark ∉ [c] ∧ Symbol.negationMark ∉ [c] := by
      intro c unreserved
      simp only [List.mem_singleton]
      constructor
      · rintro rfl
        exact absurd unreserved (by decide)
      · rintro rfl
        exact absurd unreserved (by decide)
    cases h with
    | run run => exact inner (fun c hc => run.2 c (by simpa using hc)) (by decide) (by decide)
    | name inside known => exact inner inside (by decide) (by decide)
    | function inside named => exact inner inside (by decide) (by decide)
    | sign sign =>
      simp only [Symbol.operatorSigns, List.mem_cons, List.not_mem_nil, or_false] at sign
      rcases sign with rfl | rfl | rfl | rfl | rfl | rfl | rfl <;> decide
    | comma => decide
    | opening b =>
      exact bracket (valid.free _ (BracketTable.mem_of_mem_pairs b.listed).1)
    | closing b =>
      exact bracket (valid.free _ (BracketTable.mem_of_mem_pairs b.listed).2)
  exact ⟨other rfl free.1, other rfl free.2⟩

theorem Lexeme.seen (valid : table.Valid) {p : Piece} (h : Lexeme table p)
    (belongs : Symbol.Class table p.symbol) : Seen table p (p.symbol.kind table) :=
  Token.seen valid (fun same => (h.unmarked valid).1 (by rw [same]; rfl)) belongs

/-- The marking knows the pieces that an operand can end with. -/
theorem Lexeme.endsOperand_iff (valid : table.Valid) {p : Piece} (h : Lexeme table p) :
    endsOperand table p = true ↔ p.symbol.EndsOperand table := by
  rcases h.known valid with run | ⟨belongs, known | ⟨notRun, notOperand⟩⟩
  · obtain ⟨c, rest, rfl, numeral⟩ := starts_of_isRun run
    simp [endsOperand, numeral, Symbol.EndsOperand, run]
  · have operand : p.symbol.isOperand = true := by
      rcases known with known | known <;> simp [Symbol.isOperand, known]
    rw [(h.seen valid belongs).endsOperand, Symbol.kind_operand operand]
    rcases known with known | known <;> simp [Symbol.EndsOperand, known]
  · have notKind : p.symbol.kind table ≠ .operand := fun kind => by
      simp [Symbol.kind_eq_operand.1 kind] at notOperand
    simp only [Symbol.isOperand, Bool.or_eq_false_iff] at notOperand
    rw [(h.seen valid belongs).endsOperand, decide_eq_true_eq, Symbol.kind_eq_bang valid belongs,
      Symbol.kind_eq_closing valid belongs, ← Symbol.isClose_iff valid]
    simp [Symbol.EndsOperand, notRun, notOperand, notKind, or_comm]

/-- The marking knows the pieces that an operand can start with. -/
theorem Lexeme.startsOperand_iff (valid : table.Valid) {p : Piece} (h : Lexeme table p) :
    startsOperand table p = true ↔ p.symbol.StartsOperand table := by
  rcases h.known valid with run | ⟨belongs, known | ⟨notRun, notOperand⟩⟩
  · obtain ⟨c, rest, rfl, numeral⟩ := starts_of_isRun run
    simp [startsOperand, numeral, Symbol.StartsOperand, run]
  · have operand : p.symbol.isOperand = true := by
      rcases known with known | known <;> simp [Symbol.isOperand, known]
    rw [(h.seen valid belongs).startsOperand, Symbol.kind_operand operand]
    rcases known with known | known <;> simp [Symbol.StartsOperand, known]
  · have notKind : p.symbol.kind table ≠ .operand := fun kind => by
      simp [Symbol.kind_eq_operand.1 kind] at notOperand
    simp only [Symbol.isOperand, Bool.or_eq_false_iff] at notOperand
    rw [(h.seen valid belongs).startsOperand, decide_eq_true_eq,
      Symbol.kind_eq_function valid belongs, Symbol.kind_eq_opening valid belongs,
      ← Symbol.isOpen_iff valid]
    simp [Symbol.StartsOperand, Symbol.isFunction, Option.isSome_iff_exists, notRun, notOperand,
      notKind]

/-- The marking knows the pieces behind which an operand is due. -/
theorem expectsOperand_iff (valid : table.Valid) (p : Piece) :
    expectsOperand table (some p) = true ↔ p.symbol.LeadsOperand table := by
  have single : ∀ {s : Symbol}, p = s.text.toList ↔ p.symbol = s := fun {s} =>
    ⟨fun same => Symbol.eq_of_toList (by simp [same]), eq_of_symbol_eq⟩
  have mark : isNegationMark p = true ↔ p.symbol = .negation := by
    rw [isNegationMark, beq_iff_eq]
    exact single (s := .negation)
  have comma : isSeparator p = true ↔ p.symbol = .comma := by
    rw [isSeparator, beq_iff_eq]
    exact single (s := .comma)
  simp only [expectsOperand, Bool.or_eq_true, isBinarySign, isOneOf_iff, mark, comma,
    isOneOf_openers valid, ← Symbol.isOpen_iff valid, Symbol.LeadsOperand, Piece.toList_symbol,
    or_assoc]

/-- No operand ends where one is due. -/
theorem Lexeme.not_endsOperand (valid : table.Valid) {p : Piece} (h : Lexeme table p)
    (expects : expectsOperand table (some p) = true) : ¬ p.symbol.EndsOperand table := by
  rw [← h.endsOperand_iff valid, Bool.not_eq_true]
  rcases h.known valid with run | ⟨belongs, -⟩
  · rcases (expectsOperand_iff valid p).1 expects with ⟨c, sign, spelled⟩ | same | opens | same
    · have other : ∀ c ∈ Symbol.binarySigns, isNumeralChar c = false := by
        simp only [Symbol.binarySigns, List.forall_mem_cons]
        exact ⟨rfl, rfl, rfl, rfl, rfl, rfl, List.forall_mem_nil _⟩
      exact absurd run (Symbol.not_isRun spelled (other c sign))
    · exact absurd (same ▸ run) (Symbol.not_isRun (c := '~') rfl (by decide))
    · obtain ⟨b, same⟩ := (Symbol.isOpen_iff valid _).1 opens
      exact absurd (same ▸ run) (Symbol.unreserved_opening valid b).not_isRun
    · exact absurd (same ▸ run) (Symbol.not_isRun (c := ',') rfl (by decide))
  · rw [(h.seen valid belongs).expectsOperand, decide_eq_true_eq] at expects
    rw [(h.seen valid belongs).endsOperand, decide_eq_false_iff_not]
    rcases expects with kind | kind | kind | kind <;> simp [kind]

/-! ### Neighbours -/

/-- What was written last is a lexeme or a negation mark. -/
def Trailing (table : BracketTable) (previous : Option Piece) : Prop :=
  ∀ p, previous = some p → Lexeme table p ∨ p = [Symbol.negationMark]

theorem Trailing.ne_juxtaposition (valid : table.Valid) {previous : Option Piece}
    (trailing : Trailing table previous) :
    previous.map Piece.symbol ≠ some .juxtaposition := by
  intro same
  obtain ⟨p, rfl, mark⟩ := Option.map_eq_some_iff.1 same
  rcases trailing p rfl with lexeme | rfl
  · exact (lexeme.unmarked valid).1 mark
  · exact absurd mark (by decide)

/-- Where an operand is due, none ends. -/
theorem Trailing.not_endsOperand (valid : table.Valid) {previous : Option Piece}
    (trailing : Trailing table previous) (expects : expectsOperand table previous = true)
    {p : Piece} (last : previous = some p) : ¬ p.symbol.EndsOperand table := by
  subst last
  rcases trailing p rfl with lexeme | rfl
  · exact lexeme.not_endsOperand valid expects
  · exact (Symbol.mark_apart valid (.inr rfl)).2

/-- A lexeme can stand behind what was written last, unless it starts an operand behind one. -/
theorem Trailing.neighbours (valid : table.Valid) {previous : Option Piece} {p : Piece}
    (trailing : Trailing table previous) (lexeme : Lexeme table p)
    (apart : ∀ q, previous = some q → q.symbol.EndsOperand table →
      ¬ p.symbol.StartsOperand table) :
    Symbol.Neighbours table (previous.map Piece.symbol) (some p.symbol) where
  behindMark same := absurd same (trailing.ne_juxtaposition valid)
  beforeMark same := absurd (Option.some.inj same) (lexeme.unmarked valid).1
  apart s t left right both := by
    obtain ⟨q, last, rfl⟩ := Option.map_eq_some_iff.1 left
    obtain rfl := Option.some.inj right
    exact apart q last both.1 both.2
  negated same := absurd (Option.some.inj same) (lexeme.unmarked valid).2

/-- The marked pieces can be neighbours, from what was written last to the end of the text. -/
theorem neighbours_marked (valid : table.Valid) {previous : Option Piece} {pieces out : List Piece}
    (lexemes : ∀ p ∈ pieces, Lexeme table p) (trailing : Trailing table previous)
    (h : marked table previous pieces = .ok out) :
    List.IsChain (Symbol.Neighbours table)
      (previous.map Piece.symbol :: (out.map fun p => some p.symbol) ++ [none]) := by
  induction pieces generalizing previous out with
  | nil =>
    obtain rfl := eq_nil_of_marked h
    refine .cons_cons ⟨fun same => absurd same (trailing.ne_juxtaposition valid), ?_, ?_, ?_⟩
      (.singleton _)
    all_goals simp
  | cons p rest ih =>
    obtain ⟨lexeme, later⟩ := List.forall_mem_cons.1 lexemes
    have keep : ∀ {others}, marked table (some p) rest = .ok others →
        (∀ q, previous = some q → q.symbol.EndsOperand table →
          ¬ p.symbol.StartsOperand table) →
        List.IsChain (Symbol.Neighbours table) (previous.map Piece.symbol ::
          ((p :: others).map fun p => some p.symbol) ++ [none]) := by
      intro others taken apart
      have behind : Trailing table (some p) := by
        rintro q same
        obtain rfl := Option.some.inj same
        exact .inl lexeme
      exact .cons_cons (trailing.neighbours valid lexeme apart) (ih later behind taken)
    rw [marked] at h
    split at h
    · rename_i expects
      split at h
      · obtain ⟨others, taken, kept⟩ := bind_eq_ok.1 h
        obtain rfl := Except.ok.inj kept
        have behind : Trailing table (some [Symbol.negationMark]) := by
          rintro q same
          obtain rfl := Option.some.inj same
          exact .inr rfl
        refine .cons_cons ?_ (ih later behind taken)
        constructor
        · exact fun same => absurd same (trailing.ne_juxtaposition valid)
        · exact fun same => absurd (Option.some.inj same) (by decide)
        · rintro s t - right ⟨-, starts⟩
          obtain rfl := Option.some.inj right
          exact (Symbol.mark_apart valid (.inr rfl)).1 starts
        · rintro - s left
          obtain ⟨q, rfl, rfl⟩ := Option.map_eq_some_iff.1 left
          exact (expectsOperand_iff valid q).1 expects
      · split at h
        · exact ih later trailing h
        · split at h
          · cases h
          · split at h
            · cases h
            · obtain ⟨others, taken, kept⟩ := bind_eq_ok.1 h
              obtain rfl := Except.ok.inj kept
              exact keep taken fun q last ends =>
                absurd ends (trailing.not_endsOperand valid expects last)
    · rename_i ended
      obtain ⟨q, rfl, last⟩ : ∃ q, previous = some q ∧ Lexeme table q := by
        cases previous with
        | none => exact absurd rfl ended
        | some q =>
          refine ⟨q, rfl, (trailing q rfl).resolve_right ?_⟩
          rintro rfl
          exact ended ((expectsOperand_iff valid _).2 (.inr (.inl rfl)))
      have meet : (((some q).map (endsOperand table)).getD false && startsOperand table p) = true ↔
          q.symbol.EndsOperand table ∧ p.symbol.StartsOperand table := by
        rw [← last.endsOperand_iff valid, ← lexeme.startsOperand_iff valid, ← Bool.and_eq_true]
        rfl
      split at h
      · rename_i side
        rw [meet] at side
        obtain ⟨others, taken, kept⟩ := bind_eq_ok.1 h
        obtain rfl := Except.ok.inj kept
        have mark := Symbol.mark_apart valid (.inl rfl)
        have behind : Trailing table (some p) := by
          rintro _ same
          obtain rfl := Option.some.inj same
          exact .inl lexeme
        refine .cons_cons ?_ (.cons_cons ?_ (ih later behind taken))
        · refine ⟨fun same => absurd same (trailing.ne_juxtaposition valid),
            fun _ => ⟨_, rfl, side.1⟩, ?_, fun same => absurd (Option.some.inj same) (by decide)⟩
          rintro s t - right ⟨-, starts⟩
          obtain rfl := Option.some.inj right
          exact mark.1 starts
        · refine ⟨fun _ => ⟨_, rfl, side.2⟩,
            fun same => absurd (Option.some.inj same) (lexeme.unmarked valid).1, ?_,
            fun same => absurd (Option.some.inj same) (lexeme.unmarked valid).2⟩
          rintro s t left - ⟨ends, -⟩
          obtain rfl := Option.some.inj left
          exact mark.2 ends
      · rename_i side
        rw [meet] at side
        obtain ⟨others, taken, kept⟩ := bind_eq_ok.1 h
        obtain rfl := Except.ok.inj kept
        refine keep taken ?_
        rintro _ same ends starts
        obtain rfl := Option.some.inj same
        exact side ⟨ends, starts⟩

/-! ### The text of the tokens -/

/-- Whether a plus sign says nothing behind the character, or at the start of the text. -/
def isSilentBehind (table : BracketTable) : Option Char → Bool
  | none => true
  | some c => table.openers.contains c || c == Symbol.separator

/-- The text without the plus signs that say nothing, given the character that was kept last. -/
def withoutPlus (table : BracketTable) (before : Option Char) : List Char → List Char
  | [] => []
  | c :: rest =>
    if c = '+' ∧ isSilentBehind table before = true then withoutPlus table before rest
    else c :: withoutPlus table (some c) rest

theorem withoutPlus_append {before : Option Char} {p : Piece} (nonempty : p ≠ [])
    (plusless : '+' ∉ p) (rest : List Char) :
    withoutPlus table before (p ++ rest) = p ++ withoutPlus table p.getLast? rest := by
  induction p generalizing before with
  | nil => exact absurd rfl nonempty
  | cons c p ih =>
    simp only [List.mem_cons, not_or] at plusless
    rw [List.cons_append, withoutPlus, if_neg fun both => plusless.1 both.1.symm, List.cons_append]
    cases p with
    | nil => rfl
    | cons d p => rw [ih (List.cons_ne_nil d p) plusless.2, List.getLast?_cons_cons]

/-- Behind a character that stands in no table and separates nothing, a plus sign counts. -/
theorem not_isSilentBehind (valid : table.Valid) {c : Char}
    (reserved : ParserSettings.isReserved c = true) (other : c ≠ Symbol.separator) :
    isSilentBehind table (some c) = false := by
  rw [← Bool.not_eq_true, isSilentBehind, Bool.or_eq_true, beq_iff_eq, List.contains_iff_mem]
  rintro (opens | same)
  · simp [valid.free c (BracketTable.mem_of_mem_openers opens)] at reserved
  · exact other same

theorem isReserved_of_isIdentifierChar {c : Char} (inside : isIdentifierChar c = true) :
    ParserSettings.isReserved c = true := by
  simp only [isIdentifierChar, Bool.or_eq_true, beq_iff_eq] at inside
  rcases inside with inside | rfl
  · simp [ParserSettings.isReserved, inside]
  · decide

theorem isReserved_of_isNumeralChar {c : Char} (inside : isNumeralChar c = true) :
    ParserSettings.isReserved c = true := by
  simp only [isNumeralChar, Bool.or_eq_true, beq_iff_eq] at inside
  rcases inside with digit | rfl
  · simp [ParserSettings.isReserved, isAlphanumeric_of_isDigit digit]
  · decide

/-- A lexeme is a single sign, or its characters serve neither as brackets nor as signs. -/
theorem Lexeme.single_or_word {p : Piece} (h : Lexeme table p) :
    (∃ c, p = [c]) ∨ p ≠ [] ∧ ∀ c ∈ p, ParserSettings.isReserved c = true ∧
      c ≠ Symbol.separator ∧ c ≠ '+' := by
  have word : ∀ {test : Char → Bool}, p ≠ [] → (∀ c ∈ p, test c = true) →
      (∀ c, test c = true → ParserSettings.isReserved c = true) → test Symbol.separator = false →
      test '+' = false → (∃ c, p = [c]) ∨ p ≠ [] ∧ ∀ c ∈ p, ParserSettings.isReserved c = true ∧
        c ≠ Symbol.separator ∧ c ≠ '+' := by
    intro test nonempty inside reserved separator plus
    refine .inr ⟨nonempty, fun c hc => ⟨reserved c (inside c hc), ?_, ?_⟩⟩
    · rintro rfl
      simp [inside _ hc] at separator
    · rintro rfl
      simp [inside _ hc] at plus
  cases h with
  | run run =>
    rw [Symbol.IsRun, Piece.toList_symbol] at run
    exact word run.1 run.2 (fun _ => isReserved_of_isNumeralChar) (by decide) (by decide)
  | name inside known =>
    refine word ?_ inside (fun _ => isReserved_of_isIdentifierChar) (by decide) (by decide)
    rintro rfl
    rcases known with known | known
    · exact absurd known (by decide)
    · exact absurd known (by decide)
  | function inside named =>
    refine word ?_ inside (fun _ => isReserved_of_isIdentifierChar) (by decide) (by decide)
    rintro rfl
    cases named
  | sign _ => exact .inl ⟨_, rfl⟩
  | comma => exact .inl ⟨_, rfl⟩
  | opening b => exact .inl ⟨_, rfl⟩
  | closing b => exact .inl ⟨_, rfl⟩

/-- A plus sign behind a lexeme says nothing exactly where the marking drops it. -/
theorem Lexeme.isSilentBehind (valid : table.Valid) {p : Piece} (h : Lexeme table p) :
    isSilentBehind table p.getLast? = dropsPlus table (some p) := by
  rcases h.single_or_word with ⟨c, rfl⟩ | ⟨nonempty, word⟩
  · simp [Token.isSilentBehind, dropsPlus, isOneOf, isSeparator]
  · have counts : Token.isSilentBehind table p.getLast? = false := by
      rw [List.getLast?_eq_some_getLast nonempty]
      obtain ⟨reserved, other, -⟩ := word _ (List.getLast_mem nonempty)
      exact not_isSilentBehind valid reserved other
    rw [counts, eq_comm, ← Bool.not_eq_true, dropsPlus, Bool.or_eq_true, isOneOf_iff, isSeparator,
      beq_iff_eq]
    rintro (⟨c, opens, rfl⟩ | rfl)
    · have free := valid.free c (BracketTable.mem_of_mem_openers opens)
      simp [(word c (by simp)).1] at free
    · exact (word _ (List.mem_singleton_self _)).2.1 rfl

/-- A lexeme that the marking keeps stands in the text without silent plus signs. -/
theorem Lexeme.withoutPlus_append {previous : Option Piece} {before : Option Char} {p : Piece}
    (h : Lexeme table p) (same : Token.isSilentBehind table before = dropsPlus table previous)
    (kept : ¬ (p = ['+'] ∧ dropsPlus table previous = true)) (rest : List Char) :
    withoutPlus table before (p ++ rest) = p ++ withoutPlus table p.getLast? rest := by
  rcases h.single_or_word with ⟨c, rfl⟩ | ⟨nonempty, word⟩
  · rw [List.singleton_append, withoutPlus, if_neg]
    · rfl
    · rintro ⟨rfl, silent⟩
      exact kept ⟨rfl, same ▸ silent⟩
  · exact Token.withoutPlus_append nonempty (fun plus => (word _ plus).2.2 rfl) rest

theorem expectsOperand_of_dropsPlus {previous : Option Piece}
    (drops : dropsPlus table previous = true) : expectsOperand table previous = true := by
  cases previous with
  | none => rfl
  | some p =>
    rw [dropsPlus, Bool.or_eq_true] at drops
    rw [expectsOperand]
    rcases drops with opens | separates
    · simp [opens]
    · simp [separates]

end Token

/-- What a symbol stands for in the text it comes from. -/
def Symbol.written (s : Symbol) : List Char :=
  if s = juxtaposition then [] else if s = negation then ['-'] else s.text.toList

namespace Token

theorem Lexeme.written (valid : table.Valid) {p : Piece} (h : Lexeme table p) :
    p.symbol.written = p := by
  obtain ⟨notProduct, notNegation⟩ := h.unmarked valid
  rw [Symbol.written, if_neg notProduct, if_neg notNegation, Piece.toList_symbol]

/-- What the marking makes of one piece stands for it, or says nothing. -/
theorem marked_step (valid : table.Valid) {previous : Option Piece} {before : Option Char}
    {p : Piece} {rest out : List Piece} (lexeme : Lexeme table p)
    (same : isSilentBehind table before = dropsPlus table previous)
    (h : marked table previous (p :: rest) = .ok out) :
    ∃ front others previous' before', out = front ++ others ∧
      marked table previous' rest = .ok others ∧
      isSilentBehind table before' = dropsPlus table previous' ∧
      ∀ more, withoutPlus table before (p ++ more) =
        front.flatMap (fun p => p.symbol.written) ++ withoutPlus table before' more := by
  have keep : ∀ {others}, marked table (some p) rest = .ok others →
      ¬ (p = ['+'] ∧ dropsPlus table previous = true) → ∀ mark : List Piece,
      mark.flatMap (fun p => p.symbol.written) = [] →
      ∃ front others' previous' before', mark ++ p :: others = front ++ others' ∧
        marked table previous' rest = .ok others' ∧
        isSilentBehind table before' = dropsPlus table previous' ∧
        ∀ more, withoutPlus table before (p ++ more) =
          front.flatMap (fun p => p.symbol.written) ++ withoutPlus table before' more := by
    intro others taken kept mark silent
    refine ⟨mark ++ [p], others, some p, p.getLast?, by simp, taken,
      lexeme.isSilentBehind valid, fun more => ?_⟩
    rw [lexeme.withoutPlus_append same kept, List.flatMap_append, silent, List.flatMap_singleton,
      lexeme.written valid]
    rfl
  rw [marked] at h
  split at h
  · split at h
    · rename_i minus
      obtain ⟨others, taken, kept⟩ := bind_eq_ok.1 h
      obtain rfl := Except.ok.inj kept
      have counts : isSilentBehind table (some '-') =
          dropsPlus table (some [Symbol.negationMark]) := by
        rw [not_isSilentBehind valid (by decide) (by decide), eq_comm, ← Bool.not_eq_true,
          dropsPlus, Bool.or_eq_true, isOneOf_openers valid, not_or]
        refine ⟨?_, by decide⟩
        rintro ⟨b, same⟩
        exact (Symbol.unreserved_opening valid b).ne_negation same.symm
      refine ⟨[[Symbol.negationMark]], others, _, _, rfl, taken, counts, fun more => ?_⟩
      rw [minus]
      rfl
    · split at h
      · rename_i silent
        refine ⟨[], out, previous, before, rfl, h, same, fun more => ?_⟩
        rw [silent.1, List.singleton_append, withoutPlus, if_pos ⟨rfl, same ▸ silent.2⟩]
        rfl
      · rename_i kept
        split at h
        · cases h
        · split at h
          · cases h
          · obtain ⟨others, taken, done⟩ := bind_eq_ok.1 h
            obtain rfl := Except.ok.inj done
            exact keep taken kept [] rfl
  · rename_i ended
    have kept : ¬ (p = ['+'] ∧ dropsPlus table previous = true) :=
      fun silent => ended (expectsOperand_of_dropsPlus silent.2)
    split at h
    · obtain ⟨others, taken, done⟩ := bind_eq_ok.1 h
      obtain rfl := Except.ok.inj done
      exact keep taken kept [[Symbol.multiplicationMark]] rfl
    · obtain ⟨others, taken, done⟩ := bind_eq_ok.1 h
      obtain rfl := Except.ok.inj done
      exact keep taken kept [] rfl

/-- What the marking makes of some pieces stands for them without the plus signs that say
nothing, whatever follows. -/
theorem marked_append (valid : table.Valid) {previous : Option Piece} {before : Option Char}
    {pieces rest out : List Piece} (lexemes : ∀ p ∈ pieces, Lexeme table p)
    (same : isSilentBehind table before = dropsPlus table previous)
    (h : marked table previous (pieces ++ rest) = .ok out) :
    ∃ front others previous' before', out = front ++ others ∧
      marked table previous' rest = .ok others ∧
      isSilentBehind table before' = dropsPlus table previous' ∧
      ∀ more, withoutPlus table before (pieces.flatten ++ more) =
        front.flatMap (fun p => p.symbol.written) ++ withoutPlus table before' more := by
  induction pieces generalizing previous before out with
  | nil => exact ⟨[], out, previous, before, rfl, h, same, fun more => rfl⟩
  | cons p pieces ih =>
    obtain ⟨lexeme, later⟩ := List.forall_mem_cons.1 lexemes
    obtain ⟨front, others, _, _, rfl, taken, same', text⟩ := marked_step valid lexeme same h
    obtain ⟨front', others', previous', before', rfl, rest, same'', text'⟩ := ih later same' taken
    refine ⟨front ++ front', others', previous', before', by simp, rest, same'', fun more => ?_⟩
    rw [List.flatten_cons, List.append_assoc, text, text', List.flatMap_append, List.append_assoc]

/-- The marked pieces stand for the text without the plus signs that say nothing. -/
theorem written_marked (valid : table.Valid) {previous : Option Piece} {before : Option Char}
    {pieces out : List Piece} (lexemes : ∀ p ∈ pieces, Lexeme table p)
    (same : isSilentBehind table before = dropsPlus table previous)
    (h : marked table previous pieces = .ok out) :
    out.flatMap (fun p => p.symbol.written) = withoutPlus table before pieces.flatten := by
  rw [← List.append_nil pieces] at h
  obtain ⟨front, others, previous', before', rfl, rest, -, text⟩ :=
    marked_append valid lexemes same h
  have whole := text []
  rw [List.append_nil] at whole
  rw [whole, eq_nil_of_marked rest, List.append_nil]
  exact (List.append_nil _).symm

end Token

/-- The tokens of a text stand for the text, made compact and without the plus signs that say
nothing. A mark of a multiplication stands between two operands and nowhere else, a negation mark
where an operand is due, and each token is a symbol of some class or a run of digits and points. -/
theorem ParserSettings.tokenize_faithful {settings : ParserSettings}
    (checked : settings.check = .ok settings) {text : String} {tokens : List String}
    (h : Token.tokenize settings.brackets text = .ok tokens) :
    (tokens.map Symbol.mk).flatMap Symbol.written =
        Token.withoutPlus settings.brackets none (Token.collapseMinus (compact text.toList)) ∧
      List.IsChain (Symbol.Neighbours settings.brackets)
        (none :: (tokens.map Symbol.mk).map some ++ [none]) ∧
      ∀ s ∈ tokens.map Symbol.mk, Symbol.validate settings.brackets s = .ok s ∨ s.IsRun := by
  have valid := BracketTable.valid_of_check checked
  obtain ⟨out, made, kept⟩ := bind_eq_ok.1 h
  obtain rfl := Except.ok.inj kept
  obtain ⟨pieces, cutText, markText⟩ := bind_eq_ok.1 made
  have lexemes := Token.lexeme_cut valid cutText
  have symbols : (out.map String.ofList).map Symbol.mk = out.map Token.Piece.symbol := by
    rw [List.map_map]
    rfl
  have start : Token.Trailing settings.brackets none := by
    intro p impossible
    cases impossible
  rw [symbols]
  refine ⟨?_, ?_, ?_⟩
  · rw [List.flatMap_map, ← Token.flatten_cut cutText]
    exact Token.written_marked valid lexemes rfl markText
  · rw [List.map_map]
    exact Token.neighbours_marked valid lexemes start markText
  · intro s hs
    obtain ⟨p, hp, rfl⟩ := List.mem_map.1 hs
    have known : p.symbol.IsRun ∨ Symbol.Class settings.brackets p.symbol := by
      rcases Token.mem_marked markText hp with hp | rfl | rfl
      · exact (lexemes p hp).known valid |>.imp_right And.left
      · exact .inr (.sign (.product .juxtaposed))
      · exact .inr .negation
    refine known.symm.imp_left fun belongs => ?_
    rw [Symbol.validate, if_pos (Symbol.isValid_of_class valid belongs)]

/-- Square brackets beside round ones, and a run of digits that is no numeral. -/
theorem ParserSettings.tokenize_faithful_square :
    let settings : ParserSettings := { brackets := ['[', ']', '(', ')'] }
    let tokens := ["~", "2", "#", "x", "#", "[", "y", "]", "+", "²"]
    settings.check = .ok settings ∧
      Token.tokenize settings.brackets "-2x [+y] -- ²" = .ok tokens ∧
      (tokens.map Symbol.mk).flatMap Symbol.written =
        Token.withoutPlus settings.brackets none
          (Token.collapseMinus (compact "-2x [+y] -- ²".toList)) ∧
      List.IsChain (Symbol.Neighbours settings.brackets)
        (none :: (tokens.map Symbol.mk).map some ++ [none]) ∧
      ∀ s ∈ tokens.map Symbol.mk, Symbol.validate settings.brackets s = .ok s ∨ s.IsRun := by
  intro settings tokens
  have checked : settings.check = .ok settings := by decide +kernel
  have lexed : Token.tokenize settings.brackets "-2x [+y] -- ²" = .ok tokens := by decide +kernel
  exact ⟨checked, lexed, tokenize_faithful checked lexed⟩

end SymbolicAlgebra
