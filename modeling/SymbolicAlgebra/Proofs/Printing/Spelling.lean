/-
  Texts that spell a phrase
  =========================
  When a text is cut into pieces and marked, its first piece depends on what stands
  before it and its last one on what follows. `Phrase.Spelled` says that a text is read
  as the symbols of a phrase wherever a phrase can stand: behind anything that expects
  an operand, or right behind a numeral if the text is *bare*, and in front of anything
  that could not continue a numeral or a name. There is one lemma for each way in which
  a printed text is put together.

  **`Phrase.Spelled.symbols_eq`**: such a text, alone, has the symbols of the phrase.
-/
import SymbolicAlgebra.Proofs.Grammar.Alternation
import SymbolicAlgebra.Proofs.Grammar.Operand
import SymbolicAlgebra.Proofs.Grammar.Phrase

namespace SymbolicAlgebra

open SymbolicAlgebra.Text

namespace Token

/-! ### Blanks and pairs of minus signs -/

/-- Without its blanks and pairs of minus signs the text is `w`, whatever follows. -/
def Squeezes (text : String) (w : List Char) : Prop :=
  ∀ rest, collapseMinus (compact text.toList ++ rest) = w ++ collapseMinus rest

/-- The text starts with something else than a blank or a minus sign. -/
def Unsigned (text : String) : Prop :=
  ∃ c tail, text.toList = c :: tail ∧ isBlank c = false ∧ c ≠ '-'

theorem compact_append (a b : String) :
    compact (a ++ b).toList = compact a.toList ++ compact b.toList := by
  rw [String.toList_append, compact, List.filter_append]
  rfl

theorem Squeezes.append {a b : String} {v w : List Char} (ha : Squeezes a v)
    (hb : Squeezes b w) : Squeezes (a ++ b) (v ++ w) := by
  intro rest
  rw [compact_append, List.append_assoc, ha, hb, List.append_assoc]

theorem Unsigned.append {a : String} (ha : Unsigned a) (b : String) : Unsigned (a ++ b) := by
  obtain ⟨c, tail, shape, plain⟩ := ha
  refine ⟨c, tail ++ b.toList, ?_, plain⟩
  rw [String.toList_append, shape]
  rfl

theorem compact_cons {c : Char} (visible : isBlank c = false) (tail : List Char) :
    compact (c :: tail) = c :: compact tail := by
  rw [compact, List.filter_cons_of_pos (by simp [visible]), compact]

theorem collapseMinus_cons {c : Char} (plain : c ≠ '-') (cs : List Char) :
    collapseMinus (c :: cs) = c :: collapseMinus cs := by
  rw [collapseMinus]
  rintro rest rfl
  exact absurd rfl plain

/-- A minus sign in front of anything else stays. -/
theorem collapseMinus_minus {c : Char} (plain : c ≠ '-') (cs : List Char) :
    collapseMinus ('-' :: c :: cs) = '-' :: collapseMinus (c :: cs) := by
  rw [collapseMinus]
  intro rest _ shape
  exact plain (List.cons.inj shape).1

theorem squeezes_of_plain {text : String}
    (plain : ∀ c ∈ text.toList, isBlank c = false ∧ c ≠ '-') : Squeezes text text.toList := by
  intro rest
  rw [compact_eq_self fun c hc => (plain c hc).1]
  generalize text.toList = cs at plain
  induction cs with
  | nil => rfl
  | cons c cs ih =>
    obtain ⟨first, others⟩ := List.forall_mem_cons.1 plain
    rw [List.cons_append, collapseMinus_cons first.2, ih others, List.cons_append]

/-- An unsigned text still starts with the same character. -/
theorem Squeezes.head {text : String} {w : List Char} (h : Squeezes text w) {c : Char}
    {tail : List Char} (shape : text.toList = c :: tail) (visible : isBlank c = false)
    (plain : c ≠ '-') : ∃ rest, w = c :: rest := by
  have squeezed := h []
  rw [shape, List.append_nil, compact_cons visible, collapseMinus_cons plain] at squeezed
  exact ⟨_, (squeezed.trans (List.append_nil w)).symm⟩

/-- A minus sign in front of a text without one. -/
theorem Squeezes.minus {sign text : String} {w : List Char}
    (single : compact sign.toList = ['-']) (h : Squeezes text w) (unsigned : Unsigned text) :
    Squeezes (sign ++ text) ('-' :: w) := by
  obtain ⟨c, tail, shape, visible, plain⟩ := unsigned
  intro rest
  have front := compact_cons visible tail
  rw [compact_append, single, List.singleton_append, List.cons_append, shape, front,
    List.cons_append, collapseMinus_minus plain, ← List.cons_append, ← front, ← shape, h]
  rfl

/-- Anything else in front of a text is squeezed by itself. -/
theorem Squeezes.after {text : String} {w : List Char} (h : Squeezes text w) (sign : String)
    {c : Char} (single : ∀ rest, collapseMinus (compact sign.toList ++ rest) = c :: collapseMinus rest) :
    Squeezes (sign ++ text) (c :: w) :=
  have first : Squeezes sign [c] := single
  first.append h

/-- Two minus signs are a plus sign. -/
theorem squeezes_minus_minus : Squeezes (" - " ++ "-") ['+'] := by
  intro rest
  rw [compact_append]
  rfl

/-! ### Where a phrase can stand -/

/-- What stands before an operand, and the mark that is put between the two: an operand is
expected, or, in front of a bare text, one has just ended. -/
inductive Entry : Bool → Option Piece → List Piece → Prop
  | due {bare : Bool} {previous : Option Piece}
      (expects : expectsOperand .round previous = true) : Entry bare previous []
  | beside : Entry true (some [')']) [[Symbol.multiplicationMark]]

/-- The rest of a text does not continue a numeral or a name. -/
def Parted (rest : List Char) : Prop :=
  ∀ c ∈ rest.head?, isNumeralChar c = false ∧ isIdentifierChar c = false

/-- The text is cut into pieces, and these are marked. -/
def Scans (previous : Option Piece) (cs : List Char) (out : List Piece) : Prop :=
  ∃ pieces, (∀ source position, cut .round source position cs = .ok pieces) ∧
    marked .round previous pieces = .ok out

theorem scans_nil : Scans (some [')']) [] [] :=
  ⟨[], fun source position => by rw [cut], by decide⟩

/-! ### One character -/

/-- The characters that stand alone. -/
def punctuation : List Char := Symbol.operatorSigns ++ ['(', ')', Symbol.separator]

theorem parted_punctuation {c : Char} (alone : c ∈ punctuation) (rest : List Char) :
    Parted (c :: rest) := by
  have apart : ∀ d ∈ punctuation, (!(isNumeralChar d || isIdentifierChar d)) = true :=
    List.all_eq_true.1 (by decide)
  intro d hd
  cases hd
  simpa using apart c alone

theorem cut_punctuation {c : Char} (alone : c ∈ punctuation) {rest : List Char}
    {pieces : List Piece} (later : ∀ source position, cut .round source position rest = .ok pieces)
    (source : String) (position : Nat) :
    cut .round source position (c :: rest) = .ok ([c] :: pieces) := by
  have words : ∀ d ∈ punctuation, (!(isNumeralChar d || (isLetter d || d == '_'))) = true :=
    List.all_eq_true.1 (by decide)
  have signs : ∀ d ∈ punctuation, (Symbol.operatorSigns.contains d ||
      BracketTable.round.contains d || d == Symbol.separator) = true :=
    List.all_eq_true.1 (by decide)
  have notWord := words c alone
  rw [Bool.not_eq_true', Bool.or_eq_false_iff] at notWord
  obtain ⟨numeral, letter⟩ := notWord
  rw [cut, if_neg (by simp [numeral]), if_neg (by simp [letter]), if_pos (signs c alone), later]
  rfl

/-- A sign behind an operand. -/
theorem scans_sign {c : Char} (sign : c ∈ Symbol.operatorSigns ++ [')', Symbol.separator])
    {rest : List Char} {out : List Piece} (later : Scans (some [c]) rest out) :
    Scans (some [')']) (c :: rest) ([c] :: out) := by
  obtain ⟨pieces, cuts, marks⟩ := later
  have alone : c ∈ punctuation :=
    ((List.sublist_cons_self '(' _).append_left Symbol.operatorSigns).subset sign
  have starts : ∀ d ∈ Symbol.operatorSigns ++ [')', Symbol.separator],
      (!startsOperand .round [d]) = true :=
    List.all_eq_true.1 (by decide)
  refine ⟨[c] :: pieces, cut_punctuation alone cuts, ?_⟩
  have operator : startsOperand .round [c] = false := by simpa using starts c sign
  rw [marked, if_neg (by decide), operator, marks]
  rfl

/-- Behind an operand it makes no difference which one it was. -/
theorem marked_ended {p : Piece} (ended : endsOperand .round p = true)
    (idle : expectsOperand .round (some p) = false) (pieces : List Piece) :
    marked .round (some p) pieces = marked .round (some [')']) pieces := by
  have closing : expectsOperand .round (some [')']) = false ∧ endsOperand .round [')'] = true := by
    decide
  cases pieces with
  | nil =>
    have quiet : (isBinarySign p || isNegationMark p) = false := by
      simp only [expectsOperand, Bool.or_eq_false_iff] at idle
      simp [idle.1.1]
    rw [marked, marked]
    simp only [quiet]
    rfl
  | cons q rest =>
    rw [marked, marked, idle, closing.1, if_neg Bool.false_ne_true, if_neg Bool.false_ne_true,
      Option.map_some, Option.map_some, ended, closing.2]

theorem Scans.ended {p : Piece} (ends : endsOperand .round p = true)
    (idle : expectsOperand .round (some p) = false) {rest : List Char} {out : List Piece}
    (later : Scans (some [')']) rest out) : Scans (some p) rest out := by
  obtain ⟨pieces, cuts, marks⟩ := later
  exact ⟨pieces, cuts, (marked_ended ends idle pieces).trans marks⟩

/-- A minus sign in front of an operand. -/
theorem scans_negation {previous : Option Piece}
    (expects : expectsOperand .round previous = true) {rest : List Char} {out : List Piece}
    (later : Scans (some [Symbol.negationMark]) rest out) :
    Scans previous ('-' :: rest) ([Symbol.negationMark] :: out) := by
  obtain ⟨pieces, cuts, marks⟩ := later
  refine ⟨['-'] :: pieces, cut_punctuation (by decide) cuts, ?_⟩
  rw [marked, if_pos expects, if_pos rfl, marks]
  rfl

/-! ### Pieces that start an operand -/

theorem valid_round : BracketTable.Valid .round :=
  BracketTable.valid_of_check (by decide : ({} : ParserSettings).check = .ok {})

/-- A piece that starts an operand. -/
theorem marked_starting {bare : Bool} {previous : Option Piece} {mark : List Piece}
    (entry : Entry bare previous mark) {p : Piece} {k : Kind} (seen : Seen .round p k)
    (starts : k = .operand ∨ k = .function ∨ k = .opening) {pieces out : List Piece}
    (later : marked .round (some p) pieces = .ok out) :
    marked .round previous (p :: pieces) = .ok (mark ++ p :: out) := by
  have first : startsOperand .round p = true := by
    rw [seen.startsOperand]
    exact decide_eq_true starts
  have sign : isBinarySign p = false := by
    rw [seen.binary]
    rcases starts with rfl | rfl | rfl <;> rfl
  have bang : (p == ['!']) = false := by
    rw [seen.bang]
    rcases starts with rfl | rfl | rfl <;> rfl
  have separator : isSeparator p = false := by
    rw [seen.separator]
    rcases starts with rfl | rfl | rfl <;> rfl
  have closer : isOneOf BracketTable.round.closers p = false := by
    rw [seen.closer]
    rcases starts with rfl | rfl | rfl <;> rfl
  cases entry with
  | due expects =>
    have notMinus : p ≠ ['-'] := by
      rintro rfl
      exact absurd sign (by decide)
    have notPlus : p ≠ ['+'] := by
      rintro rfl
      exact absurd sign (by decide)
    rw [marked, if_pos expects, if_neg notMinus, if_neg (fun both => notPlus both.1),
      if_neg (by simp [sign, bang]), if_neg (by simp [closer, separator]), later]
    rfl
  | beside =>
    rw [marked, if_neg (by decide), if_pos, later]
    · rfl
    · rw [Bool.and_eq_true]
      exact ⟨by decide, first⟩

/-- An opening bracket. -/
theorem scans_open {bare : Bool} {previous : Option Piece} {mark : List Piece}
    (entry : Entry bare previous mark) {rest : List Char} {out : List Piece}
    (later : Scans (some ['(']) rest out) :
    Scans previous ('(' :: rest) (mark ++ ['('] :: out) := by
  obtain ⟨pieces, cuts, marks⟩ := later
  have opening : Seen .round ['('] .opening := by
    constructor <;> decide
  exact ⟨['('] :: pieces, cut_punctuation (by decide) cuts,
    marked_starting entry opening (.inr (.inr rfl)) marks⟩

/-- A run of characters at the start of a text that does not continue it. -/
theorem takeWhile_run {p : Char → Bool} {run rest : List Char} (inside : ∀ c ∈ run, p c = true)
    (outside : ∀ c ∈ rest.head?, p c = false) :
    (run ++ rest).takeWhile p = run ∧ (run ++ rest).dropWhile p = rest := by
  have stops : rest.takeWhile p = [] ∧ rest.dropWhile p = rest := by
    cases rest with
    | nil => exact ⟨rfl, rfl⟩
    | cons c rest =>
      have stop := outside c rfl
      exact ⟨List.takeWhile_cons_of_neg (by simp [stop]),
        List.dropWhile_cons_of_neg (by simp [stop])⟩
  rw [List.takeWhile_append_of_pos inside, List.dropWhile_append_of_pos inside, stops.1, stops.2,
    List.append_nil]
  exact ⟨rfl, rfl⟩

/-- The text is cut off as one piece in front of the rest. -/
def CutWhole (w : Piece) (rest : List Char) : Prop :=
  ∀ pieces, (∀ source position, cut .round source position rest = .ok pieces) →
    ∀ source position, cut .round source position (w ++ rest) = .ok (w :: pieces)

/-- An operand that is cut as a whole. -/
theorem scans_operand {bare : Bool} {previous : Option Piece} {mark : List Piece}
    (entry : Entry bare previous mark) {w : Piece} (known : w.symbol.isOperand = true)
    {rest : List Char} (whole : CutWhole w rest) {out : List Piece}
    (later : Scans (some [')']) rest out) : Scans previous (w ++ rest) (mark ++ w :: out) := by
  have plain : w ≠ [Symbol.multiplicationMark] := by
    rintro rfl
    exact absurd known (by decide)
  have operand : Seen .round w .operand := by
    have shown := seen valid_round plain (.operand known)
    rwa [Symbol.kind_operand known] at shown
  obtain ⟨pieces, cuts, marks⟩ := later
  refine ⟨w :: pieces, whole pieces cuts, marked_starting entry operand (.inl rfl) ?_⟩
  rwa [marked_ended (by rw [operand.endsOperand]; rfl) (by rw [operand.expectsOperand]; rfl)]

/-- The name of a function and the bracket behind it. -/
theorem scans_call {bare : Bool} {previous : Option Piece} {mark : List Piece}
    (entry : Entry bare previous mark) {w : Piece} {f : Function}
    (named : w.symbol.function? = some f) {rest : List Char} (whole : CutWhole w ('(' :: rest))
    {out : List Piece} (later : Scans (some ['(']) rest out) :
    Scans previous (w ++ '(' :: rest) (mark ++ w :: ['('] :: out) := by
  have plain : w ≠ [Symbol.multiplicationMark] := by
    rintro rfl
    have unnamed : Symbol.function? (Piece.symbol [Symbol.multiplicationMark]) = none := by
      decide
    rw [unnamed] at named
    cases named
  have function : Seen .round w .function := by
    have shown := seen valid_round plain (.function named)
    rwa [Symbol.kind_function named] at shown
  obtain ⟨pieces, cuts, marks⟩ := later
  refine ⟨w :: ['('] :: pieces, whole _ (cut_punctuation (by decide) cuts),
    marked_starting entry function (.inr (.inl rfl)) ?_⟩
  have idle : expectsOperand .round (some w) = false := by
    rw [function.expectsOperand]
    rfl
  have open' : endsOperand .round w = false := by
    rw [function.endsOperand]
    rfl
  rw [marked, if_neg (by simp [idle]), if_neg (by simp [open']), marks]
  rfl

theorem cutWhole_numeral {w : Piece} (some_char : w ≠ []) (numeral : ∀ c ∈ w, isNumeralChar c = true)
    {rest : List Char} (outside : ∀ c ∈ rest.head?, isNumeralChar c = false) :
    CutWhole w rest := by
  intro pieces later source position
  cases w with
  | nil => exact absurd rfl some_char
  | cons c run =>
    obtain ⟨first, others⟩ := List.forall_mem_cons.1 numeral
    obtain ⟨taken, dropped⟩ := takeWhile_run others outside
    rw [List.cons_append, cut, if_pos first]
    simp only [taken, dropped, later]
    rfl

/-- A run of identifier characters that is a constant, a variable, or a function in front of a
bracket. -/
theorem cutWhole_name {c : Char} {run : List Char} (letter : isLetter c = true)
    (notNumeral : isNumeralChar c = false) (inside : ∀ d ∈ run, isIdentifierChar d = true)
    {rest : List Char} (outside : ∀ d ∈ rest.head?, isIdentifierChar d = false)
    (kept : ∀ beforeBracket : Bool, (rest.head? = some '(' → beforeBracket = true) →
      cutIdentifier (c :: run) beforeBracket = .ok [c :: run]) : CutWhole (c :: run) rest := by
  intro pieces later source position
  obtain ⟨taken, dropped⟩ := takeWhile_run inside outside
  rw [List.cons_append, cut, if_neg (by simp [notNumeral]), if_pos (by simp [letter])]
  cases rest with
  | nil =>
    simp only [taken, dropped, kept false fun impossible => by simp at impossible, later]
    rfl
  | cons d rest =>
    have bracket : (d :: rest).head? = some '(' → BracketTable.round.openers.contains d = true := by
      intro shape
      cases shape
      decide
    simp only [taken, dropped, kept _ bracket, later]
    rfl

end Token

/-! ### Phrases -/

namespace Phrase

open Token

variable {level : Level} {bare : Bool}

/-- The pieces that spell the symbols of the phrase. -/
def pieces (p : Phrase .round level) : List Piece := p.symbols.map fun s => s.text.toList

/-- Wherever a phrase can stand the text is read as the symbols of this one; a bare text also
right behind a numeral. -/
def Spelled (bare : Bool) (p : Phrase .round level) (text : String) : Prop :=
  ∃ w, Squeezes text w ∧ (bare = true → Unsigned text) ∧
    ∀ {previous mark rest out}, Entry bare previous mark → Parted rest →
      Scans (some [')']) rest out → Scans previous (w ++ rest) (mark ++ (p.pieces ++ out))

namespace Spelled

variable {p : Phrase .round level} {text : String}

/-- A bare text can stand wherever a text can. -/
theorem weaken (h : p.Spelled true text) : p.Spelled bare text := by
  obtain ⟨w, squeezes, unsigned, scans⟩ := h
  refine ⟨w, squeezes, fun _ => unsigned rfl, fun entry parted later => ?_⟩
  cases entry with
  | due expects => exact scans (.due expects) parted later
  | beside => exact scans .beside parted later

/-- Only the symbols of the phrase count. -/
theorem congr {level' : Level} {q : Phrase .round level'} (h : p.Spelled bare text)
    (same : p.symbols = q.symbols) : q.Spelled bare text := by
  have pieces : p.pieces = q.pieces := by rw [Phrase.pieces, same, Phrase.pieces]
  unfold Spelled at h ⊢
  rwa [← pieces]

end Spelled

/-! ### Operands -/

theorem operand_nonempty {s : Symbol} (known : s.isOperand = true) :
    ∃ c tail, s.text.toList = c :: tail := by
  have word := startsWord_operand (p := s.text.toList) (by
    rwa [Piece.symbol, String.ofList_toList])
  cases shape : s.text.toList with
  | nil =>
    rw [shape] at word
    cases word
  | cons c tail => exact ⟨c, tail, rfl⟩

theorem spelled_operand {s : Symbol} (known : s.isOperand = true)
    (plain : ∀ c ∈ s.text.toList, isBlank c = false ∧ c ≠ '-')
    (whole : ∀ rest, Parted rest → CutWhole s.text.toList rest) :
    (operand s known : Phrase .round .primary).Spelled bare s.text := by
  refine ⟨s.text.toList, squeezes_of_plain plain, fun _ => ?_, fun entry parted later => ?_⟩
  · obtain ⟨c, tail, shape⟩ := operand_nonempty known
    exact ⟨c, tail, shape, plain c (shape ▸ List.mem_cons_self)⟩
  · refine scans_operand entry ?_ (whole _ parted) later
    rwa [Piece.symbol, String.ofList_toList]

/-- The characters of a numeral. -/
theorem plain_of_numeral {w : List Char} (numeral : ∀ c ∈ w, isDecimal c = true ∨ c = '.') :
    ∀ c ∈ w, isNumeralChar c = true ∧ isBlank c = false ∧ c ≠ '-' := by
  intro c hc
  rcases numeral c hc with decimal | rfl
  · exact ⟨by simp [isNumeralChar, isDigit_of_isDecimal decimal],
      not_isBlank_of_isDecimal decimal, isDecimal_ne decimal (by decide)⟩
  · decide

/-- What is read as a number is written with decimal digits and a point. -/
theorem chars_of_numeral? {s : Symbol} {d : Decimal} (read : s.numeral? = some d)
    (single : '\n' ∉ s.text.toList) : ∀ c ∈ s.text.toList, isDecimal c = true ∨ c = '.' := by
  rw [Symbol.numeral?, withoutLineEnd_eq_self single] at read
  have whole : ∀ c ∈ s.text.toList.takeWhile isDecimal, isDecimal c = true :=
    fun c hc => List.all_eq_true.1 List.all_takeWhile c hc
  rw [← List.takeWhile_append_dropWhile (p := isDecimal) (l := s.text.toList)]
  intro c hc
  rcases List.mem_append.1 hc with hc | hc
  · exact .inl (whole c hc)
  · split at read
    · rename_i none
      rw [none] at hc
      cases hc
    · rename_i fraction point
      rw [point] at hc
      split at read
      · rename_i digits
        simp only [Bool.and_eq_true, List.all_eq_true] at digits
        rcases List.mem_cons.1 hc with rfl | hc
        · exact .inr rfl
        · exact .inl (digits.1 c hc)
      · cases read
    · cases read

theorem spelled_numeral {s : Symbol} (known : s.isOperand = true)
    (numeral : ∀ c ∈ s.text.toList, isDecimal c = true ∨ c = '.') :
    (operand s known : Phrase .round .primary).Spelled bare s.text := by
  have plain := plain_of_numeral numeral
  obtain ⟨first, run, spelled⟩ := operand_nonempty known
  refine spelled_operand known (fun c hc => (plain c hc).2) fun rest parted => ?_
  refine cutWhole_numeral ?_ (fun c hc => (plain c hc).1) fun c hc => (parted c hc).1
  rw [spelled]
  exact List.cons_ne_nil first run

/-- A letter is neither part of a numeral nor a blank. -/
theorem plain_of_isAlpha {c : Char} (alpha : c.isAlpha = true) :
    isNumeralChar c = false ∧ isBlank c = false ∧ c ≠ '-' := by
  have range : 65 ≤ c.toNat ∧ c.toNat ≤ 122 := by
    have ranges : c.isAlpha = (decide (c.val ≥ 65 ∧ c.val ≤ 90) ||
        decide (c.val ≥ 97) && decide (c.val ≤ 122)) := rfl
    have toNat_val : c.val.toNat = c.toNat := rfl
    simp only [ranges, Bool.or_eq_true, Bool.and_eq_true, decide_eq_true_eq, ge_iff_le,
      UInt32.le_iff_toNat_le] at alpha
    simp [toNat_val] at alpha
    omega
  have apart : ∀ {table : Ranges}, (∀ r ∈ table, r.2 < 65 ∨ 122 < r.1) →
      table.contains c = false := by
    intro table each
    rw [← Bool.not_eq_true, Ranges.contains_iff]
    rintro ⟨r, listed, low, high⟩
    have := each r listed
    omega
  have zeros : ∀ start ∈ decimalZeros, start + 10 ≤ 65 ∨ 122 < start := by decide
  have notDecimal : isDecimal c = false := by
    rw [isDecimal, digitValue?_eq_none]
    · rfl
    · intro start listed
      have := zeros start listed
      omega
  have notDecorated : decoratedDigits.contains c = false := apart (by decide)
  have notBlank : isBlank c = false := apart (by decide)
  have notPoint : c ≠ '.' := by
    rintro rfl
    exact absurd alpha (by decide)
  refine ⟨by simp [isNumeralChar, isDigit, notDecimal, notDecorated, notPoint], notBlank, ?_⟩
  rintro rfl
  exact absurd alpha (by decide)

/-- A constant or a variable: a letter and what else an identifier holds. -/
theorem spelled_name {s : Symbol} (known : s.isOperand = true) {c : Char} {run : List Char}
    (shape : s.text.toList = c :: run) (alpha : c.isAlpha = true)
    (inside : ∀ d ∈ run, isIdentifierChar d = true ∧ isBlank d = false ∧ d ≠ '-')
    (named : s.isConstant = true ∨ isVariableName s.text = true) :
    (operand s known : Phrase .round .primary).Spelled bare s.text := by
  obtain ⟨notNumeral, plain⟩ := plain_of_isAlpha alpha
  refine spelled_operand known ?_ fun rest parted => ?_
  · rw [shape]
    exact List.forall_mem_cons.2 ⟨plain, fun d hd => (inside d hd).2⟩
  · rw [shape]
    refine cutWhole_name (isLetter_of_isAlpha alpha) notNumeral (fun d hd => (inside d hd).1)
      (fun d hd => (parted d hd).2) fun before _ => ?_
    have text : String.ofList (c :: run) = s.text := by rw [← shape, String.ofList_toList]
    have whole : ((Constant.ofSymbol? s.text).isSome || isVariableName s.text) = true := by
      rw [Bool.or_eq_true]
      exact named
    unfold cutIdentifier
    dsimp only
    rw [text, Bool.or_assoc, whole, Bool.or_true]
    rfl

theorem isOperand_constant (c : Constant) : (⟨c.symbol⟩ : Symbol).isOperand = true := by
  cases c <;> decide

theorem spelled_constant (c : Constant) :
    (operand ⟨c.symbol⟩ (isOperand_constant c) : Phrase .round .primary).Spelled bare c.symbol := by
  cases c with
  | pi =>
    have letters : Constant.pi.symbol.toList = 'p' :: ['i'] := by decide
    refine spelled_name (isOperand_constant .pi) letters (by decide) ?_ (.inl (by decide))
    exact List.forall_mem_singleton.2 (by decide)
  | e =>
    refine spelled_name (isOperand_constant .e) rfl (by decide) (List.forall_mem_nil _) ?_
    exact .inl (by decide)

theorem isOperand_name {name : String} (formed : isVariableName name = true) :
    (⟨name⟩ : Symbol).isOperand = true := by
  cases constant : (⟨name⟩ : Symbol).isConstant <;>
    simp [Symbol.isOperand, Symbol.isVariable, formed, constant]

theorem spelled_variable {name : String} (formed : isVariableName name = true)
    (single : '\n' ∉ name.toList) :
    (operand ⟨name⟩ (isOperand_name formed) : Phrase .round .primary).Spelled bare name := by
  have shape := formed
  rw [isVariableName, withoutLineEnd_eq_self single] at shape
  split at shape
  · rename_i c spelled
    exact spelled_name (isOperand_name formed) spelled shape (List.forall_mem_nil _) (.inr formed)
  · rename_i c digits spelled
    simp only [Bool.and_eq_true, List.all_eq_true] at shape
    refine spelled_name (isOperand_name formed) spelled shape.1.1 ?_ (.inr formed)
    refine List.forall_mem_cons.2 ⟨by decide, fun d hd => ?_⟩
    have decimal := shape.2 d hd
    refine ⟨?_, not_isBlank_of_isDecimal decimal, isDecimal_ne decimal (by decide)⟩
    simp [isIdentifierChar, isAlphanumeric_of_isDigit (isDigit_of_isDecimal decimal)]
  · cases shape

/-! ### Productions -/

/-- The pair of round brackets. -/
def roundPair : BracketPair .round := ⟨'(', ')', by decide⟩

/-- The symbols of a text in front of a sign, and those of the text behind it. -/
theorem Spelled.sign {level' level'' : Level} {bare' : Bool} {x : Phrase .round level'}
    {y : Phrase .round level''} {p : Phrase .round level} {a op b : String}
    (hx : x.Spelled bare a) (hy : y.Spelled bare' b) {c : Char} (g : Sign)
    (binary : c ∈ Symbol.binarySigns) (single : g.symbol.text.toList = [c])
    (squeezes : ∀ {v}, Squeezes b v → (bare' = true → Unsigned b) → Squeezes op (c :: v))
    (symbols : p.symbols = x.symbols ++ g.symbol :: y.symbols) : p.Spelled bare (a ++ op) := by
  have shape : p.pieces = x.pieces ++ [c] :: y.pieces := by
    rw [pieces, symbols, List.map_append, List.map_cons, single]
    rfl
  obtain ⟨v, squeezesLeft, unsigned, scansLeft⟩ := hx
  obtain ⟨w, squeezesRight, unsigned', scansRight⟩ := hy
  have signs : ∀ d ∈ Symbol.binarySigns, Symbol.operatorSigns.contains d = true :=
    List.all_eq_true.1 (by decide)
  have expecting : ∀ d ∈ Symbol.binarySigns, expectsOperand .round (some [d]) = true :=
    List.all_eq_true.1 (by decide)
  have operator : c ∈ Symbol.operatorSigns := List.contains_iff_mem.1 (signs c binary)
  have sign := List.mem_append_left [')', Symbol.separator] operator
  have alone : c ∈ punctuation := List.mem_append_left _ operator
  have expects := expecting c binary
  refine ⟨v ++ c :: w, squeezesLeft.append (squeezes squeezesRight unsigned'),
    fun first => (unsigned first).append op, fun {previous mark rest out} entry parted later => ?_⟩
  rw [shape, List.append_assoc, List.append_assoc, List.cons_append, List.cons_append]
  refine scansLeft entry (parted_punctuation alone _) (scans_sign sign ?_)
  have right := scansRight (.due expects) parted later
  rwa [List.nil_append] at right

/-- A minus sign in front of a bare text. -/
theorem Spelled.minus {level' : Level} {x : Phrase .round level'} {p : Phrase .round level}
    {text : String} (hx : x.Spelled true text)
    (shape : p.pieces = [Symbol.negationMark] :: x.pieces) : p.Spelled false ("-" ++ text) := by
  obtain ⟨w, squeezes, unsigned, scans⟩ := hx
  refine ⟨'-' :: w, squeezes.minus (by decide) (unsigned rfl), ?_, ?_⟩
  · intro impossible
    cases impossible
  · intro previous mark rest out entry parted later
    cases entry with
    | due expects =>
      have negated : expectsOperand .round (some [Symbol.negationMark]) = true := by decide
      rw [shape]
      exact scans_negation expects (scans (.due negated) parted later)

theorem Spelled.factorial {x : Phrase .round .primary} {text : String} (hx : x.Spelled bare text) :
    (Phrase.factorial x).Spelled bare (text ++ "!") := by
  obtain ⟨w, squeezes, unsigned, scans⟩ := hx
  have shape : (Phrase.factorial x).pieces = x.pieces ++ [['!']] := by
    simp [pieces, symbols, Symbol.bang]
  refine ⟨w ++ ['!'], squeezes.append fun rest => rfl, fun first => (unsigned first).append _, ?_⟩
  intro previous mark rest out entry parted later
  rw [shape, List.append_assoc, List.append_assoc]
  refine scans entry (parted_punctuation (by decide) _) (scans_sign (by decide) ?_)
  exact later.ended (by decide) (by decide)

/-- An opening bracket, a text and a closing bracket. -/
theorem scans_bracketed {x : Phrase .round .sum} {w : List Char}
    (scans : ∀ {previous mark rest out}, Entry false previous mark → Parted rest →
      Scans (some [')']) rest out → Scans previous (w ++ rest) (mark ++ (x.pieces ++ out)))
    {rest : List Char} {out : List Piece} (later : Scans (some [')']) rest out) :
    Scans (some ['(']) (w ++ ')' :: rest) (x.pieces ++ [')'] :: out) :=
  scans (.due (by decide)) (parted_punctuation (by decide) _)
    (scans_sign (by decide) later)

theorem Spelled.bracketed {x : Phrase .round .sum} {text : String} (hx : x.Spelled false text) :
    (Phrase.bracketed roundPair x).Spelled bare ("(" ++ text ++ ")") := by
  obtain ⟨w, squeezes, -, scans⟩ := hx
  have shape : (Phrase.bracketed roundPair x).pieces = ['('] :: (x.pieces ++ [[')']]) := by
    simp [pieces, symbols, roundPair]
  have opening : Squeezes "(" ['('] := fun rest => rfl
  have closing : Squeezes ")" [')'] := fun rest => rfl
  refine ⟨['('] ++ w ++ [')'], (opening.append squeezes).append closing, fun _ => ?_, ?_⟩
  · exact ⟨'(', (text ++ ")").toList, by simp, by decide, by decide⟩
  · intro previous mark rest out entry parted later
    rw [shape]
    simp only [List.cons_append, List.nil_append, List.append_assoc]
    exact scans_open entry (scans_bracketed scans later)

/-- Whether the characters are a run of an identifier without a numeral at its start. -/
def isCallName : List Char → Bool
  | c :: run =>
    isLetter c && !isNumeralChar c && run.all isIdentifierChar &&
      (c :: run).all fun d => !isBlank d && d != '-'
  | [] => false

/-- The name of a function in front of a bracket. -/
theorem name_of_call {f : Function} {name : String} (named : Function.ofName? name = some f) :
    (∀ c ∈ name.toList, isBlank c = false ∧ c ≠ '-') ∧ Unsigned name ∧
      ∀ rest, CutWhole name.toList ('(' :: rest) := by
  have names : ∀ g ∈ Function.registered, isCallName g.name.toList = true := by decide
  have found : Function.registered.find? (fun g => g.name == name) = some f := named
  have shape := names f (List.mem_of_find?_eq_some found)
  rw [Function.name_of_ofName? named] at shape
  cases spelled : name.toList with
  | nil => simp [spelled, isCallName] at shape
  | cons c run =>
    simp only [spelled, isCallName, Bool.and_eq_true, List.all_eq_true, Bool.not_eq_true',
      bne_iff_ne] at shape
    obtain ⟨⟨⟨letter, notNumeral⟩, inside⟩, plain⟩ := shape
    refine ⟨plain, ⟨c, run, spelled, plain c List.mem_cons_self⟩, fun rest => ?_⟩
    refine cutWhole_name letter notNumeral inside (fun d hd => ?_) fun before bracket => ?_
    · cases hd
      decide
    · have text : String.ofList (c :: run) = name := by rw [← spelled, String.ofList_toList]
      have called : (Function.ofName? (String.ofList (c :: run))).isSome = true := by
        rw [text, named]
        rfl
      unfold cutIdentifier
      dsimp only
      rw [bracket rfl, called]
      rfl

theorem Spelled.unaryCall {x : Phrase .round .sum} {f : Unary} {name text : String}
    (named : Function.ofName? name = some (.unary f)) (hx : x.Spelled false text) :
    (Phrase.unaryCall ⟨name⟩ f named roundPair x).Spelled bare (name ++ "(" ++ text ++ ")") := by
  obtain ⟨w, squeezes, -, scans⟩ := hx
  obtain ⟨plain, unsigned, whole⟩ := name_of_call named
  have shape : (Phrase.unaryCall ⟨name⟩ f named roundPair x).pieces =
      name.toList :: ['('] :: (x.pieces ++ [[')']]) := by
    simp [pieces, symbols, roundPair]
  have opening : Squeezes "(" ['('] := fun rest => rfl
  have closing : Squeezes ")" [')'] := fun rest => rfl
  refine ⟨name.toList ++ ['('] ++ w ++ [')'],
    (((squeezes_of_plain plain).append opening).append squeezes).append closing, fun _ => ?_, ?_⟩
  · exact ((unsigned.append _).append _).append _
  · intro previous mark rest out entry parted later
    rw [shape]
    simp only [List.cons_append, List.nil_append, List.append_assoc]
    have called : (Piece.symbol name.toList).function? = some (.unary f) := by
      rwa [Piece.symbol, String.ofList_toList]
    exact scans_call entry called (whole _) (scans_bracketed scans later)

theorem Spelled.binaryCall {x y : Phrase .round .sum} {f : Binary} {name a b : String}
    (named : Function.ofName? name = some (.binary f)) (hx : x.Spelled false a)
    (hy : y.Spelled false b) :
    (Phrase.binaryCall ⟨name⟩ f named roundPair x y).Spelled bare
      (name ++ "(" ++ a ++ ", " ++ b ++ ")") := by
  obtain ⟨v, squeezesLeft, -, scansLeft⟩ := hx
  obtain ⟨w, squeezesRight, -, scansRight⟩ := hy
  obtain ⟨plain, unsigned, whole⟩ := name_of_call named
  have shape : (Phrase.binaryCall ⟨name⟩ f named roundPair x y).pieces =
      name.toList :: ['('] :: (x.pieces ++ [','] :: (y.pieces ++ [[')']])) := by
    simp [pieces, symbols, roundPair, Symbol.comma]
  have opening : Squeezes "(" ['('] := fun rest => rfl
  have comma : Squeezes ", " [','] := fun rest => rfl
  have closing : Squeezes ")" [')'] := fun rest => rfl
  refine ⟨name.toList ++ ['('] ++ v ++ [','] ++ w ++ [')'],
    (((((squeezes_of_plain plain).append opening).append squeezesLeft).append comma).append
      squeezesRight).append closing, fun _ => ?_, ?_⟩
  · exact ((((unsigned.append _).append _).append _).append _).append _
  · intro previous mark rest out entry parted later
    rw [shape]
    simp only [List.cons_append, List.nil_append, List.append_assoc]
    have called : (Piece.symbol name.toList).function? = some (.binary f) := by
      rwa [Piece.symbol, String.ofList_toList]
    refine scans_call entry called (whole _) (scansLeft (.due (by decide))
      (parted_punctuation (by decide) _) (scans_sign (by decide) ?_))
    exact scansRight (.due (by decide)) (parted_punctuation (by decide) _)
      (scans_sign (by decide) later)

/-- A numeral right in front of a bare text. -/
theorem Spelled.juxtaposed {s : Symbol} {y : Phrase .round .power} {text : String}
    (known : s.isOperand = true) (numeral : ∀ c ∈ s.text.toList, isDecimal c = true ∨ c = '.')
    (hy : y.Spelled true text) (apart : ∀ c ∈ text.toList.head?, isNumeralChar c = false) :
    (scaled (.ofPower (.ofUnary (.ofPrimary (operand s known)))) .juxtaposed y).Spelled bare
      (s.text ++ text) := by
  obtain ⟨first, run, spelled⟩ := operand_nonempty known
  have plain := plain_of_numeral numeral
  obtain ⟨w, squeezes, unsigned, scans⟩ := hy
  obtain ⟨c, tail, start, visible, other⟩ := unsigned rfl
  obtain ⟨tail', shape⟩ := squeezes.head start visible other
  have next : isNumeralChar c = false := apart c (by rw [start]; rfl)
  refine ⟨s.text.toList ++ w, (squeezes_of_plain fun d hd => (plain d hd).2).append squeezes,
    fun _ => ?_, ?_⟩
  · refine Unsigned.append ⟨first, run, spelled, ?_⟩ text
    exact (plain first (spelled ▸ List.mem_cons_self)).2
  · intro previous mark rest out entry parted later
    have marks : (scaled (.ofPower (.ofUnary (.ofPrimary (operand s known)))) .juxtaposed y).pieces =
        s.text.toList :: [Symbol.multiplicationMark] :: y.pieces := by
      simp [pieces, symbols, Sign.symbol, Sign.text, Symbol.multiplicationMark]
    rw [marks, List.append_assoc]
    refine scans_operand entry ?_ (cutWhole_numeral ?_ (fun d hd => (plain d hd).1) ?_)
      (scans .beside parted later)
    · rwa [Piece.symbol, String.ofList_toList]
    · rw [spelled]
      exact List.cons_ne_nil first run
    · intro d hd
      rw [shape] at hd
      cases hd
      exact next

/-! ### The symbols of a text -/

theorem isValid_symbols {level : Level} (p : Phrase .round level) :
    ∀ s ∈ p.symbols, s.isValid .round = true := by
  have brackets : ∀ b : BracketPair .round,
      b.opening.isValid .round = true ∧ b.closing.isValid .round = true := by
    intro b
    constructor
    · simp [Symbol.isValid, Symbol.isOpen_opening valid_round b]
    · simp [Symbol.isValid, Symbol.isClose_closing valid_round b]
  have signs : ∀ g : Sign, g.symbol.isValid .round = true := by
    intro g
    simp [Symbol.isValid, Symbol.isOperator]
  induction p with
  | operand s known => simp [symbols, Symbol.isValid, known]
  | factorial x ih =>
    refine List.forall_mem_append.2 ⟨ih, List.forall_mem_singleton.2 ?_⟩
    decide
  | bracketed b x ih =>
    refine List.forall_mem_append.2 ⟨List.forall_mem_cons.2 ⟨(brackets b).1, ih⟩, ?_⟩
    exact List.forall_mem_singleton.2 (brackets b).2
  | unaryCall s f named b x ih =>
    have called : s.isValid .round = true := by simp [Symbol.isValid, Symbol.isFunction, named]
    refine List.forall_mem_append.2 ⟨List.forall_mem_cons.2
      ⟨called, List.forall_mem_cons.2 ⟨(brackets b).1, ih⟩⟩, ?_⟩
    exact List.forall_mem_singleton.2 (brackets b).2
  | binaryCall s f named b x y ihx ihy =>
    have called : s.isValid .round = true := by simp [Symbol.isValid, Symbol.isFunction, named]
    refine List.forall_mem_append.2 ⟨List.forall_mem_cons.2
      ⟨called, List.forall_mem_cons.2 ⟨(brackets b).1, List.forall_mem_append.2
        ⟨ihx, List.forall_mem_cons.2 ⟨?_, ihy⟩⟩⟩⟩, ?_⟩
    · decide
    · exact List.forall_mem_singleton.2 (brackets b).2
  | ofPrimary x ih => exact ih
  | negated x ih => exact List.forall_mem_cons.2 ⟨by decide, ih⟩
  | ofUnary x ih => exact ih
  | raised x y ihx ihy =>
    exact List.forall_mem_append.2 ⟨ihx, List.forall_mem_cons.2 ⟨signs _, ihy⟩⟩
  | ofPower x ih => exact ih
  | scaled x g y ihx ihy =>
    exact List.forall_mem_append.2 ⟨ihx, List.forall_mem_cons.2 ⟨signs _, ihy⟩⟩
  | ofProduct x ih => exact ih
  | minus x y ihx ihy =>
    exact List.forall_mem_append.2 ⟨ihx, List.forall_mem_cons.2 ⟨signs _, ihy⟩⟩
  | ofDifference x ih => exact ih
  | plus x y ihx ihy =>
    exact List.forall_mem_append.2 ⟨ihx, List.forall_mem_cons.2 ⟨signs _, ihy⟩⟩

/-- A text that spells a phrase has the symbols of the phrase. -/
theorem Spelled.symbols_eq {p : Phrase .round level} {text : String} (h : p.Spelled bare text) :
    ({} : ParserSettings).symbols text = .ok p.symbols := by
  obtain ⟨w, squeezes, -, scans⟩ := h
  have start : expectsOperand .round none = true := rfl
  have parted : Parted [] := by
    rintro c ⟨⟩
  obtain ⟨pieces, cuts, marks⟩ := scans (.due start) parted scans_nil
  have whole : collapseMinus (compact text.toList) = w ++ [] := by
    have squeezed := squeezes []
    rwa [List.append_nil] at squeezed
  have tokens : tokenize .round text = .ok (p.symbols.map Symbol.text) := by
    unfold tokenize ofCompact
    rw [whole, cuts]
    show (do return (← marked .round none pieces).map String.ofList) = _
    rw [marks]
    show Except.ok _ = _
    rw [List.nil_append, List.append_nil, Phrase.pieces, List.map_map]
    simp [Function.comp_def]
  unfold ParserSettings.symbols
  rw [tokens]
  show Symbol.classify .round (p.symbols.map Symbol.text) = _
  rw [Symbol.classify, mapM_eq_ok, List.forall₂_map_left_iff, List.forall₂_same]
  intro s hs
  rw [Symbol.validate, if_pos (isValid_symbols p s hs)]

end Phrase

end SymbolicAlgebra
