/-
  Two minus signs and one plus sign
  =================================
  The symbols of a text can be taken from the text as it stands, in which the second
  of two minus signs is a negation, and not with a plus sign for the pair. A phrase
  with plus signs is a phrase with pairs of minus signs in their place
  (`Phrase.exists_unfolded`), and both are evaluated alike where every product that is
  taken away turns with its sign: **`ParserSettings.direct_uncollapsed`**.

  Where it does not, the pair and the plus sign differ: a negation binds tighter than a
  power, so `1--x^2` is `1 - (-x)^2` by its signs and `1 + x^2` by the plus sign
  (`ParserSettings.direct_uncollapsed_square`).
-/
import SymbolicAlgebra.Proofs.Printing.Fraction
import SymbolicAlgebra.Proofs.Grammar.Refusal
import SymbolicAlgebra.Proofs.Signs.Marking
import SymbolicAlgebra.Proofs.Signs.Opposite

namespace SymbolicAlgebra

open SymbolicAlgebra.Text SymbolicAlgebra.Postfix

namespace Phrase

variable {table : BracketTable} {level : Level} {α : Type} [FieldScalar α]

/-- The symbols are those of a phrase with the same number and of what follows it. -/
def Unfolded (α : Type) [FieldScalar α] (p : Phrase table level) (rest out : List Symbol) : Prop :=
  ∃ (q : Phrase table level) (rest' : List Symbol), out = q.symbols ++ rest' ∧
    Unfolds table rest rest' ∧ ∀ s : Scope α, q.Opposes s → q.number? s = p.number? s

/-- Pairs of negation marks in front of a phrase. -/
theorem exists_negations (x : Phrase table level) (loose : level ≠ .primary) (n : Nat) :
    ∃ q : Phrase table level, q.symbols = List.replicate (2 * n) .negation ++ x.symbols ∧
      ∀ s : Scope α, (q.Opposes s ↔ x.Opposes s) ∧ q.number? s = x.number? s := by
  induction n with
  | zero => exact ⟨x, rfl, fun s => ⟨Iff.rfl, rfl⟩⟩
  | succ n ih =>
    obtain ⟨q, symbols, alike⟩ := ih
    refine ⟨q.opposed.opposed, ?_, fun s => ?_⟩
    · rw [symbols_opposed _ loose, symbols_opposed _ loose, symbols, Nat.mul_succ,
        List.replicate_succ, List.replicate_succ]
      rfl
    · obtain ⟨opposes, value⟩ := alike s
      rw [opposes_opposed, opposes_opposed, number?_opposed_opposed]
      exact ⟨opposes, value⟩

/-- A sum behind an opening bracket or a separator. -/
theorem unfolded_argument {x : Phrase table .sum} {s : Symbol} {rest out : List Symbol}
    (ih : ∀ {out}, Unfolds table (x.symbols ++ rest) out → x.Unfolded α rest out)
    (other : s ≠ Sign.plus.symbol) (h : Unfolds table (s :: (x.symbols ++ rest)) out) :
    ∃ later, out = s :: later ∧ x.Unfolded α rest later := by
  obtain ⟨n, ys, rfl, -, unfolds⟩ := h.inversion other
  obtain ⟨q, rest', rfl, remain, alike⟩ := ih unfolds
  obtain ⟨marked, symbols, same⟩ := q.exists_negations (α := α) (by decide) n
  refine ⟨_, rfl, marked, rest', ?_, remain, fun s opposes => ?_⟩
  · rw [symbols, List.append_assoc]
  · rw [(same s).2]
    exact alike s ((same s).1.1 opposes)

/-- Two phrases with a sign between them that is no plus sign. -/
theorem unfolded_joined {left right : Level} {x : Phrase table left} {y : Phrase table right}
    {rest out : List Symbol} (g : Sign)
    (build : Phrase table left → Phrase table right → Phrase table level)
    (ihx : ∀ {rest out}, Unfolds table (x.symbols ++ rest) out → x.Unfolded α rest out)
    (ihy : ∀ {rest out}, Unfolds table (y.symbols ++ rest) out → y.Unfolded α rest out)
    (other : g ≠ .plus)
    (symbols : ∀ x y, (build x y).symbols = x.symbols ++ g.symbol :: y.symbols)
    (opposes : ∀ (s : Scope α) x y, (build x y).Opposes s → x.Opposes s ∧ y.Opposes s)
    (number : ∀ (s : Scope α) x y, (build x y).number? s =
      (x.number? s).bind fun m => (y.number? s).bind fun n => binaryValue? g.symbol m n)
    (h : Unfolds table ((build x y).symbols ++ rest) out) : (build x y).Unfolded α rest out := by
  rw [symbols, List.append_assoc] at h
  obtain ⟨x', ys, rfl, unfolds, alikeX⟩ := ihx h
  have differ : g.symbol ≠ Sign.plus.symbol := by
    intro same
    have found := congrArg Sign.ofSymbol? same
    rw [Sign.ofSymbol?_symbol, Sign.ofSymbol?_symbol] at found
    exact other (Option.some.inj found)
  obtain ⟨zs, rfl, behind⟩ := unfolds.kept differ (by simp [Symbol.Opens])
  obtain ⟨y', rest', rfl, remain, alikeY⟩ := ihy behind
  refine ⟨build x' y', rest', ?_, remain, fun s turns => ?_⟩
  · rw [symbols, List.append_assoc, List.cons_append]
  · obtain ⟨first, second⟩ := opposes s x' y' turns
    rw [number, number, alikeX s first, alikeY s second]

variable [LawfulScalar α]

/-- A plus sign between two phrases, or a pair of minus signs for it. -/
theorem unfolded_plus {x : Phrase table .sum} {y : Phrase table .difference}
    {rest out : List Symbol}
    (ihx : ∀ {rest out}, Unfolds table (x.symbols ++ rest) out → x.Unfolded α rest out)
    (ihy : ∀ {rest out}, Unfolds table (y.symbols ++ rest) out → y.Unfolded α rest out)
    (h : Unfolds table ((x.plus y).symbols ++ rest) out) : (x.plus y).Unfolded α rest out := by
  rw [symbols, List.append_assoc] at h
  obtain ⟨x', ys, rfl, unfolds, alikeX⟩ := ihx h
  obtain ⟨zs, behind, shape⟩ := unfolds.plus
  obtain ⟨y', rest', rfl, remain, alikeY⟩ := ihy behind
  have number : ∀ s : Scope α, x'.Opposes s → y'.Opposes s →
      (x'.plus y').number? s = (x.plus y).number? s := by
    intro s first second
    rw [number?, number?, alikeX s first, alikeY s second]
  rcases shape with rfl | rfl
  · refine ⟨x'.plus y', rest', ?_, remain, fun s opposes => number s opposes.1 opposes.2⟩
    rw [symbols, List.append_assoc, List.cons_append]
  · refine ⟨x'.lessAll y'.opposed, rest', ?_, remain, fun s opposes => ?_⟩
    · rw [symbols_lessAll, symbols_opposed _ (by decide), List.append_assoc]
      rfl
    · obtain ⟨first, second⟩ := opposes_of_lessAll opposes
      rw [number?_lessAll_opposed x' y' opposes]
      exact number s first ((opposes_opposed y').1 second)

/-- Symbols that unfold the symbols of a phrase are those of a phrase with the same number. -/
theorem exists_unfolded (valid : table.Valid) (p : Phrase table level) {rest out : List Symbol}
    (h : Unfolds table (p.symbols ++ rest) out) : p.Unfolded α rest out := by
  induction p generalizing rest out with
  | operand s known =>
    obtain ⟨ys, rfl, remain⟩ := h.kept_of_kind (Symbol.kind_operand known) (by decide)
    exact ⟨.operand s known, ys, rfl, remain, fun _ _ => rfl⟩
  | factorial x ih =>
    rw [symbols, List.append_assoc] at h
    obtain ⟨q, ys, rfl, unfolds, alike⟩ := ih h
    obtain ⟨zs, rfl, remain⟩ := unfolds.kept_of_kind Symbol.kind_bang (by decide)
    refine ⟨.factorial q, zs, by simp [symbols], remain, fun s opposes => ?_⟩
    rw [number?, number?, alike s opposes]
  | bracketed b x ih =>
    have shape : (bracketed b x).symbols ++ rest =
        b.opening :: (x.symbols ++ b.closing :: rest) := by simp [symbols]
    rw [shape] at h
    have opening := (Symbol.unreserved_opening valid b).ne_sign .plus
    obtain ⟨later, rfl, q, ys, rfl, unfolds, alike⟩ := unfolded_argument ih opening h
    obtain ⟨zs, rfl, remain⟩ := unfolds.kept_of_kind (Symbol.kind_closing valid b) (by decide)
    exact ⟨.bracketed b q, zs, by simp [symbols], remain, alike⟩
  | unaryCall s f named b x ih =>
    have shape : (unaryCall s f named b x).symbols ++ rest =
        s :: b.opening :: (x.symbols ++ b.closing :: rest) := by simp [symbols]
    rw [shape] at h
    obtain ⟨call, rfl, called⟩ := h.kept_of_kind (Symbol.kind_function named) (by decide)
    have opening := (Symbol.unreserved_opening valid b).ne_sign .plus
    obtain ⟨later, rfl, q, ys, rfl, unfolds, alike⟩ := unfolded_argument ih opening called
    obtain ⟨zs, rfl, remain⟩ := unfolds.kept_of_kind (Symbol.kind_closing valid b) (by decide)
    refine ⟨.unaryCall s f named b q, zs, by simp [symbols], remain, fun s opposes => ?_⟩
    rw [number?, number?, alike s opposes]
  | binaryCall s f named b x y ihx ihy =>
    have shape : (binaryCall s f named b x y).symbols ++ rest =
        s :: b.opening :: (x.symbols ++ Symbol.comma :: (y.symbols ++ b.closing :: rest)) := by
      simp [symbols]
    rw [shape] at h
    obtain ⟨call, rfl, called⟩ := h.kept_of_kind (Symbol.kind_function named) (by decide)
    have opening := (Symbol.unreserved_opening valid b).ne_sign .plus
    obtain ⟨later, rfl, q, ys, rfl, second, alikeX⟩ := unfolded_argument ihx opening called
    obtain ⟨others, rfl, r, zs, rfl, ended, alikeY⟩ := unfolded_argument ihy (by decide) second
    obtain ⟨rest', rfl, remain⟩ := ended.kept_of_kind (Symbol.kind_closing valid b) (by decide)
    refine ⟨.binaryCall s f named b q r, rest', by simp [symbols], remain, fun s opposes => ?_⟩
    obtain ⟨first, second⟩ := opposes
    rw [number?, number?, alikeX s first, alikeY s second]
  | ofPrimary x ih =>
    obtain ⟨q, rest', rfl, remain, alike⟩ := ih h
    exact ⟨.ofPrimary q, rest', rfl, remain, alike⟩
  | negated x ih =>
    obtain ⟨ys, rfl, behind⟩ := h.kept_of_kind Symbol.kind_negation (by decide)
    obtain ⟨q, rest', rfl, remain, alike⟩ := ih behind
    refine ⟨.negated q, rest', rfl, remain, fun s opposes => ?_⟩
    rw [number?, number?, alike s opposes]
  | ofUnary x ih =>
    obtain ⟨q, rest', rfl, remain, alike⟩ := ih h
    exact ⟨.ofUnary q, rest', rfl, remain, alike⟩
  | raised x y ihx ihy =>
    exact unfolded_joined .power .raised ihx ihy (by decide) (fun _ _ => rfl) (fun _ _ _ => id)
      (fun _ _ _ => rfl) h
  | ofPower x ih =>
    obtain ⟨q, rest', rfl, remain, alike⟩ := ih h
    exact ⟨.ofPower q, rest', rfl, remain, alike⟩
  | scaled x g y ihx ihy =>
    exact unfolded_joined (.product g) (.scaled · g ·) ihx ihy (by simp)
      (fun _ _ => rfl) (fun _ _ _ => id) (fun _ _ _ => rfl) h
  | ofProduct x ih =>
    obtain ⟨q, rest', rfl, remain, alike⟩ := ih h
    exact ⟨.ofProduct q, rest', rfl, remain, alike⟩
  | minus x y ihx ihy =>
    exact unfolded_joined .minus .minus ihx ihy (by decide) (fun _ _ => rfl)
      (fun _ _ _ opposes => ⟨opposes.1, opposes.2.1⟩) (fun _ _ _ => rfl) h
  | ofDifference x ih =>
    obtain ⟨q, rest', rfl, remain, alike⟩ := ih h
    exact ⟨.ofDifference q, rest', rfl, remain, alike⟩
  | plus x y ihx ihy => exact unfolded_plus ihx ihy h

end Phrase

/-! ### Texts -/

variable {table : BracketTable}

/-- Behind a negation mark an operand is due. -/
theorem Turn.Step.behind_negation (valid : table.Valid) {t u : Turn}
    (h : t.Step table .negation u) : u = .operand := by
  generalize same : Symbol.negation = s at h
  cases h with
  | negation due => rfl
  | operand due known =>
    subst same
    cases known
  | function due named =>
    subst same
    cases named
  | opening due b => exact absurd same.symm (Symbol.unreserved_opening valid b).ne_negation
  | callOpening b => exact absurd same.symm (Symbol.unreserved_opening valid b).ne_negation
  | closing b => exact absurd same.symm (Symbol.unreserved_closing valid b).ne_negation
  | bang => exact absurd same (by decide)
  | comma => exact absurd same (by decide)
  | sign g => exact absurd (congrArg Sign.ofSymbol? same) (by simp)

/-- No text ends with negation marks, so none has nothing else. -/
theorem Alternating.negations (valid : table.Valid) {n : Nat} {t u : Turn}
    (h : Alternating table t (List.replicate (n + 1) .negation) u) : u = .operand := by
  induction n generalizing t with
  | zero =>
    cases h with
    | cons first next =>
      cases next
      exact first.behind_negation valid
  | succ n ih =>
    cases h with
    | cons first next => exact ih next

namespace Token

/-- The symbols of a text without blanks. -/
def symbolsOfCompact (table : BracketTable) (cs : List Char) : Checked (List Symbol) := do
  let pieces ← (ofCompact table cs).mapError Failure.parse
  Symbol.classify table (pieces.map String.ofList)

theorem symbolsOfCompact_eq_ok (valid : table.Valid) {cs : List Char} {symbols : List Symbol}
    (h : symbolsOfCompact table cs = .ok symbols) :
    ∃ pieces, ofCompact table cs = .ok pieces ∧ symbols = pieces.map Piece.symbol ∧
      ∀ p ∈ pieces, Symbol.Class table p.symbol := by
  obtain ⟨pieces, lexed, classified⟩ := bind_eq_ok.1 h
  obtain ⟨rfl, known⟩ := Symbol.classify_eq_ok classified
  rw [List.map_map] at known ⊢
  refine ⟨pieces, ?_, rfl, fun p hp => ?_⟩
  · cases made : ofCompact table cs with
    | error cause =>
      rw [made] at lexed
      cases lexed
    | ok _ =>
      rw [made] at lexed
      exact congrArg Except.ok (Except.ok.inj lexed)
  · exact Symbol.class_of_isValid valid (known _ (List.mem_map_of_mem hp))

/-- The symbols of a text that are accepted are those of a phrase. -/
theorem phrase_of_compact (valid : table.Valid) {cs : List Char} {limit : Option Int}
    {symbols postfixed : List Symbol} (lexed : symbolsOfCompact table cs = .ok symbols)
    (nonempty : symbols ≠ []) (accepted : ofInfix table limit symbols = .ok postfixed) :
    ∃ p : Phrase table .sum, p.symbols = symbols ∧ postfixed = p.postorder := by
  obtain ⟨pieces, made, rfl, classes⟩ := symbolsOfCompact_eq_ok valid lexed
  have some_piece : pieces ≠ [] := by
    rintro rfl
    exact nonempty rfl
  obtain ⟨u, fits, ended⟩ := alternating_ofCompact valid made classes some_piece
  exact phrase_of_ofInfix valid fits ended accepted

/-- The symbols of a text and those of the text with plus signs for its pairs of minus signs. -/
theorem unfolds_symbols (valid : table.Valid) {cs : List Char} {symbols signs : List Symbol}
    (lexed : symbolsOfCompact table (collapseMinus cs) = .ok symbols)
    (lexed' : symbolsOfCompact table cs = .ok signs) :
    ∃ n ys, signs = List.replicate (2 * n) .negation ++ ys ∧ Unfolds table symbols ys ∧
      (symbols = [] ↔ signs = []) := by
  obtain ⟨out, made, rfl, -⟩ := symbolsOfCompact_eq_ok valid lexed
  obtain ⟨out', made', rfl, classes'⟩ := symbolsOfCompact_eq_ok valid lexed'
  obtain ⟨ps, cutText, markText⟩ := bind_eq_ok.1 made
  obtain ⟨qs, cutText', markText'⟩ := bind_eq_ok.1 made'
  obtain ⟨n, ys, shape, unfolds, -⟩ :=
    unfolds_marked valid (collapsed_cut valid cutText cutText') (.inl rfl) markText markText'
  refine ⟨n, ys, shape, unfolds, ?_, ?_⟩
  · intro empty
    rw [unfolds.eq_nil_iff.2 empty, List.append_nil] at shape
    cases n with
    | zero => exact shape
    | succ n =>
      -- nothing but pairs in front of nothing is refused where it ends
      by_contra nonempty
      have some_piece : out' ≠ [] := by
        rintro rfl
        exact nonempty rfl
      obtain ⟨u, fits, ended⟩ := alternating_ofCompact valid made' classes' some_piece
      rw [shape] at fits
      have due := fits.negations valid
      simp [due] at ended
  · intro empty
    rw [empty] at shape
    obtain ⟨-, nothing⟩ := List.append_eq_nil_iff.1 shape.symm
    exact unfolds.eq_nil_iff.1 nothing

end Token

namespace ParserSettings

open Token

/-- The symbols of a text in which two minus signs stay two. -/
def uncollapsedSymbols (settings : ParserSettings) (text : String) : Checked (List Symbol) :=
  symbolsOfCompact settings.brackets (compact text.toList)

theorem symbols_eq (settings : ParserSettings) (text : String) : settings.symbols text =
    symbolsOfCompact settings.brackets (collapseMinus (compact text.toList)) := by
  unfold symbols symbolsOfCompact tokenize
  cases ofCompact settings.brackets (collapseMinus (compact text.toList)) <;> rfl

variable {α : Type} [FieldScalar α] [LawfulScalar α] {settings : ParserSettings}

/-- A text is evaluated alike whether its pairs of minus signs are taken as plus signs or stay, if
every product that is taken away turns with its sign. -/
theorem direct_uncollapsed (checked : settings.check = .ok settings) {text : String}
    {symbols signs postfixed postfixed' : List Symbol}
    (lexed : settings.symbols text = .ok symbols)
    (lexed' : settings.uncollapsedSymbols text = .ok signs)
    (accepted : ofInfix settings.brackets settings.maxDepth symbols = .ok postfixed)
    (accepted' : ofInfix settings.brackets settings.maxDepth signs = .ok postfixed')
    (s : Scope α)
    (opposes : ∀ q : Phrase settings.brackets .sum, q.symbols = signs → q.Opposes s) :
    direct s postfixed = direct s postfixed' := by
  have valid := BracketTable.valid_of_check checked
  rw [symbols_eq] at lexed
  obtain ⟨n, ys, shape, unfolds, both⟩ := unfolds_symbols valid lexed lexed'
  by_cases empty : symbols = []
  · rw [empty] at accepted
    rw [both.1 empty, accepted] at accepted'
    rw [Except.ok.inj accepted']
  · obtain ⟨p, rfl, rfl⟩ := phrase_of_compact valid lexed empty accepted
    obtain ⟨q, spelled, rfl⟩ := phrase_of_compact valid lexed' (mt both.2 empty) accepted'
    rw [← List.append_nil p.symbols] at unfolds
    obtain ⟨r, rest, rfl, remain, alike⟩ := p.exists_unfolded (α := α) valid unfolds
    obtain ⟨r', symbols, same⟩ := r.exists_negations (α := α) (by decide) n
    obtain rfl : r' = q := by
      refine Phrase.eq_of_symbols_eq valid ?_
      rw [spelled, shape, symbols, remain.eq_nil_iff.2 rfl, List.append_nil]
    obtain ⟨turns, value⟩ := same s
    rw [Phrase.direct_postorder, Phrase.direct_postorder, value]
    exact (alike s (turns.1 (opposes r' spelled))).symm

/-- An odd power turns with the sign of its base, here at `x = 2`. -/
theorem direct_uncollapsed_cube :
    let settings : ParserSettings := {}
    let s : Scope Fraction := { values := [("x", 2)] }
    let symbols := ["1", "+", "x", "^", "3"].map Symbol.mk
    let signs := ["1", "-", "~", "x", "^", "3"].map Symbol.mk
    let postfixed := ["1", "x", "3", "^", "+"].map Symbol.mk
    let postfixed' := ["1", "x", "~", "3", "^", "-"].map Symbol.mk
    settings.check = .ok settings ∧ settings.symbols "1--x^3" = .ok symbols ∧
      settings.uncollapsedSymbols "1--x^3" = .ok signs ∧
      ofInfix settings.brackets settings.maxDepth symbols = .ok postfixed ∧
      ofInfix settings.brackets settings.maxDepth signs = .ok postfixed' ∧
      (∀ q : Phrase settings.brackets .sum, q.symbols = signs → q.Opposes s) ∧
      direct s postfixed = direct s postfixed' := by
  intro settings s symbols signs postfixed postfixed'
  have checked : settings.check = .ok settings := by decide +kernel
  have lexed : settings.symbols "1--x^3" = .ok symbols := by decide +kernel
  have lexed' : settings.uncollapsedSymbols "1--x^3" = .ok signs := by decide +kernel
  have accepted : ofInfix settings.brackets settings.maxDepth symbols = .ok postfixed := by
    decide +kernel
  have accepted' : ofInfix settings.brackets settings.maxDepth signs = .ok postfixed' := by
    decide +kernel
  have opposes : ∀ q : Phrase settings.brackets .sum, q.symbols = signs → q.Opposes s := by
    intro q spelled
    let one : Phrase settings.brackets .primary := .operand ⟨"1"⟩ (by decide)
    let x : Phrase settings.brackets .primary := .operand ⟨"x"⟩ (by decide)
    let three : Phrase settings.brackets .primary := .operand ⟨"3"⟩ (by decide)
    have only : q = .ofDifference (.minus (.ofProduct (.ofPower (.ofUnary (.ofPrimary one))))
        (.ofPower (.raised (.negated (.ofPrimary x)) (.ofUnary (.ofPrimary three))))) :=
      Phrase.eq_of_symbols_eq (BracketTable.valid_of_check checked) spelled
    rw [only]
    refine ⟨trivial, ⟨trivial, trivial⟩, ?_⟩
    intro base exponent e leading value
    obtain ⟨-, rfl⟩ := Prod.mk.inj (Option.some.inj leading)
    have shown : three.number? s = some 3 := by decide +kernel
    obtain rfl := Option.some.inj (shown.symm.trans value)
    exact ⟨by decide +kernel, .inl (by decide +kernel)⟩
  exact ⟨checked, lexed, lexed', accepted, accepted', opposes,
    direct_uncollapsed checked lexed lexed' accepted accepted' s opposes⟩

/-- An even power does not turn: at `x = 1` the plus sign gives `1 + 1`, and the minus sign and the
negation give `1 - (-1)^2`. -/
theorem direct_uncollapsed_square :
    let settings : ParserSettings := {}
    let s : Scope Fraction := { values := [("x", 1)] }
    (do
      let symbols ← settings.symbols "1--x^2"
      let postfixed ← ofInfix settings.brackets settings.maxDepth symbols
      return direct s postfixed) = .ok (some 2) ∧
    (do
      let signs ← settings.uncollapsedSymbols "1--x^2"
      let postfixed ← ofInfix settings.brackets settings.maxDepth signs
      return direct s postfixed) = .ok (some 0) := by
  decide +kernel

end ParserSettings

end SymbolicAlgebra
