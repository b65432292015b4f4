/-
  Classes of symbols
  ==================
  Every symbol that `Symbol.validate` lets through belongs to exactly one class: an
  operand, a function, an infix sign, the negation mark, the factorial sign, the
  separator, an opening or a closing bracket (`Symbol.class_of_isValid`).

  The conversion to postfix order asks its questions about a symbol in a fixed
  order. The lemmas here answer them for each class, so that nothing behind this
  module has to look at the characters of a symbol again.
-/
import SymbolicAlgebra.Proofs.Grammar.Bracket

namespace SymbolicAlgebra

open SymbolicAlgebra.Text

/-! ### Infix signs -/

/-- The four signs that bind like a product. -/
inductive ProductSign where
  | times
  | juxtaposed
  | remainder
  | divided
deriving DecidableEq, Repr

/-- The signs with an operand on either side. -/
inductive Sign where
  | plus
  | minus
  | product (sign : ProductSign)
  | power
deriving DecidableEq, Repr

namespace Sign

def text : Sign → String
  | plus => "+"
  | minus => "-"
  | product .times => "*"
  | product .juxtaposed => "#"
  | product .remainder => "%"
  | product .divided => "/"
  | power => "^"

def symbol (g : Sign) : Symbol := ⟨g.text⟩

/-- How tightly the sign binds. -/
def rank : Sign → Nat
  | plus => 1
  | minus => 2
  | product _ => 3
  | power => 4

/-- All signs. -/
def all : List Sign :=
  [plus, minus, product .times, product .juxtaposed, product .remainder, product .divided, power]

/-- The sign that the symbol is. -/
def ofSymbol? (s : Symbol) : Option Sign := all.find? fun g => g.symbol == s

@[simp] theorem ofSymbol?_symbol (g : Sign) : ofSymbol? g.symbol = some g := by
  rcases g with _ | _ | ⟨_ | _ | _ | _⟩ | _ <;> rfl

theorem ofSymbol?_eq_some {s : Symbol} {g : Sign} (found : ofSymbol? s = some g) :
    s = g.symbol := by
  have same := List.find?_some found
  exact (by simpa using same : g.symbol = s).symm

@[simp] theorem isOperand_symbol (g : Sign) : g.symbol.isOperand = false := by
  rcases g with _ | _ | ⟨_ | _ | _ | _⟩ | _ <;> rfl

@[simp] theorem isFunction_symbol (g : Sign) : g.symbol.isFunction = false := by
  rcases g with _ | _ | ⟨_ | _ | _ | _⟩ | _ <;> rfl

@[simp] theorem isPostfix_symbol (g : Sign) : g.symbol.isPostfix = false := by
  rcases g with _ | _ | ⟨_ | _ | _ | _⟩ | _ <;> rfl

@[simp] theorem precedence?_symbol (g : Sign) : g.symbol.precedence? = some g.rank := by
  rcases g with _ | _ | ⟨_ | _ | _ | _⟩ | _ <;> rfl

@[simp] theorem isRightAssociative_symbol (g : Sign) :
    g.symbol.isRightAssociative = decide (g = power) := by
  rcases g with _ | _ | ⟨_ | _ | _ | _⟩ | _ <;> rfl

end Sign

namespace Symbol

/-- A minus sign in front of an operand. -/
def negation : Symbol := ⟨"~"⟩

/-- The sign behind the operand of a factorial. -/
def bang : Symbol := ⟨"!"⟩

/-- The sign between two arguments. -/
def comma : Symbol := ⟨","⟩

@[simp] theorem isOperand_negation : negation.isOperand = false := rfl
@[simp] theorem isFunction_negation : negation.isFunction = false := rfl
@[simp] theorem isPostfix_negation : negation.isPostfix = false := rfl
@[simp] theorem precedence?_negation : negation.precedence? = some 5 := rfl
@[simp] theorem isRightAssociative_negation : negation.isRightAssociative = true :=
  rfl

@[simp] theorem isOperand_bang : bang.isOperand = false := rfl
@[simp] theorem isFunction_bang : bang.isFunction = false := rfl
@[simp] theorem isPostfix_bang : bang.isPostfix = true := rfl

@[simp] theorem isOperand_comma : comma.isOperand = false := rfl
@[simp] theorem isFunction_comma : comma.isFunction = false := rfl
@[simp] theorem isPostfix_comma : comma.isPostfix = false := rfl
@[simp] theorem precedence?_comma : comma.precedence? = none := rfl
@[simp] theorem isSeparator_comma : comma.isSeparator = true := rfl

@[simp] theorem ofSymbol?_negation : Sign.ofSymbol? negation = none := rfl
@[simp] theorem ofSymbol?_bang : Sign.ofSymbol? bang = none := rfl
@[simp] theorem ofSymbol?_comma : Sign.ofSymbol? comma = none := rfl

/-- No operand bears the name of a function. -/
theorem isOperand_of_function? {s : Symbol} {f : Function} (named : s.function? = some f) :
    s.isOperand = false := by
  have names : ∀ g ∈ Function.registered, (⟨g.name⟩ : Symbol).isOperand = false := by
    decide
  have found : Function.registered.find? (fun g => g.name == s.text) = some f := named
  have spelled := names f (List.mem_of_find?_eq_some found)
  rwa [Function.name_of_ofName? named] at spelled

/-- An operator is a sign, the negation mark or the factorial sign. -/
theorem class_of_isOperator {s : Symbol} (operator : s.isOperator = true) :
    (∃ g : Sign, s = g.symbol) ∨ s = negation ∨ s = bang := by
  unfold isOperator precedence? at operator
  split at operator
  · rename_i text
    exact .inr (.inr (eq_of_toList text))
  · rename_i text
    exact .inr (.inl (eq_of_toList text))
  · rename_i text
    exact .inl ⟨.power, eq_of_toList text⟩
  · rename_i text
    exact .inl ⟨.product .times, eq_of_toList text⟩
  · rename_i text
    exact .inl ⟨.product .juxtaposed, eq_of_toList text⟩
  · rename_i text
    exact .inl ⟨.product .remainder, eq_of_toList text⟩
  · rename_i text
    exact .inl ⟨.product .divided, eq_of_toList text⟩
  · rename_i text
    exact .inl ⟨.minus, eq_of_toList text⟩
  · rename_i text
    exact .inl ⟨.plus, eq_of_toList text⟩
  · simp at operator

/-! ### Brackets are nothing else -/

/-- A symbol of one character that is not reserved. -/
structure Unreserved (s : Symbol) : Prop where
  character : ∃ c, s.text.toList = [c] ∧ ParserSettings.isReserved c = false

namespace Unreserved

variable {s : Symbol}

theorem function? (free : Unreserved s) : s.function? = none := by
  obtain ⟨c, single, -⟩ := free.character
  have long : ∀ g ∈ Function.registered, g.name.toList.length ≠ 1 := by decide
  refine List.find?_eq_none.2 fun g hg => ?_
  intro same
  rw [beq_iff_eq] at same
  exact long g hg (by rw [same, single]; rfl)

theorem isFunction (free : Unreserved s) : s.isFunction = false := by
  rw [Symbol.isFunction, free.function?]
  rfl

theorem isOperand (free : Unreserved s) : s.isOperand = false := by
  obtain ⟨c, single, unreserved⟩ := free.character
  simp only [ParserSettings.isReserved, isAlphanumeric, Bool.or_eq_false_iff] at unreserved
  obtain ⟨⟨reserved, ⟨letter, digit⟩, -⟩, blank⟩ := unreserved
  have notPoint : c ≠ '.' := by
    rintro rfl
    exact absurd reserved (by decide)
  have kept : withoutLineEnd [c] = [c] := by
    have notLine : c ≠ '\n' := by
      rintro rfl
      exact absurd blank (by decide)
    simp [withoutLineEnd, notLine]
  have notDecimal : isDecimal c = false := by
    rw [← Bool.not_eq_true]
    intro decimal
    simp [isDigit_of_isDecimal decimal] at digit
  have notAlpha : c.isAlpha = false := by
    rw [← Bool.not_eq_true]
    intro alpha
    simp [isLetter_of_isAlpha alpha] at letter
  have notNumber : s.isNumber = false := by
    rw [isNumber, numeral?, single, kept]
    simp only [List.takeWhile_cons, List.dropWhile_cons, notDecimal]
    split
    · simp_all
    · simp_all
    · rfl
  have notConstant : s.isConstant = false := by
    have spelled : ∀ text : String, s.text = text → text.toList = [c] := by
      rintro _ rfl
      exact single
    rw [isConstant, Constant.ofSymbol?]
    split
    · rename_i pi
      rcases pi with pi | pi
      · exact absurd (spelled _ pi) (by simp)
      · obtain rfl := List.singleton_inj.1 (spelled _ pi)
        exact absurd letter (by decide)
    · split
      · rename_i e
        obtain rfl := List.singleton_inj.1 (spelled _ e)
        exact absurd letter (by decide)
      · rfl
  have notVariable : s.isVariable = false := by
    rw [isVariable, isVariableName, single, kept]
    simp [notAlpha]
  rw [Symbol.isOperand, notNumber, notConstant, notVariable]
  rfl

theorem ne_of_reserved (free : Unreserved s) (c : Char) {t : Symbol} (text : t.text.toList = [c])
    (reserved : ParserSettings.isReserved c = true) : s ≠ t := by
  rintro rfl
  obtain ⟨d, single, unreserved⟩ := free.character
  obtain rfl := List.singleton_inj.1 (single.symm.trans text)
  simp [reserved] at unreserved

theorem ne_bang (free : Unreserved s) : s ≠ bang :=
  free.ne_of_reserved '!' rfl rfl

theorem ne_negation (free : Unreserved s) : s ≠ negation :=
  free.ne_of_reserved '~' rfl rfl

theorem ne_comma (free : Unreserved s) : s ≠ comma :=
  free.ne_of_reserved ',' rfl rfl

theorem ne_sign (free : Unreserved s) (g : Sign) : s ≠ g.symbol := by
  rcases g with _ | _ | ⟨_ | _ | _ | _⟩ | _
  · exact free.ne_of_reserved '+' rfl rfl
  · exact free.ne_of_reserved '-' rfl rfl
  · exact free.ne_of_reserved '*' rfl rfl
  · exact free.ne_of_reserved '#' rfl rfl
  · exact free.ne_of_reserved '%' rfl rfl
  · exact free.ne_of_reserved '/' rfl rfl
  · exact free.ne_of_reserved '^' rfl rfl

theorem ofSymbol? (free : Unreserved s) : Sign.ofSymbol? s = none := by
  cases found : Sign.ofSymbol? s with
  | none => rfl
  | some g => exact absurd (Sign.ofSymbol?_eq_some found) (free.ne_sign g)

theorem isOperator (free : Unreserved s) : s.isOperator = false := by
  rw [← Bool.not_eq_true]
  intro operator
  rcases class_of_isOperator operator with ⟨g, same⟩ | same | same
  · exact free.ne_sign g same
  · exact free.ne_negation same
  · exact free.ne_bang same

theorem isPostfix (free : Unreserved s) : s.isPostfix = false := by
  obtain ⟨c, single, unreserved⟩ := free.character
  have notBang : c ≠ '!' := by
    rintro rfl
    exact free.ne_bang (eq_of_toList single)
  rw [Symbol.isPostfix, single, List.isPrefixOf_cons_cons, beq_eq_false_iff_ne.2 notBang]
  rfl

theorem isSeparator (free : Unreserved s) : s.isSeparator = false := by
  rw [← Bool.not_eq_true]
  intro separates
  exact free.ne_comma (eq_of_toList (beq_iff_eq.1 separates))

end Unreserved

variable {table : BracketTable}

theorem unreserved_opening (valid : table.Valid) (b : BracketPair table) :
    Unreserved b.opening :=
  ⟨b.opener, b.toList_opening, valid.free _ (BracketTable.mem_of_mem_pairs b.listed).1⟩

theorem unreserved_closing (valid : table.Valid) (b : BracketPair table) :
    Unreserved b.closing :=
  ⟨b.closer, b.toList_closing, valid.free _ (BracketTable.mem_of_mem_pairs b.listed).2⟩

theorem isOpen_opening (valid : table.Valid) (b : BracketPair table) :
    b.opening.isOpen table = true :=
  (isOpen_iff valid _).2 ⟨b, rfl⟩

theorem isClose_closing (valid : table.Valid) (b : BracketPair table) :
    b.closing.isClose table = true :=
  (isClose_iff valid _).2 ⟨b, rfl⟩

theorem isOpen_closing (valid : table.Valid) (b : BracketPair table) :
    b.closing.isOpen table = false :=
  BracketTable.standsAt_zero_of_one (isClose_closing valid b)

/-! ### The classes -/

/-- What a symbol can be. -/
inductive Class (table : BracketTable) : Symbol → Prop
  | operand {s : Symbol} (operand : s.isOperand = true) : Class table s
  | function {s : Symbol} {f : Function} (named : s.function? = some f) : Class table s
  | sign (g : Sign) : Class table g.symbol
  | negation : Class table negation
  | bang : Class table bang
  | comma : Class table comma
  | opening (b : BracketPair table) : Class table b.opening
  | closing (b : BracketPair table) : Class table b.closing

theorem class_of_isValid (valid : table.Valid) {s : Symbol} (known : s.isValid table = true) :
    Class table s := by
  simp only [isValid, Bool.or_eq_true] at known
  rcases known with ((((operand | function) | operator) | opens) | closes) | separates
  · exact .operand operand
  · obtain ⟨f, named⟩ := Option.isSome_iff_exists.1 function
    exact .function named
  · rcases class_of_isOperator operator with ⟨g, rfl⟩ | rfl | rfl
    · exact .sign g
    · exact .negation
    · exact .bang
  · obtain ⟨b, rfl⟩ := (isOpen_iff valid s).1 opens
    exact .opening b
  · obtain ⟨b, rfl⟩ := (isClose_iff valid s).1 closes
    exact .closing b
  · obtain rfl : s = Symbol.comma := eq_of_toList (beq_iff_eq.1 separates)
    exact .comma

theorem isValid_of_class (valid : table.Valid) {s : Symbol} (known : Class table s) :
    s.isValid table = true := by
  cases known with
  | operand operand => simp [isValid, operand]
  | function named => simp [isValid, isFunction, named]
  | sign g => simp [isValid, isOperator]
  | negation => simp [isValid, isOperator]
  | bang => simp [isValid, isOperator, precedence?, bang]
  | comma => simp [isValid]
  | opening b => simp [isValid, isOpen_opening valid b]
  | closing b => simp [isValid, isClose_closing valid b]

end Symbol

/-! ### Kinds -/

/-- The classes as plain data. -/
inductive Kind where
  | operand
  | function
  | sign
  | negation
  | bang
  | comma
  | opening
  | closing
deriving DecidableEq, Repr

namespace Symbol

variable {table : BracketTable}

/-- The kind of a symbol that belongs to some class. -/
def kind (table : BracketTable) (s : Symbol) : Kind :=
  if s.isOperand then .operand
  else if s.isFunction then .function
  else if (Sign.ofSymbol? s).isSome then .sign
  else if s = negation then .negation
  else if s = bang then .bang
  else if s = comma then .comma
  else if s.isOpen table then .opening
  else .closing

theorem kind_operand {s : Symbol} (known : s.isOperand = true) : s.kind table = .operand := by
  rw [kind, if_pos known]

theorem kind_function {s : Symbol} {f : Function} (named : s.function? = some f) :
    s.kind table = .function := by
  have callable : s.isFunction = true := by simp [isFunction, named]
  simp [kind, isOperand_of_function? named, callable]

@[simp] theorem kind_sign (g : Sign) : g.symbol.kind table = .sign := by
  simp [kind]

@[simp] theorem kind_negation : negation.kind table = .negation := by
  simp [kind]

@[simp] theorem kind_bang : bang.kind table = .bang := by
  have differ : bang ≠ negation := by decide
  simp [kind, differ]

@[simp] theorem kind_comma : comma.kind table = .comma := by
  have first : comma ≠ negation := by decide
  have second : comma ≠ bang := by decide
  simp [kind, first, second]

theorem kind_opening (valid : table.Valid) (b : BracketPair table) :
    b.opening.kind table = .opening := by
  have free := unreserved_opening valid b
  simp [kind, free.isOperand, free.isFunction, free.ofSymbol?, free.ne_negation, free.ne_bang,
    free.ne_comma, isOpen_opening valid]

theorem kind_closing (valid : table.Valid) (b : BracketPair table) :
    b.closing.kind table = .closing := by
  have free := unreserved_closing valid b
  simp [kind, free.isOperand, free.isFunction, free.ofSymbol?, free.ne_negation, free.ne_bang,
    free.ne_comma, isOpen_closing valid]

theorem kind_eq_operand {s : Symbol} : s.kind table = .operand ↔ s.isOperand = true := by
  refine ⟨fun same => ?_, kind_operand⟩
  grind [kind]

section OfKind

variable (valid : table.Valid) {s : Symbol} (known : Class table s)

include valid known

theorem kind_eq_sign : s.kind table = .sign ↔ ∃ g : Sign, s = g.symbol := by
  refine ⟨fun same => ?_, fun ⟨g, spelled⟩ => by rw [spelled, kind_sign]⟩
  cases known with
  | sign g => exact ⟨g, rfl⟩
  | operand operand => simp [kind_operand operand] at same
  | function named => simp [kind_function named] at same
  | opening b => simp [kind_opening valid b] at same
  | closing b => simp [kind_closing valid b] at same
  | _ => simp at same

theorem kind_eq_negation : s.kind table = .negation ↔ s = negation := by
  refine ⟨fun same => ?_, fun spelled => by rw [spelled, kind_negation]⟩
  cases known with
  | negation => rfl
  | operand operand => simp [kind_operand operand] at same
  | function named => simp [kind_function named] at same
  | opening b => simp [kind_opening valid b] at same
  | closing b => simp [kind_closing valid b] at same
  | _ => simp at same

theorem kind_eq_bang : s.kind table = .bang ↔ s = bang := by
  refine ⟨fun same => ?_, fun spelled => by rw [spelled, kind_bang]⟩
  cases known with
  | bang => rfl
  | operand operand => simp [kind_operand operand] at same
  | function named => simp [kind_function named] at same
  | opening b => simp [kind_opening valid b] at same
  | closing b => simp [kind_closing valid b] at same
  | _ => simp at same

theorem kind_eq_comma : s.kind table = .comma ↔ s = comma := by
  refine ⟨fun same => ?_, fun spelled => by rw [spelled, kind_comma]⟩
  cases known with
  | comma => rfl
  | operand operand => simp [kind_operand operand] at same
  | function named => simp [kind_function named] at same
  | opening b => simp [kind_opening valid b] at same
  | closing b => simp [kind_closing valid b] at same
  | _ => simp at same

theorem kind_eq_opening : s.kind table = .opening ↔ ∃ b : BracketPair table, s = b.opening := by
  refine ⟨fun same => ?_, fun ⟨b, spelled⟩ => by rw [spelled, kind_opening valid]⟩
  cases known with
  | opening b => exact ⟨b, rfl⟩
  | operand operand => simp [kind_operand operand] at same
  | function named => simp [kind_function named] at same
  | closing b => simp [kind_closing valid b] at same
  | _ => simp at same

theorem kind_eq_closing : s.kind table = .closing ↔ ∃ b : BracketPair table, s = b.closing := by
  refine ⟨fun same => ?_, fun ⟨b, spelled⟩ => by rw [spelled, kind_closing valid]⟩
  cases known with
  | closing b => exact ⟨b, rfl⟩
  | operand operand => simp [kind_operand operand] at same
  | function named => simp [kind_function named] at same
  | opening b => simp [kind_opening valid b] at same
  | _ => simp at same

theorem kind_eq_function : s.kind table = .function ↔ ∃ f, s.function? = some f := by
  refine ⟨fun same => ?_, fun ⟨f, named⟩ => kind_function named⟩
  cases known with
  | function named => exact ⟨_, named⟩
  | operand operand => simp [kind_operand operand] at same
  | opening b => simp [kind_opening valid b] at same
  | closing b => simp [kind_closing valid b] at same
  | _ => simp at same

end OfKind

end Symbol

/-! ### The order of symbols -/

/-- What can stand next. An operand is due at the start and behind a sign; an argument is due
behind an opening bracket and behind a separator. -/
inductive Turn where
  | operand
  | argument
  | bracket
  | operator
deriving DecidableEq, Repr

/-- Whether an operand can start here. -/
def Turn.Expecting (t : Turn) : Prop := t = operand ∨ t = argument

/-- The symbols that can stand at a turn, and the turn behind them. -/
inductive Turn.Step (table : BracketTable) : Turn → Symbol → Turn → Prop
  | operand {t : Turn} {s : Symbol} (due : t.Expecting) (known : s.isOperand = true) :
      Step table t s .operator
  | function {t : Turn} {s : Symbol} {f : Function} (due : t.Expecting)
      (named : s.function? = some f) : Step table t s .bracket
  | negation {t : Turn} (due : t.Expecting) : Step table t .negation .operand
  | opening {t : Turn} (due : t.Expecting) (b : BracketPair table) :
      Step table t b.opening .argument
  | callOpening (b : BracketPair table) : Step table .bracket b.opening .argument
  | bang : Step table .operator .bang .operator
  | sign (g : Sign) : Step table .operator g.symbol .operand
  | comma : Step table .operator .comma .argument
  | closing (b : BracketPair table) : Step table .operator b.closing .operator

/-- Symbols of which each can stand at its turn. -/
inductive Alternating (table : BracketTable) : Turn → List Symbol → Turn → Prop
  | nil (t : Turn) : Alternating table t [] t
  | cons {t u v : Turn} {s : Symbol} {rest : List Symbol} (first : t.Step table s u)
      (next : Alternating table u rest v) : Alternating table t (s :: rest) v

end SymbolicAlgebra
