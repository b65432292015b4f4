/-
  The classes of tokens do not overlap
  ====================================
  The conversion to postfix order asks a token one question after the other and acts on
  the first that is answered yes. With a checked table of brackets the order of the
  questions does not matter: a token that is known belongs to one class, a token that is
  unknown to none, and an operand is a number, a constant or a variable, never two of
  them (**`ParserSettings.classes_separate`**). An opening bracket of the table is
  closed by the character behind it and by nothing else.
-/
import SymbolicAlgebra.Proofs.Grammar.Grouping
import SymbolicAlgebra.Proofs.Variables.Binding

namespace SymbolicAlgebra

open SymbolicAlgebra.Text

/-- The classes that a token can belong to. -/
inductive TokenClass where
  | operand
  | function
  | operator
  | opening
  | closing
  | separator
deriving DecidableEq, Repr

/-- The kinds of operands. -/
inductive OperandKind where
  | number
  | constant
  | variable
deriving DecidableEq, Repr

namespace Symbol

/-- Whether the symbol belongs to the class. -/
def belongs (table : BracketTable) (s : Symbol) : TokenClass → Bool
  | .operand => s.isOperand
  | .function => s.isFunction
  | .operator => s.isOperator
  | .opening => s.isOpen table
  | .closing => s.isClose table
  | .separator => s.isSeparator

/-- Whether the symbol is an operand of the kind. -/
def isOfKind (s : Symbol) : OperandKind → Bool
  | .number => s.isNumber
  | .constant => s.isConstant
  | .variable => s.isVariable

/-! ### One class for each known symbol -/

section Classes

variable {table : BracketTable} {s : Symbol}

theorem isValid_iff : s.isValid table = true ↔ ∃ c, s.belongs table c = true := by
  constructor
  · intro known
    simp only [isValid, Bool.or_eq_true] at known
    rcases known with ((((operand | function) | operator) | opens) | closes) | separates
    · exact ⟨.operand, operand⟩
    · exact ⟨.function, function⟩
    · exact ⟨.operator, operator⟩
    · exact ⟨.opening, opens⟩
    · exact ⟨.closing, closes⟩
    · exact ⟨.separator, separates⟩
  · rintro ⟨c, member⟩
    cases c <;> simp_all [belongs, isValid]

theorem validate_ok_iff : (∃ r, s.validate table = .ok r) ↔ s.isValid table = true := by
  unfold validate
  split
  · rename_i known
    simp [known]
  · rename_i unknown
    simp [unknown]

theorem not_separator_of_isOperand (operand : s.isOperand = true) : s.isSeparator = false := by
  rw [← Bool.not_eq_true]
  intro separates
  obtain rfl : s = comma := eq_of_toList (beq_iff_eq.1 separates)
  simp at operand

theorem not_separator_of_isFunction (function : s.isFunction = true) : s.isSeparator = false := by
  rw [← Bool.not_eq_true]
  intro separates
  obtain rfl : s = comma := eq_of_toList (beq_iff_eq.1 separates)
  simp at function

theorem not_operator_of_isOperand (operand : s.isOperand = true) : s.isOperator = false := by
  rw [← Bool.not_eq_true]
  intro operator
  simp [(not_named_of_isOperator operator).1] at operand

theorem not_operator_of_isFunction (function : s.isFunction = true) : s.isOperator = false := by
  rw [← Bool.not_eq_true]
  intro operator
  simp [(not_named_of_isOperator operator).2] at function

theorem not_bracket_of_isOperand (valid : table.Valid) (operand : s.isOperand = true) :
    s.isOpen table = false ∧ s.isClose table = false := by
  refine not_bracket_of_reserved valid fun free => ?_
  simp [free.isOperand] at operand

theorem not_bracket_comma (valid : table.Valid) :
    comma.isOpen table = false ∧ comma.isClose table = false := by
  refine not_bracket_of_reserved valid fun free => ?_
  exact free.ne_comma rfl

/-- A symbol that belongs to some class belongs to one and to no other. -/
theorem belongs_of_class (valid : table.Valid) (known : Class table s) :
    ∃ c, ∀ d, s.belongs table d = decide (d = c) := by
  have operatorOnly : ∀ t : Symbol, t.isOperator = true → t.isSeparator = false →
      ∀ d, t.belongs table d = decide (d = .operator) := by
    intro t operator notSeparator d
    obtain ⟨notOperand, notFunction⟩ := not_named_of_isOperator operator
    obtain ⟨notOpen, notClose⟩ := not_bracket_of_isOperator valid operator
    cases d <;> simp [belongs, *]
  cases known with
  | operand operand =>
    have notFunction : s.isFunction = false := by
      rw [← Bool.not_eq_true]
      intro function
      obtain ⟨f, named⟩ := Option.isSome_iff_exists.1 function
      simp [isOperand_of_function? named] at operand
    obtain ⟨notOpen, notClose⟩ := not_bracket_of_isOperand valid operand
    have notOperator := not_operator_of_isOperand operand
    have notSeparator := not_separator_of_isOperand operand
    refine ⟨.operand, fun d => ?_⟩
    cases d <;> simp [belongs, *]
  | function named =>
    have function : s.isFunction = true := by rw [isFunction, named]; rfl
    obtain ⟨notOpen, notClose⟩ := not_bracket_of_isFunction valid function
    have notOperand := isOperand_of_function? named
    have notOperator := not_operator_of_isFunction function
    have notSeparator := not_separator_of_isFunction function
    refine ⟨.function, fun d => ?_⟩
    cases d <;> simp [belongs, *]
  | sign g =>
    refine ⟨.operator, operatorOnly _ (by simp [isOperator]) ?_⟩
    rcases g with _ | _ | ⟨_ | _ | _ | _⟩ | _ <;> rfl
  | negation => exact ⟨.operator, operatorOnly _ rfl rfl⟩
  | bang => exact ⟨.operator, operatorOnly _ rfl rfl⟩
  | comma =>
    obtain ⟨notOpen, notClose⟩ := not_bracket_comma valid
    refine ⟨.separator, fun d => ?_⟩
    cases d <;> simp [belongs, isOperator, *]
  | opening b =>
    have free := unreserved_opening valid b
    refine ⟨.opening, fun d => ?_⟩
    cases d <;> simp [belongs, free.isOperand, free.isFunction, free.isOperator, free.isSeparator,
      isOpen_opening valid, isClose_opening valid]
  | closing b =>
    have free := unreserved_closing valid b
    refine ⟨.closing, fun d => ?_⟩
    cases d <;> simp [belongs, free.isOperand, free.isFunction, free.isOperator, free.isSeparator,
      isOpen_closing valid, isClose_closing valid]

/-- No symbol belongs to two classes. -/
theorem belongs_unique (valid : table.Valid) {c d : TokenClass} (first : s.belongs table c = true)
    (second : s.belongs table d = true) : c = d := by
  have known := class_of_isValid valid (isValid_iff.2 ⟨c, first⟩)
  obtain ⟨only, same⟩ := belongs_of_class valid known
  have left : c = only := by simpa [same c] using first
  have right : d = only := by simpa [same d] using second
  exact left.trans right.symm

end Classes

/-! ### One kind for each operand -/

/-- A line feed at the end makes no difference to what is read. -/
theorem numeral?_withoutLineEnd {text : String} {cs : List Char}
    (ending : text.toList = cs ∨ text.toList = cs ++ ['\n']) (single : '\n' ∉ cs) :
    (⟨text⟩ : Symbol).numeral? = (⟨String.ofList cs⟩ : Symbol).numeral? := by
  have bare : withoutLineEnd cs = cs := withoutLineEnd_eq_self single
  have whole : withoutLineEnd text.toList = cs := by
    rcases ending with same | same
    · rw [same, bare]
    · rw [same, withoutLineEnd, List.getLast?_concat, if_pos rfl, List.dropLast_concat]
  rw [numeral?, numeral?, String.toList_ofList, whole, bare]

/-- A text with the form of a variable is no number. -/
theorem isNumber_of_isVariableName {text : String} (formed : isVariableName text = true) :
    (⟨text⟩ : Symbol).isNumber = false := by
  obtain ⟨cs, shape, ending⟩ := shape_of_isVariableName formed
  have start : ∃ c run, cs = c :: run ∧ c.isAlpha = true := by
    rcases shape with ⟨c, alpha, rfl⟩ | ⟨c, digits, alpha, -, -, rfl⟩
    · exact ⟨c, [], rfl, alpha⟩
    · exact ⟨c, '_' :: digits, rfl, alpha⟩
  obtain ⟨c, run, rfl, alpha⟩ := start
  have none_read : (⟨String.ofList (c :: run)⟩ : Symbol).numeral? = none := by
    apply numeral?_of_isAlpha String.toList_ofList alpha
    rw [String.toList_ofList]
    exact shape.single
  rw [isNumber, numeral?_withoutLineEnd ending shape.single, none_read]
  rfl

/-- No constant is written like a number. -/
theorem isNumber_of_isConstant {s : Symbol} (constant : s.isConstant = true) :
    s.isNumber = false := by
  obtain ⟨text⟩ := s
  simp only [isConstant, Constant.ofSymbol?] at constant
  split at constant
  · rename_i spelled
    rcases spelled with rfl | rfl <;> decide
  · split at constant
    · rename_i spelled
      subst spelled
      decide
    · cases constant

/-- An operand is of one kind and of no other. -/
theorem isOfKind_of_isOperand {s : Symbol} (operand : s.isOperand = true) :
    ∃ k, ∀ l, s.isOfKind l = decide (l = k) := by
  have nameless : ∀ t : Symbol, t.isVariable = true → t.isNumber = false ∧ t.isConstant = false := by
    intro t named
    simp only [isVariable, Bool.and_eq_true, Bool.not_eq_true'] at named
    exact ⟨isNumber_of_isVariableName named.1, named.2⟩
  simp only [isOperand, Bool.or_eq_true] at operand
  rcases operand with (number | constant) | named
  · have notConstant : s.isConstant = false := by
      rw [← Bool.not_eq_true]
      intro constant
      simp [isNumber_of_isConstant constant] at number
    have notVariable : s.isVariable = false := by
      rw [← Bool.not_eq_true]
      intro named
      simp [(nameless s named).1] at number
    refine ⟨.number, fun l => ?_⟩
    cases l <;> simp [isOfKind, *]
  · have notNumber := isNumber_of_isConstant constant
    have notVariable : s.isVariable = false := by simp [isVariable, constant]
    refine ⟨.constant, fun l => ?_⟩
    cases l <;> simp [isOfKind, *]
  · obtain ⟨notNumber, notConstant⟩ := nameless s named
    refine ⟨.variable, fun l => ?_⟩
    cases l <;> simp [isOfKind, *]

end Symbol

/-! ### The place of a pair in its table -/

/-- A pair stands at an even place of its table. -/
theorem BracketTable.split_of_mem_pairs {table : BracketTable} {o x : Char}
    (listed : (o, x) ∈ table.pairs) :
    ∃ before after, table = before ++ o :: x :: after ∧ before.length % 2 = 0 := by
  induction table using pairs.induct with
  | case1 a b rest ih =>
    rw [pairs] at listed
    rcases List.mem_cons.1 listed with same | later
    · obtain ⟨rfl, rfl⟩ := Prod.mk.inj same
      exact ⟨[], rest, rfl, rfl⟩
    · obtain ⟨before, after, rfl, even⟩ := ih later
      refine ⟨a :: b :: before, after, rfl, ?_⟩
      rw [List.length_cons, List.length_cons]
      omega
  | case2 table short => simp [pairs] at listed

/-- Settings that pass their check keep the classes of tokens apart. No symbol belongs to two
classes, and it is let through just if it belongs to one; an operand is a number, a constant or a
variable and only one of them. The question whether a symbol closes an opening bracket of the table
always has an answer, and it is yes for the character behind the bracket and for nothing else. -/
theorem ParserSettings.classes_separate {settings : ParserSettings}
    (checked : settings.check = .ok settings) :
    (∀ s : Symbol,
      (∀ c d, s.belongs settings.brackets c = true → s.belongs settings.brackets d = true → c = d) ∧
      ((∃ r, s.validate settings.brackets = .ok r) ↔
        ∃! c, s.belongs settings.brackets c = true) ∧
      (s.isOperand = true → ∃! k, s.isOfKind k = true)) ∧
    ∀ opener : Symbol, opener.isOpen settings.brackets = true →
      ∃ before o x after, settings.brackets = before ++ o :: x :: after ∧
        before.length % 2 = 0 ∧ opener.text.toList = [o] ∧
        ∀ s : Symbol, s.closes settings.brackets opener = .ok (decide (s.text.toList = [x])) := by
  have valid := BracketTable.valid_of_check checked
  constructor
  · intro s
    have unique : ∀ c d, s.belongs settings.brackets c = true →
        s.belongs settings.brackets d = true → c = d := by
      intro c d first second
      exact Symbol.belongs_unique valid first second
    refine ⟨unique, ?_, ?_⟩
    · rw [Symbol.validate_ok_iff, Symbol.isValid_iff]
      constructor
      · rintro ⟨c, member⟩
        exact ⟨c, member, fun d other => unique d c other member⟩
      · intro one
        exact one.exists
    · intro operand
      obtain ⟨k, only⟩ := Symbol.isOfKind_of_isOperand operand
      refine ⟨k, by simp [only k], fun l other => ?_⟩
      simpa [only l] using other
  · intro opener opens
    obtain ⟨b, rfl⟩ := (Symbol.isOpen_iff valid opener).1 opens
    obtain ⟨before, after, whole, even⟩ := BracketTable.split_of_mem_pairs b.listed
    refine ⟨before, b.opener, b.closer, after, whole, even, b.toList_opening, fun s => ?_⟩
    have compared : s = b.closing ↔ s.text.toList = [b.closer] := by
      constructor
      · intro same
        rw [same, b.toList_closing]
      · intro same
        exact Symbol.eq_of_toList (same.trans b.toList_closing.symm)
    rw [Symbol.closes_opening valid, decide_eq_decide.2 compared]

/-- Round and angle brackets, with a bound on their depth. -/
theorem ParserSettings.classes_separate_angle :
    let settings : ParserSettings := ⟨['(', ')', '<', '>'], some 3⟩
    settings.check = .ok settings ∧
    (∀ s : Symbol,
      (∀ c d, s.belongs settings.brackets c = true → s.belongs settings.brackets d = true → c = d) ∧
      ((∃ r, s.validate settings.brackets = .ok r) ↔
        ∃! c, s.belongs settings.brackets c = true) ∧
      (s.isOperand = true → ∃! k, s.isOfKind k = true)) ∧
    ∀ opener : Symbol, opener.isOpen settings.brackets = true →
      ∃ before o x after, settings.brackets = before ++ o :: x :: after ∧
        before.length % 2 = 0 ∧ opener.text.toList = [o] ∧
        ∀ s : Symbol,
          s.closes settings.brackets opener = .ok (decide (s.text.toList = [x])) := by
  intro settings
  have checked : settings.check = .ok settings := by decide +kernel
  exact ⟨checked, classes_separate checked⟩

end SymbolicAlgebra
