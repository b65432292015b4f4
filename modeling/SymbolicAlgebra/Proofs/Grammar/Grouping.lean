/-
  Brackets and calls in any order of symbols
  ==========================================
  The conversion to postfix order takes two tops of stacks without looking whether they
  are there: the bracket that a separator stands in, and the function below the bracket
  of a call. Lexed text never leaves them out, but the conversion may be given any list
  of valid symbols, also one in which operands and operators do not alternate.

  `Layers` is what keeps the stacks in step: one layer for every bracket that is open,
  with the function that it calls, the separators read in it and the operators that
  wait in it. One step keeps the layers or reports why the symbol does not fit
  (`Stands.step`), hence so does a run (`Stands.run`).

  **`conserves_ofInfix`**: a conversion reports one of three kinds of errors, or it
  writes the symbols that are neither brackets nor separators, each as often as it was
  given, the operands in their order, and each function has a bracket with the right
  number of arguments behind it.
-/
import Mathlib.Data.List.TakeWhile
import SymbolicAlgebra.Proofs.Grammar.Reading

namespace SymbolicAlgebra

variable {table : BracketTable}

namespace Symbol

/-- Whether the symbol is written: all but brackets and separators are. -/
def isWritten (table : BracketTable) (s : Symbol) : Bool :=
  !s.isOpen table && !s.isClose table && !s.isSeparator

@[simp] theorem isWritten_comma : comma.isWritten table = false := by
  simp [isWritten]

theorem isWritten_opening (valid : table.Valid) (b : BracketPair table) :
    b.opening.isWritten table = false := by
  simp [isWritten, isOpen_opening valid]

theorem isWritten_closing (valid : table.Valid) (b : BracketPair table) :
    b.closing.isWritten table = false := by
  simp [isWritten, isClose_closing valid]

theorem isClose_opening (valid : table.Valid) (b : BracketPair table) :
    b.opening.isClose table = false := by
  rw [← Bool.not_eq_true]
  intro closes
  have closed := BracketTable.standsAt_zero_of_one closes
  exact absurd (isOpen_opening valid b) (by rw [isOpen, closed]; exact Bool.false_ne_true)

/-- What reads as something else is no bracket. -/
theorem not_bracket_of_reserved (valid : table.Valid) {s : Symbol} (reserved : ¬ s.Unreserved) :
    s.isOpen table = false ∧ s.isClose table = false := by
  rw [← Bool.not_eq_true, ← Bool.not_eq_true, isOpen_iff valid, isClose_iff valid]
  constructor
  · rintro ⟨b, rfl⟩
    exact reserved (unreserved_opening valid b)
  · rintro ⟨b, rfl⟩
    exact reserved (unreserved_closing valid b)

theorem isWritten_of_reserved (valid : table.Valid) {s : Symbol} (reserved : ¬ s.Unreserved)
    (notComma : s ≠ comma) : s.isWritten table = true := by
  obtain ⟨notOpen, notClose⟩ := not_bracket_of_reserved valid reserved
  have notSeparator : s.isSeparator = false := by
    rw [← Bool.not_eq_true]
    intro separates
    exact notComma (eq_of_toList (beq_iff_eq.1 separates))
  simp [isWritten, notOpen, notClose, notSeparator]

theorem isWritten_of_isOperand (valid : table.Valid) {s : Symbol} (operand : s.isOperand = true) :
    s.isWritten table = true := by
  refine isWritten_of_reserved valid (fun free => ?_) fun same => ?_
  · simp [free.isOperand] at operand
  · simp [same] at operand

theorem isWritten_of_isFunction (valid : table.Valid) {s : Symbol}
    (function : s.isFunction = true) : s.isWritten table = true := by
  refine isWritten_of_reserved valid (fun free => ?_) fun same => ?_
  · simp [free.isFunction] at function
  · simp [same] at function

theorem isWritten_of_isOperator (valid : table.Valid) {s : Symbol}
    (operator : s.isOperator = true) : s.isWritten table = true := by
  refine isWritten_of_reserved valid (fun free => ?_) fun same => ?_
  · simp [free.isOperator] at operator
  · simp [same, isOperator] at operator

theorem not_bracket_of_isOperator (valid : table.Valid) {s : Symbol}
    (operator : s.isOperator = true) : s.isOpen table = false ∧ s.isClose table = false := by
  refine not_bracket_of_reserved valid fun free => ?_
  simp [free.isOperator] at operator

theorem not_bracket_of_isFunction (valid : table.Valid) {s : Symbol}
    (function : s.isFunction = true) : s.isOpen table = false ∧ s.isClose table = false := by
  refine not_bracket_of_reserved valid fun free => ?_
  simp [free.isFunction] at function

theorem not_named_of_isOperator {s : Symbol} (operator : s.isOperator = true) :
    s.isOperand = false ∧ s.isFunction = false := by
  rcases class_of_isOperator operator with ⟨g, rfl⟩ | rfl | rfl <;> simp

theorem isOperand_of_isFunction {s : Symbol} (function : s.isFunction = true) :
    s.isOperand = false := by
  obtain ⟨f, named⟩ := Option.isSome_iff_exists.1 function
  exact isOperand_of_function? named

end Symbol

/-! ### Grouped lists -/

/-- Lists of symbols in which brackets are paired and in which every function calls the bracket
behind it, with one separator less than it has arguments. The number counts the separators that
stand in no bracket of the list. -/
inductive Grouped (table : BracketTable) : List Symbol → Nat → Prop
  | nil : Grouped table [] 0
  | plain {s : Symbol} {rest : List Symbol} {n : Nat} (written : s.isWritten table = true)
      (notFunction : s.isFunction = false) (next : Grouped table rest n) :
      Grouped table (s :: rest) n
  | comma {rest : List Symbol} {n : Nat} (next : Grouped table rest n) :
      Grouped table (.comma :: rest) (n + 1)
  | group (b : BracketPair table) {inside rest : List Symbol} {n : Nat}
      (within : Grouped table inside 0) (next : Grouped table rest n) :
      Grouped table (b.opening :: inside ++ b.closing :: rest) n
  | call {f : Symbol} (function : f.isFunction = true) (b : BracketPair table)
      {inside rest : List Symbol} {m n : Nat} (within : Grouped table inside m)
      (arguments : m + 1 = f.arity) (next : Grouped table rest n) :
      Grouped table (f :: b.opening :: inside ++ b.closing :: rest) n

namespace Grouped

variable {xs ys : List Symbol} {m n : Nat}

theorem append (first : Grouped table xs m) (next : Grouped table ys n) :
    Grouped table (xs ++ ys) (m + n) := by
  induction first with
  | nil => rwa [Nat.zero_add]
  | plain written notFunction _ ih => exact .plain written notFunction ih
  | comma _ ih =>
    rw [Nat.add_right_comm]
    exact .comma ih
  | group b within _ _ ih =>
    rw [List.append_assoc]
    exact .group b within ih
  | call function b within arguments _ _ ih =>
    rw [List.append_assoc]
    exact .call function b within arguments ih

/-- As many brackets open as close. -/
theorem countP_isOpen (valid : table.Valid) (grouped : Grouped table xs n) :
    xs.countP (·.isOpen table) = xs.countP (·.isClose table) := by
  have opening := Symbol.isOpen_opening valid
  have opening' := Symbol.isClose_opening valid
  have closing := Symbol.isOpen_closing valid
  have closing' := Symbol.isClose_closing valid
  induction grouped with
  | nil => rfl
  | plain written _ _ ih =>
    simp only [Symbol.isWritten, Bool.and_eq_true, Bool.not_eq_true'] at written
    simp [written, ih]
  | comma _ ih =>
    have free : ¬ Symbol.comma.Unreserved := fun free => free.ne_comma rfl
    simp [Symbol.not_bracket_of_reserved valid free, ih]
  | group b _ _ within ih =>
    simp only [List.cons_append, List.countP_cons, List.countP_append, within, ih, opening,
      opening', closing, closing']
    simp
    omega
  | call function b _ _ _ within ih =>
    have named := Symbol.not_bracket_of_isFunction valid function
    simp only [List.cons_append, List.countP_cons, List.countP_append, within, ih, opening,
      opening', closing, closing', named]
    simp
    omega

/-- What follows a function: a bracket with the arguments of its call. -/
def Called (table : BracketTable) (f : Symbol) (rest : List Symbol) : Prop :=
  ∃ (b : BracketPair table) (inside after : List Symbol) (n : Nat),
    rest = b.opening :: inside ++ b.closing :: after ∧ Grouped table inside n ∧ n + 1 = f.arity

theorem Called.append {f : Symbol} {rest : List Symbol} (called : Called table f rest)
    (more : List Symbol) : Called table f (rest ++ more) := by
  obtain ⟨b, inside, after, n, rfl, within, arguments⟩ := called
  exact ⟨b, inside, after ++ more, n, by simp, within, arguments⟩

/-- An occurrence in a list with another element in its middle is before that or behind it. -/
theorem suffix_around {β : Type} {xs ys rest : List β} {c f : β} (other : f ≠ c)
    (occurs : f :: rest <:+ xs ++ c :: ys) :
    (∃ more, f :: more <:+ xs ∧ rest = more ++ c :: ys) ∨ f :: rest <:+ ys := by
  obtain ⟨before, split⟩ := occurs
  rcases List.append_eq_append_iff.1 split with ⟨more, rfl, behind⟩ | ⟨more, rfl, behind⟩
  · cases more with
    | nil => exact absurd (List.cons.inj behind).1 other
    | cons d more =>
      obtain ⟨rfl, rfl⟩ := List.cons.inj behind
      exact .inl ⟨more, List.suffix_append .., rfl⟩
  · cases more with
    | nil => exact absurd (List.cons.inj behind).1.symm other
    | cons d more =>
      obtain ⟨rfl, rfl⟩ := List.cons.inj behind
      exact .inr (List.suffix_append ..)

/-- Every function of a grouped list calls the bracket behind it. -/
theorem called (valid : table.Valid) (grouped : Grouped table xs n) {f : Symbol}
    {rest : List Symbol} (occurs : f :: rest <:+ xs) (function : f.isFunction = true) :
    Called table f rest := by
  have notOpening : ∀ b : BracketPair table, f ≠ b.opening := by
    rintro b rfl
    simp [(Symbol.unreserved_opening valid b).isFunction] at function
  have notClosing : ∀ b : BracketPair table, f ≠ b.closing := by
    rintro b rfl
    simp [(Symbol.unreserved_closing valid b).isFunction] at function
  induction grouped generalizing rest with
  | nil => simp at occurs
  | plain _ notFunction _ ih =>
    rcases List.suffix_cons_iff.1 occurs with here | later
    · rw [(List.cons.inj here).1, notFunction] at function
      cases function
    · exact ih later
  | comma _ ih =>
    rcases List.suffix_cons_iff.1 occurs with here | later
    · rw [(List.cons.inj here).1] at function
      cases function
    · exact ih later
  | group b _ _ within ih =>
    rcases List.suffix_cons_iff.1 occurs with here | occurs
    · exact absurd (List.cons.inj here).1 (notOpening b)
    rcases suffix_around (notClosing b) occurs with ⟨more, inside, rfl⟩ | later
    · exact (within inside).append _
    · exact ih later
  | call _ b grouped arguments _ within ih =>
    rcases List.suffix_cons_iff.1 occurs with here | occurs
    · obtain ⟨rfl, rfl⟩ := List.cons.inj here
      exact ⟨b, _, _, _, rfl, grouped, arguments⟩
    rcases List.suffix_cons_iff.1 occurs with here | occurs
    · exact absurd (List.cons.inj here).1 (notOpening b)
    rcases suffix_around (notClosing b) occurs with ⟨more, inside, rfl⟩ | later
    · exact (within inside).append _
    · exact ih later

end Grouped

namespace Postfix

/-! ### The stacks in layers -/

/-- What has been read, the stack and the open brackets, layer by layer. In the innermost layer
some symbols have been read and some operators wait; around it stands an open bracket, behind the
function that it calls if there is one, on top of the layers outside. -/
inductive Layers (table : BracketTable) : List Symbol → List Symbol → List Group → Prop
  | outside {read waiting : List Symbol} (grouped : Grouped table read 0)
      (operators : ∀ t ∈ waiting, t.isOperator = true) : Layers table read waiting []
  | inside {before stack : List Symbol} {groups : List Group}
      (outer : Layers table before stack groups) {caller : Option Symbol}
      (function : ∀ f ∈ caller, f.isFunction = true) (b : BracketPair table)
      {read waiting : List Symbol} {n : Nat} (grouped : Grouped table read n)
      (plain : caller = none → n = 0) (operators : ∀ t ∈ waiting, t.isOperator = true) :
      Layers table (before ++ caller.toList ++ b.opening :: read)
        (waiting ++ b.opening :: (caller.toList ++ stack)) (⟨caller, n + 1⟩ :: groups)

/-- A function that waits for its bracket is no bracket. -/
theorem countP_caller (valid : table.Valid) {caller : Option Symbol}
    (function : ∀ f ∈ caller, f.isFunction = true) :
    caller.toList.countP (·.isOpen table) = 0 ∧ caller.toList.countP (·.isClose table) = 0 := by
  cases caller with
  | none => exact ⟨rfl, rfl⟩
  | some f => simp [Symbol.not_bracket_of_isFunction valid (function f rfl)]

namespace Layers

variable {read stack : List Symbol} {groups : List Group}

/-- Grouped symbols without a separator change nothing but what has been read. -/
theorem read_append (layers : Layers table read stack groups) {more : List Symbol}
    (grouped : Grouped table more 0) : Layers table (read ++ more) stack groups := by
  cases layers with
  | outside first operators => exact .outside (first.append grouped) operators
  | inside outer function b first plain operators =>
    rw [List.append_assoc, List.cons_append]
    exact .inside outer function b (first.append grouped) plain operators

/-- An operator may be put on the stack. -/
theorem push (layers : Layers table read stack groups) {s : Symbol}
    (operator : s.isOperator = true) : Layers table read (s :: stack) groups := by
  cases layers with
  | outside grouped operators =>
    exact .outside grouped (List.forall_mem_cons.2 ⟨operator, operators⟩)
  | inside outer function b grouped plain operators =>
    rw [← List.cons_append]
    exact .inside outer function b grouped plain (List.forall_mem_cons.2 ⟨operator, operators⟩)

/-- Operators may be taken from the stack. -/
theorem dropWhile (valid : table.Valid) (layers : Layers table read stack groups)
    {test : Symbol → Bool} (operators : ∀ t, test t = true → t.isOperator = true) :
    Layers table read (stack.dropWhile test) groups := by
  cases layers with
  | outside grouped waiting =>
    exact .outside grouped fun t ht => waiting t ((List.dropWhile_suffix test).subset ht)
  | @inside _ below _ outer caller function b _ waiting _ grouped plain waitingOperators =>
    have stays : test b.opening = false := by
      rw [← Bool.not_eq_true]
      intro passes
      have operator := operators _ passes
      simp [(Symbol.unreserved_opening valid b).isOperator] at operator
    have dropped : (waiting ++ b.opening :: (caller.toList ++ below)).dropWhile test =
        waiting.dropWhile test ++ b.opening :: (caller.toList ++ below) := by
      rw [List.dropWhile_append]
      split
      · simp_all
      · rfl
    rw [dropped]
    exact .inside outer function b grouped plain fun t ht =>
      waitingOperators t ((List.dropWhile_suffix test).subset ht)

/-- There is one group for every bracket that has opened and not closed. -/
theorem countP_isOpen (valid : table.Valid) (layers : Layers table read stack groups) :
    read.countP (·.isOpen table) = read.countP (·.isClose table) + groups.length := by
  induction layers with
  | outside grouped _ => exact grouped.countP_isOpen valid
  | @inside before _ groups _ caller function b read _ n grouped _ _ ih =>
    have announced := countP_caller valid function
    have level := grouped.countP_isOpen valid
    simp only [List.countP_append, List.countP_cons, Symbol.isOpen_opening valid,
      Symbol.isClose_opening valid, announced, List.length_cons, ih, level]
    simp
    omega

end Layers

/-! ### What is written -/

/-- The output and the stack hold what has been read, but for brackets and separators, and the
operands stand in the output in their order. -/
structure Conserves (table : BracketTable) (read output stack : List Symbol) : Prop where
  symbols : (output ++ stack.filter (·.isWritten table)).Perm (read.filter (·.isWritten table))
  operands : output.filter (·.isOperand) = read.filter (·.isOperand)

namespace Conserves

variable {read output stack : List Symbol} {s : Symbol}

/-- Operators and functions may move from the stack to the output. -/
theorem move {moved : List Symbol} (conserves : Conserves table read output (moved ++ stack))
    (written : ∀ t ∈ moved, t.isWritten table = true ∧ t.isOperand = false) :
    Conserves table read (output ++ moved) stack where
  symbols := by
    have all : moved.filter (·.isWritten table) = moved :=
      List.filter_eq_self.2 fun t ht => (written t ht).1
    have kept := conserves.symbols
    rwa [List.filter_append, all, ← List.append_assoc] at kept
  operands := by
    have none : moved.filter (·.isOperand) = [] :=
      List.filter_eq_nil_iff.2 fun t ht => by simp [(written t ht).2]
    rw [List.filter_append, none, List.append_nil, conserves.operands]

/-- A symbol may be written at once. -/
theorem write (conserves : Conserves table read output stack) (written : s.isWritten table = true) :
    Conserves table (read ++ [s]) (output ++ [s]) stack where
  symbols := by
    have one : [s].filter (·.isWritten table) = [s] := by simp [written]
    rw [List.filter_append, one, List.append_assoc]
    refine (List.perm_append_comm.append_left output).trans ?_
    rw [← List.append_assoc]
    exact conserves.symbols.append_right [s]
  operands := by
    rw [List.filter_append, List.filter_append, conserves.operands]

/-- Any symbol but an operand may wait on the stack. -/
theorem push (conserves : Conserves table read output stack) (notOperand : s.isOperand = false) :
    Conserves table (read ++ [s]) output (s :: stack) where
  symbols := by
    rw [← List.singleton_append, List.filter_append, List.filter_append]
    refine (List.perm_append_comm_assoc ..).trans ?_
    exact (List.perm_append_comm.trans (conserves.symbols.append_right _))
  operands := by
    rw [List.filter_append, conserves.operands]
    simp [notOperand]

/-- Brackets and separators may be left out. -/
theorem skip (conserves : Conserves table read output stack) (notWritten : s.isWritten table = false)
    (notOperand : s.isOperand = false) : Conserves table (read ++ [s]) output stack where
  symbols := by
    rw [List.filter_append]
    simpa [notWritten] using conserves.symbols
  operands := by
    rw [List.filter_append, conserves.operands]
    simp [notOperand]

/-- Brackets may be taken from the stack. -/
theorem drop (conserves : Conserves table read output (s :: stack))
    (notWritten : s.isWritten table = false) : Conserves table read output stack where
  symbols := by simpa [notWritten] using conserves.symbols
  operands := conserves.operands

end Conserves

/-! ### One step -/

/-- Where a conversion stands when it has read some symbols. A function that has just been read
lies on top of the layers. -/
structure Stands (table : BracketTable) (read : List Symbol) (state : State) : Prop where
  layers : ∃ before below, Layers table before below state.groups ∧
    read = before ++ state.pendingCall.toList ∧ state.stack = state.pendingCall.toList ++ below
  announced : ∀ f ∈ state.pendingCall, f.isFunction = true
  conserves : Conserves table read state.output state.stack

/-- The kinds of the errors that a conversion reports. -/
def errorKinds : List String :=
  ["OperatorSequenceError", "ArgumentCountError", "MismatchedBracketError"]

/-- The conversion reports an error of one of its kinds. -/
def Reports {β : Type} (x : Checked β) : Prop :=
  ∃ e : ParseError, x = .error (.parse e) ∧ e.kind ∈ errorKinds

/-- The step leads on, or it reports why the symbol does not fit. -/
def LeadsOn (table : BracketTable) (read : List Symbol) (x : Checked State) : Prop :=
  (∃ next, x = .ok next ∧ Stands table read next) ∨ Reports x

namespace Stands

variable {read output stack : List Symbol} {groups : List Group} {s : Symbol}

theorem start : Stands table [] .start where
  layers := ⟨[], [], .outside .nil (List.forall_mem_nil _), rfl, rfl⟩
  announced := by simp [State.start]
  conserves := ⟨.refl _, rfl⟩

theorem of_layers (layers : Layers table read stack groups)
    (conserves : Conserves table read output stack) :
    Stands table read ⟨output, stack, groups, none⟩ where
  layers := ⟨read, stack, layers, (List.append_nil read).symm, rfl⟩
  announced := by simp
  conserves := conserves

theorem layers_of_idle (stands : Stands table read ⟨output, stack, groups, none⟩) :
    Layers table read stack groups := by
  obtain ⟨before, below, layers, rfl, same⟩ := stands.layers
  rw [show stack = below from same]
  simpa using layers

theorem step_plain (stands : Stands table read ⟨output, stack, groups, none⟩)
    (written : s.isWritten table = true) (notFunction : s.isFunction = false) :
    Stands table (read ++ [s]) ⟨output ++ [s], stack, groups, none⟩ :=
  .of_layers (stands.layers_of_idle.read_append (.plain written notFunction .nil))
    (stands.conserves.write written)

theorem step_function (stands : Stands table read ⟨output, stack, groups, none⟩)
    (function : s.isFunction = true) :
    Stands table (read ++ [s]) ⟨output, s :: stack, groups, some s⟩ where
  layers := ⟨read, stack, stands.layers_of_idle, rfl, rfl⟩
  announced := by simpa using function
  conserves := stands.conserves.push (Symbol.isOperand_of_isFunction function)

theorem step_operator (valid : table.Valid)
    (stands : Stands table read ⟨output, stack, groups, none⟩) (operator : s.isOperator = true) :
    Stands table (read ++ [s]) (stackOperator ⟨output, stack, groups, none⟩ s) := by
  obtain ⟨notOperand, notFunction⟩ := Symbol.not_named_of_isOperator operator
  have yielding : ∀ t, yields s t = true → t.isOperator = true := by
    intro t yields
    cases bare : t.precedence? with
    | none => simp [not_yields_of_precedence bare] at yields
    | some p => simp [Symbol.isOperator, bare]
  have plain : Grouped table [s] 0 :=
    .plain (Symbol.isWritten_of_isOperator valid operator) notFunction .nil
  have layers := ((stands.layers_of_idle.dropWhile valid yielding).push operator).read_append plain
  have conserves := stands.conserves
  rw [← List.takeWhile_append_dropWhile (p := yields s) (l := stack)] at conserves
  refine .of_layers layers ((conserves.move fun t ht => ?_).push notOperand)
  have operator := yielding t (List.all_eq_true.1 List.all_takeWhile t ht)
  exact ⟨Symbol.isWritten_of_isOperator valid operator, (Symbol.not_named_of_isOperator operator).1⟩

theorem step_opening (valid : table.Valid) {call : Option Symbol}
    (stands : Stands table read ⟨output, stack, groups, call⟩) (b : BracketPair table) :
    Stands table (read ++ [b.opening]) ⟨output, b.opening :: stack, ⟨call, 1⟩ :: groups, none⟩ := by
  obtain ⟨before, below, layers, rfl, same⟩ := stands.layers
  obtain rfl : stack = call.toList ++ below := same
  have nested := Layers.inside layers stands.announced b .nil (fun _ => rfl) (List.forall_mem_nil _)
  exact .of_layers nested
    (stands.conserves.push (Symbol.unreserved_opening valid b).isOperand)

/-- The operators that wait in the innermost layer are written. -/
theorem conserves_waiting (valid : table.Valid) {waiting below : List Symbol}
    (operators : ∀ t ∈ waiting, t.isOperator = true)
    (conserves : Conserves table read output (waiting ++ below)) :
    Conserves table read (output ++ waiting) below :=
  conserves.move fun t ht =>
    ⟨Symbol.isWritten_of_isOperator valid (operators t ht),
      (Symbol.not_named_of_isOperator (operators t ht)).1⟩

/-- What stands on the stack above an open bracket. -/
theorem innermost (valid : table.Valid) {waiting below : List Symbol}
    (operators : ∀ t ∈ waiting, t.isOperator = true)
    (stops : StopsAt (fun t => !t.isOpen table) below) :
    ((waiting ++ below).takeWhile fun t => !t.isOpen table) = waiting ∧
      ((waiting ++ below).dropWhile fun t => !t.isOpen table) = below := by
  have pass : ∀ t ∈ waiting, (!t.isOpen table) = true := by
    intro t ht
    simp [Symbol.not_bracket_of_isOperator valid (operators t ht)]
  exact ⟨StopsAt.takeWhile_append pass stops, StopsAt.dropWhile_append pass stops⟩

theorem stopsAt_opening (valid : table.Valid) (b : BracketPair table) (below : List Symbol) :
    StopsAt (fun t => !t.isOpen table) (b.opening :: below) :=
  .cons (by simp [Symbol.isOpen_opening valid])

theorem step_comma (valid : table.Valid)
    (stands : Stands table read ⟨output, stack, groups, none⟩) :
    LeadsOn table (read ++ [.comma])
      (nextArgument table ⟨output, stack, groups, none⟩ .comma) := by
  have conserves := stands.conserves
  cases stands.layers_of_idle with
  | outside => exact .inr ⟨_, rfl, by decide⟩
  | @inside before below groups outer caller function b read waiting n grouped plain operators =>
    cases caller with
    | none => exact .inr ⟨_, rfl, by decide⟩
    | some f =>
      obtain ⟨taken, dropped⟩ := innermost valid operators (stopsAt_opening valid b ([f] ++ below))
      have stepped : nextArgument table
          ⟨output, waiting ++ b.opening :: ([f] ++ below), ⟨some f, n + 1⟩ :: groups, none⟩ .comma =
            .ok ⟨output ++ waiting, b.opening :: ([f] ++ below), ⟨some f, n + 1 + 1⟩ :: groups,
              none⟩ := by
        simp only [nextArgument, taken, dropped]
      have layers := Layers.inside outer function b (grouped.append (.comma .nil))
        (by simp) (List.forall_mem_nil _)
      refine .inl ⟨_, stepped, .of_layers ?_ ?_⟩
      · simpa using layers
      · exact (conserves_waiting valid operators conserves).skip Symbol.isWritten_comma
          Symbol.isOperand_comma

/-- A bracket that is closed by its other half belongs to the layer around it. -/
theorem finishCall_spec (valid : table.Valid) {before below : List Symbol}
    (outer : Layers table before below groups) {caller : Option Symbol}
    (function : ∀ f ∈ caller, f.isFunction = true) (b : BracketPair table) {n : Nat}
    (grouped : Grouped table read n) (plain : caller = none → n = 0)
    (conserves : Conserves table (before ++ caller.toList ++ b.opening :: read) output
      (b.opening :: (caller.toList ++ below))) :
    LeadsOn table (before ++ caller.toList ++ b.opening :: read ++ [b.closing])
      (finishCall ⟨output, caller.toList ++ below, groups, none⟩ ⟨caller, n + 1⟩) := by
  have kept := (conserves.drop (Symbol.isWritten_opening valid b)).skip
    (Symbol.isWritten_closing valid b) (Symbol.unreserved_closing valid b).isOperand
  cases caller with
  | none =>
    obtain rfl := plain rfl
    have layers := outer.read_append (.group b grouped .nil)
    exact .inl ⟨_, rfl, .of_layers (by simpa using layers) kept⟩
  | some f =>
    have calls : f.isFunction = true := function f rfl
    by_cases arguments : n + 1 = f.arity
    · have layers := outer.read_append (.call calls b grouped arguments .nil)
      have stepped : finishCall ⟨output, [f] ++ below, groups, none⟩ ⟨some f, n + 1⟩ =
          .ok ⟨output ++ [f], below, groups, none⟩ := by
        simp [finishCall, arguments]
      refine .inl ⟨_, stepped, .of_layers (by simpa using layers) (kept.move fun t ht => ?_)⟩
      obtain rfl := List.mem_singleton.1 ht
      exact ⟨Symbol.isWritten_of_isFunction valid calls, Symbol.isOperand_of_isFunction calls⟩
    · refine .inr ⟨.argumentCount f.text f.arity (n + 1), ?_, by simp [ParseError.kind, errorKinds]⟩
      simp [finishCall, arguments]

theorem step_closing (valid : table.Valid) (b : BracketPair table)
    (stands : Stands table read ⟨output, stack, groups, none⟩) :
    LeadsOn table (read ++ [b.closing])
      (closeGroup table ⟨output, stack, groups, none⟩ b.closing) := by
  have conserves := stands.conserves
  cases stands.layers_of_idle with
  | outside _ operators =>
    refine .inr ⟨.unmatchedClose b.closing.text, ?_, by simp [ParseError.kind, errorKinds]⟩
    have dropped := (innermost valid operators .nil).2
    rw [List.append_nil] at dropped
    simp only [closeGroup, dropped]
  | @inside before below groups outer caller function opener read waiting n grouped plain operators =>
    obtain ⟨taken, dropped⟩ :=
      innermost valid operators (stopsAt_opening valid opener (caller.toList ++ below))
    have closes := Symbol.closes_opening valid opener b.closing
    by_cases same : b.closing = opener.closing
    · rw [same, decide_eq_true rfl] at closes
      have stepped : closeGroup table ⟨output, waiting ++ opener.opening :: (caller.toList ++ below),
          ⟨caller, n + 1⟩ :: groups, none⟩ opener.closing =
            finishCall ⟨output ++ waiting, caller.toList ++ below, groups, none⟩
              ⟨caller, n + 1⟩ := by
        simp only [closeGroup, taken, dropped, closes]
        rfl
      rw [same, stepped]
      exact finishCall_spec valid outer function opener grouped plain
        (conserves_waiting valid operators conserves)
    · refine .inr ⟨.crossedBrackets opener.opening.text b.closing.text, ?_,
        by simp [ParseError.kind, errorKinds]⟩
      simp only [closeGroup, dropped, closes, same]
      rfl

/-- Behind a function nothing but an opening bracket fits. -/
theorem step_announced {limit : Option Int} {f : Symbol} (notOpen : s.isOpen table = false) :
    Reports (step table limit ⟨output, stack, groups, some f⟩ s) := by
  refine ⟨.callWithoutBracket f.text, ?_, by simp [ParseError.kind, errorKinds]⟩
  simp only [step, notOpen]
  rfl

/-- Taking a symbol of any class leads on, or reports why the symbol does not fit. -/
theorem step (valid : table.Valid) {state : State} (stands : Stands table read state)
    (known : Symbol.Class table s) : LeadsOn table (read ++ [s]) (step table none state s) := by
  obtain ⟨output, stack, groups, call⟩ := state
  cases opens : s.isOpen table with
  | true =>
    obtain ⟨b, rfl⟩ := (Symbol.isOpen_iff valid s).1 opens
    exact .inl ⟨_, Postfix.step_opening valid b call, stands.step_opening valid b⟩
  | false =>
    cases call with
    | some f => exact .inr (step_announced opens)
    | none =>
      cases known with
      | operand operand =>
        have notFunction : s.isFunction = false := by
          rw [← Bool.not_eq_true]
          intro function
          simp [Symbol.isOperand_of_isFunction function] at operand
        exact .inl ⟨_, Postfix.step_operand operand,
          stands.step_plain (Symbol.isWritten_of_isOperand valid operand) notFunction⟩
      | function named =>
        exact .inl ⟨_, Postfix.step_function named,
          stands.step_function (by simp [Symbol.isFunction, named])⟩
      | sign g =>
        exact .inl ⟨_, step_sign g, stands.step_operator valid (by simp [Symbol.isOperator])⟩
      | negation =>
        exact .inl ⟨_, step_negation, stands.step_operator valid rfl⟩
      | bang =>
        exact .inl ⟨_, step_bang,
          stands.step_plain (Symbol.isWritten_of_isOperator valid rfl) rfl⟩
      | comma =>
        rw [Postfix.step_comma]
        exact stands.step_comma valid
      | opening b => simp [Symbol.isOpen_opening valid] at opens
      | closing b =>
        rw [Postfix.step_closing valid]
        exact stands.step_closing valid b

/-- So does taking one symbol after the other. -/
theorem run (valid : table.Valid) {state : State} (stands : Stands table read state)
    {symbols : List Symbol} (known : ∀ s ∈ symbols, Symbol.Class table s) :
    LeadsOn table (read ++ symbols) (symbols.foldlM (Postfix.step table none) state) := by
  induction symbols generalizing read state with
  | nil =>
    rw [List.append_nil]
    exact .inl ⟨state, rfl, stands⟩
  | cons s symbols ih =>
    obtain ⟨first, later⟩ := List.forall_mem_cons.1 known
    rw [List.foldlM_cons]
    rcases stands.step valid first with ⟨next, stepped, follows⟩ | ⟨e, failed, kind⟩
    · rw [stepped, ← List.singleton_append, ← List.append_assoc]
      exact ih follows later
    · rw [failed]
      exact .inr ⟨e, rfl, kind⟩

/-- At the end every bracket is closed, or the conversion reports one that is not. -/
theorem finish (valid : table.Valid) {state : State} (stands : Stands table read state) :
    (∃ written, Postfix.finish table state = .ok written ∧
      written.Perm (read.filter (·.isWritten table)) ∧
      written.filter (·.isOperand) = read.filter (·.isOperand) ∧ Grouped table read 0) ∨
      Reports (Postfix.finish table state) := by
  obtain ⟨output, stack, groups, call⟩ := state
  cases call with
  | some f =>
    exact .inr ⟨.callWithoutBracket f.text, rfl, by simp [ParseError.kind, errorKinds]⟩
  | none =>
    have conserves := stands.conserves
    cases stands.layers_of_idle with
    | outside grouped operators =>
      have closed : stack.find? (fun t => t.isOpen table) = none := by
        refine List.find?_eq_none.2 fun t ht => ?_
        simp [Symbol.not_bracket_of_isOperator valid (operators t ht)]
      rw [← List.append_nil stack] at conserves
      have all := conserves_waiting valid operators conserves
      refine .inl ⟨output ++ stack, ?_, ?_, all.operands, grouped⟩
      · simp only [Postfix.finish, closed]
      · simpa using all.symbols
    | @inside before below groups outer caller function b read waiting n grouped plain operators =>
      refine .inr ⟨.unmatchedOpen b.opening.text, ?_, by simp [ParseError.kind, errorKinds]⟩
      have none : waiting.find? (fun t => t.isOpen table) = none := by
        refine List.find?_eq_none.2 fun t ht => ?_
        simp [Symbol.not_bracket_of_isOperator valid (operators t ht)]
      have opener : (waiting ++ b.opening :: (caller.toList ++ below)).find?
          (fun t => t.isOpen table) = some b.opening := by
        simp [none, Symbol.isOpen_opening valid]
      simp only [Postfix.finish, opener]

end Stands

/-- The conversion of symbols of any classes, in any order. -/
theorem ofInfix_grouped (valid : table.Valid) {symbols : List Symbol}
    (known : ∀ s ∈ symbols, Symbol.Class table s) :
    (∃ written, ofInfix table none symbols = .ok written ∧
      written.Perm (symbols.filter (·.isWritten table)) ∧
      written.filter (·.isOperand) = symbols.filter (·.isOperand) ∧ Grouped table symbols 0) ∨
      Reports (ofInfix table none symbols) := by
  unfold ofInfix
  rcases Stands.start.run valid known with ⟨state, read, stands⟩ | ⟨e, failed, kind⟩
  · rw [read]
    exact stands.finish valid
  · rw [failed]
    exact .inr ⟨e, rfl, kind⟩

/-- The conversion of any list of valid symbols reports an error of one of its kinds, or it
writes the symbols that are neither brackets nor separators: the same ones equally often, the
operands in the same order. Then a bracket stands behind every function, with one separator
less directly in it than the function has arguments. -/
theorem conserves_ofInfix {settings : ParserSettings} (checked : settings.check = .ok settings)
    {symbols : List Symbol} (known : ∀ s ∈ symbols, s.isValid settings.brackets = true) :
    (∃ e : ParseError, ofInfix settings.brackets none symbols = .error (.parse e) ∧
        e.kind ∈ ["OperatorSequenceError", "ArgumentCountError", "MismatchedBracketError"]) ∨
      ∃ written, ofInfix settings.brackets none symbols = .ok written ∧
        written.Perm (symbols.filter fun s =>
          !s.isOpen settings.brackets && !s.isClose settings.brackets && !s.isSeparator) ∧
        written.filter (·.isOperand) = symbols.filter (·.isOperand) ∧
        ∀ f rest, f :: rest <:+ symbols → f.isFunction = true →
          ∃ (b : BracketPair settings.brackets) (inside after : List Symbol) (n : Nat),
            rest = b.opening :: inside ++ b.closing :: after ∧
              Grouped settings.brackets inside n ∧ n + 1 = f.arity := by
  have valid := BracketTable.valid_of_check checked
  rcases ofInfix_grouped valid fun s hs => Symbol.class_of_isValid valid (known s hs) with
    ⟨written, done, same, operands, grouped⟩ | reported
  · exact .inr ⟨written, done, same, operands, fun f rest => grouped.called valid⟩
  · exact .inl reported

/-- A list without an operator between its operands is converted as well. -/
theorem conserves_ofInfix_unordered :
    ({} : ParserSettings).check = .ok {} ∧
      (∀ s ∈ [⟨"x"⟩, ⟨"2"⟩, ⟨"max"⟩, ⟨"("⟩, ⟨","⟩, ⟨"y"⟩, ⟨"^"⟩, ⟨")"⟩],
        Symbol.isValid .round s = true) ∧
      ∃ written, ofInfix .round none
          [⟨"x"⟩, ⟨"2"⟩, ⟨"max"⟩, ⟨"("⟩, ⟨","⟩, ⟨"y"⟩, ⟨"^"⟩, ⟨")"⟩] = .ok written ∧
        written.filter (·.isOperand) = [⟨"x"⟩, ⟨"2"⟩, ⟨"y"⟩] := by
  have checked : ({} : ParserSettings).check = .ok {} := by decide
  have known : ∀ s ∈ [⟨"x"⟩, ⟨"2"⟩, ⟨"max"⟩, ⟨"("⟩, ⟨","⟩, ⟨"y"⟩, ⟨"^"⟩, ⟨")"⟩],
      Symbol.isValid .round s = true := by decide
  have accepted : ofInfix .round none
      [⟨"x"⟩, ⟨"2"⟩, ⟨"max"⟩, ⟨"("⟩, ⟨","⟩, ⟨"y"⟩, ⟨"^"⟩, ⟨")"⟩] =
        .ok [⟨"x"⟩, ⟨"2"⟩, ⟨"y"⟩, ⟨"^"⟩, ⟨"max"⟩] := by decide
  refine ⟨checked, known, ?_⟩
  rcases conserves_ofInfix checked known with ⟨e, failed, -⟩ | ⟨written, done, -, operands, -⟩
  · cases accepted.symm.trans failed
  · exact ⟨written, done, operands⟩

end Postfix

end SymbolicAlgebra
