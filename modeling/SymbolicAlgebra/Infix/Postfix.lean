/-
  Postfix order
  =============
  Reordering the symbols of an expression so that every operator and function
  follows its operands. The conversion keeps a stack of what still waits for its
  right operand and a stack of open brackets; a bracket that belongs to a call counts
  the arguments of the call.

  Powers and negation group to the right, all other operators to the left. A
  function is written when the bracket of its call closes.
-/
import SymbolicAlgebra.Infix.Symbol

namespace SymbolicAlgebra.Postfix

/-- An open bracket: the function it calls, if any, and the arguments seen so far. -/
structure Group where
  function : Option Symbol
  arguments : Nat
deriving DecidableEq, Repr

/-- Where a conversion stands. The heads of the stacks are their tops. -/
structure State where
  output : List Symbol
  stack : List Symbol
  groups : List Group
  pendingCall : Option Symbol
deriving DecidableEq, Repr

/-- Where a conversion starts. -/
def State.start : State := ⟨[], [], [], none⟩

/-- Whether the symbol on the stack is written before the operator is put on it. -/
def yields (operator top : Symbol) : Bool :=
  match top.precedence?, operator.precedence? with
  | some p, some q => q < p || p == q && !operator.isRightAssociative
  | _, _ => false

/-- A function that is called by nothing. -/
def callWithoutBracket (f : Symbol) : Failure := .parse (.callWithoutBracket f.text)

/-- Writes what stands above the innermost operators that bind less, and stacks the operator. -/
def stackOperator (state : State) (s : Symbol) : State :=
  { state with
    output := state.output ++ state.stack.takeWhile (yields s)
    stack := s :: state.stack.dropWhile (yields s) }

/-- Ends an argument: writes what stands above the bracket of the call. -/
def nextArgument (table : BracketTable) (state : State) (s : Symbol) : Checked State :=
  match state.groups with
  | ⟨some f, n⟩ :: groups =>
    match state.stack.dropWhile fun t => !t.isOpen table with
    | [] => .error .outOfRange
    | stack =>
      .ok { state with
        output := state.output ++ state.stack.takeWhile fun t => !t.isOpen table
        stack := stack
        groups := ⟨some f, n + 1⟩ :: groups }
  | _ => .error (.parse (.separatorOutsideCall s.text))

/-- Opens a bracket, which belongs to the call that was announced. -/
def openGroup (limit : Option Int) (state : State) (s : Symbol) : Checked State :=
  if (limit.map fun (d : Int) => decide (d ≤ Int.ofNat state.groups.length)).getD false then
    .error (.parse (.nestedTooDeep (limit.getD 0) s.text))
  else
    .ok { state with
      stack := s :: state.stack
      groups := ⟨state.pendingCall, 1⟩ :: state.groups
      pendingCall := none }

/-- Writes the function of a bracket that has closed, if there is one. -/
def finishCall (state : State) (group : Group) : Checked State :=
  match group.function with
  | none => .ok state
  | some f =>
    match state.stack with
    | [] => .error .outOfRange
    | _ :: stack =>
      if group.arguments = f.arity then
        .ok { state with output := state.output ++ [f], stack := stack }
      else .error (.parse (.argumentCount f.text f.arity group.arguments))

/-- Closes a bracket: writes what stands above its opener, and then its call. -/
def closeGroup (table : BracketTable) (state : State) (s : Symbol) : Checked State :=
  match state.stack.dropWhile fun t => !t.isOpen table with
  | [] => .error (.parse (.unmatchedClose s.text))
  | opener :: stack => do
    if !(← s.closes table opener) then .error (.parse (.crossedBrackets opener.text s.text))
    else
      match state.groups with
      | [] => .error .outOfRange
      | group :: groups =>
        finishCall
          { state with
            output := state.output ++ state.stack.takeWhile fun t => !t.isOpen table
            stack := stack
            groups := groups } group

/-- Takes one symbol. -/
def step (table : BracketTable) (limit : Option Int) (state : State) (s : Symbol) : Checked State :=
  match state.pendingCall, s.isOpen table with
  | some f, false => .error (callWithoutBracket f)
  | _, _ =>
    if s.isOperand then .ok { state with output := state.output ++ [s] }
    else if s.isFunction then
      .ok { state with stack := s :: state.stack, pendingCall := some s }
    else if s.isPostfix then .ok { state with output := state.output ++ [s] }
    else if s.isOperator then .ok (stackOperator state s)
    else if s.isSeparator then nextArgument table state s
    else if s.isOpen table then openGroup limit state s
    else if s.isClose table then closeGroup table state s
    else .ok state

/-- Ends the conversion: writes what is left on the stack. -/
def finish (table : BracketTable) (state : State) : Checked (List Symbol) :=
  match state.pendingCall with
  | some f => .error (callWithoutBracket f)
  | none =>
    match state.stack.find? fun t => t.isOpen table with
    | some opener => .error (.parse (.unmatchedOpen opener.text))
    | none => .ok (state.output ++ state.stack)

/-- The symbols in postfix order. With a limit, brackets must not be nested deeper. -/
def ofInfix (table : BracketTable) (limit : Option Int) (symbols : List Symbol) :
    Checked (List Symbol) := do
  finish table (← symbols.foldlM (step table limit) .start)

end SymbolicAlgebra.Postfix
