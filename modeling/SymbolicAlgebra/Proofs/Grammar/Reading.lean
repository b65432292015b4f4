/-
  Reading symbols as a phrase
  ===========================
  A `Reading` is the conversion to postfix order with phrases in place of written
  symbols: open brackets with the frames and the arguments in front of them, the
  frame behind the last of them, and the operand that has just ended. `Reading.take`
  takes one symbol. It is a function, so the symbols determine the phrase.

  The module ties readings to the two things they stand between:

    * a reading has the symbols it was given (`take_symbols`), and
    * it stands where the conversion stands (`Reading.state`): where a symbol fits
      what the reading expects, both take it or neither does, and then the
      conversion reports a bracket or a number of arguments (`take_fits`).
-/
import SymbolicAlgebra.Proofs.Grammar.Frame

namespace SymbolicAlgebra

variable {table : BracketTable}

/-- A function name that waits for its bracket. -/
structure Callee where
  symbol : Symbol
  function : Function
  named : symbol.function? = some function

/-- An open bracket and what stands in front of it. -/
inductive Enclosure (table : BracketTable) where
  | bracket (b : BracketPair table) (outer : Frame table)
  | call (c : Callee) (b : BracketPair table) (arguments : List (Phrase table .sum))
      (outer : Frame table)

namespace Enclosure

def pair : Enclosure table → BracketPair table
  | bracket b _ => b
  | call _ b _ _ => b

def outer : Enclosure table → Frame table
  | bracket _ f => f
  | call _ _ _ f => f

/-- The function whose arguments stand in the bracket. -/
def callee? : Enclosure table → Option Callee
  | bracket _ _ => none
  | call c _ _ _ => some c

/-- The arguments that have ended. -/
def arguments : Enclosure table → List (Phrase table .sum)
  | bracket _ _ => []
  | call _ _ xs _ => xs

/-- The enclosure after one more argument. -/
def next? : Enclosure table → Phrase table .sum → Option (Enclosure table)
  | bracket _ _, _ => none
  | call c b xs f, x => some (call c b (xs ++ [x]) f)

/-- The operand that a bracket makes of what stands in it. -/
def close? : Enclosure table → Phrase table .sum → Option (Phrase table .primary)
  | bracket b _, x => some (.bracketed b x)
  | call ⟨s, .unary f, named⟩ b [] _, x => some (.unaryCall s f named b x)
  | call ⟨s, .binary f, named⟩ b [y] _, x => some (.binaryCall s f named b y x)
  | _, _ => none

/-- The symbols up to the current argument. -/
def symbols (e : Enclosure table) : List Symbol :=
  e.outer.symbols ++ (e.callee?.map Callee.symbol).toList ++ e.pair.opening ::
    e.arguments.flatMap fun x => x.symbols ++ [.comma]

/-- The symbols that have been written. -/
def output (e : Enclosure table) : List Symbol :=
  e.outer.output ++ e.arguments.flatMap Phrase.postorder

/-- The symbols that wait for the bracket to close. -/
def stack (e : Enclosure table) : List Symbol :=
  e.pair.opening :: ((e.callee?.map Callee.symbol).toList ++ e.outer.stack)

/-- The record that the conversion keeps. -/
def group (e : Enclosure table) : Postfix.Group :=
  ⟨e.callee?.map Callee.symbol, e.arguments.length + 1⟩

end Enclosure

/-- What has just been read. -/
inductive Focus (table : BracketTable) where
  | expecting
  | calling (c : Callee)
  | holding (x : Phrase table .primary)

/-- Where a reading stands; the innermost enclosure comes first. -/
structure Reading (table : BracketTable) where
  enclosures : List (Enclosure table)
  frame : Frame table
  focus : Focus table

namespace Focus

def symbols : Focus table → List Symbol
  | expecting => []
  | calling c => [c.symbol]
  | holding x => x.symbols

def output : Focus table → List Symbol
  | expecting => []
  | calling _ => []
  | holding x => x.postorder

def stack : Focus table → List Symbol
  | expecting => []
  | calling c => [c.symbol]
  | holding _ => []

def pendingCall : Focus table → Option Symbol
  | expecting => none
  | calling c => some c.symbol
  | holding _ => none

end Focus

namespace Reading

/-- Where a reading starts. -/
def start : Reading table := ⟨[], .empty, .expecting⟩

/-- Opens a bracket. -/
def enclose (r : Reading table) (enclosure : Frame table → Enclosure table) : Reading table :=
  ⟨enclosure r.frame :: r.enclosures, .empty, .expecting⟩

/-- Takes a symbol where an operand can start. -/
def takeOperand (r : Reading table) (s : Symbol) : Option (Reading table) :=
  if known : s.isOperand = true then some { r with focus := .holding (.operand s known) }
  else
    match named : s.function? with
    | some f => some { r with focus := .calling ⟨s, f, named⟩ }
    | none =>
      if s = .negation then some { r with frame := r.frame.negate }
      else (BracketPair.ofOpening? table s).map fun b => r.enclose (.bracket b)

/-- Takes a symbol behind a function name. -/
def takeBracket (r : Reading table) (c : Callee) (s : Symbol) : Option (Reading table) :=
  (BracketPair.ofOpening? table s).map fun b => r.enclose (.call c b [])

/-- Takes a symbol behind an operand. -/
def takeOperator (r : Reading table) (x : Phrase table .primary) (s : Symbol) :
    Option (Reading table) :=
  if s = .bang then some { r with focus := .holding (.factorial x) }
  else
    match Sign.ofSymbol? s with
    | some g => some ⟨r.enclosures, r.frame.attach g x, .expecting⟩
    | none =>
      match r.enclosures with
      | [] => none
      | e :: es =>
        if s = .comma then
          (e.next? (r.frame.closeSum x)).map fun e => ⟨e :: es, .empty, .expecting⟩
        else if s = e.pair.closing then
          (e.close? (r.frame.closeSum x)).map fun y => ⟨es, e.outer, .holding y⟩
        else none

/-- Takes one symbol. -/
def take (r : Reading table) (s : Symbol) : Option (Reading table) :=
  match r.focus with
  | .expecting => r.takeOperand s
  | .calling c => r.takeBracket c s
  | .holding x => r.takeOperator x s

/-- The phrase that has been read when every bracket is closed. -/
def phrase? (r : Reading table) : Option (Phrase table .sum) :=
  match r.enclosures, r.focus with
  | [], .holding x => some (r.frame.closeSum x)
  | _, _ => none

/-! ### The symbols of a reading -/

def enclosedSymbols : List (Enclosure table) → List Symbol
  | [] => []
  | e :: es => enclosedSymbols es ++ e.symbols

/-- The symbols that have been read. -/
def symbols (r : Reading table) : List Symbol :=
  enclosedSymbols r.enclosures ++ r.frame.symbols ++ r.focus.symbols

theorem symbols_empty : (Frame.empty : Frame table).symbols = [] := rfl

theorem symbols_next {e e' : Enclosure table} {x : Phrase table .sum} (next : e.next? x = some e') :
    e'.symbols = e.symbols ++ x.symbols ++ [.comma] := by
  cases e with
  | bracket b f => cases next
  | call c b xs f =>
    obtain rfl := Option.some.inj next
    simp [Enclosure.symbols, Enclosure.outer, Enclosure.callee?, Enclosure.pair,
      Enclosure.arguments]

theorem symbols_close {e : Enclosure table} {x : Phrase table .sum} {y : Phrase table .primary}
    (closed : e.close? x = some y) :
    e.outer.symbols ++ y.symbols = e.symbols ++ x.symbols ++ [e.pair.closing] := by
  unfold Enclosure.close? at closed
  split at closed
  · obtain rfl := Option.some.inj closed
    simp [Enclosure.symbols, Enclosure.outer, Enclosure.callee?, Enclosure.pair,
      Enclosure.arguments, Phrase.symbols]
  · obtain rfl := Option.some.inj closed
    simp [Enclosure.symbols, Enclosure.outer, Enclosure.callee?, Enclosure.pair,
      Enclosure.arguments, Phrase.symbols]
  · obtain rfl := Option.some.inj closed
    simp [Enclosure.symbols, Enclosure.outer, Enclosure.callee?, Enclosure.pair,
      Enclosure.arguments, Phrase.symbols]
  · cases closed

/-- Taking a symbol adds it to the symbols that have been read. -/
theorem take_symbols {r r' : Reading table} {s : Symbol} (taken : r.take s = some r') :
    r'.symbols = r.symbols ++ [s] := by
  obtain ⟨es, f, focus⟩ := r
  cases focus with
  | expecting =>
    simp only [take, takeOperand] at taken
    split at taken
    · obtain rfl := Option.some.inj taken
      simp [symbols, Focus.symbols, Phrase.symbols]
    · split at taken
      · obtain rfl := Option.some.inj taken
        simp [symbols, Focus.symbols]
      · split at taken
        · rename_i negation
          obtain rfl := Option.some.inj taken
          simp [symbols, Focus.symbols, Frame.symbols_negate, negation]
        · obtain ⟨b, opens, rfl⟩ := Option.map_eq_some_iff.1 taken
          rw [BracketPair.ofOpening?_eq_some opens]
          simp [enclose, symbols, enclosedSymbols, symbols_empty, Focus.symbols,
            Enclosure.symbols, Enclosure.outer, Enclosure.callee?, Enclosure.pair,
            Enclosure.arguments]
  | calling c =>
    obtain ⟨b, opens, rfl⟩ := Option.map_eq_some_iff.1 taken
    rw [BracketPair.ofOpening?_eq_some opens]
    simp [enclose, symbols, enclosedSymbols, symbols_empty, Focus.symbols,
      Enclosure.symbols, Enclosure.outer, Enclosure.callee?, Enclosure.pair, Enclosure.arguments]
  | holding x =>
    simp only [take, takeOperator] at taken
    split at taken
    · rename_i bang
      obtain rfl := Option.some.inj taken
      simp [symbols, Focus.symbols, Phrase.symbols, bang]
    · split at taken
      · rename_i g sign
        obtain rfl := Option.some.inj taken
        simp [symbols, Focus.symbols, Frame.symbols_attach, Sign.ofSymbol?_eq_some sign]
      · split at taken
        · cases taken
        · rename_i e es
          split at taken
          · rename_i comma
            obtain ⟨e', next, rfl⟩ := Option.map_eq_some_iff.1 taken
            simp [symbols, enclosedSymbols, symbols_empty, Focus.symbols, symbols_next next,
              Frame.symbols_closeSum, comma]
          · split at taken
            · rename_i closing
              obtain ⟨y, closed, rfl⟩ := Option.map_eq_some_iff.1 taken
              have kept := symbols_close closed
              simp only [symbols, enclosedSymbols, Focus.symbols, List.append_assoc, kept,
                Frame.symbols_closeSum, closing]
            · cases taken

/-! ### The conversion beside a reading -/

def enclosedOutput : List (Enclosure table) → List Symbol
  | [] => []
  | e :: es => enclosedOutput es ++ e.output

/-- Where the conversion stands. -/
def state (r : Reading table) : Postfix.State :=
  ⟨enclosedOutput r.enclosures ++ r.frame.output ++ r.focus.output,
    r.focus.stack ++ r.frame.stack ++ r.enclosures.flatMap Enclosure.stack,
    r.enclosures.map Enclosure.group, r.focus.pendingCall⟩

/-- The reading expects what can stand at the turn. An argument is due in a bracket only. -/
def At (r : Reading table) : Turn → Prop
  | .operand => r.focus = .expecting
  | .argument => r.focus = .expecting ∧ r.enclosures ≠ []
  | .bracket => ∃ c, r.focus = .calling c
  | .operator => ∃ x, r.focus = .holding x

end Reading

/-- The report of a conversion that brackets or arguments do not fit. -/
def MisfitReport {β : Type} (x : Checked β) : Prop :=
  ∃ cause : ParseError, x = .error (.parse cause) ∧
    (cause.kind = "MismatchedBracketError" ∨ cause.kind = "ArgumentCountError")

namespace Postfix

variable {output stack : List Symbol} {groups : List Group}

theorem step_operand {s : Symbol} (known : s.isOperand = true) :
    step table none ⟨output, stack, groups, none⟩ s =
      .ok ⟨output ++ [s], stack, groups, none⟩ := by
  simp [step, known]

theorem step_function {s : Symbol} {f : Function} (named : s.function? = some f) :
    step table none ⟨output, stack, groups, none⟩ s =
      .ok ⟨output, s :: stack, groups, some s⟩ := by
  have callable : s.isFunction = true := by simp [Symbol.isFunction, named]
  simp [step, Symbol.isOperand_of_function? named, callable]

theorem step_bang :
    step table none ⟨output, stack, groups, none⟩ .bang =
      .ok ⟨output ++ [.bang], stack, groups, none⟩ := by
  simp [step]

theorem step_sign (g : Sign) :
    step table none ⟨output, stack, groups, none⟩ g.symbol =
      .ok (stackOperator ⟨output, stack, groups, none⟩ g.symbol) := by
  simp [step, Symbol.isOperator]

theorem step_negation :
    step table none ⟨output, stack, groups, none⟩ .negation =
      .ok (stackOperator ⟨output, stack, groups, none⟩ .negation) := by
  simp [step, Symbol.isOperator]

theorem step_comma :
    step table none ⟨output, stack, groups, none⟩ .comma =
      nextArgument table ⟨output, stack, groups, none⟩ .comma := by
  simp [step, Symbol.isOperator]

theorem step_opening (valid : table.Valid) (b : BracketPair table) (call : Option Symbol) :
    step table none ⟨output, stack, groups, call⟩ b.opening =
      .ok ⟨output, b.opening :: stack, ⟨call, 1⟩ :: groups, none⟩ := by
  have free := Symbol.unreserved_opening valid b
  simp [step, Symbol.isOpen_opening valid, free.isOperand, free.isFunction, free.isPostfix,
    free.isOperator, free.isSeparator, openGroup]

theorem step_closing (valid : table.Valid) (b : BracketPair table) :
    step table none ⟨output, stack, groups, none⟩ b.closing =
      closeGroup table ⟨output, stack, groups, none⟩ b.closing := by
  have free := Symbol.unreserved_closing valid b
  simp [step, Symbol.isOpen_closing valid, Symbol.isClose_closing valid, free.isOperand,
    free.isFunction, free.isPostfix, free.isOperator, free.isSeparator]

end Postfix

namespace Reading

open Postfix

/-- Below a frame stands an opening bracket or nothing. -/
theorem stopsAt_enclosures {test : Symbol → Bool} (es : List (Enclosure table))
    (stops : ∀ b : BracketPair table, test b.opening = false) :
    StopsAt test (es.flatMap Enclosure.stack) := by
  cases es with
  | nil => exact .nil
  | cons e es => exact .cons (stops e.pair)

theorem stopsAt_yields (valid : table.Valid) (es : List (Enclosure table)) (s : Symbol) :
    StopsAt (yields s) (es.flatMap Enclosure.stack) := by
  refine stopsAt_enclosures es fun b => not_yields_of_precedence ?_
  have bare := (Symbol.unreserved_opening valid b).isOperator
  simpa [Symbol.isOperator] using bare

theorem stopsAt_open (valid : table.Valid) (es : List (Enclosure table)) :
    StopsAt (fun t => !t.isOpen table) (es.flatMap Enclosure.stack) :=
  stopsAt_enclosures es fun b => by simp [Symbol.isOpen_opening valid b]

theorem passes_frame (valid : table.Valid) (f : Frame table) :
    ∀ t ∈ f.stack, (!t.isOpen table) = true := by
  intro t waits
  simp [Frame.isOpen_of_mem_stack valid waits]

/-- A separator ends an argument of the call around it, if there is one. -/
theorem nextArgument_spec (valid : table.Valid) (e : Enclosure table) (es : List (Enclosure table))
    (f : Frame table) (x : Phrase table .primary) :
    match e.next? (f.closeSum x) with
    | some e' =>
      nextArgument table (state ⟨e :: es, f, .holding x⟩) .comma =
        .ok (state ⟨e' :: es, .empty, .expecting⟩)
    | none => MisfitReport (nextArgument table (state ⟨e :: es, f, .holding x⟩) .comma) := by
  have pass := passes_frame valid f
  have stops := stopsAt_open valid (e :: es)
  have taken := StopsAt.takeWhile_append pass stops
  have dropped := StopsAt.dropWhile_append pass stops
  cases e with
  | bracket b outer =>
    exact ⟨_, rfl, .inr rfl⟩
  | call c b xs outer =>
    simp only [Enclosure.next?, state, nextArgument, List.map_cons, Enclosure.group,
      Enclosure.callee?, Option.map_some, Focus.stack, List.nil_append, taken, dropped]
    simp [Enclosure.stack, Enclosure.pair, Enclosure.callee?, Enclosure.outer, enclosedOutput,
      Enclosure.output, Enclosure.arguments, Focus.output, Focus.pendingCall,
      Frame.postorder_closeSum, Frame.empty, Frame.output, Frame.stack, Frame.tightStack,
      Frame.productStack, Frame.differenceStack, Frame.sumStack]

/-- A call ends when it has as many arguments as its function takes. -/
theorem close?_call (c : Callee) (b : BracketPair table) (xs : List (Phrase table .sum))
    (outer : Frame table) (x : Phrase table .sum) :
    (∃ y, Enclosure.close? (.call c b xs outer) x = some y ∧ xs.length + 1 = c.symbol.arity ∧
      y.postorder = xs.flatMap Phrase.postorder ++ x.postorder ++ [c.symbol]) ∨
    (Enclosure.close? (.call c b xs outer) x = none ∧ xs.length + 1 ≠ c.symbol.arity) := by
  obtain ⟨s, f, named⟩ := c
  have arity : s.arity = f.arity := by simp [Symbol.arity, named]
  cases f with
  | unary f =>
    cases xs with
    | nil => exact .inl ⟨_, rfl, arity.symm, by simp [Phrase.postorder]⟩
    | cons z zs => exact .inr ⟨rfl, by simp [arity, Function.arity]⟩
  | binary f =>
    cases xs with
    | nil => exact .inr ⟨rfl, by simp [arity, Function.arity]⟩
    | cons z zs =>
      cases zs with
      | nil => exact .inl ⟨_, rfl, arity.symm, by simp [Phrase.postorder]⟩
      | cons w zs => exact .inr ⟨rfl, by simp [arity, Function.arity]⟩

/-- A closing bracket ends the innermost enclosure when it is its other half. -/
theorem closeGroup_spec (valid : table.Valid) (e : Enclosure table) (es : List (Enclosure table))
    (f : Frame table) (x : Phrase table .primary) :
    match e.close? (f.closeSum x) with
    | some y =>
      closeGroup table (state ⟨e :: es, f, .holding x⟩) e.pair.closing =
        .ok (state ⟨es, e.outer, .holding y⟩)
    | none => MisfitReport (closeGroup table (state ⟨e :: es, f, .holding x⟩) e.pair.closing) := by
  have pass := passes_frame valid f
  have stops := stopsAt_open valid (e :: es)
  have taken := StopsAt.takeWhile_append pass stops
  have dropped := StopsAt.dropWhile_append pass stops
  have closes := Symbol.closes_opening valid e.pair e.pair.closing
  have closed : closeGroup table (state ⟨e :: es, f, .holding x⟩) e.pair.closing =
      finishCall ⟨enclosedOutput es ++ e.output ++ f.output ++ x.postorder ++ f.stack,
        (e.callee?.map Callee.symbol).toList ++ e.outer.stack ++ es.flatMap Enclosure.stack,
        es.map Enclosure.group, none⟩ e.group := by
    simp only [closeGroup, state, Focus.stack, List.nil_append, taken, dropped]
    simp [Enclosure.stack, closes, enclosedOutput, Focus.output, Focus.pendingCall]
    rfl
  rw [closed]
  cases e with
  | bracket b outer =>
    simp [Enclosure.close?, finishCall, Enclosure.group, Enclosure.callee?, Enclosure.output,
      Enclosure.arguments, Enclosure.outer, state, Focus.output, Focus.stack, Focus.pendingCall,
      Phrase.postorder, Frame.postorder_closeSum]
  | call c b xs outer =>
    rcases close?_call c b xs outer (f.closeSum x) with ⟨y, done, count, order⟩ | ⟨undone, count⟩
    · simp [done, finishCall, Enclosure.group, Enclosure.callee?, Enclosure.output,
        Enclosure.arguments, Enclosure.outer, state, Focus.output, Focus.stack, Focus.pendingCall,
        order, count, Frame.postorder_closeSum]
    · rw [undone]
      refine ⟨.argumentCount c.symbol.text c.symbol.arity (xs.length + 1), ?_, .inr rfl⟩
      simp [finishCall, Enclosure.group, Enclosure.callee?, Enclosure.arguments, count]

/-- A closing bracket of another pair crosses the innermost enclosure. -/
theorem closeGroup_crossed (valid : table.Valid) (e : Enclosure table)
    (es : List (Enclosure table)) (f : Frame table) (x : Phrase table .primary) {s : Symbol}
    (other : s ≠ e.pair.closing) :
    MisfitReport (closeGroup table (state ⟨e :: es, f, .holding x⟩) s) := by
  have dropped := StopsAt.dropWhile_append (passes_frame valid f) (stopsAt_open valid (e :: es))
  have closes := Symbol.closes_opening valid e.pair s
  refine ⟨.crossedBrackets e.pair.opening.text s.text, ?_, .inl rfl⟩
  simp only [closeGroup, state, Focus.stack, List.nil_append, dropped]
  simp [Enclosure.stack, closes, other]
  rfl

/-- A closing bracket outside all enclosures has no opener. -/
theorem closeGroup_unmatched (valid : table.Valid) (f : Frame table) (x : Phrase table .primary)
    (s : Symbol) : MisfitReport (closeGroup table (state ⟨[], f, .holding x⟩) s) := by
  have dropped := StopsAt.dropWhile_append (passes_frame valid f) (stopsAt_open valid [])
  refine ⟨.unmatchedClose s.text, ?_, .inl rfl⟩
  simp only [closeGroup, state, Focus.stack, List.nil_append, dropped]
  simp

/-! ### One symbol -/

section Take

variable (es : List (Enclosure table)) (f : Frame table) (x : Phrase table .primary)

theorem take_operand {s : Symbol} (known : s.isOperand = true) :
    take ⟨es, f, .expecting⟩ s = some ⟨es, f, .holding (.operand s known)⟩ := by
  simp [take, takeOperand, known]

theorem take_function (c : Callee) :
    take ⟨es, f, .expecting⟩ c.symbol = some ⟨es, f, .calling c⟩ := by
  obtain ⟨s, g, named⟩ := c
  change takeOperand _ s = _
  rw [takeOperand, dif_neg (by simp [Symbol.isOperand_of_function? named])]
  split
  · rename_i h same
    rw [named] at same
    obtain rfl := Option.some.inj same
    rfl
  · rename_i unnamed
    simp [named] at unnamed

theorem take_negation :
    take ⟨es, f, .expecting⟩ .negation = some ⟨es, f.negate, .expecting⟩ := rfl

theorem take_opening (valid : table.Valid) (b : BracketPair table) :
    take ⟨es, f, .expecting⟩ b.opening = some ⟨.bracket b f :: es, .empty, .expecting⟩ := by
  have free := Symbol.unreserved_opening valid b
  change takeOperand _ b.opening = _
  rw [takeOperand, dif_neg (by simp [free.isOperand])]
  split
  · rename_i g named
    simp [free.function?] at named
  · rw [if_neg free.ne_negation, BracketPair.ofOpening?_opening valid]
    rfl

theorem take_callOpening (valid : table.Valid) (c : Callee) (b : BracketPair table) :
    take ⟨es, f, .calling c⟩ b.opening = some ⟨.call c b [] f :: es, .empty, .expecting⟩ := by
  change takeBracket _ c b.opening = _
  rw [takeBracket, BracketPair.ofOpening?_opening valid]
  rfl

theorem take_bang :
    take ⟨es, f, .holding x⟩ .bang = some ⟨es, f, .holding x.factorial⟩ := rfl

theorem take_sign (g : Sign) :
    take ⟨es, f, .holding x⟩ g.symbol = some ⟨es, f.attach g x, .expecting⟩ := by
  have notBang : g.symbol ≠ .bang := by
    intro same
    have found := Sign.ofSymbol?_symbol g
    rw [same] at found
    cases found
  simp [take, takeOperator, notBang]

theorem take_comma (e : Enclosure table) :
    take ⟨e :: es, f, .holding x⟩ .comma =
      (e.next? (f.closeSum x)).map fun e => ⟨e :: es, .empty, .expecting⟩ := rfl

theorem take_closing (valid : table.Valid) (e : Enclosure table) (b : BracketPair table) :
    take ⟨e :: es, f, .holding x⟩ b.closing =
      if b.closing = e.pair.closing then
        (e.close? (f.closeSum x)).map fun y => ⟨es, e.outer, .holding y⟩
      else none := by
  have free := Symbol.unreserved_closing valid b
  simp [take, takeOperator, free.ne_bang, free.ne_comma, free.ofSymbol?]

/-- The other half of the innermost bracket ends its enclosure. -/
theorem take_closes (valid : table.Valid) {e : Enclosure table} {y : Phrase table .primary}
    (closed : e.close? (f.closeSum x) = some y) :
    take ⟨e :: es, f, .holding x⟩ e.pair.closing = some ⟨es, e.outer, .holding y⟩ := by
  rw [take_closing es f x valid e e.pair, if_pos rfl, closed]
  rfl

theorem take_unmatched (valid : table.Valid) (b : BracketPair table) :
    take ⟨[], f, .holding x⟩ b.closing = none := by
  have free := Symbol.unreserved_closing valid b
  simp [take, takeOperator, free.ne_bang, free.ofSymbol?]

end Take

/-- What becomes of a reading and of the conversion beside it when a symbol comes. -/
def Advances (r : Reading table) (s : Symbol) (next : Turn) : Prop :=
  (∃ r', r.take s = some r' ∧ r'.At next ∧ Postfix.step table none r.state s = .ok r'.state) ∨
    (r.take s = none ∧ MisfitReport (Postfix.step table none r.state s))

theorem advances_operand {r : Reading table} (expecting : r.focus = .expecting) {s : Symbol}
    (known : s.isOperand = true) : r.Advances s .operator := by
  obtain ⟨es, f, _⟩ := r
  obtain rfl := expecting
  refine .inl ⟨_, take_operand es f known, ⟨_, rfl⟩, ?_⟩
  rw [state, Focus.pendingCall, step_operand known]
  simp [state, Focus.output, Focus.stack, Focus.pendingCall, Phrase.postorder]

theorem advances_function {r : Reading table} (expecting : r.focus = .expecting) {s : Symbol}
    {g : Function} (named : s.function? = some g) : r.Advances s .bracket := by
  obtain ⟨es, f, _⟩ := r
  obtain rfl := expecting
  refine .inl ⟨_, take_function es f ⟨s, g, named⟩, ⟨_, rfl⟩, ?_⟩
  rw [state, Focus.pendingCall, step_function named]
  simp [state, Focus.output, Focus.stack, Focus.pendingCall]

theorem advances_negation (valid : table.Valid) {r : Reading table}
    (expecting : r.focus = .expecting) : r.Advances .negation .operand := by
  obtain ⟨es, f, _⟩ := r
  obtain rfl := expecting
  refine .inl ⟨_, take_negation es f, rfl, ?_⟩
  rw [state, Focus.pendingCall, step_negation, Focus.stack, List.nil_append,
    Frame.stackOperator_negate f _ _ (stopsAt_yields valid es _)]
  simp [state, Focus.output, Focus.stack, Focus.pendingCall, Frame.negate, Frame.output]

theorem advances_opening (valid : table.Valid) {r : Reading table}
    (expecting : r.focus = .expecting) (b : BracketPair table) :
    r.Advances b.opening .argument := by
  obtain ⟨es, f, _⟩ := r
  obtain rfl := expecting
  refine .inl ⟨_, take_opening es f valid b, ⟨rfl, by simp⟩, ?_⟩
  rw [state, Focus.pendingCall, step_opening valid]
  simp [state, Focus.output, Focus.stack, Focus.pendingCall, enclosedOutput, Enclosure.output,
    Enclosure.outer, Enclosure.arguments, Enclosure.stack, Enclosure.pair, Enclosure.callee?,
    Enclosure.group, Frame.empty, Frame.output, Frame.stack, Frame.tightStack,
    Frame.productStack, Frame.differenceStack, Frame.sumStack]

theorem advances_callOpening (valid : table.Valid) {r : Reading table} {c : Callee}
    (calling : r.focus = .calling c) (b : BracketPair table) :
    r.Advances b.opening .argument := by
  obtain ⟨es, f, _⟩ := r
  obtain rfl := calling
  refine .inl ⟨_, take_callOpening es f valid c b, ⟨rfl, by simp⟩, ?_⟩
  rw [state, Focus.pendingCall, step_opening valid]
  simp [state, Focus.output, Focus.stack, Focus.pendingCall, enclosedOutput, Enclosure.output,
    Enclosure.outer, Enclosure.arguments, Enclosure.stack, Enclosure.pair, Enclosure.callee?,
    Enclosure.group, Frame.empty, Frame.output, Frame.stack, Frame.tightStack,
    Frame.productStack, Frame.differenceStack, Frame.sumStack]

theorem advances_bang {r : Reading table} {x : Phrase table .primary}
    (holding : r.focus = .holding x) : r.Advances .bang .operator := by
  obtain ⟨es, f, _⟩ := r
  obtain rfl := holding
  refine .inl ⟨_, take_bang es f x, ⟨_, rfl⟩, ?_⟩
  rw [state, Focus.pendingCall, step_bang]
  simp [state, Focus.output, Focus.stack, Focus.pendingCall, Phrase.postorder]

theorem advances_sign (valid : table.Valid) {r : Reading table} {x : Phrase table .primary}
    (holding : r.focus = .holding x) (g : Sign) : r.Advances g.symbol .operand := by
  obtain ⟨es, f, _⟩ := r
  obtain rfl := holding
  refine .inl ⟨_, take_sign es f x g, rfl, ?_⟩
  rw [state, Focus.pendingCall, step_sign, Focus.stack, List.nil_append, Focus.output,
    Frame.stackOperator_attach f g x _ _ (stopsAt_yields valid es _)]
  simp [state, Focus.output, Focus.stack, Focus.pendingCall]

theorem advances_comma (valid : table.Valid) {r : Reading table} {x : Phrase table .primary}
    (holding : r.focus = .holding x) : r.Advances .comma .argument := by
  obtain ⟨es, f, _⟩ := r
  obtain rfl := holding
  have stepped : Postfix.step table none (state ⟨es, f, .holding x⟩) .comma =
      nextArgument table (state ⟨es, f, .holding x⟩) .comma := step_comma
  rw [Advances, stepped]
  cases es with
  | nil => exact .inr ⟨rfl, _, rfl, .inr rfl⟩
  | cons e es =>
    have spec := nextArgument_spec valid e es f x
    rw [take_comma]
    cases next : e.next? (f.closeSum x) with
    | none =>
      rw [next] at spec
      exact .inr ⟨rfl, spec⟩
    | some e' =>
      rw [next] at spec
      exact .inl ⟨_, rfl, ⟨rfl, by simp⟩, spec⟩

theorem advances_closing (valid : table.Valid) {r : Reading table} {x : Phrase table .primary}
    (holding : r.focus = .holding x) (b : BracketPair table) :
    r.Advances b.closing .operator := by
  obtain ⟨es, f, _⟩ := r
  obtain rfl := holding
  have stepped : Postfix.step table none (state ⟨es, f, .holding x⟩) b.closing =
      closeGroup table (state ⟨es, f, .holding x⟩) b.closing := step_closing valid b
  rw [Advances, stepped]
  cases es with
  | nil =>
    exact .inr ⟨take_unmatched f x valid b, closeGroup_unmatched valid f x _⟩
  | cons e es =>
    rw [take_closing es f x valid e b]
    by_cases same : b.closing = e.pair.closing
    · have spec := closeGroup_spec valid e es f x
      rw [if_pos same, same]
      cases closed : e.close? (f.closeSum x) with
      | none =>
        rw [closed] at spec
        exact .inr ⟨rfl, spec⟩
      | some y =>
        rw [closed] at spec
        exact .inl ⟨_, rfl, ⟨_, rfl⟩, spec⟩
    · rw [if_neg same]
      exact .inr ⟨rfl, closeGroup_crossed valid e es f x same⟩

/-- Where a symbol can stand, a reading and the conversion both take it, or neither does. -/
theorem take_fits (valid : table.Valid) {r : Reading table} {t u : Turn} {s : Symbol}
    (stands : r.At t) (fits : t.Step table s u) : r.Advances s u := by
  have expecting : ∀ {t : Turn}, r.At t → t.Expecting → r.focus = .expecting := by
    rintro t stands (rfl | rfl)
    · exact stands
    · exact stands.1
  cases fits with
  | operand due known => exact advances_operand (expecting stands due) known
  | function due named => exact advances_function (expecting stands due) named
  | negation due => exact advances_negation valid (expecting stands due)
  | opening due b => exact advances_opening valid (expecting stands due) b
  | callOpening b =>
    obtain ⟨c, calling⟩ := stands
    exact advances_callOpening valid calling b
  | bang =>
    obtain ⟨x, holding⟩ := stands
    exact advances_bang holding
  | sign g =>
    obtain ⟨x, holding⟩ := stands
    exact advances_sign valid holding g
  | comma =>
    obtain ⟨x, holding⟩ := stands
    exact advances_comma valid holding
  | closing b =>
    obtain ⟨x, holding⟩ := stands
    exact advances_closing valid holding b

end Reading

end SymbolicAlgebra
