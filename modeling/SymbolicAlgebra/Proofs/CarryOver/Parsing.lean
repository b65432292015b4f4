/-
  Parsing
  =======
  Parsing makes a node of nothing but symbols of the text: the symbols in postfix order
  are among them (**`Postfix.all_ofInfix`**), and the nodes on the stack come from
  symbols that were read. A property that carries over holds of the tree when it holds
  of the variables (**`Postfix.carry_tree`**, **`ParserSettings.carry_parse`**).
-/
import SymbolicAlgebra.Infix.Parser
import SymbolicAlgebra.Proofs.CarryOver.Arithmetic

namespace SymbolicAlgebra

namespace Postfix

/-! ### The symbols in postfix order -/

variable {R : Symbol → Prop}

/-- Every symbol that a conversion holds has the property. -/
structure State.All (R : Symbol → Prop) (state : State) : Prop where
  output : ∀ s ∈ state.output, R s
  stack : ∀ s ∈ state.stack, R s
  functions : ∀ g ∈ state.groups, ∀ f ∈ g.function, R f
  pending : ∀ f ∈ state.pendingCall, R f

theorem State.All.start : State.start.All R where
  output := List.forall_mem_nil _
  stack := List.forall_mem_nil _
  functions := List.forall_mem_nil _
  pending := nofun

/-- Writing what stands on top of the stack. -/
theorem State.All.unstack {state : State} (h : state.All R) (p : Symbol → Bool) :
    (∀ s ∈ state.output ++ state.stack.takeWhile p, R s) ∧ ∀ s ∈ state.stack.dropWhile p, R s := by
  constructor
  · rw [List.forall_mem_append]
    exact ⟨h.output, fun s hs => h.stack s ((List.takeWhile_prefix p).subset hs)⟩
  · exact fun s hs => h.stack s ((List.dropWhile_suffix p).subset hs)

theorem all_nextArgument {table : BracketTable} {state : State} (h : state.All R) (s : Symbol) :
    Yields (State.All R) (nextArgument table state s) := by
  obtain ⟨output, stack⟩ := h.unstack fun t => !t.isOpen table
  unfold nextArgument
  split
  · rename_i f n groups shown
    have functions := h.functions
    rw [shown] at functions
    obtain ⟨first, rest⟩ := List.forall_mem_cons.1 functions
    split
    · exact .error _
    · exact .ok ⟨output, stack, List.forall_mem_cons.2 ⟨first, rest⟩, h.pending⟩
  · exact .error _

theorem all_openGroup {limit : Option Int} {state : State} (h : state.All R) {s : Symbol}
    (hs : R s) : Yields (State.All R) (openGroup limit state s) := by
  unfold openGroup
  split
  · exact .error _
  · exact .ok ⟨h.output, List.forall_mem_cons.2 ⟨hs, h.stack⟩,
      List.forall_mem_cons.2 ⟨h.pending, h.functions⟩, nofun⟩

theorem all_finishCall {state : State} (h : state.All R) {group : Group}
    (called : ∀ f ∈ group.function, R f) : Yields (State.All R) (finishCall state group) := by
  unfold finishCall
  split
  · exact .ok h
  · rename_i f shown
    split
    · exact .error _
    · rename_i top stack listed
      have rest := h.stack
      rw [listed] at rest
      split
      · have written : ∀ s ∈ state.output ++ [f], R s :=
          List.forall_mem_append.2 ⟨h.output, List.forall_mem_singleton.2 (called f shown)⟩
        exact .ok ⟨written, (List.forall_mem_cons.1 rest).2, h.functions, h.pending⟩
      · exact .error _

theorem all_closeGroup {table : BracketTable} {state : State} (h : state.All R) (s : Symbol) :
    Yields (State.All R) (closeGroup table state s) := by
  obtain ⟨output, stack⟩ := h.unstack fun t => !t.isOpen table
  unfold closeGroup
  split
  · exact .error _
  · rename_i opener rest shown
    rw [shown] at stack
    refine Yields.bind (Q := fun _ => True) (fun _ _ => trivial) fun closes _ => ?_
    split
    · exact .error _
    · split
      · exact .error _
      · rename_i group groups listed
        have functions := h.functions
        rw [listed] at functions
        obtain ⟨first, later⟩ := List.forall_mem_cons.1 functions
        refine all_finishCall ?_ first
        exact ⟨output, (List.forall_mem_cons.1 stack).2, later, h.pending⟩

/-- Taking a symbol brings in no other symbol. -/
theorem all_step {table : BracketTable} {limit : Option Int} {state : State} (h : state.All R)
    {s : Symbol} (hs : R s) : Yields (State.All R) (step table limit state s) := by
  have written : ∀ t ∈ state.output ++ [s], R t :=
    List.forall_mem_append.2 ⟨h.output, List.forall_mem_singleton.2 hs⟩
  have stacked : ∀ t ∈ s :: state.stack, R t := List.forall_mem_cons.2 ⟨hs, h.stack⟩
  unfold step
  split
  · exact .error _
  · split
    · exact .ok ⟨written, h.stack, h.functions, h.pending⟩
    split
    · refine .ok ⟨h.output, stacked, h.functions, ?_⟩
      rintro f ⟨⟩
      exact hs
    split
    · exact .ok ⟨written, h.stack, h.functions, h.pending⟩
    split
    · obtain ⟨output, stack⟩ := h.unstack (yields s)
      exact .ok ⟨output, List.forall_mem_cons.2 ⟨hs, stack⟩, h.functions, h.pending⟩
    split
    · exact all_nextArgument h s
    split
    · exact all_openGroup h hs
    split
    · exact all_closeGroup h s
    · exact .ok h

/-- The symbols in postfix order are among those in infix order. -/
theorem all_ofInfix {table : BracketTable} {limit : Option Int} {symbols : List Symbol}
    (h : ∀ s ∈ symbols, R s) : Yields (∀ s ∈ ·, R s) (ofInfix table limit symbols) := by
  have run : Yields (State.All R) (symbols.foldlM (step table limit) .start) :=
    .foldlM (fun s hs state kept => all_step kept (h s hs)) .start
  refine run.bind fun state kept => ?_
  unfold finish
  split
  · exact .error _
  · split
    · exact .error _
    · exact .ok (List.forall_mem_append.2 ⟨kept.output, kept.stack⟩)

/-! ### The tree -/

section Tree

variable {α : Type} [Scalar α] {Q : Place → Node α → Prop} [CarriesToSums Q]

/-- Whether the constant or the variable that the symbol names has the property, if it names
one. -/
structure Reading (Q : Node α → Prop) (s : Symbol) : Prop where
  constant : ∀ c, Constant.ofSymbol? s.text = some c → Q (.constant c false)
  var : ∀ v, s.isVariable = true → Variable.ofName? s.text = .ok v → Q (.var v false)

/-- Every exponent that the symbols write has what is asked of it. -/
def Raising (Q : Place → Node α → Prop) (symbols : List Symbol) : Prop :=
  ∀ before s after (n : Node α) below, symbols = before ++ s :: after → s.text.toList = ['^'] →
    before.foldlM reduceStack [] = .ok (n :: below) → Q .alone n → Place.Exponent Q .alone n

theorem raising_of_uniform {Q : Node α → Prop} [Uniform Q] (symbols : List Symbol) :
    Raising (fun _ => Q) symbols :=
  fun _ _ _ _ _ _ _ _ h => Uniform.exponent.2 h

theorem carry_toOperand {s : Symbol} (read : Reading (Q .alone) s) :
    Yields (Q .alone) (s.toOperand : Checked (Node α)) := by
  unfold Symbol.toOperand
  split
  · exact .ok (Node.carry_ofValue _)
  · rename_i c _ named
    exact .ok (read.constant c named)
  · split
    · rename_i isVariable
      intro n result
      obtain ⟨v, named, rest⟩ := bind_eq_ok.1 result
      cases rest
      exact read.var v isVariable named
    · exact .error _

theorem carry_applyUnary {x : Node α} (h : Q .alone x) (s : Symbol) :
    Yields (Q .alone) (applyUnary s x) := by
  unfold applyUnary
  split
  · exact .ok (Node.carry_negate h)
  · exact .ok (CarriesOver.unary.2 h)
  · exact .error _

theorem carry_applyBinary {x y : Node α} (hx : Q .alone x) (hy : Q .alone y) {s : Symbol}
    (exponent : s.text.toList = ['^'] → Place.Exponent Q .alone y) :
    Yields (Q .alone) (applyBinary s x y) := by
  have exposed : ∀ {r : Checked (Node α)}, Yields (Q .inside) r → Yields (Q .alone) r :=
    fun h => h.mono fun _ => CarriesOver.anywhere
  unfold applyBinary
  split
  · exact exposed (Node.carry_add hx hy)
  · exact exposed (Node.carry_subtract hx hy)
  · exact exposed (Node.carry_multiply hx hy)
  · exact exposed (Node.carry_multiply hx hy)
  · exact exposed (Node.carry_divide hx hy)
  · rename_i sign
    exact .ok (Node.carry_raise hx (exponent sign))
  · exact .ok (CarriesOver.binary.2 ⟨hx, hy⟩)
  · exact .error _

/-- Reading a symbol puts nodes with the property on a stack of such nodes. -/
theorem carry_reduceStack {s : Symbol} (read : Reading (Q .alone) s) {stack : List (Node α)}
    (raised : ∀ n below, s.text.toList = ['^'] → stack = n :: below → Place.Exponent Q .alone n)
    (h : ∀ n ∈ stack, Q .alone n) : Yields (∀ n ∈ ·, Q .alone n) (reduceStack stack s) := by
  unfold reduceStack
  dsimp only
  split
  · exact (carry_toOperand read).bind fun n hn => .ok (List.forall_mem_cons.2 ⟨hn, h⟩)
  · split
    · obtain ⟨hx, rest⟩ := List.forall_mem_cons.1 h
      exact .ok (List.forall_mem_cons.2 ⟨CarriesOver.unary.2 hx, rest⟩)
    · obtain ⟨hy, later⟩ := List.forall_mem_cons.1 h
      obtain ⟨hx, rest⟩ := List.forall_mem_cons.1 later
      exact .ok (List.forall_mem_cons.2 ⟨CarriesOver.binary.2 ⟨hx, hy⟩, rest⟩)
    · exact .error _
    · split
      · split
        · obtain ⟨hx, rest⟩ := List.forall_mem_cons.1 h
          exact (carry_applyUnary hx s).bind fun n hn => .ok (List.forall_mem_cons.2 ⟨hn, rest⟩)
        · exact .error _
      · split
        · obtain ⟨hy, later⟩ := List.forall_mem_cons.1 h
          obtain ⟨hx, rest⟩ := List.forall_mem_cons.1 later
          refine (carry_applyBinary hx hy fun sign => raised _ _ sign rfl).bind fun n hn => ?_
          exact .ok (List.forall_mem_cons.2 ⟨hn, rest⟩)
        · exact .error _

/-- The property carries over from the operands that are read to the tree. -/
theorem carry_tree {symbols : List Symbol} (read : ∀ s ∈ symbols, Reading (Q .alone) s)
    (raising : Raising Q symbols) : Yields (Q .alone) (toNode symbols : Checked (Node α)) := by
  have run : ∀ (after before : List Symbol) (stack : List (Node α)), symbols = before ++ after →
      before.foldlM reduceStack [] = .ok stack → (∀ n ∈ stack, Q .alone n) →
        Yields (∀ n ∈ ·, Q .alone n) (after.foldlM reduceStack stack) := by
    intro after
    induction after with
    | nil => exact fun before stack _ _ kept => .ok kept
    | cons s after ih =>
      intro before stack whole reached kept
      have member : s ∈ symbols := by simp [whole]
      intro last result
      rw [List.foldlM_cons] at result
      obtain ⟨next, step, rest⟩ := bind_eq_ok.1 result
      refine ih (before ++ [s]) next (by simp [whole]) ?_ ?_ last rest
      · rw [List.foldlM_append, reached]
        exact bind_eq_ok.2 ⟨stack, rfl, bind_eq_ok.2 ⟨next, step, rfl⟩⟩
      · refine carry_reduceStack (read s member) (fun n below sign top => ?_) kept next step
        subst top
        exact raising before s after n below whole sign reached (kept n List.mem_cons_self)
  refine (run symbols [] [] rfl rfl (List.forall_mem_nil _)).bind fun stack kept => ?_
  split
  · exact .ok (CarriesOver.number 0)
  · exact .ok (List.forall_mem_singleton.1 kept)
  · exact .error _

end Tree

end Postfix

/-! ### Parsed expressions -/

namespace Variable

theorem head_of_withoutLineEnd {cs ds : List Char} {c : Char} (h : withoutLineEnd cs = c :: ds) :
    ∃ rest, cs = c :: rest := by
  unfold withoutLineEnd at h
  split at h
  · obtain ⟨last, whole⟩ := List.dropLast_prefix cs
    rw [h] at whole
    exact ⟨ds ++ last, whole.symm⟩
  · exact ⟨ds, h⟩

theorem letter_of_ofParts? {letter : String} {n : Int} {v : Variable}
    (h : ofParts? letter n = .ok v) : letter.toList = [v.letter] := by
  unfold ofParts? at h
  split at h
  · rename_i c spelled
    split at h
    · split at h
      · cases h
      · cases h
        exact spelled
    · cases h
  · cases h

/-- The letter of a variable that is read from a name is an ASCII letter. -/
theorem letter_of_ofName? {text : String} {v : Variable} (formed : isVariableName text = true)
    (read : ofName? text = .ok v) : v.letter.isAlpha = true := by
  obtain ⟨c, rest, shape, letter⟩ : ∃ c rest, text.toList = c :: rest ∧ c.isAlpha = true := by
    unfold isVariableName at formed
    split at formed
    · rename_i c named
      obtain ⟨rest, shape⟩ := head_of_withoutLineEnd named
      exact ⟨c, rest, shape, formed⟩
    · rename_i c digits named
      obtain ⟨rest, shape⟩ := head_of_withoutLineEnd named
      simp only [Bool.and_eq_true] at formed
      exact ⟨c, rest, shape, formed.1.1⟩
    · cases formed
  have other : (c != '_') = true := by
    rw [bne_iff_ne]
    rintro rfl
    exact absurd letter (by decide)
  have first : (splitName text.toList).1 = c :: rest.takeWhile (· != '_') := by
    rw [shape, splitName, List.takeWhile_cons, if_pos other]
  have parts : ∃ n, ofParts? (String.ofList (splitName text.toList).1) n = .ok v := by
    unfold ofName? at read
    dsimp only at read
    split at read
    · exact ⟨_, read⟩
    · split at read
      · exact ⟨_, read⟩
      · cases read
  obtain ⟨n, built⟩ := parts
  have spelled := letter_of_ofParts? built
  rw [String.toList_ofList, first] at spelled
  rw [← (List.cons.inj spelled).1]
  exact letter

end Variable

/-- What holds of every variable that can be written, and of the constants and the exponents that
the text writes, carries over to a parsed expression. -/
theorem ParserSettings.carry_parse {α : Type} [Scalar α] {Q : Place → Node α → Prop}
    [CarriesToSums Q] (written : ∀ v : Variable, v.letter.isAlpha = true → Q .alone (.var v false))
    {settings : ParserSettings} {text : String}
    (raising : ∀ symbols postfixed, settings.symbols text = .ok symbols →
      Postfix.ofInfix settings.brackets settings.maxDepth symbols = .ok postfixed →
        Postfix.Raising Q postfixed)
    (constants : ∀ symbols postfixed, settings.symbols text = .ok symbols →
      Postfix.ofInfix settings.brackets settings.maxDepth symbols = .ok postfixed →
        ∀ s ∈ postfixed, ∀ c, Constant.ofSymbol? s.text = some c → Q .alone (.constant c false)) :
    Yields (Q .alone) (settings.parse text : Checked (Node α)) := by
  intro n result
  obtain ⟨symbols, lexed, rest⟩ := bind_eq_ok.1 result
  obtain ⟨postfixed, ordered, rest⟩ := bind_eq_ok.1 rest
  obtain ⟨tree, built, rest⟩ := bind_eq_ok.1 rest
  cases rest
  refine Node.carry_reduce (Postfix.carry_tree (fun s hs => ⟨?_, fun v isVariable read => ?_⟩)
    (raising symbols postfixed lexed ordered) tree built)
  · exact constants symbols postfixed lexed ordered s hs
  · exact written v (Variable.letter_of_ofName? (Bool.and_eq_true_iff.1 isVariable).1 read)

end SymbolicAlgebra
