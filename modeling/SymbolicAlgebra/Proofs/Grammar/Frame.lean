/-
  Phrases under construction
  ==========================
  What has been read between a bracket, or a separator, and the next operand: a sum
  that waits for what is added to it, a difference, a product, bases that wait for
  their exponents, and negation marks. A frame lists these by level, so whatever it
  holds fits together, and an operand closes all of it or the part that binds
  tighter than the sign behind the operand.

  **`Frame.symbols_closeSum`** and **`Frame.postorder_closeSum`** say what closing
  does: no symbol is lost, and the operators that waited are written from the
  tightest to the loosest. **`Frame.stackOperator_attach`** is the same for the
  conversion to postfix order: stacking a sign is closing the levels that bind at
  least as tightly.
-/
import SymbolicAlgebra.Infix.Postfix
import SymbolicAlgebra.Proofs.Grammar.Phrase

namespace SymbolicAlgebra

variable {table : BracketTable}

/-- What waits in front of the next operand, the loosest level first. -/
structure Frame (table : BracketTable) where
  sum : Option (Phrase table .sum)
  difference : Option (Phrase table .difference)
  product : Option (Phrase table .product × ProductSign)
  powers : List (Phrase table .unary)
  negations : Nat

namespace Frame

/-- Nothing waits. -/
def empty : Frame table := ⟨none, none, none, [], 0⟩

/-- One more negation mark waits. -/
def negate (f : Frame table) : Frame table := { f with negations := f.negations + 1 }

/-! ### Closing the levels -/

def closeUnary (f : Frame table) (x : Phrase table .primary) : Phrase table .unary :=
  (Phrase.ofPrimary x).negatedTimes f.negations

def closePower (f : Frame table) (x : Phrase table .primary) : Phrase table .power :=
  (Phrase.ofUnary (f.closeUnary x)).raisedBy f.powers

def closeProduct (f : Frame table) (x : Phrase table .primary) : Phrase table .product :=
  match f.product with
  | none => .ofPower (f.closePower x)
  | some (a, g) => .scaled a g (f.closePower x)

def closeDifference (f : Frame table) (x : Phrase table .primary) : Phrase table .difference :=
  match f.difference with
  | none => .ofProduct (f.closeProduct x)
  | some a => .minus a (f.closeProduct x)

def closeSum (f : Frame table) (x : Phrase table .primary) : Phrase table .sum :=
  match f.sum with
  | none => .ofDifference (f.closeDifference x)
  | some a => .plus a (f.closeDifference x)

/-- What waits after an operand and a sign behind it. -/
def attach (f : Frame table) (g : Sign) (x : Phrase table .primary) : Frame table :=
  match g with
  | .power => { f with powers := f.closeUnary x :: f.powers, negations := 0 }
  | .product g => ⟨f.sum, f.difference, some (f.closeProduct x, g), [], 0⟩
  | .minus => ⟨f.sum, some (f.closeDifference x), none, [], 0⟩
  | .plus => ⟨some (f.closeSum x), none, none, [], 0⟩

/-! ### What a frame has read and what it stands for -/

def powerSymbols (f : Frame table) : List Symbol :=
  (f.powers.reverse.flatMap fun x => x.symbols ++ [Sign.power.symbol])
    ++ List.replicate f.negations .negation

def productSymbols (f : Frame table) : List Symbol :=
  match f.product with
  | none => []
  | some (a, g) => a.symbols ++ [(Sign.product g).symbol]

def differenceSymbols (f : Frame table) : List Symbol :=
  match f.difference with
  | none => []
  | some a => a.symbols ++ [Sign.minus.symbol]

def sumSymbols (f : Frame table) : List Symbol :=
  match f.sum with
  | none => []
  | some a => a.symbols ++ [Sign.plus.symbol]

/-- The symbols that the frame has read. -/
def symbols (f : Frame table) : List Symbol :=
  f.sumSymbols ++ f.differenceSymbols ++ f.productSymbols ++ f.powerSymbols

/-- The symbols that are written while the frame is read. -/
def output (f : Frame table) : List Symbol :=
  (f.sum.map Phrase.postorder).getD [] ++ (f.difference.map Phrase.postorder).getD []
    ++ (f.product.map fun p => p.1.postorder).getD [] ++ f.powers.reverse.flatMap Phrase.postorder

/-- The negation marks and power signs that wait. -/
def tightStack (f : Frame table) : List Symbol :=
  List.replicate f.negations .negation ++ List.replicate f.powers.length Sign.power.symbol

def productStack (f : Frame table) : List Symbol :=
  (f.product.map fun p => (Sign.product p.2).symbol).toList

def differenceStack (f : Frame table) : List Symbol :=
  (f.difference.map fun _ => Sign.minus.symbol).toList

def sumStack (f : Frame table) : List Symbol :=
  (f.sum.map fun _ => Sign.plus.symbol).toList

/-- The operators that wait, the tightest first. -/
def stack (f : Frame table) : List Symbol :=
  f.tightStack ++ f.productStack ++ f.differenceStack ++ f.sumStack

theorem symbols_closePower (f : Frame table) (x : Phrase table .primary) :
    (f.closePower x).symbols = f.powerSymbols ++ x.symbols := by
  rw [closePower, Phrase.symbols_raisedBy, Phrase.symbols, closeUnary,
    Phrase.symbols_negatedTimes, Phrase.symbols, powerSymbols, List.append_assoc]

theorem symbols_closeProduct (f : Frame table) (x : Phrase table .primary) :
    (f.closeProduct x).symbols = f.productSymbols ++ f.powerSymbols ++ x.symbols := by
  unfold closeProduct productSymbols
  split <;> simp [Phrase.symbols, symbols_closePower, *]

theorem symbols_closeDifference (f : Frame table) (x : Phrase table .primary) :
    (f.closeDifference x).symbols =
      f.differenceSymbols ++ f.productSymbols ++ f.powerSymbols ++ x.symbols := by
  unfold closeDifference differenceSymbols
  split <;> simp [Phrase.symbols, symbols_closeProduct, *]

/-- Closing a frame keeps its symbols. -/
theorem symbols_closeSum (f : Frame table) (x : Phrase table .primary) :
    (f.closeSum x).symbols = f.symbols ++ x.symbols := by
  unfold closeSum symbols sumSymbols
  split <;> simp [Phrase.symbols, symbols_closeDifference, *]

theorem postorder_closeUnary (f : Frame table) (x : Phrase table .primary) :
    (f.closeUnary x).postorder = x.postorder ++ List.replicate f.negations .negation := by
  rw [closeUnary, Phrase.postorder_negatedTimes, Phrase.postorder]

theorem postorder_closePower (f : Frame table) (x : Phrase table .primary) :
    (f.closePower x).postorder =
      f.powers.reverse.flatMap Phrase.postorder ++ x.postorder ++ f.tightStack := by
  rw [closePower, Phrase.postorder_raisedBy, Phrase.postorder, postorder_closeUnary, tightStack]
  simp

theorem postorder_closeProduct (f : Frame table) (x : Phrase table .primary) :
    (f.closeProduct x).postorder =
      (f.product.map fun p => p.1.postorder).getD [] ++ f.powers.reverse.flatMap Phrase.postorder
        ++ x.postorder ++ f.tightStack ++ f.productStack := by
  unfold closeProduct productStack
  split <;> simp [Phrase.postorder, postorder_closePower, *]

theorem postorder_closeDifference (f : Frame table) (x : Phrase table .primary) :
    (f.closeDifference x).postorder =
      (f.difference.map Phrase.postorder).getD [] ++ (f.product.map fun p => p.1.postorder).getD []
        ++ f.powers.reverse.flatMap Phrase.postorder
        ++ x.postorder ++ f.tightStack ++ f.productStack ++ f.differenceStack := by
  unfold closeDifference differenceStack
  split <;> simp [Phrase.postorder, postorder_closeProduct, *]

/-- Closing a frame writes its operand and then the operators that waited. -/
theorem postorder_closeSum (f : Frame table) (x : Phrase table .primary) :
    (f.closeSum x).postorder = f.output ++ x.postorder ++ f.stack := by
  unfold closeSum output stack sumStack
  split <;> simp [Phrase.postorder, postorder_closeDifference, *]

/-! ### Signs behind an operand -/

/-- Attaching a sign keeps the symbols. -/
theorem symbols_attach (f : Frame table) (g : Sign) (x : Phrase table .primary) :
    (f.attach g x).symbols = f.symbols ++ x.symbols ++ [g.symbol] := by
  cases g with
  | plus =>
    simp [attach, symbols, sumSymbols, differenceSymbols, productSymbols, powerSymbols,
      symbols_closeSum]
  | minus =>
    simp [attach, symbols, sumSymbols, differenceSymbols, productSymbols, powerSymbols,
      symbols_closeDifference]
  | product g =>
    simp [attach, symbols, sumSymbols, differenceSymbols, productSymbols, powerSymbols,
      symbols_closeProduct]
  | power =>
    simp [attach, symbols, sumSymbols, differenceSymbols, productSymbols, powerSymbols,
      closeUnary, Phrase.symbols_negatedTimes, Phrase.symbols]

theorem symbols_negate (f : Frame table) : f.negate.symbols = f.symbols ++ [.negation] := by
  simp [negate, symbols, sumSymbols, differenceSymbols, productSymbols, powerSymbols,
    List.replicate_succ']

/-- What waits is an infix sign or a negation mark. -/
theorem mem_stack {f : Frame table} {t : Symbol} (waits : t ∈ f.stack) :
    t = .negation ∨ ∃ g : Sign, t = g.symbol := by
  simp only [stack, tightStack, productStack, differenceStack, sumStack, List.mem_append,
    List.mem_replicate, Option.mem_toList, Option.map_eq_some_iff] at waits
  rcases waits with (((⟨-, rfl⟩ | ⟨-, rfl⟩) | ⟨p, -, rfl⟩) | ⟨a, -, rfl⟩) | ⟨a, -, rfl⟩
  · exact .inl rfl
  · exact .inr ⟨_, rfl⟩
  · exact .inr ⟨_, rfl⟩
  · exact .inr ⟨_, rfl⟩
  · exact .inr ⟨_, rfl⟩

theorem isOpen_of_mem_stack (valid : table.Valid) {f : Frame table} {t : Symbol}
    (waits : t ∈ f.stack) : t.isOpen table = false := by
  rw [← Bool.not_eq_true, Symbol.isOpen_iff valid]
  rintro ⟨b, rfl⟩
  rcases mem_stack waits with same | ⟨g, same⟩
  · exact (Symbol.unreserved_opening valid b).ne_negation same
  · exact (Symbol.unreserved_opening valid b).ne_sign g same

end Frame

/-! ### The operators that a sign writes -/

/-- The list starts with nothing that passes the test. -/
def StopsAt {β : Type} (test : β → Bool) (bs : List β) : Prop := ∀ b ∈ bs.head?, test b = false

namespace StopsAt

variable {β : Type} {test : β → Bool}

theorem nil : StopsAt test [] := by
  intro b first
  cases first

theorem cons {b : β} {bs : List β} (fails : test b = false) : StopsAt test (b :: bs) := by
  intro c first
  obtain rfl := Option.some.inj first
  exact fails

theorem append {bs cs : List β} (fail : ∀ b ∈ bs, test b = false) (stops : StopsAt test cs) :
    StopsAt test (bs ++ cs) := by
  cases bs with
  | nil => exact stops
  | cons b bs => exact cons (fail b (by simp))

theorem takeWhile_append {bs cs : List β} (pass : ∀ b ∈ bs, test b = true)
    (stops : StopsAt test cs) : (bs ++ cs).takeWhile test = bs := by
  rw [List.takeWhile_append_of_pos pass]
  cases cs with
  | nil => simp
  | cons c cs => simp [stops c rfl]

theorem dropWhile_append {bs cs : List β} (pass : ∀ b ∈ bs, test b = true)
    (stops : StopsAt test cs) : (bs ++ cs).dropWhile test = cs := by
  rw [List.dropWhile_append_of_pos pass]
  cases cs with
  | nil => rfl
  | cons c cs => simp [stops c rfl]

end StopsAt

namespace Postfix

theorem yields_negation (g : Sign) : yields g.symbol .negation = true := by
  rcases g with _ | _ | ⟨_ | _ | _ | _⟩ | _ <;> rfl

theorem negation_yields (g : Sign) : yields .negation g.symbol = false := by
  rcases g with _ | _ | ⟨_ | _ | _ | _⟩ | _ <;> rfl

theorem yields_sign (g h : Sign) :
    yields g.symbol h.symbol =
      (decide (g.rank < h.rank) || h.rank == g.rank && !decide (g = .power)) := by
  simp [yields]

theorem not_yields_of_precedence {s t : Symbol} (bare : t.precedence? = none) :
    yields s t = false := by
  simp [yields, bare]

end Postfix

namespace Frame

open Postfix

/-- The operators of a frame that a sign writes. -/
def written (f : Frame table) : Sign → List Symbol
  | .power => List.replicate f.negations .negation
  | .product _ => f.tightStack ++ f.productStack
  | .minus => f.tightStack ++ f.productStack ++ f.differenceStack
  | .plus => f.stack

/-- The operators of a frame that a sign leaves waiting. -/
def kept (f : Frame table) : Sign → List Symbol
  | .power =>
    List.replicate f.powers.length Sign.power.symbol ++ f.productStack ++ f.differenceStack
      ++ f.sumStack
  | .product _ => f.differenceStack ++ f.sumStack
  | .minus => f.sumStack
  | .plus => []

theorem written_append_kept (f : Frame table) (g : Sign) : f.written g ++ f.kept g = f.stack := by
  cases g <;> simp [written, kept, stack, tightStack]

theorem mem_tightStack {f : Frame table} {t : Symbol} (waits : t ∈ f.tightStack) :
    t = .negation ∨ t = Sign.power.symbol := by
  simp only [tightStack, List.mem_append, List.mem_replicate] at waits
  exact waits.imp And.right And.right

theorem mem_productStack {f : Frame table} {t : Symbol} (waits : t ∈ f.productStack) :
    ∃ g, t = (Sign.product g).symbol := by
  simp only [productStack, Option.mem_toList, Option.map_eq_some_iff] at waits
  obtain ⟨p, -, rfl⟩ := waits
  exact ⟨_, rfl⟩

theorem mem_differenceStack {f : Frame table} {t : Symbol} (waits : t ∈ f.differenceStack) :
    t = Sign.minus.symbol := by
  simp only [differenceStack, Option.mem_toList, Option.map_eq_some_iff] at waits
  obtain ⟨a, -, rfl⟩ := waits
  rfl

theorem mem_sumStack {f : Frame table} {t : Symbol} (waits : t ∈ f.sumStack) :
    t = Sign.plus.symbol := by
  simp only [sumStack, Option.mem_toList, Option.map_eq_some_iff] at waits
  obtain ⟨a, -, rfl⟩ := waits
  rfl

theorem yields_written {f : Frame table} {g : Sign} {t : Symbol} (waits : t ∈ f.written g) :
    yields g.symbol t = true := by
  have tight : t ∈ f.tightStack → g ≠ .power → yields g.symbol t = true := by
    intro waits loose
    rcases mem_tightStack waits with rfl | rfl
    · exact yields_negation g
    · cases g <;> simp_all [yields_sign, Sign.rank]
  cases g with
  | power =>
    obtain rfl := (List.mem_replicate.1 waits).2
    exact yields_negation _
  | product g =>
    rcases List.mem_append.1 waits with waits | waits
    · exact tight waits (by simp)
    · obtain ⟨h, rfl⟩ := mem_productStack waits
      simp [yields_sign, Sign.rank]
  | minus =>
    rcases List.mem_append.1 waits with waits | waits
    · rcases List.mem_append.1 waits with waits | waits
      · exact tight waits (by simp)
      · obtain ⟨h, rfl⟩ := mem_productStack waits
        simp [yields_sign, Sign.rank]
    · obtain rfl := mem_differenceStack waits
      simp [yields_sign, Sign.rank]
  | plus =>
    rcases List.mem_append.1 waits with waits | waits
    · rcases List.mem_append.1 waits with waits | waits
      · rcases List.mem_append.1 waits with waits | waits
        · exact tight waits (by simp)
        · obtain ⟨h, rfl⟩ := mem_productStack waits
          simp [yields_sign, Sign.rank]
      · obtain rfl := mem_differenceStack waits
        simp [yields_sign, Sign.rank]
    · obtain rfl := mem_sumStack waits
      simp [yields_sign, Sign.rank]

theorem not_yields_kept {f : Frame table} {g : Sign} {t : Symbol} (waits : t ∈ f.kept g) :
    yields g.symbol t = false := by
  have sum : t ∈ f.sumStack → g ≠ .plus → yields g.symbol t = false := by
    intro waits tight
    obtain rfl := mem_sumStack waits
    cases g <;> simp_all [yields_sign, Sign.rank]
  have difference : t ∈ f.differenceStack → g ≠ .plus → g ≠ .minus →
      yields g.symbol t = false := by
    intro waits tight tighter
    obtain rfl := mem_differenceStack waits
    cases g <;> simp_all [yields_sign, Sign.rank]
  cases g with
  | power =>
    rcases List.mem_append.1 waits with waits | waits
    · rcases List.mem_append.1 waits with waits | waits
      · rcases List.mem_append.1 waits with waits | waits
        · obtain rfl := (List.mem_replicate.1 waits).2
          simp [yields_sign, Sign.rank]
        · obtain ⟨h, rfl⟩ := mem_productStack waits
          simp [yields_sign, Sign.rank]
      · exact difference waits (by simp) (by simp)
    · exact sum waits (by simp)
  | product g =>
    rcases List.mem_append.1 waits with waits | waits
    · exact difference waits (by simp) (by simp)
    · exact sum waits (by simp)
  | minus => exact sum waits (by simp)
  | plus => cases waits

theorem output_attach (f : Frame table) (g : Sign) (x : Phrase table .primary) :
    (f.attach g x).output = f.output ++ x.postorder ++ f.written g := by
  cases g with
  | plus => simp [attach, output, written, postorder_closeSum]
  | minus => simp [attach, output, written, postorder_closeDifference]
  | product g => simp [attach, output, written, postorder_closeProduct]
  | power => simp [attach, output, written, postorder_closeUnary]

theorem stack_attach (f : Frame table) (g : Sign) (x : Phrase table .primary) :
    (f.attach g x).stack = g.symbol :: f.kept g := by
  cases g <;>
    simp [attach, stack, kept, tightStack, productStack, differenceStack, sumStack,
      List.replicate_succ]

/-- Stacking a sign closes the levels of the frame that bind at least as tightly. -/
theorem stackOperator_attach (f : Frame table) (g : Sign) (x : Phrase table .primary)
    (before : List Symbol) {below : List Symbol} (groups : List Group)
    (stops : StopsAt (yields g.symbol) below) :
    stackOperator ⟨before ++ f.output ++ x.postorder, f.stack ++ below, groups, none⟩ g.symbol =
      ⟨before ++ (f.attach g x).output, (f.attach g x).stack ++ below, groups, none⟩ := by
  have waiting : f.stack ++ below = f.written g ++ (f.kept g ++ below) := by
    rw [← List.append_assoc, written_append_kept]
  have pass : ∀ t ∈ f.written g, yields g.symbol t = true := fun t => yields_written
  have stops : StopsAt (yields g.symbol) (f.kept g ++ below) :=
    .append (fun t => not_yields_kept) stops
  rw [stackOperator, waiting, StopsAt.takeWhile_append pass stops,
    StopsAt.dropWhile_append pass stops, output_attach, stack_attach]
  simp

/-- Stacking a negation mark writes nothing. -/
theorem stackOperator_negate (f : Frame table) (output : List Symbol) {below : List Symbol}
    (groups : List Group) (stops : StopsAt (yields .negation) below) :
    stackOperator ⟨output, f.stack ++ below, groups, none⟩ .negation =
      ⟨output, f.negate.stack ++ below, groups, none⟩ := by
  have stops : StopsAt (yields .negation) (f.stack ++ below) := by
    refine .append (fun t waits => ?_) stops
    rcases mem_stack waits with rfl | ⟨g, rfl⟩
    · rfl
    · exact negation_yields g
  have pass : ∀ t ∈ ([] : List Symbol), yields .negation t = true := by simp
  have taken := StopsAt.takeWhile_append pass stops
  have dropped := StopsAt.dropWhile_append pass stops
  rw [List.nil_append] at taken dropped
  have grown : f.negate.stack = .negation :: f.stack := by
    simp [negate, stack, tightStack, productStack, differenceStack, sumStack, List.replicate_succ]
  rw [stackOperator, taken, dropped, grown]
  simp

end Frame

end SymbolicAlgebra
