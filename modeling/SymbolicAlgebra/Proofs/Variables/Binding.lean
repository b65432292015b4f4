/-
  Bindings and the names of variables
  ===================================
  A scope keeps a binding under the text it is made with, and a variable looks it up
  under its own name. The two are the same text when the name is *plain*: a letter
  alone, or with a subscript in ASCII digits that does not start with a zero
  (**`Variable.name_eq_iff`**). A binding made under a plain name is seen by the
  variable that is read from the name, any other binding is not
  (**`ParserSettings.evaluate_named`**): `x_0` is the variable `x`.

  A scope also accepts a name that ends in a line feed, which an assignment loses.
-/
import Mathlib.Data.List.Induction
import SymbolicAlgebra.Proofs.Printing.Rereading
import SymbolicAlgebra.Proofs.Value.Rational

namespace SymbolicAlgebra

open SymbolicAlgebra.Text

/-- Whether the text is the name that a variable is written by. -/
def isPlainName (text : String) : Bool :=
  match text.toList with
  | [c] => c.isAlpha
  | c :: '_' :: d :: digits => c.isAlpha && d != '0' && (d :: digits).all Char.isDigit
  | _ => false

/-! ### Numbers and their digits -/

/-- The digits of a positive number do not start with a zero. -/
theorem Decimal.head_toDigits {n : Nat} (positive : 0 < n) : (Nat.toDigits 10 n).head? ≠ some '0' := by
  induction n using Nat.strongRecOn with
  | ind n ih =>
    rw [Nat.toDigits_eq_if (by decide)]
    split
    · rename_i small
      have nonzero : ∀ k < 10, 0 < k → Nat.digitChar k ≠ '0' := by decide
      rw [List.head?_cons, Ne, Option.some_inj]
      exact nonzero n small positive
    · rename_i large
      rw [List.head?_append, Option.or_of_isSome (by simp [Nat.toDigits_ne_nil])]
      exact ih (n / 10) (Nat.div_lt_self positive (by decide)) (by omega)

theorem Decimal.ofDigits_append (ds : List Char) (d : Char) :
    ofDigits (ds ++ [d]) = 10 * ofDigits ds + (digitValue? d).getD 0 := by
  rw [ofDigits, List.foldl_append]
  rfl

/-- Digits that do not start with a zero are those of the number they write. -/
theorem Decimal.toDigits_ofDigits {ds : List Char} (some_digit : ds ≠ [])
    (ascii : ∀ d ∈ ds, d.isDigit = true) (head : ds.head? ≠ some '0') :
    Nat.toDigits 10 (ofDigits ds) = ds ∧ 0 < ofDigits ds := by
  have digit : ∀ d : Char, d.isDigit = true →
      ∃ k < 10, (digitValue? d).getD 0 = k ∧ Nat.digitChar k = d := by
    intro d hd
    have range : 48 ≤ d.toNat ∧ d.toNat ≤ 57 := by
      simpa [Char.isDigit, UInt32.le_iff_toNat_le] using hd
    refine ⟨d.toNat - 48, by omega, by rw [digitValue?_of_isDigit hd]; rfl, ?_⟩
    have all : ∀ k < 10, Nat.digitChar k = Char.ofNat (48 + k) := by decide
    rw [all _ (by omega), show 48 + (d.toNat - 48) = d.toNat by omega, Char.ofNat_toNat]
  induction ds using List.reverseRecOn with
  | nil => exact absurd rfl some_digit
  | append_singleton ds d ih =>
    obtain ⟨k, small, value, char⟩ := digit d (ascii d (by simp))
    rw [ofDigits_append, value]
    by_cases first : ds = []
    · subst first
      have nonzero : k ≠ 0 := by
        rintro rfl
        exact head (by rw [← char]; rfl)
      show Nat.toDigits 10 (10 * 0 + k) = [d] ∧ 0 < 10 * 0 + k
      rw [Nat.mul_zero, Nat.zero_add, Nat.toDigits_of_lt_base small, char]
      exact ⟨rfl, by omega⟩
    · obtain ⟨same, positive⟩ := ih first (fun c hc => ascii c (by simp [hc])) (by
        rwa [List.head?_append, Option.or_of_isSome (by simpa using first)] at head)
      rw [← Nat.toDigits_append_toDigits (by decide) positive small, same,
        Nat.toDigits_of_lt_base small, char]
      exact ⟨rfl, by omega⟩

/-! ### Names -/

/-- A letter alone, or with an underscore and decimal digits. -/
def NameShape (cs : List Char) : Prop :=
  (∃ c, c.isAlpha = true ∧ cs = [c]) ∨
    ∃ c digits, c.isAlpha = true ∧ digits ≠ [] ∧ (∀ d ∈ digits, isDecimal d = true) ∧
      cs = c :: '_' :: digits

theorem NameShape.visible {cs : List Char} (h : NameShape cs) :
    ∀ c ∈ cs, isBlank c = false := by
  rcases h with ⟨c, alpha, rfl⟩ | ⟨c, digits, alpha, -, decimals, rfl⟩
  · exact List.forall_mem_singleton.2 (Phrase.plain_of_isAlpha alpha).2.1
  · refine List.forall_mem_cons.2 ⟨(Phrase.plain_of_isAlpha alpha).2.1, ?_⟩
    exact List.forall_mem_cons.2 ⟨by decide, fun d hd => not_isBlank_of_isDecimal (decimals d hd)⟩

theorem NameShape.single {cs : List Char} (h : NameShape cs) : '\n' ∉ cs := by
  intro inside
  exact absurd (h.visible '\n' inside) (by decide)

/-- A name is a letter with or without a subscript, and at most a line feed behind it. -/
theorem shape_of_isVariableName {name : String} (formed : isVariableName name = true) :
    ∃ cs, NameShape cs ∧ (name.toList = cs ∨ name.toList = cs ++ ['\n']) := by
  have ending : name.toList = withoutLineEnd name.toList ∨
      name.toList = withoutLineEnd name.toList ++ ['\n'] := by
    unfold withoutLineEnd
    split
    · rename_i last
      exact .inr (List.dropLast_append_getLast? _ last).symm
    · exact .inl rfl
  refine ⟨_, ?_, ending⟩
  unfold isVariableName at formed
  split at formed
  · rename_i c spelled
    exact .inl ⟨c, formed, spelled⟩
  · rename_i c digits spelled
    simp only [Bool.and_eq_true, Bool.not_eq_true', List.isEmpty_eq_false_iff,
      List.all_eq_true] at formed
    exact .inr ⟨c, digits, formed.1.1, formed.1.2, formed.2, spelled⟩
  · cases formed

theorem isVariableName_of_shape {name : String} (shape : NameShape name.toList) :
    isVariableName name = true := by
  rw [isVariableName, withoutLineEnd_eq_self shape.single]
  rcases shape with ⟨c, alpha, spelled⟩ | ⟨c, digits, alpha, some_digit, decimals, spelled⟩
  · rw [spelled]
    exact alpha
  · rw [spelled]
    simpa [alpha, some_digit] using decimals

/-- A text is the name of the variable that is read from it just if it is plain. -/
theorem Variable.name_eq_iff {name : String} (shape : NameShape name.toList) {v : Variable}
    (read : ofName? name = .ok v) : v.name = name ↔ isPlainName name = true := by
  rcases shape with ⟨c, alpha, shape⟩ | ⟨c, digits, alpha, some_digit, decimals, shape⟩
  · obtain rfl : name = String.singleton c := by
      rw [← String.toList_inj, shape, String.toList_singleton]
    have named := ofName?_letter (isLetter_of_isAlpha alpha)
    obtain rfl : ⟨c, 0⟩ = v := Except.ok.inj (named.symm.trans read)
    simp [isPlainName, Variable.name, alpha]
  · obtain rfl : name = String.ofList (c :: '_' :: digits) := by
      rw [← String.toList_inj, shape, String.toList_ofList]
    have named := ofName?_subscript (isLetter_of_isAlpha alpha) some_digit decimals
    obtain rfl : ⟨c, Decimal.ofDigits digits⟩ = v := Except.ok.inj (named.symm.trans read)
    obtain ⟨d, ds, rfl⟩ := List.exists_cons_of_ne_nil some_digit
    have plain : isPlainName (String.ofList (c :: '_' :: d :: ds)) = true ↔
        d ≠ '0' ∧ ∀ x ∈ d :: ds, x.isDigit = true := by
      simp [isPlainName, alpha]
    rw [plain, Variable.name]
    dsimp only
    constructor
    · intro same
      split at same
      · simpa using congrArg (fun text => text.toList.length) same
      · rename_i positive
        have written : Nat.toDigits 10 (Decimal.ofDigits (d :: ds)) = d :: ds := by
          simpa using String.ofList_inj.1 same
        constructor
        · rintro rfl
          exact Decimal.head_toDigits (Nat.pos_of_ne_zero positive) (by rw [written]; rfl)
        · intro x hx
          rw [← written] at hx
          exact Nat.isDigit_of_mem_toDigits (by decide) (by decide) hx
    · rintro ⟨head, ascii⟩
      obtain ⟨written, positive⟩ := Decimal.toDigits_ofDigits some_digit ascii (by simpa using head)
      rw [if_neg (by omega), written]

/-! ### What a parser reads of a name -/

/-- The name without what ends it, as a text and as an assignment are read. -/
theorem compact_name {name : String} (formed : isVariableName name = true) :
    NameShape (compact name.toList) ∧ trim name.toList = compact name.toList := by
  obtain ⟨cs, shape, ending⟩ := shape_of_isVariableName formed
  have visible := shape.visible
  have kept : compact cs = cs := compact_eq_self visible
  rcases ending with same | same
  · rw [same, kept]
    exact ⟨shape, trimWhere_eq_self visible⟩
  · have dropped : compact (cs ++ ['\n']) = cs := by
      rw [compact, List.filter_append, ← compact, kept]
      exact List.append_nil cs
    have front : (cs ++ ['\n']).dropWhile isBlank = cs ++ ['\n'] := by
      rcases shape with ⟨c, -, rfl⟩ | ⟨c, digits, -, -, -, rfl⟩ <;>
        exact List.dropWhile_cons_of_neg (by rw [visible c List.mem_cons_self]; exact Bool.false_ne_true)
    have back : cs.reverse.dropWhile isBlank = cs.reverse :=
      List.dropWhile_eq_self_iff.2 fun nonempty => by
        rw [visible _ (List.mem_reverse.1 (List.getElem_mem nonempty))]
        exact Bool.false_ne_true
    rw [same, dropped, trim, trimWhere, front, List.reverse_append]
    refine ⟨shape, ?_⟩
    show (cs.reverse.dropWhile isBlank).reverse = cs
    rw [back, List.reverse_reverse]

/-- Blanks make no difference to the symbols of a text. -/
theorem ParserSettings.symbols_compact (settings : ParserSettings) (text : String) :
    settings.symbols (String.ofList (compact text.toList)) = settings.symbols text := by
  have again : compact (compact text.toList) = compact text.toList :=
    compact_eq_self fun c hc => not_isBlank_of_mem_compact hc
  unfold symbols Token.tokenize
  rw [String.toList_ofList, again]

variable {α : Type} [Scalar α]

/-- A name is read as the variable it names. -/
theorem ParserSettings.parse_name {name : String} (formed : isVariableName name = true)
    (other : Constant.ofSymbol? (String.ofList (compact name.toList)) = none) :
    ∃ v : Variable, v.letter.isAlpha = true ∧
      Variable.ofName? (String.ofList (compact name.toList)) = .ok v ∧
        ({} : ParserSettings).parse name = .ok (.var v false : Node α) := by
  obtain ⟨shape, -⟩ := compact_name formed
  have lexed := ({} : ParserSettings).symbols_compact name
  generalize compact name.toList = cs at other shape lexed ⊢
  have named : NameShape (String.ofList cs).toList := by rwa [String.toList_ofList]
  have written := isVariableName_of_shape named
  obtain ⟨v, read⟩ := Variable.ofName?_ok written named.single
  have letter := Variable.letter_of_ofName? written read
  have spelled : (Phrase.operand ⟨String.ofList cs⟩ (Phrase.isOperand_name written) :
      Phrase .round .primary).Spelled false (String.ofList cs) :=
    Phrase.spelled_variable written named.single
  let p : Phrase .round .sum := .ofDifference (.ofProduct (.ofPower (.ofUnary (.ofPrimary
    (.operand ⟨String.ofList cs⟩ (Phrase.isOperand_name written))))))
  have node : p.node α = .ok (.var v false) := by
    have numeral : (⟨String.ofList cs⟩ : Symbol).numeral? = none := by
      obtain ⟨c, run, start, alpha⟩ : ∃ c run, (String.ofList cs).toList = c :: run ∧
          c.isAlpha = true := by
        rcases named with ⟨c, alpha, same⟩ | ⟨c, digits, alpha, -, -, same⟩
        · exact ⟨c, _, same, alpha⟩
        · exact ⟨c, _, same, alpha⟩
      exact Symbol.numeral?_of_isAlpha start alpha named.single
    have named : (⟨String.ofList cs⟩ : Symbol).isVariable = true := by
      rw [Symbol.isVariable, Symbol.isConstant, written, other]
      rfl
    show Symbol.toOperand ⟨String.ofList cs⟩ = _
    rw [Symbol.toOperand, numeral, other]
    dsimp only
    rw [if_pos named, read]
    rfl
  refine ⟨v, letter, read, ?_⟩
  rw [parse_phrase (p := p) (by decide) rfl (lexed ▸ spelled.symbols_eq), node]
  rfl

/-! ### What a variable sees of a binding -/

theorem shape_of_isPlainName {name : String} (plain : isPlainName name = true) :
    NameShape name.toList := by
  unfold isPlainName at plain
  split at plain
  · rename_i c spelled
    exact .inl ⟨c, plain, spelled⟩
  · rename_i c d digits spelled
    simp only [Bool.and_eq_true, List.all_eq_true] at plain
    refine .inr ⟨c, d :: digits, plain.1.1, List.cons_ne_nil d digits, fun x hx => ?_, spelled⟩
    rw [isDecimal, digitValue?_of_isDigit (plain.2 x hx)]
    rfl
  · cases plain

/-- A variable has the name it is read from just if the name is plain, which no line feed ends. -/
theorem Variable.name_of_compact {name : String} (formed : isVariableName name = true) {v : Variable}
    (letter : v.letter.isAlpha = true)
    (read : ofName? (String.ofList (compact name.toList)) = .ok v) :
    v.name = name ↔ isPlainName name = true := by
  have whole : NameShape name.toList → (v.name = name ↔ isPlainName name = true) := by
    intro shape
    rw [compact_eq_self shape.visible, String.ofList_toList] at read
    exact name_eq_iff shape read
  constructor
  · intro same
    obtain ⟨cs, shape, ending⟩ := shape_of_isVariableName formed
    have single := (name_spec letter).2.1
    rw [same] at single
    rcases ending with spelled | spelled
    · exact (whole (by rwa [spelled])).1 same
    · exact absurd (by rw [spelled]; simp) single
  · intro plain
    exact (whole (shape_of_isPlainName plain)).2 plain

/-- A variable in a scope with one binding. -/
theorem Node.evaluate_single {v : Variable} (letter : v.letter.isAlpha = true) (key : String)
    (value : α) (collapse : Bool) :
    (Node.var v false).evaluate (some ⟨[(key, value)], collapse⟩) =
      .ok (if v.name = key then Node.ofValue value else .var v false) := by
  obtain ⟨formed, -, -⟩ := Variable.name_spec letter
  have found : Scope.get ⟨[(key, value)], collapse⟩ v.name =
      .ok (if v.name = key then some value else none) := by
    rw [Scope.get, Scope.checkedName, if_pos formed]
    show Except.ok ([(key, value)].lookup v.name) = _
    by_cases same : v.name = key
    · simp [same]
    · simp [same]
  rw [evaluate, evaluatedVariable, found]
  split
  · rfl
  · rfl

omit [Scalar α] in
/-- The name and the value of an assignment are those it is put together from. -/
theorem Scope.assignment_append {read : String → Option α} {name text : String} {value : α}
    (formed : isVariableName name = true) (written : read text = some value) :
    Scope.assignment read (name ++ "=" ++ text) =
      .ok (String.ofList (compact name.toList), value) := by
  obtain ⟨cs, shape, ending⟩ := shape_of_isVariableName formed
  have apart : ∀ c ∈ name.toList, (c != '=') = true := by
    have inside : ∀ c ∈ cs, (c != '=') = true := by
      have letters : ∀ c : Char, c.isAlpha = true → (c != '=') = true := by
        intro c alpha
        rw [bne_iff_ne]
        rintro rfl
        exact absurd alpha (by decide)
      rcases shape with ⟨c, alpha, rfl⟩ | ⟨c, digits, alpha, -, decimals, rfl⟩
      · exact List.forall_mem_singleton.2 (letters c alpha)
      · refine List.forall_mem_cons.2 ⟨letters c alpha, List.forall_mem_cons.2 ⟨by decide, ?_⟩⟩
        exact fun d hd => bne_iff_ne.2 (isDecimal_ne (decimals d hd) (by decide))
    rcases ending with spelled | spelled
    · rwa [spelled]
    · rw [spelled]
      exact List.forall_mem_append.2 ⟨inside, List.forall_mem_singleton.2 (by decide)⟩
  have split : (name ++ "=" ++ text).toList = name.toList ++ '=' :: text.toList := by
    simp
  unfold Scope.assignment
  dsimp only
  rw [split, List.takeWhile_append_of_pos apart, List.dropWhile_append_of_pos apart]
  simp only [List.takeWhile_cons, List.dropWhile_cons, bne_self_eq_false, Bool.false_eq_true,
    if_false, List.append_nil, String.ofList_toList, written, (compact_name formed).2]

/-- A text with the form of a variable that is no constant is read as a variable. A binding that is
made under the text, or by an assignment to it, is the value of the variable if the text is the
plain name, the line feed aside that an assignment drops; else the variable stays as it is. -/
theorem ParserSettings.evaluate_named {name text : String} {value : α}
    (formed : isVariableName name = true)
    (other : Constant.ofSymbol? (String.ofList (compact name.toList)) = none)
    {read : String → Option α} (written : read text = some value) (collapse : Bool) :
    ∃ (v : Variable) (s t : Scope α),
      ({} : ParserSettings).parse name = .ok (.var v false : Node α) ∧
      Scope.ofList [(name, value)] collapse = .ok s ∧
      Scope.ofAssignments read [name ++ "=" ++ text] collapse = .ok t ∧
      (Node.var v false).evaluate (some s) =
        .ok (if isPlainName name then Node.ofValue value else .var v false) ∧
      (Node.var v false).evaluate (some t) =
        .ok (if isPlainName (String.ofList (compact name.toList)) then Node.ofValue value
          else .var v false) := by
  obtain ⟨v, letter, named, parsed⟩ := parse_name (α := α) formed other
  obtain ⟨shape, -⟩ := compact_name formed
  have bare : isVariableName (String.ofList (compact name.toList)) = true :=
    isVariableName_of_shape (by rwa [String.toList_ofList])
  refine ⟨v, ⟨[(name, value)], collapse⟩,
    ⟨[(String.ofList (compact name.toList), value)], collapse⟩, parsed, ?_, ?_, ?_, ?_⟩
  · rw [Scope.ofList, List.foldlM_cons, Scope.set, Scope.checkedName, if_pos formed]
    rfl
  · rw [Scope.ofAssignments, List.foldlM_cons, Scope.assignment_append formed written]
    show (Scope.set _ _ value >>= _) = _
    rw [Scope.set, Scope.checkedName, if_pos bare]
    rfl
  · rw [Node.evaluate_single letter]
    exact congrArg Except.ok (if_congr (Variable.name_of_compact formed letter named) rfl rfl)
  · rw [Node.evaluate_single letter]
    refine congrArg Except.ok (if_congr (Variable.name_of_compact bare letter ?_) rfl rfl)
    rw [String.toList_ofList, compact_eq_self shape.visible]
    exact named

/-- The subscript twelve, with a line feed behind it. -/
theorem ParserSettings.evaluate_named_subscript :
    let read : String → Option ℚ := fun text => if text = "7/2" then some (7 / 2) else none
    isVariableName "x_12\n" = true ∧
      Constant.ofSymbol? (String.ofList (compact "x_12\n".toList)) = none ∧
      read "7/2" = some (7 / 2) ∧
      ∃ (v : Variable) (s t : Scope ℚ),
        ({} : ParserSettings).parse "x_12\n" = .ok (.var v false : Node ℚ) ∧
        Scope.ofList [("x_12\n", 7 / 2)] false = .ok s ∧
        Scope.ofAssignments read ["x_12\n" ++ "=" ++ "7/2"] false = .ok t ∧
        (Node.var v false).evaluate (some s) =
          .ok (if isPlainName "x_12\n" then Node.ofValue (7 / 2) else .var v false) ∧
        (Node.var v false).evaluate (some t) =
          .ok (if isPlainName (String.ofList (compact "x_12\n".toList)) then Node.ofValue (7 / 2)
            else .var v false) := by
  intro read
  have formed : isVariableName "x_12\n" = true := by decide +kernel
  have other : Constant.ofSymbol? (String.ofList (compact "x_12\n".toList)) = none := by
    decide +kernel
  exact ⟨formed, other, if_pos rfl, evaluate_named formed other (if_pos rfl) false⟩

/-- A subscript of zero is a name of its own to a scope, but none to a variable. -/
theorem ParserSettings.evaluate_named_zero :
    ∃ s : Scope ℚ, Scope.ofList [("x_0", 2)] false = .ok s ∧
      ∃ n : Node ℚ, ({} : ParserSettings).parse "x_0" = .ok n ∧
        n.evaluate (some s) = .ok (.var ⟨'x', 0⟩ false) ∧
        n.evaluate (some s) ≠ .ok (Node.ofValue 2) := by
  have formed : isVariableName "x_0" = true := by decide +kernel
  obtain ⟨v, -, named, parsed⟩ := parse_name (α := ℚ) formed (by decide +kernel)
  obtain rfl : ⟨'x', 0⟩ = v := by
    have subscript : Variable.ofName? (String.ofList (compact "x_0".toList)) = .ok ⟨'x', 0⟩ := by
      decide +kernel
    exact Except.ok.inj (subscript.symm.trans named)
  have unbound := Node.evaluate_single (α := ℚ) (v := ⟨'x', 0⟩) (by decide) "x_0" 2 false
  rw [if_neg (by decide)] at unbound
  refine ⟨⟨[("x_0", 2)], false⟩, ?_, _, parsed, unbound, ?_⟩
  · rw [Scope.ofList, List.foldlM_cons, Scope.set, Scope.checkedName, if_pos formed]
    rfl
  · rw [unbound]
    intro same
    cases Except.ok.inj same

end SymbolicAlgebra
