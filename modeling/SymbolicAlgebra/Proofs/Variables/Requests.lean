/-
  Scopes that serve requests
  ==========================
  A scope is a finite map, whatever has been asked of it before. What a name is bound to
  is told by the requests so far: the value of the last setting that no removal of the
  name follows (`Scope.lastValue`). **`Scope.serve_faithful`** says that every request of
  a run is answered from this map, that the names of the scope are those of the map, each
  counted once, and that a request that fails changes nothing.

  A request names its binding by a text or by a variable. Since the name of a variable is
  read back as the variable, two variables share a binding just if they are the same but
  for their signs.
-/
import Mathlib.Data.Finset.Card
import SymbolicAlgebra.Proofs.Variables.Binding

namespace SymbolicAlgebra

open SymbolicAlgebra.Text

namespace Scope

variable {α : Type}

/-! ### Requests and answers -/

/-- What a request names its binding by: a text, or a variable with a sign. -/
inductive Address where
  | name (text : String)
  | variable (v : Variable) (negative : Bool)
deriving DecidableEq, Repr

/-- The name under which a scope keeps the binding. -/
def Address.key : Address → String
  | .name text => text
  | .variable v _ => v.name

/-- A request to a scope. -/
inductive Request (α : Type) where
  | set (address : Address) (value : α)
  | remove (address : Address)
  | get (address : Address)
  | contains (address : Address)
  | require (address : Address)
deriving Repr

/-- The name that the request is about. -/
def Request.key : Request α → String
  | .set a _ | .remove a | .get a | .contains a | .require a => a.key

/-- What a scope answers. -/
inductive Answer (α : Type) where
  | done
  | removed (wasBound : Bool)
  | found (value : Option α)
  | contained (isBound : Bool)
  | bound (value : α)
deriving DecidableEq, Repr

/-- The answer to a request, and the scope that is left; a failure leaves the scope as it was. -/
def respond (s : Scope α) : Request α → Checked (Answer α) × Scope α
  | .set a value =>
    match s.set a.key value with
    | .ok t => (.ok .done, t)
    | .error cause => (.error cause, s)
  | .remove a =>
    match s.remove a.key with
    | .ok (wasBound, t) => (.ok (.removed wasBound), t)
    | .error cause => (.error cause, s)
  | .get a => ((s.get a.key).map .found, s)
  | .contains a => ((s.contains a.key).map .contained, s)
  | .require a => ((s.require a.key).map .bound, s)

/-- The answers to some requests, one after the other, and the scope that is left. -/
def serve (s : Scope α) : List (Request α) → List (Checked (Answer α)) × Scope α
  | [] => ([], s)
  | r :: rest =>
    let later := (s.respond r).2.serve rest
    ((s.respond r).1 :: later.1, later.2)

/-! ### What is expected of them -/

/-- What the request leaves bound to the name, if it says anything about it. -/
def Request.leaves (name : String) : Request α → Option (Option α)
  | .set a value => if a.key = name then some (some value) else none
  | .remove a => if a.key = name then some none else none
  | .get _ | .contains _ | .require _ => none

/-- The value of the last setting of the name that no removal follows. A text that has not the
form of a variable is never bound. -/
def lastValue (history : List (Request α)) (name : String) : Option α :=
  if isVariableName name then (history.reverse.findSome? (Request.leaves name)).join else none

/-- The answer that the earlier requests lead to. -/
def Request.expected (history : List (Request α)) (r : Request α) : Checked (Answer α) :=
  if isVariableName r.key then
    match r with
    | .set _ _ => .ok .done
    | .remove a => .ok (.removed (lastValue history a.key).isSome)
    | .get a => .ok (.found (lastValue history a.key))
    | .contains a => .ok (.contained (lastValue history a.key).isSome)
    | .require a =>
      match lastValue history a.key with
      | some value => .ok (.bound value)
      | none => .error (.unbound a.key)
  else .error (.configuration (.invalidName r.key))

theorem lastValue_concat (history : List (Request α)) (r : Request α) {name : String}
    (formed : isVariableName name = true) :
    lastValue (history ++ [r]) name =
      match r.leaves name with
      | some left => left
      | none => lastValue history name := by
  rw [lastValue, if_pos formed, List.reverse_append, List.reverse_singleton, List.singleton_append,
    List.findSome?_cons]
  cases r.leaves name with
  | some left => rfl
  | none => rw [lastValue, if_pos formed]

theorem lastValue_unformed (history : List (Request α)) {name : String}
    (unformed : ¬ isVariableName name = true) : lastValue history name = none := by
  rw [lastValue, if_neg unformed]

/-! ### Entries -/

/-- A name is bound just if it is one of the names of the entries. -/
theorem isSome_lookup_iff (entries : List (String × α)) (name : String) :
    (entries.lookup name).isSome = true ↔ name ∈ entries.map Prod.fst := by
  rw [List.lookup_isSome_iff, List.mem_map]
  constructor
  · rintro ⟨entry, inside, same⟩
    exact ⟨entry, inside, (beq_iff_eq.1 same).symm⟩
  · rintro ⟨entry, inside, same⟩
    exact ⟨entry, inside, beq_iff_eq.2 same.symm⟩

/-- Binding a name keeps the names, in their order, and adds the name behind them if it is new. -/
theorem names_bind (name : String) (value : α) (entries : List (String × α)) :
    (bind name value entries).map Prod.fst =
      if name ∈ entries.map Prod.fst then entries.map Prod.fst
      else entries.map Prod.fst ++ [name] := by
  induction entries with
  | nil => rfl
  | cons entry rest ih =>
    rw [bind]
    by_cases first : name = entry.1
    · simp [first]
    · simp only [beq_eq_false_iff_ne.2 first, Bool.false_eq_true, if_false, List.map_cons, ih,
        List.mem_cons, first, false_or]
      split
      · rfl
      · rfl

theorem lookup_filter_self (name : String) (entries : List (String × α)) :
    (entries.filter fun entry => name != entry.1).lookup name = none := by
  rw [List.lookup_eq_none_iff]
  intro entry inside
  exact (List.mem_filter.1 inside).2

/-! ### One request -/

/-- The scope binds what the history says, under names that have the form of a variable and that
stand once among its entries. -/
structure Follows (s : Scope α) (history : List (Request α)) : Prop where
  values : ∀ name, s.lookup name = lastValue history name
  distinct : (s.values.map Prod.fst).Nodup
  formed : ∀ entry ∈ s.values, isVariableName entry.1 = true

namespace Follows

variable {s : Scope α} {history : List (Request α)}

/-- A text that has not the form of a variable is not bound. -/
theorem lookup_unformed (entries : ∀ entry ∈ s.values, isVariableName entry.1 = true)
    {name : String} (unformed : ¬ isVariableName name = true) : s.lookup name = none := by
  rw [lookup, List.lookup_eq_none_iff]
  intro entry inside
  rw [bne_iff_ne]
  rintro rfl
  exact unformed (entries entry inside)

/-- A scope that forgets nothing and adds nothing follows the longer history. -/
theorem quiet (follows : s.Follows history) {r : Request α} (silent : ∀ name, r.leaves name = none) :
    s.Follows (history ++ [r]) := by
  refine ⟨?_, follows.distinct, follows.formed⟩
  intro name
  by_cases formed : isVariableName name = true
  · rw [lastValue_concat history r formed, silent name]
    exact follows.values name
  · rw [lastValue_unformed _ formed]
    exact lookup_unformed follows.formed formed

/-- A request about a text that has not the form of a variable says nothing that counts. -/
theorem refused (follows : s.Follows history) {r : Request α}
    (unformed : ¬ isVariableName r.key = true) : s.Follows (history ++ [r]) := by
  refine ⟨?_, follows.distinct, follows.formed⟩
  intro name
  by_cases formed : isVariableName name = true
  · have apart : r.key ≠ name := by
      rintro rfl
      exact unformed formed
    have silent : r.leaves name = none := by
      cases r <;> simp_all [Request.leaves, Request.key]
    rw [lastValue_concat history r formed, silent]
    exact follows.values name
  · rw [lastValue_unformed _ formed]
    exact lookup_unformed follows.formed formed

theorem set (follows : s.Follows history) (a : Address) (value : α)
    (named : isVariableName a.key = true) :
    ({ s with values := bind a.key value s.values } : Scope α).Follows
      (history ++ [.set a value]) := by
  have entries : ∀ entry ∈ bind a.key value s.values, isVariableName entry.1 = true := by
    intro entry inside
    have listed : entry.1 ∈ (bind a.key value s.values).map Prod.fst := List.mem_map_of_mem inside
    have earlier : ∀ name ∈ s.values.map Prod.fst, isVariableName name = true := by
      intro name member
      obtain ⟨old, stored, rfl⟩ := List.mem_map.1 member
      exact follows.formed old stored
    rw [names_bind] at listed
    split at listed
    · exact earlier _ listed
    · rcases List.mem_append.1 listed with old | new
      · exact earlier _ old
      · rwa [List.mem_singleton.1 new]
  refine ⟨?_, ?_, entries⟩
  · intro name
    by_cases formed : isVariableName name = true
    · rw [lastValue_concat history _ formed, lookup, lookup_bind, Request.leaves]
      by_cases same : a.key = name
      · rw [if_pos (beq_iff_eq.2 same.symm), if_pos same]
      · rw [if_neg fun found => same (beq_iff_eq.1 found).symm, if_neg same]
        exact follows.values name
    · rw [lastValue_unformed _ formed]
      exact lookup_unformed entries formed
  · show ((bind a.key value s.values).map Prod.fst).Nodup
    rw [names_bind]
    split
    · exact follows.distinct
    · rename_i new
      rw [← List.concat_eq_append]
      exact follows.distinct.concat new

theorem remove (follows : s.Follows history) (a : Address) :
    ({ s with values := s.values.filter fun entry => a.key != entry.1 } : Scope α).Follows
      (history ++ [.remove a]) := by
  have entries : ∀ entry ∈ s.values.filter fun entry => a.key != entry.1,
      isVariableName entry.1 = true := by
    intro entry inside
    exact follows.formed entry (List.mem_filter.1 inside).1
  refine ⟨?_, ?_, entries⟩
  · intro name
    by_cases formed : isVariableName name = true
    · rw [lastValue_concat history _ formed, lookup, Request.leaves]
      by_cases same : a.key = name
      · rw [if_pos same, same]
        exact lookup_filter_self name s.values
      · rw [if_neg same, lookup_filter (Ne.symm same)]
        exact follows.values name
    · rw [lastValue_unformed _ formed]
      exact lookup_unformed entries formed
  · exact follows.distinct.sublist (List.filter_sublist.map Prod.fst)

/-- A request is answered from the history, and the scope follows the longer history. -/
theorem respond (follows : s.Follows history) (r : Request α) :
    (s.respond r).1 = r.expected history ∧ (s.respond r).2.Follows (history ++ [r]) := by
  by_cases named : isVariableName r.key = true
  · have checked : checkedName r.key = .ok r.key := by rw [checkedName, if_pos named]
    cases r with
    | set a value =>
      rw [Request.key] at checked named
      rw [Scope.respond, Scope.set, checked, Request.expected, Request.key, if_pos named]
      exact ⟨rfl, follows.set a value named⟩
    | remove a =>
      rw [Request.key] at checked named
      rw [Scope.respond, Scope.remove, checked, Request.expected, Request.key, if_pos named,
        ← follows.values a.key]
      exact ⟨rfl, follows.remove a⟩
    | get a =>
      rw [Request.key] at checked named
      rw [Scope.respond, Scope.get, checked, Request.expected, Request.key, if_pos named,
        ← follows.values a.key]
      exact ⟨rfl, follows.quiet fun name => rfl⟩
    | contains a =>
      rw [Request.key] at checked named
      rw [Scope.respond, Scope.contains, checked, Request.expected, Request.key, if_pos named,
        ← follows.values a.key]
      exact ⟨rfl, follows.quiet fun name => rfl⟩
    | require a =>
      rw [Request.key] at checked named
      rw [Scope.respond, Scope.require, checked, Request.expected, Request.key, if_pos named,
        ← follows.values a.key]
      refine ⟨?_, follows.quiet fun name => rfl⟩
      show Except.map _ (match s.lookup a.key with | some value => _ | none => _) = _
      cases s.lookup a.key with
      | some value => rfl
      | none => rfl
  · have kept : s.respond r = (.error (.configuration (.invalidName r.key)), s) := by
      have refused : checkedName r.key = .error (.configuration (.invalidName r.key)) := by
        rw [checkedName, if_neg named]
      cases r with
      | set a value => rw [Request.key] at refused; rw [Scope.respond, Scope.set, refused]; rfl
      | remove a => rw [Request.key] at refused; rw [Scope.respond, Scope.remove, refused]; rfl
      | get a => rw [Request.key] at refused; rw [Scope.respond, Scope.get, refused]; rfl
      | contains a => rw [Request.key] at refused; rw [Scope.respond, Scope.contains, refused]; rfl
      | require a => rw [Request.key] at refused; rw [Scope.respond, Scope.require, refused]; rfl
    rw [kept]
    refine ⟨?_, follows.refused named⟩
    unfold Request.expected
    rw [if_neg named]

/-! ### A run -/

/-- The answers of a run are those that the history leads to, and the scope follows the run. -/
theorem serve (follows : s.Follows history) (requests : List (Request α)) :
    (∀ i : Nat, (s.serve requests).1[i]? =
      requests[i]?.map (Request.expected (history ++ requests.take i))) ∧
      (s.serve requests).2.Follows (history ++ requests) := by
  induction requests generalizing s history with
  | nil =>
    rw [List.append_nil]
    exact ⟨fun i => rfl, follows⟩
  | cons r rest ih =>
    obtain ⟨answer, next⟩ := follows.respond r
    obtain ⟨answers, final⟩ := ih next
    rw [List.append_assoc] at final
    refine ⟨?_, final⟩
    intro i
    cases i with
    | zero =>
      rw [List.take_zero, List.append_nil]
      exact congrArg some answer
    | succ i =>
      have later := answers i
      rw [List.append_assoc] at later
      exact later

/-- The scope that some bindings make follows their settings. -/
theorem ofList {bindings : List (String × α)} {collapse : Bool}
    (made : Scope.ofList bindings collapse = .ok s) :
    s.Follows (bindings.map fun binding => .set (.name binding.1) binding.2) := by
  have settings : ∀ (start : Scope α) (past : List (Request α)), start.Follows past →
      bindings.foldlM (fun s binding => s.set binding.1 binding.2) start = .ok s →
      s.Follows (past ++ bindings.map fun binding => .set (.name binding.1) binding.2) := by
    clear made
    induction bindings with
    | nil =>
      intro start past follows made
      obtain rfl : start = s := Except.ok.inj made
      rwa [List.map_nil, List.append_nil]
    | cons binding rest ih =>
      intro start past follows made
      rw [List.foldlM_cons] at made
      obtain ⟨next, bound, remaining⟩ := bind_eq_ok.1 made
      have step := (follows.respond (.set (.name binding.1) binding.2)).2
      rw [Scope.respond, Address.key, bound] at step
      have whole := ih next _ step remaining
      rwa [List.append_assoc] at whole
  have empty : (⟨[], collapse⟩ : Scope α).Follows [] := by
    refine ⟨?_, List.nodup_nil, ?_⟩
    · intro name
      rw [lastValue]
      split
      · rfl
      · rfl
    · intro entry inside
      cases inside
  exact settings _ [] empty made

/-- The entries are counted by the names that the history binds. -/
theorem size (follows : s.Follows history) :
    ∃ names : Finset String,
      (∀ name, name ∈ names ↔ (lastValue history name).isSome = true) ∧ s.size = names.card := by
  refine ⟨(s.values.map Prod.fst).toFinset, ?_, ?_⟩
  · intro name
    rw [List.mem_toFinset, ← isSome_lookup_iff, ← follows.values name, lookup]
  · rw [List.toFinset_card_of_nodup follows.distinct, List.length_map, Scope.size]

end Follows

/-- A request that fails leaves the scope as it was. -/
theorem respond_error {s : Scope α} {r : Request α} {cause : Failure}
    (failed : (s.respond r).1 = .error cause) : (s.respond r).2 = s := by
  cases r with
  | set a value =>
    rw [respond] at failed ⊢
    cases bound : s.set a.key value with
    | ok t => simp [bound] at failed
    | error other => rfl
  | remove a =>
    rw [respond] at failed ⊢
    cases removed : s.remove a.key with
    | ok answer => simp [removed] at failed
    | error other => rfl
  | get a => rfl
  | contains a => rfl
  | require a => rfl

/-- Two variables have one name just if their letters and their subscripts agree. -/
theorem key_variable_iff {v w : Variable} (first : isLetter v.letter = true)
    (second : isLetter w.letter = true) (p q : Bool) :
    (Address.variable v p).key = (Address.variable w q).key ↔
      v.letter = w.letter ∧ v.subscript = w.subscript := by
  constructor
  · intro same
    have named : v.name = w.name := same
    have read := Variable.ofName?_name first
    rw [named, Variable.ofName?_name second] at read
    obtain rfl : w = v := Except.ok.inj read
    exact ⟨rfl, rfl⟩
  · rintro ⟨letters, subscripts⟩
    obtain ⟨c, k⟩ := v
    obtain rfl : c = w.letter := letters
    obtain rfl : k = w.subscript := subscripts
    rfl

/-- A scope is a finite map over every run. Each request is answered from the last setting of its
name that no removal follows, the names of the scope are those that the requests leave bound, all
of them have the form of a variable and each is counted once, and a request that fails changes
nothing. The name of a variable is read back as the variable, so that two variables share a
binding just if they have the same letter and the same subscript. -/
theorem serve_faithful {bindings : List (String × α)} {collapse : Bool} {s : Scope α}
    (made : ofList bindings collapse = .ok s) (requests : List (Request α)) :
    let history := bindings.map (fun binding => .set (.name binding.1) binding.2) ++ requests
    let t := (s.serve requests).2
    (∀ i : Nat, (s.serve requests).1[i]? =
      requests[i]?.map (Request.expected (history.take (bindings.length + i)))) ∧
    (∀ name, t.lookup name = lastValue history name) ∧
    (∃ names : Finset String,
      (∀ name, name ∈ names ↔ (lastValue history name).isSome = true) ∧ t.size = names.card) ∧
    (∀ entry ∈ t.values, isVariableName entry.1 = true) ∧
    (∀ r cause, (t.respond r).1 = .error cause → (t.respond r).2 = t) ∧
    (∀ v : Variable, v.letter.isAlpha = true → ∀ p, isVariableName (Address.variable v p).key = true) ∧
    (∀ v : Variable, isLetter v.letter = true → Variable.ofName? v.name = .ok v) ∧
    ∀ v w : Variable, isLetter v.letter = true → isLetter w.letter = true → ∀ p q,
      ((Address.variable v p).key = (Address.variable w q).key ↔
        v.letter = w.letter ∧ v.subscript = w.subscript) := by
  intro history t
  have start := Follows.ofList made
  obtain ⟨answers, final⟩ := start.serve requests
  have named : ∀ v : Variable, v.letter.isAlpha = true → ∀ p,
      isVariableName (Address.variable v p).key = true := by
    intro v letter p
    exact (Variable.name_spec letter).1
  refine ⟨?_, final.values, final.size, final.formed, ?_, named, ?_, ?_⟩
  · intro i
    have past : history.take (bindings.length + i) =
        bindings.map (fun binding => .set (.name binding.1) binding.2) ++ requests.take i := by
      rw [List.take_append, List.length_map, List.take_of_length_le (by simp)]
      simp
    rw [past]
    exact answers i
  · intro r cause failed
    exact respond_error failed
  · intro v letter
    exact Variable.ofName?_name letter
  · intro v w first second p q
    exact key_variable_iff first second p q

/-- A variable with a sign, its name as a text, a name that was removed and a text that
is no name. -/
theorem serve_faithful_run :
    let s : Scope Int := ⟨[("x", 2)], false⟩
    let requests : List (Request Int) :=
      [.set (.variable ⟨'y', 3⟩ true) 5, .get (.name "y_3"), .remove (.name "x"),
        .require (.variable ⟨'x', 0⟩ false), .set (.name "7") 1]
    ofList [("x", 2)] false = .ok s ∧
      (s.serve requests).1[1]? = some (.ok (.found (some 5))) ∧
      (s.serve requests).1[2]? = some (.ok (.removed true)) ∧
      (s.serve requests).1[3]? = some (.error (.unbound "x")) ∧
      (s.serve requests).1[4]? = some (.error (.configuration (.invalidName "7"))) ∧
      (s.serve requests).2.lookup "x" = none ∧
      Variable.ofName? (⟨'y', 3⟩ : Variable).name = .ok ⟨'y', 3⟩ := by
  intro s requests
  have formed : isVariableName "x" = true := by decide +kernel
  have made : ofList [("x", 2)] false = .ok s := by
    rw [ofList, List.foldlM_cons, Scope.set, checkedName, if_pos formed]
    rfl
  obtain ⟨answers, values, -, -, -, -, named, -⟩ := serve_faithful made requests
  refine ⟨made, ?_, ?_, ?_, ?_, ?_, named _ (by decide +kernel)⟩
  · exact (answers 1).trans (by decide +kernel)
  · exact (answers 2).trans (by decide +kernel)
  · exact (answers 3).trans (by decide +kernel)
  · exact (answers 4).trans (by decide +kernel)
  · exact (values "x").trans (by decide +kernel)

end Scope

end SymbolicAlgebra
