/-
  Scopes
  ======
  The values bound to variables. A scope is a finite map from names to numbers in
  the order in which the names were first bound. Names are checked: a letter from
  `a` to `z` of either case, alone or with an underscore and digits.
-/
import SymbolicAlgebra.Failure
import SymbolicAlgebra.Variable

namespace SymbolicAlgebra

open SymbolicAlgebra.Text

/-- Values bound to names, and whether evaluation replaces constants by their values. -/
structure Scope (α : Type) where
  values : List (String × α) := []
  collapseConstants : Bool := false
deriving Repr

namespace Scope

variable {α : Type}

/-- The name itself if it has the form of a variable. -/
def checkedName (name : String) : Checked String :=
  if isVariableName name then .ok name else .error (.configuration (.invalidName name))

/-- The value of a name, whatever its form. -/
def lookup (s : Scope α) (name : String) : Option α := s.values.lookup name

/-- Binds a name, in the place where it already stands or behind all others. -/
def bind (name : String) (value : α) : List (String × α) → List (String × α)
  | [] => [(name, value)]
  | entry :: rest =>
    if name == entry.1 then (name, value) :: rest else entry :: bind name value rest

/-- Binds a name. -/
def set (s : Scope α) (name : String) (value : α) : Checked (Scope α) := do
  let name ← checkedName name
  return { s with values := bind name value s.values }

/-- The value of a name, if it is bound. -/
def get (s : Scope α) (name : String) : Checked (Option α) := do
  return s.lookup (← checkedName name)

/-- Whether the name is bound. -/
def contains (s : Scope α) (name : String) : Checked Bool := do
  return (s.lookup (← checkedName name)).isSome

/-- Whether the name was bound, and the scope without it. -/
def remove (s : Scope α) (name : String) : Checked (Bool × Scope α) := do
  let name ← checkedName name
  return ((s.lookup name).isSome, { s with values := s.values.filter fun entry => name != entry.1 })

/-- The value of a name that must be bound. -/
def require (s : Scope α) (name : String) : Checked α := do
  match s.lookup (← checkedName name) with
  | some value => return value
  | none => .error (.unbound name)

/-- How many names are bound. -/
def size (s : Scope α) : Nat := s.values.length

/-- The scope that binds some names; a later value of a name replaces an earlier one. -/
def ofList (bindings : List (String × α)) (collapseConstants : Bool) : Checked (Scope α) :=
  bindings.foldlM (fun s binding => s.set binding.1 binding.2) ⟨[], collapseConstants⟩

/-- The name and the value of an assignment `name=value`; the reader reads the value. -/
def assignment (read : String → Option α) (text : String) : Checked (String × α) :=
  let cs := text.toList
  let name := cs.takeWhile (· != '=')
  match cs.dropWhile (· != '=') with
  | [] => .error (.configuration (.notAssignment text))
  | _ :: value =>
    match read (String.ofList value) with
    | none => .error (.configuration (.invalidValue text))
    | some x => .ok (String.ofList (trim name), x)

/-- The scope that some assignments make, the last one of a name winning. -/
def ofAssignments (read : String → Option α) (texts : List String) (collapseConstants : Bool) :
    Checked (Scope α) :=
  texts.foldlM (fun s text => do
    let (name, value) ← assignment read text
    s.set name value) ⟨[], collapseConstants⟩

/-! ### What a scope remembers -/

theorem lookup_bind (name other : String) (value : α) (entries : List (String × α)) :
    (bind name value entries).lookup other =
      if other == name then some value else entries.lookup other := by
  induction entries with
  | nil =>
    by_cases h : other == name
    · simp [bind, List.lookup_cons, h]
    · simp only [Bool.not_eq_true] at h
      simp [bind, List.lookup_cons, h]
  | cons entry rest ih =>
    obtain ⟨key, old⟩ := entry
    rw [bind]
    split
    · rename_i found
      simp only [beq_iff_eq] at found
      subst found
      by_cases h : other == name
      · simp [List.lookup_cons, h]
      · simp only [Bool.not_eq_true] at h
        simp [List.lookup_cons, h]
    · rename_i missed
      by_cases h : other == key
      · have differ : (other == name) = false := by
          simp only [beq_iff_eq] at h missed ⊢
          subst h
          simp only [beq_eq_false_iff_ne]
          exact fun e => missed e.symm
        simp [List.lookup_cons, h, differ]
      · simp only [Bool.not_eq_true] at h
        simp only [List.lookup_cons, h]
        exact ih

/-- What is found under a checked name is found under the name. -/
theorem lookup_of_get {s : Scope α} {name : String} {value : Option α}
    (found : s.get name = .ok value) : s.lookup name = value := by
  unfold get checkedName at found
  split at found
  · exact Except.ok.inj found
  · cases found

theorem get_of_lookup {s t : Scope α} {name : String} (same : s.lookup name = t.lookup name) :
    s.get name = t.get name := by
  unfold get checkedName
  split
  · exact congrArg Except.ok same
  · rfl

theorem eq_of_set {s t : Scope α} {name : String} {value : α} (bound : s.set name value = .ok t) :
    t = { s with values := bind name value s.values } := by
  unfold set checkedName at bound
  split at bound
  · exact (Except.ok.inj bound).symm
  · cases bound

theorem eq_of_remove {s t : Scope α} {name : String} {bound : Bool}
    (removed : s.remove name = .ok (bound, t)) :
    t = { s with values := s.values.filter fun entry => name != entry.1 } := by
  unfold remove checkedName at removed
  split at removed
  · exact (Prod.mk.inj (Except.ok.inj removed)).2.symm
  · cases removed

theorem lookup_filter {name other : String} (apart : other ≠ name) (entries : List (String × α)) :
    (entries.filter fun entry => name != entry.1).lookup other = entries.lookup other := by
  induction entries with
  | nil => rfl
  | cons entry rest ih =>
    obtain ⟨key, value⟩ := entry
    by_cases found : name = key
    · subst found
      rw [List.filter_cons_of_neg (by simp), ih, List.lookup_cons, beq_false_of_ne apart]
    · rw [List.filter_cons_of_pos (by simpa using found), List.lookup_cons, List.lookup_cons, ih]

/-- Binding a name leaves every other name as it is. -/
theorem get_of_set {s t : Scope α} {name other : String} {value : α}
    (bound : s.set name value = .ok t) (apart : other ≠ name) : t.get other = s.get other := by
  apply get_of_lookup
  rw [eq_of_set bound, lookup, lookup_bind, if_neg (by simpa using apart), lookup]

/-- Removing a name leaves every other name as it is. -/
theorem get_of_remove {s t : Scope α} {name other : String} {bound : Bool}
    (removed : s.remove name = .ok (bound, t)) (apart : other ≠ name) :
    t.get other = s.get other := by
  apply get_of_lookup
  rw [eq_of_remove removed, lookup, lookup_filter apart, lookup]

end Scope

end SymbolicAlgebra
