/-
  Matching lists up to a test
  ===========================
  Two lists match when each element of the first takes an equal one out of the
  second and nothing is left. The first equal element is taken, whichever it is, so
  that this finds a matching whenever there is one needs a test that is an
  equivalence on the elements at hand (`EquivalenceOn`). Then lists match exactly
  when they hold every element equally often: **`matched_iff`**.

  Tallies count elements the same way. What the union of two tallies has beyond
  either of them fills both lists up to lists that match: **`matched_filled`**.
-/
import Mathlib.Data.List.Forall2
import SymbolicAlgebra.Tally

namespace SymbolicAlgebra.Tally

variable {β γ : Type} {P Q : β → Prop} {same other : β → β → Bool}

/-! ### Tests that are equivalences -/

/-- The test is an equivalence on the elements with a property. -/
structure EquivalenceOn (P : β → Prop) (same : β → β → Bool) : Prop where
  refl : ∀ x, P x → same x x = true
  symm : ∀ x y, P x → P y → same x y = true → same y x = true
  trans : ∀ x y z, P x → P y → P z → same x y = true → same y z = true → same x z = true

namespace EquivalenceOn

theorem mono (h : EquivalenceOn Q same) (weaker : ∀ x, P x → Q x) : EquivalenceOn P same where
  refl x hx := h.refl x (weaker x hx)
  symm x y hx hy := h.symm x y (weaker x hx) (weaker y hy)
  trans x y z hx hy hz := h.trans x y z (weaker x hx) (weaker y hy) (weaker z hz)

/-- Equality need not hold of an element and itself. -/
theorem beq_on [BEq β] [PartialEquivBEq β] :
    EquivalenceOn (fun x : β => (x == x) = true) (fun x y => x == y) where
  refl _ hx := hx
  symm _ _ _ _ h := PartialEquivBEq.symm h
  trans _ _ _ _ _ _ h k := PartialEquivBEq.trans h k

theorem beq [BEq β] [LawfulBEq β] : EquivalenceOn (fun _ : β => True) (fun x y => x == y) :=
  beq_on.mono fun x _ => beq_self_eq_true x

theorem pull (h : EquivalenceOn P same) (f : γ → β) :
    EquivalenceOn (fun x => P (f x)) (fun x y => same (f x) (f y)) where
  refl x hx := h.refl (f x) hx
  symm x y hx hy := h.symm (f x) (f y) hx hy
  trans x y z hx hy hz := h.trans (f x) (f y) (f z) hx hy hz

theorem and (h : EquivalenceOn P same) (k : EquivalenceOn P other) :
    EquivalenceOn P (fun x y => same x y && other x y) where
  refl x hx := by rw [h.refl x hx, k.refl x hx, Bool.and_self]
  symm x y hx hy both := by
    rw [Bool.and_eq_true] at both ⊢
    exact ⟨h.symm x y hx hy both.1, k.symm x y hx hy both.2⟩
  trans x y z hx hy hz left right := by
    rw [Bool.and_eq_true] at left right ⊢
    exact ⟨h.trans x y z hx hy hz left.1 right.1, k.trans x y z hx hy hz left.2 right.2⟩

section Congruence

variable (h : EquivalenceOn P same) {x y z : β} (hx : P x) (hy : P y) (hz : P z)

include h hx hy hz

/-- Equal elements are equal to the same elements. -/
theorem congr_right (equal : same x y = true) : same z x = same z y := by
  rw [Bool.eq_iff_iff]
  constructor
  · intro left
    exact h.trans z x y hz hx hy left equal
  · intro right
    exact h.trans z y x hz hy hx right (h.symm x y hx hy equal)

theorem congr_left (equal : same x y = true) : same x z = same y z := by
  rw [Bool.eq_iff_iff]
  constructor
  · intro left
    exact h.trans y x z hy hx hz (h.symm x y hx hy equal) left
  · intro right
    exact h.trans x y z hx hy hz equal right

omit hz in
theorem comm : same x y = same y x := by
  rw [Bool.eq_iff_iff]
  exact ⟨h.symm x y hx hy, h.symm y x hy hx⟩

end Congruence

end EquivalenceOn

/-! ### Matching -/

/-- Whether every element of the first list takes an equal one out of the second, and nothing is
left. -/
def matched (same : β → β → Bool) : List β → List β → Bool
  | [], ys => ys.isEmpty
  | x :: xs, ys =>
    match takeOut? (same x) ys with
    | some rest => matched same xs rest
    | none => false

theorem takeOut?_isSome {test : β → Bool} {xs : List β} {x : β} (member : x ∈ xs)
    (pass : test x = true) : ∃ rest, takeOut? test xs = some rest := by
  induction xs with
  | nil => cases member
  | cons y ys ih =>
    rw [takeOut?]
    by_cases first : test y = true
    · rw [if_pos first]
      exact ⟨ys, rfl⟩
    · rw [if_neg first]
      rcases List.mem_cons.1 member with rfl | later
      · exact absurd pass first
      · obtain ⟨rest, found⟩ := ih later
        rw [found]
        exact ⟨y :: rest, rfl⟩

/-- Lists match exactly when they hold every element equally often. -/
theorem matched_iff (h : EquivalenceOn P same) {xs ys : List β} (hx : ∀ x ∈ xs, P x)
    (hy : ∀ y ∈ ys, P y) :
    matched same xs ys = true ↔ ∀ z, P z → xs.countP (same z) = ys.countP (same z) := by
  induction xs generalizing ys with
  | nil =>
    rw [matched, List.isEmpty_iff]
    constructor
    · rintro rfl z _
      rfl
    · intro counts
      cases ys with
      | nil => rfl
      | cons y ys =>
        have first := hy y List.mem_cons_self
        have none := counts y first
        rw [List.countP_nil, List.countP_cons, h.refl y first] at none
        simp at none
  | cons x xs ih =>
    obtain ⟨first, later⟩ := List.forall_mem_cons.1 hx
    rw [matched]
    constructor
    · intro pass z hz
      split at pass
      · rename_i rest found
        obtain ⟨y, equal, order⟩ := perm_of_takeOut? found
        have members : ∀ k ∈ y :: rest, P k := fun k hk => hy k (order.mem_iff.2 hk)
        obtain ⟨taken, left⟩ := List.forall_mem_cons.1 members
        have counts := (ih later left).1 pass z hz
        rw [order.countP_eq, List.countP_cons, List.countP_cons, counts,
          h.congr_right first taken hz equal]
      · cases pass
    · intro counts
      have some : 0 < ys.countP (same x) := by
        rw [← counts x first, List.countP_cons, h.refl x first]
        simp
      obtain ⟨y, member, equal⟩ := List.countP_pos_iff.1 some
      obtain ⟨rest, found⟩ := takeOut?_isSome member equal
      rw [found]
      obtain ⟨k, pass, order⟩ := perm_of_takeOut? found
      have members : ∀ m ∈ k :: rest, P m := fun m hm => hy m (order.mem_iff.2 hm)
      obtain ⟨taken, left⟩ := List.forall_mem_cons.1 members
      refine (ih later left).2 fun z hz => ?_
      have total := counts z hz
      rw [order.countP_eq, List.countP_cons, List.countP_cons,
        h.congr_right first taken hz pass] at total
      omega

/-- Lists of equal elements match, whatever the order of one of them. -/
theorem matched_of_forall₂ (h : EquivalenceOn P same) {xs ys zs : List β} (hx : ∀ x ∈ xs, P x)
    (hy : ∀ y ∈ ys, P y) (equal : List.Forall₂ (fun x y => same x y = true) xs ys)
    (order : ys.Perm zs) : matched same xs zs = true := by
  refine (matched_iff h hx fun z hz => hy z (order.mem_iff.2 hz)).2 fun w hw => ?_
  rw [← order.countP_eq]
  clear order
  induction equal with
  | nil => rfl
  | cons first _ ih =>
    obtain ⟨left, others⟩ := List.forall_mem_cons.1 hx
    obtain ⟨right, rest⟩ := List.forall_mem_cons.1 hy
    rw [List.countP_cons, List.countP_cons, ih others rest, h.congr_right left right hw first]

/-- Matching lists of equal elements is an equivalence again. -/
theorem EquivalenceOn.matched (h : EquivalenceOn P same) :
    EquivalenceOn (fun xs : List β => ∀ x ∈ xs, P x) (matched same) where
  refl _ hx := (matched_iff h hx hx).2 fun _ _ => rfl
  symm _ _ hx hy equal :=
    (matched_iff h hy hx).2 fun z hz => ((matched_iff h hx hy).1 equal z hz).symm
  trans _ _ _ hx hy hz left right := (matched_iff h hx hz).2 fun z pz =>
    ((matched_iff h hx hy).1 left z pz).trans ((matched_iff h hy hz).1 right z pz)

/-! ### Counting -/

/-- Every element is listed once, as often as it occurs. -/
structure Proper (same : β → β → Bool) (t : Tally β) : Prop where
  distinct : t.Pairwise fun e k => same e.1 k.1 = false
  positive : ∀ e ∈ t, 0 < e.2

theorem count_cons (e : β × Nat) (t : Tally β) (z : β) :
    count same z (e :: t) = if same e.1 z then e.2 else count same z t := by
  rw [count, count, List.find?_cons]
  cases same e.1 z <;> rfl

theorem count_eq_zero {t : Tally β} {z : β} (none : ∀ e ∈ t, same e.1 z = false) :
    count same z t = 0 := by
  induction t with
  | nil => rfl
  | cons e t ih =>
    obtain ⟨first, later⟩ := List.forall_mem_cons.1 none
    rw [count_cons, first, if_neg (by simp), ih later]

theorem count_pos {t : Tally β} (positive : ∀ e ∈ t, 0 < e.2) {k : β × Nat} (member : k ∈ t)
    {z : β} (equal : same k.1 z = true) : 0 < count same z t := by
  induction t with
  | nil => cases member
  | cons e t ih =>
    rw [count_cons]
    split
    · exact positive e List.mem_cons_self
    · rename_i differ
      rcases List.mem_cons.1 member with rfl | member
      · exact absurd equal differ
      · exact ih (fun c hc => positive c (List.mem_cons_of_mem e hc)) member

theorem mem_insert {x : β} {t : Tally β} {k : β × Nat} (member : k ∈ insert same x t) :
    (k.1 = x ∨ ∃ e ∈ t, e.1 = k.1) ∧ (0 < k.2 ∨ k ∈ t) := by
  induction t with
  | nil =>
    obtain rfl := List.mem_singleton.1 member
    exact ⟨.inl rfl, .inl Nat.one_pos⟩
  | cons e t ih =>
    rw [insert] at member
    split at member
    · rcases List.mem_cons.1 member with rfl | member
      · exact ⟨.inr ⟨e, List.mem_cons_self, rfl⟩, .inl (Nat.succ_pos _)⟩
      · exact ⟨.inr ⟨k, List.mem_cons_of_mem e member, rfl⟩, .inr (List.mem_cons_of_mem e member)⟩
    · rcases List.mem_cons.1 member with rfl | member
      · exact ⟨.inr ⟨k, List.mem_cons_self, rfl⟩, .inr List.mem_cons_self⟩
      · obtain ⟨key, size⟩ := ih member
        refine ⟨key.imp_right ?_, size.imp_right (List.mem_cons_of_mem e)⟩
        rintro ⟨m, hm, equal⟩
        exact ⟨m, List.mem_cons_of_mem e hm, equal⟩

theorem insert_proper {x : β} {t : Tally β} (proper : Proper same t) :
    Proper same (insert same x t) := by
  have sizes : ∀ k ∈ insert same x t, 0 < k.2 := by
    intro k member
    rcases (mem_insert member).2 with positive | member
    · exact positive
    · exact proper.positive k member
  refine ⟨?_, sizes⟩
  have apart := proper.distinct
  clear sizes proper
  induction t with
  | nil => exact List.pairwise_singleton _ _
  | cons e t ih =>
    obtain ⟨first, later⟩ := List.pairwise_cons.1 apart
    rw [insert]
    by_cases equal : same e.1 x = true
    · rw [if_pos equal]
      exact List.pairwise_cons.2 ⟨first, later⟩
    · rw [if_neg equal]
      refine List.pairwise_cons.2 ⟨fun k member => ?_, ih later⟩
      rcases (mem_insert member).1 with key | ⟨m, hm, key⟩
      · rw [key]
        simpa using equal
      · rw [← key]
        exact first m hm

section Equivalence

variable (h : EquivalenceOn (fun _ => True) same)

include h

theorem count_insert (x z : β) (t : Tally β) :
    count same z (insert same x t) = count same z t + if same z x then 1 else 0 := by
  have swap : same z x = same x z := h.comm trivial trivial
  rw [swap]
  induction t with
  | nil =>
    rw [insert, count_cons]
    simp [count]
  | cons e t ih =>
    rw [insert]
    by_cases equal : same e.1 x = true
    · have agree : same e.1 z = same x z := h.congr_left trivial trivial trivial equal
      rw [if_pos equal, count_cons, count_cons]
      dsimp only
      rw [agree]
      split
      · rfl
      · rfl
    · rw [if_neg equal, count_cons, count_cons, ih]
      split
      · rename_i first
        have differ : ¬ same x z = true := by
          intro last
          exact equal (h.trans e.1 z x trivial trivial trivial first
            (h.symm x z trivial trivial last))
        rw [if_neg differ, Nat.add_zero]
      · rfl

/-- A tally counts what stands in its list. -/
theorem count_ofList (z : β) (xs : List β) :
    count same z (ofList same xs) = xs.countP (same z) := by
  have folded : ∀ (xs : List β) (t : Tally β),
      count same z (xs.foldl (fun t x => insert same x t) t) = count same z t + xs.countP (same z) := by
    intro xs
    induction xs with
    | nil => exact fun _ => rfl
    | cons x xs ih =>
      intro t
      rw [List.foldl_cons, ih, count_insert h, List.countP_cons]
      omega
  rw [ofList, folded]
  simp [count]

omit h in
theorem ofList_proper (xs : List β) : Proper same (ofList same xs) := by
  have folded : ∀ (xs : List β) (t : Tally β), Proper same t →
      Proper same (xs.foldl (fun t x => insert same x t) t) := by
    intro xs
    induction xs with
    | nil => exact fun _ proper => proper
    | cons x xs ih => exact fun t proper => ih _ (insert_proper proper)
  exact folded xs [] ⟨List.Pairwise.nil, fun e member => by cases member⟩

theorem count_congr {x y : β} (equal : same x y = true) (t : Tally β) :
    count same x t = count same y t := by
  induction t with
  | nil => rfl
  | cons e t ih =>
    rw [count_cons, count_cons, ih, h.congr_right trivial trivial trivial equal]

/-- The union counts what the tally with more of it counts. -/
theorem count_union (z : β) {s : Tally β} (proper : Proper same s) (t : Tally β) :
    count same z (union same s t) = max (count same z s) (count same z t) := by
  have others : ∀ s : Tally β, count same z s = 0 →
      count same z (t.filter fun e => count same e.1 s == 0) = count same z t := by
    intro s none
    induction t with
    | nil => rfl
    | cons e t ih =>
      rw [count_cons, List.filter_cons]
      by_cases equal : same e.1 z = true
      · have absent : count same e.1 s = 0 := (count_congr h equal s).trans none
        rw [if_pos (by simpa using absent), count_cons, if_pos equal]
        exact (if_pos equal).symm
      · rw [if_neg equal, ← ih]
        split
        · rw [count_cons, if_neg equal]
        · rfl
  have own : ∀ r : Tally β, (∀ e ∈ r, 0 < e.2) → ∀ rest : Tally β,
      count same z ((r.map fun e => (e.1, max e.2 (count same e.1 t))) ++ rest) =
        if count same z r = 0 then count same z rest else max (count same z r) (count same z t) := by
    intro r positive rest
    induction r with
    | nil => rfl
    | cons e r ih =>
      obtain ⟨first, later⟩ := List.forall_mem_cons.1 positive
      rw [List.map_cons, List.cons_append, count_cons, count_cons, ih later]
      dsimp only
      by_cases equal : same e.1 z = true
      · rw [if_pos equal, if_pos equal, if_neg (by omega), count_congr h equal]
      · rw [if_neg equal, if_neg equal]
  rw [union, own s proper.positive]
  split
  · rename_i none
    rw [others s none, none, Nat.zero_max]
  · rfl

omit h in
theorem mem_union {s t : Tally β} {k : β × Nat} (member : k ∈ union same s t) :
    ∃ e ∈ s ++ t, e.1 = k.1 := by
  rcases List.mem_append.1 member with member | member
  · obtain ⟨e, listed, rfl⟩ := List.mem_map.1 member
    exact ⟨e, List.mem_append_left t listed, rfl⟩
  · exact ⟨k, List.mem_append_right s (List.mem_filter.1 member).1, rfl⟩

omit h in
theorem union_distinct {s t : Tally β} (left : Proper same s) (right : Proper same t) :
    (union same s t).Pairwise fun e k => same e.1 k.1 = false := by
  refine List.pairwise_append.2 ⟨?_, right.distinct.filter _, ?_⟩
  · rw [List.pairwise_map]
    exact left.distinct
  · intro e member k other
    obtain ⟨m, listed, rfl⟩ := List.mem_map.1 member
    obtain ⟨-, absent⟩ := List.mem_filter.1 other
    have none : count same k.1 s = 0 := by simpa using absent
    by_contra equal
    have positive := count_pos left.positive listed (by simpa using equal)
    omega

/-- The excess counts the difference of two tallies. -/
theorem countP_excess (z : β) {s : Tally β}
    (distinct : s.Pairwise fun e k => same e.1 k.1 = false) (t : Tally β) :
    (excess same s t).countP (same z) = count same z s - count same z t := by
  induction s with
  | nil => simp [excess, count]
  | cons e s ih =>
    obtain ⟨first, later⟩ := List.pairwise_cons.1 distinct
    have rest := ih later
    rw [excess] at rest ⊢
    rw [List.flatMap_cons, List.countP_append, List.countP_replicate, rest, count_cons]
    have swap : same z e.1 = same e.1 z := h.comm trivial trivial
    rw [swap]
    by_cases equal : same e.1 z = true
    · have none : count same z s = 0 := by
        apply count_eq_zero
        intro k member
        have apart := first k member
        rw [← h.congr_right (z := k.1) trivial trivial trivial equal, ← apart]
        exact h.comm trivial trivial
      rw [if_pos equal, if_pos equal, none, count_congr h equal]
      omega
    · rw [if_neg equal, if_neg equal, Nat.zero_add]

/-- Both lists match when each is filled up with what the union has beyond it. -/
theorem matched_filled (xs ys : List β) :
    let shared := union same (ofList same xs) (ofList same ys)
    matched same (xs ++ excess same shared (ofList same xs))
      (ys ++ excess same shared (ofList same ys)) = true := by
  intro shared
  rw [matched_iff h (fun _ _ => trivial) fun _ _ => trivial]
  intro z _
  have left : Proper same (ofList same xs) := ofList_proper xs
  have right : Proper same (ofList same ys) := ofList_proper ys
  have distinct := union_distinct left right
  have total : count same z shared =
      max (xs.countP (same z)) (ys.countP (same z)) := by
    rw [count_union h z left, count_ofList h, count_ofList h]
  rw [List.countP_append, List.countP_append, countP_excess h z distinct, countP_excess h z distinct,
    total, count_ofList h, count_ofList h]
  omega

omit h

theorem mem_ofList {k : β × Nat} {xs : List β} (member : k ∈ ofList same xs) : k.1 ∈ xs := by
  have folded : ∀ (ys : List β) (t : Tally β), (∀ e ∈ t, e.1 ∈ xs) → (∀ y ∈ ys, y ∈ xs) →
      ∀ e ∈ ys.foldl (fun t x => insert same x t) t, e.1 ∈ xs := by
    intro ys
    induction ys with
    | nil => exact fun _ kept _ => kept
    | cons y ys ih =>
      intro t kept listed
      obtain ⟨first, later⟩ := List.forall_mem_cons.1 listed
      refine ih _ (fun e he => ?_) later
      rcases (mem_insert he).1 with key | ⟨m, hm, key⟩
      · exact key ▸ first
      · exact key ▸ kept m hm
  exact folded xs [] (fun e he => by cases he) (fun y hy => hy) k member

/-- What fills up a list stands in one of the two lists. -/
theorem mem_filling {x : β} {xs ys : List β} {t : Tally β}
    (member : x ∈ excess same (union same (ofList same xs) (ofList same ys)) t) : x ∈ xs ++ ys := by
  obtain ⟨k, listed, repeated⟩ := List.mem_flatMap.1 member
  obtain rfl := List.eq_of_mem_replicate repeated
  obtain ⟨e, source, key⟩ := mem_union listed
  rw [← key]
  rcases List.mem_append.1 source with source | source
  · exact List.mem_append_left ys (mem_ofList source)
  · exact List.mem_append_right xs (mem_ofList source)

end Equivalence

end SymbolicAlgebra.Tally
