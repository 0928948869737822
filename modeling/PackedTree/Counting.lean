/-
# Counting what is left

The measures of the graph walks count the nodes not yet met.  Meeting one makes the count smaller.
-/

namespace PackedTree

/-- A test that fails wherever another fails, and on one member more, counts less. -/
theorem countP_lt_countP {α : Type} {p q : α → Bool} {a : α} : ∀ {l : List α},
    (∀ x ∈ l, q x = true → p x = true) → a ∈ l → p a = true → q a = false →
      l.countP q < l.countP p
  | [], _, ha, _, _ => by simp at ha
  | x :: l, hle, ha, hp, hq => by
    have hrest : l.countP q ≤ l.countP p :=
      List.countP_mono_left fun y hy => hle y (List.mem_cons_of_mem _ hy)
    rw [List.countP_cons, List.countP_cons]
    rcases List.mem_cons.mp ha with rfl | hl
    · rw [hp, hq]
      simp only [Bool.false_eq_true, if_false, if_true]
      omega
    · have ih := countP_lt_countP (fun y hy => hle y (List.mem_cons_of_mem _ hy)) hl hp hq
      have hx := hle x List.mem_cons_self
      by_cases hqx : q x = true
      · rw [hqx, hx hqx]
        simp only [if_true]
        omega
      · rw [if_neg hqx]
        split <;> omega

end PackedTree
