namespace ChunkConfig

section Span

variable {α : Type} {p : α → Bool} {xs ys : List α}

-- `decide` may search all of `α` for a bounded quantifier; this keeps it on the list.
theorem forall_mem_of_all {P : α → Prop} [DecidablePred P]
    (h : xs.all (fun x => decide (P x)) = true) : ∀ x ∈ xs, P x := by
  intro x hx
  exact of_decide_eq_true (List.all_eq_true.mp h x hx)

/-- A span ends where the first element stands that does not belong to it. -/
theorem takeWhile_span (hx : ∀ x ∈ xs, p x = true) (hy : ∀ y ∈ ys.head?, p y = false) :
    (xs ++ ys).takeWhile p = xs := by
  rw [List.takeWhile_append_of_pos hx]
  cases ys with
  | nil => exact List.append_nil xs
  | cons y ys =>
    rw [List.takeWhile_cons_of_neg, List.append_nil]
    exact Bool.eq_false_iff.mp (hy y rfl)

theorem dropWhile_span (hx : ∀ x ∈ xs, p x = true) (hy : ∀ y ∈ ys.head?, p y = false) :
    (xs ++ ys).dropWhile p = ys := by
  rw [List.dropWhile_append_of_pos hx]
  cases ys with
  | nil => rfl
  | cons y ys =>
    rw [List.dropWhile_cons_of_neg]
    exact Bool.eq_false_iff.mp (hy y rfl)

/-- What begins with an element that is not in the first part stands in the second part. -/
theorem infix_of_infix_append {x : α} {zs : List α} (hx : x ∉ xs) (h : x :: zs <:+: xs ++ ys) :
    x :: zs <:+: ys := by
  induction xs with
  | nil => exact h
  | cons y xs ih =>
    rw [List.mem_cons, not_or] at hx
    rw [List.cons_append, List.infix_cons_iff] at h
    rcases h with h | h
    · rw [List.cons_prefix_cons] at h
      exact absurd h.1 hx.1
    · exact ih hx.2 h

theorem suffix_of_suffix_append {x : α} {zs : List α} (hx : x ∉ xs) (h : x :: zs <:+ xs ++ ys) :
    x :: zs <:+ ys := by
  induction xs with
  | nil => exact h
  | cons y xs ih =>
    rw [List.mem_cons, not_or] at hx
    rw [List.cons_append, List.suffix_cons_iff] at h
    rcases h with h | h
    · exact absurd (List.cons.inj h).1 hx.1
    · exact ih hx.2 h

end Span

end ChunkConfig
