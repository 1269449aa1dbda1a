import ChunkConfig.Reported

namespace ChunkConfig.Reported

variable {α β : Type} {P : Problem → Bool} {x y : Reported α} {f g : α → Reported β}
  {out more : List Problem}

/-- Whether a result is another one without its problems of some kind, the other problems in the
same order. Those that are missing are given with it. -/
structure Parted (P : Problem → Bool) (x y : Reported α) (out : List Problem) : Prop where
  value_eq : x.value = y.value
  problems_eq : x.problems = y.problems.filter fun p => !P p
  out_eq : y.problems.filter P = out

theorem Parted.refl (h : ∀ p ∈ x.problems, P p = false) : Parted P x x [] where
  value_eq := rfl
  problems_eq := by
    symm
    rw [List.filter_eq_self]
    intro p hp
    rw [h p hp]
    rfl
  out_eq := by
    rw [List.filter_eq_nil_iff]
    intro p hp
    rw [h p hp]
    exact Bool.false_ne_true

theorem Parted.bind (h : Parted P x y out) (hf : Parted P (f y.value) (g y.value) more) :
    Parted P (x >>= f) (y >>= g) (out ++ more) where
  value_eq := by rw [value_bind, value_bind, h.value_eq, hf.value_eq]
  problems_eq := by
    rw [problems_bind, problems_bind, h.value_eq, h.problems_eq, hf.problems_eq,
      List.filter_append]
  out_eq := by rw [problems_bind, List.filter_append, h.out_eq, hf.out_eq]

theorem Parted.drop (h : Parted P x y out) {p : Problem} (hp : P p = true) :
    Parted P x (report p >>= fun _ => y) (p :: out) where
  value_eq := h.value_eq
  problems_eq := by
    rw [problems_bind, report, List.singleton_append, List.filter_cons_of_neg, h.problems_eq]
    rw [hp]
    exact Bool.false_ne_true
  out_eq := by
    rw [problems_bind, report, List.singleton_append, List.filter_cons_of_pos hp, h.out_eq]

end ChunkConfig.Reported
