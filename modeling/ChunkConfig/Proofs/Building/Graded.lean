import ChunkConfig.Reported

namespace ChunkConfig

/-- What remains of a problem without the words of its message. -/
def Problem.grade (p : Problem) : Severity × Code :=
  (p.severity, p.code)

namespace Reported

variable {α β : Type} {x y : Reported α} {f g : α → Reported β}

/-- Whether two results differ at most in the messages of their problems. -/
structure Matches (x y : Reported α) : Prop where
  value_eq : x.value = y.value
  grades_eq : x.problems.map Problem.grade = y.problems.map Problem.grade

theorem Matches.refl (x : Reported α) : Matches x x :=
  ⟨rfl, rfl⟩

theorem Matches.symm (h : Matches x y) : Matches y x :=
  ⟨h.value_eq.symm, h.grades_eq.symm⟩

theorem Matches.trans {z : Reported α} (h : Matches x y) (h' : Matches y z) : Matches x z :=
  ⟨h.value_eq.trans h'.value_eq, h.grades_eq.trans h'.grades_eq⟩

theorem Matches.bind (h : Matches x y) (hf : Matches (f y.value) (g y.value)) :
    Matches (x >>= f) (y >>= g) where
  value_eq := by rw [value_bind, value_bind, h.value_eq, hf.value_eq]
  grades_eq := by
    rw [problems_bind, problems_bind, h.value_eq, List.map_append, List.map_append, h.grades_eq,
      hf.grades_eq]

theorem Matches.map (h : Matches x y) (f : α → β) :
    Matches (x >>= fun a => pure (f a)) (y >>= fun a => pure (f a)) :=
  Matches.bind (f := fun a => pure (f a)) (g := fun a => pure (f a)) h (.refl _)

/-- Whether two results have the same value and differ at most in the messages of their problems
and in the order in which these were met. -/
structure Shuffled (x y : Reported α) : Prop where
  value_eq : x.value = y.value
  grades_perm : (x.problems.map Problem.grade).Perm (y.problems.map Problem.grade)

theorem Shuffled.refl (x : Reported α) : Shuffled x x :=
  ⟨rfl, .refl _⟩

theorem Shuffled.symm (h : Shuffled x y) : Shuffled y x :=
  ⟨h.value_eq.symm, h.grades_perm.symm⟩

theorem Shuffled.trans {z : Reported α} (h : Shuffled x y) (h' : Shuffled y z) : Shuffled x z :=
  ⟨h.value_eq.trans h'.value_eq, h.grades_perm.trans h'.grades_perm⟩

theorem Shuffled.bind (h : Shuffled x y) (hf : ∀ a, Shuffled (f a) (g a)) :
    Shuffled (x >>= f) (y >>= g) where
  value_eq := by rw [value_bind, value_bind, h.value_eq, (hf y.value).value_eq]
  grades_perm := by
    rw [problems_bind, problems_bind, h.value_eq, List.map_append, List.map_append]
    exact h.grades_perm.append (hf y.value).grades_perm

/-- Whether two results have the same value and the same problems, be these met in another order. -/
structure Permuted (x y : Reported α) : Prop where
  value_eq : x.value = y.value
  problems_perm : x.problems.Perm y.problems

theorem Permuted.refl (x : Reported α) : Permuted x x :=
  ⟨rfl, .refl _⟩

theorem Permuted.symm (h : Permuted x y) : Permuted y x :=
  ⟨h.value_eq.symm, h.problems_perm.symm⟩

theorem Permuted.trans {z : Reported α} (h : Permuted x y) (h' : Permuted y z) : Permuted x z :=
  ⟨h.value_eq.trans h'.value_eq, h.problems_perm.trans h'.problems_perm⟩

theorem Permuted.bind (h : Permuted x y) (hf : Permuted (f y.value) (g y.value)) :
    Permuted (x >>= f) (y >>= g) where
  value_eq := by rw [value_bind, value_bind, h.value_eq, hf.value_eq]
  problems_perm := by
    rw [problems_bind, problems_bind, h.value_eq]
    exact h.problems_perm.append hf.problems_perm

theorem Permuted.shuffled (h : Permuted x y) : Shuffled x y :=
  ⟨h.value_eq, h.problems_perm.map Problem.grade⟩

end Reported

end ChunkConfig
