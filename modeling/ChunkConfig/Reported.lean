import ChunkConfig.Problem

namespace ChunkConfig

/-- A value together with the problems that were met on the way to it, the first one first. -/
structure Reported (α : Type) where
  value : α
  problems : List Problem
  deriving DecidableEq

namespace Reported

variable {α β : Type}

instance : Monad Reported where
  pure a := ⟨a, []⟩
  bind x f := ⟨(f x.value).value, x.problems ++ (f x.value).problems⟩

@[simp]
theorem value_pure (a : α) : (pure a : Reported α).value = a := rfl

@[simp]
theorem problems_pure (a : α) : (pure a : Reported α).problems = [] := rfl

@[simp]
theorem value_bind (x : Reported α) (f : α → Reported β) :
    (x >>= f).value = (f x.value).value := rfl

@[simp]
theorem problems_bind (x : Reported α) (f : α → Reported β) :
    (x >>= f).problems = x.problems ++ (f x.value).problems := rfl

@[ext]
theorem ext {x y : Reported α} (hv : x.value = y.value) (hp : x.problems = y.problems) :
    x = y := by
  cases x
  cases y
  cases hv
  cases hp
  rfl

instance : LawfulMonad Reported :=
  .mk' _ (fun x => ext rfl (List.append_nil _)) (fun _ _ => rfl)
    fun _ _ _ => ext rfl (List.append_assoc _ _ _)

@[simp]
theorem value_map (f : α → β) (x : Reported α) : (f <$> x).value = f x.value := rfl

@[simp]
theorem problems_map (f : α → β) (x : Reported α) : (f <$> x).problems = x.problems :=
  List.append_nil _

end Reported

def report (p : Problem) : Reported Unit :=
  ⟨(), [p]⟩

end ChunkConfig
