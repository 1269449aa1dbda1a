namespace ChunkConfig.Text

/-- The form of a token under which tokens are compared: ASCII capitals become small letters and
every other character stays. -/
def fold (s : String) : String :=
  .ofList (s.toList.map Char.toLower)

/-- Two tokens are the same when they differ at most in the case of ASCII letters. -/
def same (a b : String) : Bool :=
  fold a == fold b

theorem same_iff {a b : String} : same a b = true ↔ fold a = fold b := by
  simp [same]

@[simp]
theorem same_self (a : String) : same a a = true :=
  same_iff.mpr rfl

end ChunkConfig.Text
