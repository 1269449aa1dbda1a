import ChunkConfig.Building
import ChunkConfig.Proofs.Parted

namespace ChunkConfig

open Xml (Node)

/-- Whether a problem is about a name that nothing is known under, be it that of a property or that
of a chunk type. -/
def Problem.unknownName (p : Problem) : Bool :=
  p.code = .noSuchProperty ∨ p.code = .unknownChunkType

namespace Reported

variable {α β : Type} {x y : Reported α} {f g : α → Reported β} {m n : Nat}

/-- Whether a result is another one without its problems about unknown names, of which there are
`n`. -/
structure Sifted (x y : Reported α) (n : Nat) : Prop where
  value_eq : x.value = y.value
  problems_eq : x.problems = y.problems.filter fun p => !p.unknownName
  count_eq : y.problems.countP Problem.unknownName = n

theorem sifted_iff :
    Sifted x y n ↔ ∃ out, Parted Problem.unknownName x y out ∧ out.length = n := by
  constructor
  · intro h
    exact ⟨_, ⟨h.value_eq, h.problems_eq, rfl⟩, List.countP_eq_length_filter.symm.trans h.count_eq⟩
  · rintro ⟨out, ⟨hvalue, hproblems, rfl⟩, hlength⟩
    exact ⟨hvalue, hproblems, List.countP_eq_length_filter.trans hlength⟩

theorem Sifted.refl (h : ∀ p ∈ x.problems, p.unknownName = false) : Sifted x x 0 :=
  sifted_iff.mpr ⟨[], .refl h, rfl⟩

theorem Sifted.pure (a : α) : Sifted (Pure.pure a) (Pure.pure a) 0 :=
  .refl fun _ hp => absurd hp List.not_mem_nil

theorem Sifted.bind (h : Sifted x y m) (hf : Sifted (f y.value) (g y.value) n) :
    Sifted (x >>= f) (y >>= g) (m + n) := by
  obtain ⟨out, hout, rfl⟩ := sifted_iff.mp h
  obtain ⟨more, hmore, rfl⟩ := sifted_iff.mp hf
  exact sifted_iff.mpr ⟨out ++ more, hout.bind hmore, List.length_append⟩

theorem Sifted.after (hx : ∀ p ∈ x.problems, p.unknownName = false)
    (h : Sifted (f x.value) (g x.value) n) : Sifted (x >>= f) (x >>= g) n := by
  rw [← Nat.zero_add n]
  exact .bind (.refl hx) h

theorem Sifted.map (h : Sifted x y n) (f : α → β) :
    Sifted (x >>= fun a => Pure.pure (f a)) (y >>= fun a => Pure.pure (f a)) n :=
  Sifted.bind (f := fun a => Pure.pure (f a)) (g := fun a => Pure.pure (f a)) h (.pure _)

/-- A problem about an unknown name is left out together with what it was met in. -/
theorem Sifted.drop (h : Sifted x y n) {p : Problem} (hp : p.unknownName = true) :
    Sifted x (report p >>= fun _ => y) (n + 1) := by
  obtain ⟨out, hout, rfl⟩ := sifted_iff.mp h
  exact sifted_iff.mpr ⟨p :: out, hout.drop hp, rfl⟩

end Reported

namespace Property

variable {α : Type}

theorem unknownName_problem_storeTokens (p : Property α) (slot : Nat) (tokens : List String) :
    ∀ q ∈ (p.storeTokens slot tokens).problem, q.unknownName = false := by
  induction tokens generalizing p slot with
  | nil => nofun
  | cons token rest ih =>
    rw [storeTokens]
    split
    · next q hq =>
      rintro q ⟨⟩
      rw [coerce] at hq
      split at hq
      · cases hq
      · cases hq
        rfl
      all_goals
        cases hr : p.schema.resolve (α := α) token with
        | error e =>
          rw [hr] at hq
          cases hq
          rfl
        | ok v =>
          rw [hr] at hq
          cases hq
    · split
      · next e he =>
        rintro q ⟨⟩
        cases e <;> rfl
      · exact ih _ _

end Property

namespace Chunk

theorem unknownName_fill (c : Chunk) (p : Property Chunk) (token text : String) :
    ∀ q ∈ (c.fill p token text).problems, q.unknownName = false := by
  intro q hq
  exact p.unknownName_problem_storeTokens 0 _ q (Option.mem_toList.mp hq)

theorem unknownName_fillContent (p : Property Chunk) (slot : Nat) (element : String)
    (nodes : List Node) : ∀ q ∈ (fillContent p slot element nodes).problems,
      q.unknownName = false := by
  induction nodes generalizing p slot with
  | nil => exact fun q hq => absurd hq List.not_mem_nil
  | cons node rest ih =>
    intro q hq
    cases node with
    | text content =>
      rcases List.mem_append.mp hq with hq | hq
      · exact p.unknownName_problem_storeTokens slot _ q (Option.mem_toList.mp hq)
      · exact ih _ _ q hq
    | _ =>
      rcases List.mem_append.mp hq with hq | hq
      · rw [List.mem_singleton.mp hq]
        rfl
      · exact ih p slot q hq

theorem unknownName_storeChunks (p : Property Chunk) (slot : Nat) (cs : List Chunk) :
    ∀ q ∈ (storeChunks p slot cs).problems, q.unknownName = false := by
  induction cs generalizing p slot with
  | nil => exact fun q hq => absurd hq List.not_mem_nil
  | cons c rest ih =>
    rw [storeChunks]
    split
    · exact ih _ _
    all_goals
      intro q hq
      rw [List.mem_singleton.mp hq]
      rfl

end Chunk

end ChunkConfig
