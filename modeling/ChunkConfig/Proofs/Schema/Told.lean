import ChunkConfig.Schema.Reading

namespace ChunkConfig

open Xml (Attribute Element Node)

namespace Reported

variable {α β : Type} {P Q : Problem → Prop} {x : Reported α} {f : α → Reported β}

/-- Whether all problems that were met on the way to a result have some property. -/
def Tells (P : Problem → Prop) (x : Reported α) : Prop :=
  ∀ p ∈ x.problems, P p

theorem Tells.pure (a : α) : Tells P (Pure.pure a) :=
  fun _ hp => absurd hp List.not_mem_nil

theorem Tells.report {p : Problem} (hp : P p) : Tells P (ChunkConfig.report p) :=
  fun _ hq => List.mem_singleton.mp hq ▸ hp

theorem Tells.bind (hx : x.Tells P) (hf : (f x.value).Tells P) : (x >>= f).Tells P :=
  fun p hp => (List.mem_append.mp hp).elim (hx p) (hf p)

theorem Tells.mono (h : ∀ p, P p → Q p) (hx : x.Tells P) : x.Tells Q :=
  fun p hp => h p (hx p hp)

end Reported

section

variable {α : Type} {P : Problem → Prop}

theorem tells_reportUnexpected (node : Node) :
    (reportUnexpected node).Tells (·.code = .unexpectedNode) :=
  .report rfl

theorem tells_reportUnidentified (names : List String) (element : FixedElement) (owner : String)
    (attributes : List Attribute) :
    (reportUnidentified names element owner attributes).Tells
      (·.code = .unidentifiedAttribute) := by
  induction attributes with
  | nil => exact .pure ()
  | cons a attributes ih =>
    rw [reportUnidentified]
    split
    · exact ih
    · exact .bind (.report rfl) ih

theorem tells_helpText (owner : String) (nodes : List Node) :
    (helpText owner nodes).Tells (·.code = .unexpectedChild) := by
  induction nodes with
  | nil => exact .pure ""
  | cons node nodes ih =>
    cases node with
    | text content => exact .bind ih (.pure _)
    | _ => exact .bind (.report rfl) ih

/-- What is told of children is what is told of the elements among them, and of nodes that have no
place there. -/
theorem tells_applyElements {f : α → Element → Reported α} (hf : ∀ a e, (f a e).Tells P)
    (hn : ∀ p : Problem, p.code = .unexpectedNode → P p) (a : α) (nodes : List Node) :
    (applyElements f a nodes).Tells P := by
  induction nodes generalizing a with
  | nil => exact .pure a
  | cons node nodes ih =>
    cases node with
    | element name as cs => exact .bind (hf a _) (ih _)
    | text | comment | instruction | notationName => exact ih a
    | document | fragment | attr | other =>
      exact .bind ((tells_reportUnexpected _).mono hn) (ih a)

/-- Whether a problem is one that a child element of the description of a property can have. -/
def Problem.IsMinor (p : Problem) : Prop :=
  p.code = .unidentifiedAttribute ∨ p.code = .unexpectedChild ∨ p.code = .unrecognizedElement

theorem PropertySchema.tells_applyElement (p : PropertySchema) (e : Element) :
    (p.applyElement e).Tells Problem.IsMinor := by
  have hattributes (names : List String) (element : FixedElement) :
      (reportUnidentified names element p.token e.attributes).Tells Problem.IsMinor :=
    (tells_reportUnidentified _ _ _ _).mono fun _ => .inl
  rw [applyElement]
  split
  · exact .bind (hattributes _ _) (.pure _)
  · split
    · exact .bind (hattributes _ _) (.pure _)
    · split
      · exact .bind ((tells_helpText _ _).mono fun _ h => .inr (.inl h)) (.pure _)
      · exact .bind (.report (.inr (.inr rfl))) (.pure _)

theorem ChunkSchema.tells_applyTemplates (s : ChunkSchema) (templates : List Element) :
    (s.applyTemplates templates).Tells (·.code = .extraDefault) := by
  cases templates with
  | nil => exact .pure s
  | cons template extras =>
    intro p hp
    obtain ⟨extra, -, rfl⟩ := List.mem_map.mp hp
    rfl

end

end ChunkConfig
