import ChunkConfig.Proofs.Database.RoundTrip

namespace ChunkConfig

namespace Xml

/-- Blank text put in somewhere among nodes, or among the children of an element below them. -/
inductive Spaced : List Node → List Node → Prop where
  | here (rest : List Node) {blank : String} (hb : Text.allBlank blank = true) :
      Spaced rest (.text blank :: rest)
  | behind (c : Node) {cs ds : List Node} (h : Spaced cs ds) : Spaced (c :: cs) (c :: ds)
  | inside (name : String) (attributes : List Attribute) (rest : List Node) {cs ds : List Node}
      (h : Spaced cs ds) : Spaced (.element name attributes cs :: rest)
      (.element name attributes ds :: rest)

/-- Nodes into which others are turned by putting blank text in and taking blank text out. -/
def Respaced : List Node → List Node → Prop :=
  Relation.EqvGen Spaced

variable {cs ds : List Node}

theorem Spaced.tidiedAll_eq (h : Spaced cs ds) : tidiedAll cs = tidiedAll ds := by
  induction h with
  | here rest hb => rw [tidiedAll.eq_2 (.text _), Node.isBlankText, if_pos hb]
  | behind c _ ih => rw [tidiedAll, tidiedAll, ih]
  | inside name as rest _ ih =>
    rw [tidiedAll, tidiedAll, Node.tidied, Node.tidied, ih]
    rfl

theorem Respaced.tidiedAll_eq (h : Respaced cs ds) : tidiedAll cs = tidiedAll ds := by
  induction h with
  | rel _ _ h => exact h.tidiedAll_eq
  | refl _ => rfl
  | symm _ _ _ ih => exact ih.symm
  | trans _ _ _ _ _ ih ih' => exact ih.trans ih'

theorem Respaced.lift {f : List Node → List Node}
    (hf : ∀ cs ds, Spaced cs ds → Spaced (f cs) (f ds))
    (h : Respaced cs ds) : Respaced (f cs) (f ds) := by
  induction h with
  | rel _ _ h => exact .rel _ _ (hf _ _ h)
  | refl _ => exact .refl _
  | symm _ _ _ ih => exact .symm _ _ ih
  | trans _ _ _ _ _ ih ih' => exact .trans _ _ _ ih ih'

mutual

theorem respaced_tidied : (c : Node) → ∀ rest, Respaced (c :: rest) (c.tidied :: rest)
  | .element name as cs, rest => by
    rw [Node.tidied]
    exact (respaced_tidiedAll cs).lift fun _ _ h => h.inside name as rest
  | .document _, _ | .fragment _, _ | .attr _, _ | .text _, _ | .comment _, _
  | .instruction .., _ | .notationName _, _ | .other _, _ => .refl _

theorem respaced_tidiedAll : (cs : List Node) → Respaced cs (tidiedAll cs)
  | [] => .refl _
  | c :: cs => by
    rw [tidiedAll]
    split
    · next hb =>
      cases c with
      | text blank =>
        have hrest : Respaced cs (.text blank :: cs) := .rel _ _ (.here cs hb)
        exact .trans _ _ _ (.symm _ _ hrest) (respaced_tidiedAll cs)
      | _ => cases hb
    · have htail := (respaced_tidiedAll cs).lift fun _ _ h => h.behind c.tidied
      exact .trans _ _ _ (respaced_tidied c cs) htail

end

/-- Nodes are turned into each other in this way when they are the same without blank text. -/
theorem respaced_iff : Respaced cs ds ↔ tidiedAll cs = tidiedAll ds := by
  constructor
  · exact Respaced.tidiedAll_eq
  · intro h
    have hds := respaced_tidiedAll ds
    rw [← h] at hds
    exact .trans _ _ _ (respaced_tidiedAll cs) (.symm _ _ hds)

end Xml

namespace Registry

open Xml (Respaced WriteOptions)

/-- Layout means nothing for chunks: blank text may be put into a document and taken out of it, and
a database may be written in any layout. -/
theorem build_respaced (r : Registry) (populate : Bool) :
    (∀ cs ds, Respaced cs ds → r.build populate (.document cs) = r.build populate (.document ds)) ∧
      ∀ db : Database, (∀ c ∈ db, c.Throughout Chunk.Named) → ∀ options options' : WriteOptions,
        ∃ back, r.readDatabase populate (Text.encode (db.write options).value) = .ok back ∧
          r.readDatabase populate (Text.encode (db.write options').value) = .ok back := by
  constructor
  · intro cs ds h
    rw [build, build, ← buildEach_tidied, Xml.respaced_iff.mp h, buildEach_tidied]
  · intro db hn options options'
    exact ⟨_, readDatabase_write_eq hn options, readDatabase_write_eq hn options'⟩

/-- A note whose element stands among the given blanks. -/
def spacedNote (blank : String) : List Xml.Node :=
  [.text blank, .element "ConfigChunkDB" [] [.element "Note" [⟨"name", "n"⟩]
    [.text blank, .element "text" [] [.text "a", .text blank, .comment "b", .text blank]]]]

/-- Notes whose texts are quoted or cannot be quoted. -/
def quotedNotes : Database :=
  [note " a b " [note "\"a\" 'b'" []]]

theorem build_respaced_note :
    noteRegistry.build true (.document (spacedNote " \n")) =
        noteRegistry.build true (.document (spacedNote "")) ∧
      ∃ back, noteRegistry.readDatabase true (Text.encode (quotedNotes.write {}).value) = .ok back ∧
        noteRegistry.readDatabase true
          (Text.encode (quotedNotes.write { indent := 0, declaration := false }).value) =
            .ok back := by
  have h : Respaced (spacedNote " \n") (spacedNote "") := by
    rw [Xml.respaced_iff]
    decide +kernel
  have hn : ∀ c ∈ quotedNotes, c.Throughout Chunk.Named := by
    intro c hc
    rw [List.mem_singleton.mp hc]
    apply Chunk.Throughout.mono fun _ => Chunk.Fit.named
    apply throughout_note
    intro d hd
    rw [List.mem_singleton.mp hd]
    exact throughout_note fun e he => absurd he List.not_mem_nil
  exact ⟨(build_respaced noteRegistry true).1 _ _ h, (build_respaced noteRegistry true).2 _ hn _ _⟩

end Registry

end ChunkConfig
