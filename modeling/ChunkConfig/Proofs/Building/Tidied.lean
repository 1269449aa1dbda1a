import ChunkConfig.Building
import ChunkConfig.Proofs.Text.Tokens
import ChunkConfig.Proofs.Xml.Tidied

namespace ChunkConfig

open Xml (Node tidiedAll)

theorem Property.fill_of_allBlank {α : Type} (p : Property α) (slot : Nat) {text : String}
    (h : Text.allBlank text = true) : p.fill slot text = ⟨p, slot, none⟩ := by
  rw [fill, Text.tokens_of_allBlank h, storeTokens]

theorem Chunk.fillContent_tidied (p : Property Chunk) (slot : Nat) (element : String)
    (nodes : List Node) :
    fillContent p slot element (tidiedAll nodes) = fillContent p slot element nodes := by
  induction nodes generalizing p slot with
  | nil => rfl
  | cons node rest ih =>
    rw [tidiedAll]
    split
    · next hb =>
      cases node with
      | text content =>
        rw [ih, fillContent, p.fill_of_allBlank slot hb]
        rfl
      | _ => cases hb
    · cases node with
      | text content => simp only [Node.tidied, fillContent, ih]
      | _ => simp only [Node.tidied, fillContent, ih, Node.kind, Node.name]

namespace Registry

mutual

theorem buildChunk_tidied (r : Registry) (nested : Bool) :
    (node : Node) → ∀ populate,
      r.buildChunk nested populate node.tidied = r.buildChunk nested populate node
  | .element name as cs, populate => by
    rw [Node.tidied, buildChunk, buildChunk]
    split
    · rfl
    · simp only [applyAll_tidied r nested cs]
  | .document _, _ | .fragment _, _ | .attr _, _ | .text _, _ | .comment _, _
  | .instruction .., _ | .notationName _, _ | .other _, _ => rfl

theorem applyAll_tidied (r : Registry) (nested : Bool) :
    (nodes : List Node) → ∀ c, r.applyAll nested c (tidiedAll nodes) = r.applyAll nested c nodes
  | [], _ => rfl
  | node :: rest, c => by
    rw [tidiedAll, applyAll]
    split
    · next hb =>
      cases node with
      | text content =>
        rw [applyAll_tidied r nested rest, applyNode, pure_bind]
      | _ => cases hb
    · rw [applyAll, applyNode_tidied r nested node]
      simp only [applyAll_tidied r nested rest]

theorem applyNode_tidied (r : Registry) (nested : Bool) :
    (node : Node) → ∀ c, r.applyNode nested c node.tidied = r.applyNode nested c node
  | .element name as cs, c => by
    rw [Node.tidied, applyNode, applyNode]
    simp only [buildAll_tidied r nested cs, Chunk.fillContent_tidied]
  | .document _, _ | .fragment _, _ | .attr _, _ | .text _, _ | .comment _, _
  | .instruction .., _ | .notationName _, _ | .other _, _ => rfl

theorem buildAll_tidied (r : Registry) (nested : Bool) :
    (nodes : List Node) → r.buildAll nested (tidiedAll nodes) = r.buildAll nested nodes
  | [] => rfl
  | node :: rest => by
    rw [tidiedAll, buildAll]
    split
    · next hb =>
      cases node with
      | text content =>
        rw [buildAll_tidied r nested rest, buildChunk, pure_bind]
        simp only [Option.toList_none, List.nil_append, bind_pure]
      | _ => cases hb
    · rw [buildAll, buildChunk_tidied r nested node, buildAll_tidied r nested rest]

end

theorem buildElements_tidied (r : Registry) (populate : Bool) (nodes : List Node) :
    r.buildElements populate (tidiedAll nodes) = r.buildElements populate nodes := by
  induction nodes with
  | nil => rfl
  | cons node rest ih =>
    rw [tidiedAll]
    split
    · next hb =>
      cases node with
      | text content => simp only [ih, buildElements]
      | _ => cases hb
    · cases node with
      | element name as cs =>
        have hc := r.buildChunk_tidied populate (.element name as cs) populate
        rw [Node.tidied] at hc
        rw [Node.tidied, buildElements, buildElements, hc, ih]
      | _ => simp only [Node.tidied, buildElements, ih]

theorem build_tidied (r : Registry) (populate : Bool) (node : Node) :
    r.build populate node.tidied = r.build populate node := by
  cases node with
  | element name as cs => rw [Node.tidied, build, build, buildElements_tidied]
  | _ => rfl

/-- Blank text in a document means nothing for its chunks. -/
theorem buildEach_tidied (r : Registry) (populate : Bool) (nodes : List Node) :
    r.buildEach populate (tidiedAll nodes) = r.buildEach populate nodes := by
  induction nodes with
  | nil => rfl
  | cons node rest ih =>
    rw [tidiedAll]
    split
    · next hb =>
      cases node with
      | text content =>
        rw [ih, buildEach, build, pure_bind]
        simp only [List.nil_append, bind_pure]
      | _ => cases hb
    · rw [buildEach, buildEach, build_tidied, ih]

end Registry

end ChunkConfig
