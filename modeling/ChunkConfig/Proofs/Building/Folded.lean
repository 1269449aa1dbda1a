import ChunkConfig.Command
import ChunkConfig.Proofs.Building.Graded
import ChunkConfig.Proofs.Registry.Batch

namespace ChunkConfig

theorem Text.same_fold_self (a : String) : same (fold a) a = true :=
  same_iff.mpr (fold_fold a)

theorem Text.same_fold (a b : String) : same (fold a) b = same a b :=
  same_congr (same_fold_self a) b

namespace Xml

/-- An attribute with its name in small letters. -/
def Attribute.folded (a : Attribute) : Attribute :=
  { a with name := Text.fold a.name }

mutual

/-- A node with the names of all elements and attributes in small letters. -/
def Node.folded : Node → Node
  | .document cs => .document (foldedAll cs)
  | .fragment cs => .fragment (foldedAll cs)
  | .element name as cs => .element (Text.fold name) (as.map Attribute.folded) (foldedAll cs)
  | .attr a => .attr a.folded
  | .text content => .text content
  | .comment content => .comment content
  | .instruction target data => .instruction target data
  | .notationName name => .notationName name
  | .other content => .other content

def foldedAll : List Node → List Node
  | [] => []
  | c :: cs => c.folded :: foldedAll cs

end

end Xml

open Xml (Attribute Node foldedAll)
open Reported (Matches)

namespace Chunk

variable (c : Chunk)

theorem applyAttribute_folded (a : Attribute) :
    Matches (c.applyAttribute a.folded) (c.applyAttribute a) := by
  obtain ⟨name, value⟩ := a
  have hname : Text.same (Text.fold name) name = true := Text.same_fold_self name
  rw [applyAttribute, applyAttribute, Attribute.folded]
  simp only [Text.same_fold, c.schema.property?_congr hname, c.open?_congr hname]
  split
  · exact .refl _
  · split
    · next s p hs hp =>
      rw [fill, fill, c.hold_congr hname]
      exact .refl _
    · exact .bind ⟨rfl, rfl⟩ (.refl _)

theorem attributes_folded (as : List Attribute) :
    Matches ((as.map Attribute.folded).foldlM applyAttribute c) (as.foldlM applyAttribute c) := by
  induction as generalizing c with
  | nil => exact .refl _
  | cons a as ih =>
    rw [List.map_cons, List.foldlM_cons, List.foldlM_cons]
    exact (c.applyAttribute_folded a).bind (ih _)

theorem fillContent_folded (p : Property Chunk) (slot : Nat) (element : String)
    (nodes : List Node) :
    Matches (fillContent p slot (Text.fold element) (foldedAll nodes))
      (fillContent p slot element nodes) := by
  induction nodes generalizing p slot with
  | nil => exact .refl _
  | cons node rest ih =>
    rw [foldedAll]
    cases node with
    | text content =>
      rw [Node.folded, fillContent, fillContent]
      exact (Matches.refl _).bind (ih _ _)
    | _ =>
      rw [Node.folded]
      exact .bind ⟨rfl, rfl⟩ (ih p slot)

end Chunk

namespace Registry

theorem create_folded (r : Registry) (name : String) (populate : Bool) :
    (∃ e f, r.create (Text.fold name) populate = .error e ∧ r.create name populate = .error f) ∨
      r.create (Text.fold name) populate = r.create name populate := by
  have hname : Text.same (Text.fold name) name = true := Text.same_fold_self name
  rw [create, create, r.schema?_congr hname, r.default?_congr hname]
  cases r.schema? name with
  | none => exact .inl ⟨_, _, rfl, rfl⟩
  | some s => exact .inr rfl

mutual

/-- What is built does not depend on the case of names, nor does which problems are met. -/
theorem buildChunk_folded (r : Registry) (nested : Bool) : (node : Node) → ∀ populate,
    Matches (r.buildChunk nested populate node.folded) (r.buildChunk nested populate node)
  | .document [], _ | .fragment [], _ => ⟨rfl, rfl⟩
  | .document (child :: _), populate | .fragment (child :: _), populate => by
    rw [Node.folded, foldedAll, buildChunk, buildChunk]
    exact buildChunk_folded r nested child populate
  | .element name as cs, populate => by
    rw [Node.folded, buildChunk, buildChunk]
    rcases r.create_folded name populate with ⟨e, f, he, hf⟩ | hc
    · rw [he, hf]
      exact .bind ⟨rfl, rfl⟩ (.refl _)
    · rw [hc]
      split
      · exact .refl _
      · next c _ => exact (c.attributes_folded as).bind ((applyAll_folded r nested cs _).map some)
  | .attr _, _ | .text _, _ | .comment _, _ | .instruction .., _ | .notationName _, _
  | .other _, _ => ⟨rfl, rfl⟩

theorem applyAll_folded (r : Registry) (nested : Bool) : (nodes : List Node) → ∀ c,
    Matches (r.applyAll nested c (foldedAll nodes)) (r.applyAll nested c nodes)
  | [], c => by
    rw [foldedAll]
    exact .refl _
  | node :: rest, c => by
    rw [foldedAll, applyAll, applyAll]
    exact (applyNode_folded r nested node c).bind (applyAll_folded r nested rest _)

theorem applyNode_folded (r : Registry) (nested : Bool) : (node : Node) → ∀ c,
    Matches (r.applyNode nested c node.folded) (r.applyNode nested c node)
  | .attr a, c => by
    rw [Node.folded, applyNode, applyNode]
    exact c.applyAttribute_folded a
  | .element name as cs, c => by
    have hname : Text.same (Text.fold name) name = true := Text.same_fold_self name
    rw [Node.folded, applyNode, applyNode]
    simp only [c.schema.property?_congr hname, c.open?_congr hname, c.hold_congr hname]
    split
    · next s p hs hp =>
      split
      · exact (buildAll_folded r nested cs).bind (.refl _)
      · exact (Chunk.fillContent_folded _ 0 name cs).map _
    · exact .bind ⟨rfl, rfl⟩ (.refl _)
  | .document _, _ | .fragment _, _ | .text _, _ | .comment _, _ | .instruction .., _
  | .notationName _, _ | .other _, _ => ⟨rfl, rfl⟩

theorem buildAll_folded (r : Registry) (nested : Bool) : (nodes : List Node) →
    Matches (r.buildAll nested (foldedAll nodes)) (r.buildAll nested nodes)
  | [] => by
    rw [foldedAll]
    exact .refl _
  | node :: rest => by
    rw [foldedAll, buildAll, buildAll]
    exact (buildChunk_folded r nested node nested).bind ((buildAll_folded r nested rest).map _)

end

theorem buildElements_folded (r : Registry) (populate : Bool) (nodes : List Node) :
    Matches (r.buildElements populate (foldedAll nodes)) (r.buildElements populate nodes) := by
  induction nodes with
  | nil =>
    rw [foldedAll]
    exact .refl _
  | cons node rest ih =>
    rw [foldedAll]
    cases node with
    | element name as cs =>
      have hnode := r.buildChunk_folded populate (.element name as cs) populate
      rw [Node.folded] at hnode
      rw [Node.folded, buildElements, buildElements]
      exact hnode.bind (ih.map _)
    | _ => exact ih

mutual

theorem build_folded (r : Registry) (populate : Bool) : (node : Node) →
    Matches (r.build populate node.folded) (r.build populate node)
  | .document cs | .fragment cs => by
    rw [Node.folded, build, build]
    exact buildEach_folded r populate cs
  | .element name as cs => by
    rw [Node.folded, build, build, Text.same_fold]
    split
    · exact r.buildElements_folded populate cs
    · exact .bind ⟨rfl, rfl⟩ (.refl _)
  | .attr _ | .text _ | .comment _ | .instruction .. | .notationName _ | .other _ => ⟨rfl, rfl⟩

theorem buildEach_folded (r : Registry) (populate : Bool) : (nodes : List Node) →
    Matches (r.buildEach populate (foldedAll nodes)) (r.buildEach populate nodes)
  | [] => by
    rw [foldedAll]
    exact .refl _
  | node :: rest => by
    rw [foldedAll, buildEach, buildEach]
    exact (build_folded r populate node).bind ((buildEach_folded r populate rest).map _)

end

end Registry

namespace Command

theorem ofElement_folded (r : Registry) (name : String) (cs : List Node) :
    Matches (ofElement r (Text.fold name) (foldedAll cs)) (ofElement r name cs) := by
  have hbuild := r.buildEach_folded true cs
  rw [ofElement, ofElement, Text.fold_fold]
  split
  · exact hbuild.map _
  · exact hbuild.map _
  · exact .refl _
  · exact .refl _
  · exact .refl _
  · exact .bind ⟨rfl, rfl⟩ (.refl _)

mutual

theorem ofNode_folded (r : Registry) : (node : Node) →
    Matches (ofNode r node.folded) (ofNode r node)
  | .document cs | .fragment cs => by
    rw [Node.folded, ofNode, ofNode]
    exact ofNodes_folded r cs
  | .element name as cs => by
    rw [Node.folded, ofNode, ofNode]
    exact ofElement_folded r name cs
  | .attr _ | .text _ | .comment _ | .instruction .. | .notationName _ | .other _ => .refl _

theorem ofNodes_folded (r : Registry) : (nodes : List Node) →
    Matches (ofNodes r (foldedAll nodes)) (ofNodes r nodes)
  | [] => by
    rw [foldedAll]
    exact .refl _
  | node :: rest => by
    rw [foldedAll, ofNodes, ofNodes]
    exact (ofNode_folded r node).bind ((ofNodes_folded r rest).map _)

end

end Command

namespace Registry

/-- Documents that differ only in the case of the names of elements and attributes give the same
chunks and the same commands, and problems of the same severity and code one by one. -/
theorem matches_of_folded_eq (r : Registry) {a b : Node} (h : a.folded = b.folded) :
    (∀ populate, Matches (r.build populate a) (r.build populate b)) ∧
      Matches (Command.ofNode r a) (Command.ofNode r b) := by
  constructor
  · intro populate
    have hb := r.build_folded populate b
    rw [← h] at hb
    exact (r.build_folded populate a).symm.trans hb
  · have hb := Command.ofNode_folded r b
    rw [← h] at hb
    exact (Command.ofNode_folded r a).symm.trans hb

/-- A database and a command, with a box that has a name, a property that boxes do not have and a
lamp in it. The names are written in the given case. -/
def casedDocument (cased : String → String) : Node :=
  let boxes : List Node :=
    [.element (cased "Box") [⟨cased "name", "Crate"⟩, ⟨cased "color", "Red"⟩]
      [.element (cased "inner") [] [.element (cased "Lamp") [⟨cased "on", "TRUE"⟩] []]]]
  .document
    [.element (cased "ConfigChunkDB") [] boxes,
      .element (cased "apply_chunks") [] [.element (cased "ConfigChunkDB") [] boxes]]

theorem matches_of_folded_eq_cased :
    (casedDocument String.toUpper).folded = (casedDocument id).folded ∧
      Matches ((empty.register (knotBatch ++ lampBatch)).value.build true
          (casedDocument String.toUpper))
        ((empty.register (knotBatch ++ lampBatch)).value.build true (casedDocument id)) := by
  have h : (casedDocument String.toUpper).folded = (casedDocument id).folded := by
    decide +kernel
  exact ⟨h, (matches_of_folded_eq _ h).1 true⟩

end Registry

end ChunkConfig
