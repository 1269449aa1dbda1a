import ChunkConfig.Building

namespace ChunkConfig

namespace Xml.Node

mutual

/-- The types of the chunk that a node describes and of all chunks below it. A document describes
what its first child does. -/
def typeNames : Node → List String
  | .document [] | .fragment [] => []
  | .document (child :: _) | .fragment (child :: _) => child.typeNames
  | .element name _ children => name :: namesBelow children
  | .attr _ | .text _ | .comment _ | .instruction .. | .notationName _ | .other _ => []

/-- The types of all chunks below the children of a chunk element. -/
def namesBelow : List Node → List String
  | [] => []
  | child :: rest => child.nestedNames ++ namesBelow rest

/-- The types of all chunks in a property element. -/
def nestedNames : Node → List String
  | .element _ _ children => namesOfAll children
  | .document _ | .fragment _ | .attr _ | .text _ | .comment _ | .instruction ..
  | .notationName _ | .other _ => []

/-- The types of all chunks that nodes describe and of all chunks below them. -/
def namesOfAll : List Node → List String
  | [] => []
  | node :: rest => node.typeNames ++ namesOfAll rest

end

end Xml.Node

open Xml (Node)

namespace Registry

variable {r r' : Registry} {nested : Bool}

mutual

/-- Building looks up no types but those that the node names. -/
theorem buildChunk_congr : (node : Node) →
    (∀ name ∈ node.typeNames, r.create name nested = r'.create name nested) →
      r.buildChunk nested nested node = r'.buildChunk nested nested node
  | .document [], _ | .fragment [], _ => by rw [buildChunk, buildChunk]
  | .document (child :: _), h | .fragment (child :: _), h => by
    rw [Node.typeNames] at h
    rw [buildChunk, buildChunk]
    exact buildChunk_congr child h
  | .element name as cs, h => by
    rw [Node.typeNames] at h
    have hall := fun c => applyAll_congr cs (fun m hm => h m (.tail _ hm)) c
    rw [buildChunk, buildChunk, h name (.head _)]
    simp only [hall]
  | .attr _, _ | .text _, _ | .comment _, _ | .instruction .., _ | .notationName _, _
  | .other _, _ => rfl

theorem applyAll_congr : (nodes : List Node) →
    (∀ name ∈ Node.namesBelow nodes, r.create name nested = r'.create name nested) →
      ∀ c, r.applyAll nested c nodes = r'.applyAll nested c nodes
  | [], _, _ => by rw [applyAll, applyAll]
  | child :: rest, h, c => by
    rw [Node.namesBelow] at h
    have hnode := applyNode_congr child (fun m hm => h m (List.mem_append_left _ hm)) c
    have hrest := applyAll_congr rest fun m hm => h m (List.mem_append_right _ hm)
    rw [applyAll, applyAll, hnode]
    simp only [hrest]

theorem applyNode_congr : (node : Node) →
    (∀ name ∈ node.nestedNames, r.create name nested = r'.create name nested) →
      ∀ c, r.applyNode nested c node = r'.applyNode nested c node
  | .element name as cs, h, c => by
    rw [Node.nestedNames] at h
    rw [applyNode, applyNode, buildAll_congr cs h]
  | .document _, _, _ | .fragment _, _, _ | .attr _, _, _ | .text _, _, _ | .comment _, _, _
  | .instruction .., _, _ | .notationName _, _, _ | .other _, _, _ => rfl

theorem buildAll_congr : (nodes : List Node) →
    (∀ name ∈ Node.namesOfAll nodes, r.create name nested = r'.create name nested) →
      r.buildAll nested nodes = r'.buildAll nested nodes
  | [], _ => by rw [buildAll, buildAll]
  | child :: rest, h => by
    rw [Node.namesOfAll] at h
    rw [buildAll, buildAll, buildChunk_congr child fun m hm => h m (List.mem_append_left _ hm),
      buildAll_congr rest fun m hm => h m (List.mem_append_right _ hm)]

end

theorem buildChunk_element_congr {populate : Bool} (e : Xml.Element)
    (hroot : r.create e.name populate = r'.create e.name populate)
    (hbelow : ∀ name ∈ Node.namesBelow e.children, r.create name nested = r'.create name nested) :
    r.buildChunk nested populate e.node = r'.buildChunk nested populate e.node := by
  rw [Xml.Element.node, buildChunk, buildChunk, hroot]
  simp only [applyAll_congr e.children hbelow]

end Registry

end ChunkConfig
