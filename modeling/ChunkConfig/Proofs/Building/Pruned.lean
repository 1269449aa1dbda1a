import ChunkConfig.Proofs.Building.Sifted
import ChunkConfig.Proofs.Registry.Batch
import ChunkConfig.Proofs.Registry.Run
import ChunkConfig.Proofs.Xml.Parsed

namespace ChunkConfig

open Xml (Attribute Node)

/-- What is left of something, and the number of attributes and elements that were taken out of
it. -/
structure Pruned (α : Type) where
  kept : α
  removed : Nat

/-- Whether an attribute gives the name of a chunk of a type, or one of its properties. -/
def ChunkSchema.takes (s : ChunkSchema) (a : Attribute) : Bool :=
  Text.same a.name "name" || (s.property? a.name).isSome

namespace Registry

mutual

/-- Takes the elements of unknown types out of nodes that describe chunks, and out of the other
elements what their types do not declare. -/
def pruneChunks (r : Registry) : List Node → Pruned (List Node)
  | [] => ⟨[], 0⟩
  | .element name attributes children :: rest =>
    match r.schema? name with
    | none => ⟨(r.pruneChunks rest).kept, (r.pruneChunks rest).removed + 1⟩
    | some s =>
      let below := r.pruneFields s children
      ⟨.element name (attributes.filter s.takes) below.kept :: (r.pruneChunks rest).kept,
        attributes.countP (!s.takes ·) + below.removed + (r.pruneChunks rest).removed⟩
  | node :: rest => ⟨node :: (r.pruneChunks rest).kept, (r.pruneChunks rest).removed⟩

/-- Takes the elements that name no property out of the children of a chunk element, and prunes what
the others embed. -/
def pruneFields (r : Registry) (s : ChunkSchema) : List Node → Pruned (List Node)
  | [] => ⟨[], 0⟩
  | .element name attributes children :: rest =>
    match s.property? name with
    | none => ⟨(r.pruneFields s rest).kept, (r.pruneFields s rest).removed + 1⟩
    | some p =>
      let below := if p.kind = .embedded then r.pruneChunks children else ⟨children, 0⟩
      ⟨.element name attributes below.kept :: (r.pruneFields s rest).kept,
        below.removed + (r.pruneFields s rest).removed⟩
  | node :: rest => ⟨node :: (r.pruneFields s rest).kept, (r.pruneFields s rest).removed⟩

end

mutual

/-- Prunes all databases in a document. -/
def prune (r : Registry) : Node → Pruned Node
  | .document children =>
    ⟨.document (r.pruneEach children).kept, (r.pruneEach children).removed⟩
  | .fragment children =>
    ⟨.fragment (r.pruneEach children).kept, (r.pruneEach children).removed⟩
  | .element name attributes children =>
    let below := if Text.same name "ConfigChunkDB" then r.pruneChunks children else ⟨children, 0⟩
    ⟨.element name attributes below.kept, below.removed⟩
  | node => ⟨node, 0⟩

def pruneEach (r : Registry) : List Node → Pruned (List Node)
  | [] => ⟨[], 0⟩
  | child :: rest =>
    ⟨(r.prune child).kept :: (r.pruneEach rest).kept,
      (r.prune child).removed + (r.pruneEach rest).removed⟩

end

end Registry

namespace Chunk

open Reported (Sifted)

theorem applyAttribute_of_not_takes {c : Chunk} {a : Attribute}
    (h : c.schema.takes a = false) :
    c.applyAttribute a =
      report (.noSuchProperty a.name c.name c.schema.token) >>= fun _ => pure c := by
  obtain ⟨hn, hs⟩ := Bool.or_eq_false_iff.mp h
  rw [applyAttribute, if_neg (Bool.eq_false_iff.mp hn), Option.not_isSome_iff_eq_none.mp
    (Bool.eq_false_iff.mp hs)]
  rfl

theorem unknownName_applyAttribute {c : Chunk} {a : Attribute} (h : c.schema.takes a = true) :
    ∀ q ∈ (c.applyAttribute a).problems, q.unknownName = false := by
  rw [applyAttribute]
  split
  · exact fun q hq => absurd hq List.not_mem_nil
  · next hn =>
    rw [ChunkSchema.takes, Bool.or_eq_true, or_iff_right hn] at h
    obtain ⟨s, hs⟩ := Option.isSome_iff_exists.mp h
    rw [hs, open?_eq hs]
    exact c.unknownName_fill _ _ _

theorem sifted_attributes {s : ChunkSchema} (as : List Attribute) {c : Chunk}
    (hc : c.schema = s) : Sifted ((as.filter s.takes).foldlM applyAttribute c)
      (as.foldlM applyAttribute c) (as.countP (!s.takes ·)) := by
  induction as generalizing c with
  | nil => exact .pure c
  | cons a as ih =>
    have hrest := ih ((c.schema_applyAttribute a).trans hc)
    cases ht : s.takes a with
    | true =>
      rw [List.filter_cons_of_pos ht, List.foldlM_cons, List.foldlM_cons,
        List.countP_cons_of_neg (by rw [ht]; exact Bool.false_ne_true)]
      exact .after (unknownName_applyAttribute (hc ▸ ht)) hrest
    | false =>
      rw [applyAttribute_of_not_takes (hc ▸ ht)] at hrest
      rw [List.filter_cons_of_neg (Bool.eq_false_iff.mp ht), List.foldlM_cons,
        applyAttribute_of_not_takes (hc ▸ ht), bind_assoc,
        List.countP_cons_of_pos (by rw [ht]; rfl)]
      exact hrest.drop rfl

end Chunk

namespace Registry

open Reported (Sifted)

variable {r : Registry} {nested populate : Bool}

theorem pruneChunks_cons (r : Registry) {node : Node} (he : node.element? = none)
    (rest : List Node) : r.pruneChunks (node :: rest) =
      ⟨node :: (r.pruneChunks rest).kept, (r.pruneChunks rest).removed⟩ := by
  cases node with
  | element name as cs => cases he
  | _ => rw [pruneChunks]; nofun

theorem pruneFields_cons (r : Registry) (s : ChunkSchema) {node : Node}
    (he : node.element? = none) (rest : List Node) : r.pruneFields s (node :: rest) =
      ⟨node :: (r.pruneFields s rest).kept, (r.pruneFields s rest).removed⟩ := by
  cases node with
  | element name as cs => cases he
  | _ => rw [pruneFields]; nofun

theorem buildChunk_of_unknown {name : String} (hs : r.schema? name = none) (as : List Attribute)
    (cs : List Node) : r.buildChunk nested populate (.element name as cs) =
      report (.unknownChunkType (.unknownChunkType name)) >>= fun _ => pure none := by
  rw [buildChunk, create, hs]

theorem sifted_element {s : ChunkSchema} {name : String} (hs : r.schema? name = some s)
    (as : List Attribute) {cs kept : List Node} {n : Nat}
    (hbelow : ∀ c : Chunk, c.schema = s →
      Sifted (r.applyAll nested c kept) (r.applyAll nested c cs) n) :
    Sifted (r.buildChunk nested populate (.element name (as.filter s.takes) kept))
      (r.buildChunk nested populate (.element name as cs)) (as.countP (!s.takes ·) + n) := by
  obtain ⟨c, hc, hcs, -⟩ := create_of_schema? hs populate
  rw [buildChunk, buildChunk, hc]
  refine .bind (Chunk.sifted_attributes as hcs) ?_
  exact (hbelow _ ((c.schema_foldlM_applyAttribute as).trans hcs)).map some

theorem unknownName_buildChunk {node : Node} (hp : node.Parsed) (he : node.element? = none) :
    ∀ p ∈ (r.buildChunk nested populate node).problems, p.unknownName = false := by
  intro p hm
  cases hp with
  | element => cases he
  | other content =>
    rw [List.mem_singleton.mp hm]
    rfl
  | _ => exact absurd hm List.not_mem_nil

theorem unknownName_applyNode {node : Node} (hp : node.Parsed) (he : node.element? = none)
    (c : Chunk) : ∀ p ∈ (r.applyNode nested c node).problems, p.unknownName = false := by
  intro p hm
  cases hp with
  | element => cases he
  | other content =>
    rw [List.mem_singleton.mp hm]
    rfl
  | _ => exact absurd hm List.not_mem_nil

theorem applyNode_of_undeclared {c : Chunk} {name : String} (hs : c.schema.property? name = none)
    (as : List Attribute) (cs : List Node) : r.applyNode nested c (.element name as cs) =
      report (.noSuchProperty name c.name c.schema.token) >>= fun _ => pure c := by
  rw [applyNode, hs]
  rfl

mutual

theorem sifted_buildAll (r : Registry) (nested : Bool) : (nodes : List Node) →
    (∀ node ∈ nodes, node.Parsed) →
      Sifted (r.buildAll nested (r.pruneChunks nodes).kept) (r.buildAll nested nodes)
        (r.pruneChunks nodes).removed
  | [], _ => by
    rw [pruneChunks, buildAll]
    exact .pure []
  | .element name as cs :: rest, hp => by
    have hrest := sifted_buildAll r nested rest fun node hn => hp node (.tail _ hn)
    rw [pruneChunks, buildAll]
    cases hs : r.schema? name with
    | none =>
      simp only [buildChunk_of_unknown hs, bind_assoc, pure_bind, Option.toList_none,
        List.nil_append, bind_pure]
      exact hrest.drop rfl
    | some s =>
      have hbelow : ∀ c : Chunk, c.schema = s → Sifted (r.applyAll nested c _) _ _ :=
        sifted_applyAll r nested cs (hp _ (.head _)).children
      rw [buildAll]
      refine .bind (sifted_element hs as hbelow) ?_
      exact hrest.map _
  | .text content :: rest, hp | .comment content :: rest, hp | .other content :: rest, hp
  | .instruction _ content :: rest, hp => by
    have hrest := sifted_buildAll r nested rest fun node hn => hp node (.tail _ hn)
    rw [r.pruneChunks_cons rfl, buildAll, buildAll]
    exact .after (unknownName_buildChunk (hp _ (.head _)) rfl) (hrest.map _)
  | .attr _ :: _, hp | .notationName _ :: _, hp | .document _ :: _, hp | .fragment _ :: _, hp =>
    nomatch hp _ (.head _)

/-- A chunk takes the same over from the children of its element when they are pruned. -/
theorem sifted_applyAll (r : Registry) (nested : Bool) {s : ChunkSchema} : (nodes : List Node) →
    (∀ node ∈ nodes, node.Parsed) → ∀ c : Chunk, c.schema = s →
      Sifted (r.applyAll nested c (r.pruneFields s nodes).kept) (r.applyAll nested c nodes)
        (r.pruneFields s nodes).removed
  | [], _, c, _ => by
    rw [pruneFields, applyAll]
    exact .pure c
  | .element name as cs :: rest, hp, c, hc => by
    have hrest : ∀ d : Chunk, d.schema = s → Sifted (r.applyAll nested d _) _ _ :=
      sifted_applyAll r nested rest fun node hn => hp node (.tail _ hn)
    have hbelow := sifted_buildAll r nested cs (hp _ (.head _)).children
    rw [pruneFields, applyAll]
    cases hs : s.property? name with
    | none =>
      rw [applyNode_of_undeclared (hc ▸ hs), bind_assoc]
      exact (hrest c hc).drop rfl
    | some p =>
      rw [applyAll]
      refine .bind ?_ (hrest _ ((r.schema_applyNode nested c _).trans hc))
      rw [applyNode, applyNode, Chunk.open?_eq (hc ▸ hs), hc, hs]
      by_cases hk : p.kind = .embedded
      · simp only [hk, if_true]
        exact hbelow.bind (n := 0) ((Sifted.refl (Chunk.unknownName_storeChunks _ 0 _)).map _)
      · simp only [hk, if_false]
        exact (Sifted.refl (Chunk.unknownName_fillContent _ 0 name cs)).map _
  | .text content :: rest, hp, c, hc | .comment content :: rest, hp, c, hc
  | .other content :: rest, hp, c, hc | .instruction _ content :: rest, hp, c, hc => by
    have hrest := sifted_applyAll r nested rest (fun node hn => hp node (.tail _ hn)) c hc
    rw [r.pruneFields_cons s rfl, applyAll, applyAll]
    exact .after (unknownName_applyNode (hp _ (.head _)) rfl c) hrest
  | .attr _ :: _, hp, _, _ | .notationName _ :: _, hp, _, _ | .document _ :: _, hp, _, _
  | .fragment _ :: _, hp, _, _ => nomatch hp _ (.head _)

end

theorem sifted_buildElements (r : Registry) (populate : Bool) {nodes : List Node}
    (hp : ∀ node ∈ nodes, node.Parsed) :
    Sifted (r.buildElements populate (r.pruneChunks nodes).kept) (r.buildElements populate nodes)
      (r.pruneChunks nodes).removed := by
  induction nodes with
  | nil =>
    rw [pruneChunks]
    exact .pure []
  | cons node rest ih =>
    have hrest := ih fun node hn => hp node (.tail _ hn)
    cases node with
    | element name as cs =>
      rw [pruneChunks, buildElements]
      cases hs : r.schema? name with
      | none =>
        simp only [buildChunk_of_unknown hs, bind_assoc, pure_bind, Option.toList_none,
          List.nil_append, bind_pure]
        exact hrest.drop rfl
      | some s =>
        have hbelow : ∀ c : Chunk, c.schema = s → Sifted (r.applyAll populate c _) _ _ :=
          sifted_applyAll r populate cs (hp _ (.head _)).children
        rw [buildElements]
        exact .bind (sifted_element hs as hbelow) (hrest.map _)
    | _ =>
      rw [r.pruneChunks_cons rfl]
      exact hrest

theorem sifted_build {node : Node} (hp : node.Parsed) :
    Sifted (r.build populate (r.prune node).kept) (r.build populate node)
      (r.prune node).removed := by
  cases hp with
  | @element name as cs _ hc _ =>
    rw [prune, build, build]
    split
    · exact sifted_buildElements r populate hc
    · exact .refl fun p hm => List.mem_singleton.mp hm ▸ rfl
  | other content => exact .refl fun p hm => List.mem_singleton.mp hm ▸ rfl
  | _ => exact .refl fun p hm => absurd hm List.not_mem_nil

theorem sifted_buildEach {nodes : List Node} (hp : ∀ node ∈ nodes, node.Parsed) :
    Sifted (r.buildEach populate (r.pruneEach nodes).kept) (r.buildEach populate nodes)
      (r.pruneEach nodes).removed := by
  induction nodes with
  | nil =>
    rw [pruneEach, buildEach]
    exact .pure []
  | cons node rest ih =>
    rw [pruneEach, buildEach, buildEach]
    exact .bind (sifted_build (hp _ (.head _))) ((ih fun node hn => hp node (.tail _ hn)).map _)

/-- Unknown names in a document that is read are passed over: without them the document gives the
same database, and the same problems but for one for each of them. -/
theorem build_prune (r : Registry) (populate : Bool) {source : Bytes} {node : Node}
    (h : Xml.readDocument source = .ok node) :
    (r.build populate (r.prune node).kept).value = (r.build populate node).value ∧
      (r.build populate (r.prune node).kept).problems =
        (r.build populate node).problems.filter (fun p =>
          ¬ (p.code = .noSuchProperty ∨ p.code = .unknownChunkType)) ∧
      (r.build populate node).problems.countP (fun p =>
        p.code = .noSuchProperty ∨ p.code = .unknownChunkType) = (r.prune node).removed := by
  obtain ⟨cs, rfl, hs⟩ := Xml.siblings_of_readDocument_eq h
  have hd : Sifted (r.build populate (r.prune (.document cs)).kept)
      (r.build populate (.document cs)) (r.prune (.document cs)).removed := by
    rw [prune, build, build]
    exact sifted_buildEach hs.parsed
  refine ⟨hd.value_eq, ?_, hd.count_eq⟩
  rw [hd.problems_eq]
  simp only [Problem.unknownName, decide_not]

/-- A box with an attribute and a property that boxes do not have, a bag and a ghost in it, and a
ghost beside it. -/
def straySource : String :=
  "<ConfigChunkDB><Box color='red'><inner><Bag size='1'/><Ghost><Box/></Ghost></inner>" ++
    "<cover><Box/></cover></Box><Ghost/></ConfigChunkDB>"

def strayDocument : Node :=
  .document [.element "ConfigChunkDB" []
    [.element "Box" [⟨"color", "red"⟩]
      [.element "inner" []
        [.element "Bag" [⟨"size", "1"⟩] [], .element "Ghost" [] [.element "Box" [] []]],
        .element "cover" [] [.element "Box" [] []]],
      .element "Ghost" [] []]]

theorem build_prune_stray :
    Xml.readDocument (Text.encode straySource) = .ok strayDocument ∧
      ((empty.register knotBatch).value.prune strayDocument).kept =
        .document [.element "ConfigChunkDB" []
          [.element "Box" [] [.element "inner" [] [.element "Bag" [] []]]]] ∧
      ((empty.register knotBatch).value.build true strayDocument).problems.countP (fun p =>
        p.code = .noSuchProperty ∨ p.code = .unknownChunkType) = 5 := by
  have hread : Xml.readDocument (Text.encode straySource) = .ok strayDocument := by
    decide +kernel
  obtain ⟨-, -, hcount⟩ := build_prune (empty.register knotBatch).value true hread
  refine ⟨hread, by decide +kernel, hcount.trans ?_⟩
  decide +kernel

end Registry

end ChunkConfig
