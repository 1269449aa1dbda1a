import ChunkConfig.Proofs.Xml.Wrapped
import ChunkConfig.Source

namespace ChunkConfig

mutual

/-- The elements that stand outside of all other elements, in their order. -/
def Xml.Node.topElements : Xml.Node → List Xml.Element
  | .document children | .fragment children => Xml.topElementsAll children
  | .element name attributes children => [⟨name, attributes, children⟩]
  | _ => []

def Xml.topElementsAll : List Xml.Node → List Xml.Element
  | [] => []
  | child :: rest => child.topElements ++ topElementsAll rest

end

namespace Registry

theorem buildEach_cons (r : Registry) (populate : Bool) (node : Xml.Node) (nodes : List Xml.Node) :
    r.buildEach populate (node :: nodes) = do
      let db ← r.build populate node
      return db ++ (← r.buildEach populate nodes) := by
  rw [buildEach]

theorem buildEach_withoutText (r : Registry) (populate : Bool) (nodes : List Xml.Node) :
    r.buildEach populate (Xml.withoutText nodes) = r.buildEach populate nodes := by
  induction nodes with
  | nil => rfl
  | cons node nodes ih =>
    cases hn : node.isText with
    | true =>
      cases node with
      | text content =>
        rw [buildEach_cons, build, pure_bind]
        exact ih.trans (bind_pure _).symm
      | _ => cases hn
    | false =>
      have hkept : Xml.withoutText (node :: nodes) = node :: Xml.withoutText nodes :=
        List.filter_cons_of_pos (by rw [hn]; rfl)
      rw [hkept, buildEach_cons, buildEach_cons, ih]

end Registry

namespace Command

def names : List String :=
  ["apply_chunks", "remove_chunks", "request_current_chunks", "request_current_descs",
    "remove_descs"]

/-- What an element asks for, and the problems that are met on the way. -/
inductive Answer (r : Registry) (e : Xml.Element) : Reported (Option Command) → Prop
  | applyChunks {db : Reported Database} (named : Text.same e.name "apply_chunks" = true)
    (built : r.build true (.fragment e.children) = db) :
    Answer r e ⟨some (.applyChunks db.value), db.problems⟩
  | removeChunks {db : Reported Database} (named : Text.same e.name "remove_chunks" = true)
    (built : r.build true (.fragment e.children) = db) :
    Answer r e ⟨some (.removeChunks db.value), db.problems⟩
  | requestCurrentChunks (named : Text.same e.name "request_current_chunks" = true) :
    Answer r e ⟨some .requestCurrentChunks, []⟩
  | requestCurrentSchemas (named : Text.same e.name "request_current_descs" = true) :
    Answer r e ⟨some .requestCurrentSchemas, []⟩
  | removeSchemas (named : Text.same e.name "remove_descs" = true) : Answer r e ⟨none, []⟩
  | unrecognized (unknown : ∀ name ∈ names, Text.same e.name name = false) :
    Answer r e ⟨none, [.unrecognizedCommand e.name]⟩

section Answer

variable (r : Registry)

theorem exists_answer_ofElement (e : Xml.Element) :
    ∃ answer, Answer r e answer ∧
      ofElement r e.name e.children = ⟨answer.value.toList, answer.problems⟩ := by
  have hfold : ∀ name ∈ names, Text.fold name = name := by decide
  have hsame (name : String) (hname : name ∈ names) :
      Text.same e.name name = true ↔ Text.fold e.name = name := by
    rw [Text.same_iff, hfold name hname]
  have hbuild : r.build true (.fragment e.children) = r.buildEach true e.children := by
    rw [Registry.build]
  unfold ofElement
  split
  · next h =>
    refine ⟨_, .applyChunks ((hsame _ (by decide)).mpr h) hbuild, ?_⟩
    exact Reported.ext rfl (List.append_nil _)
  · next h =>
    refine ⟨_, .removeChunks ((hsame _ (by decide)).mpr h) hbuild, ?_⟩
    exact Reported.ext rfl (List.append_nil _)
  · next h => exact ⟨_, .requestCurrentChunks ((hsame _ (by decide)).mpr h), rfl⟩
  · next h => exact ⟨_, .requestCurrentSchemas ((hsame _ (by decide)).mpr h), rfl⟩
  · next h => exact ⟨_, .removeSchemas ((hsame _ (by decide)).mpr h), rfl⟩
  · next h₁ h₂ h₃ h₄ h₅ =>
    refine ⟨_, .unrecognized fun name hname => ?_, rfl⟩
    rw [← Bool.not_eq_true, hsame name hname]
    intro hn
    simp only [names, List.mem_cons, List.not_mem_nil, or_false] at hname
    rcases hname with rfl | rfl | rfl | rfl | rfl
    · exact h₁ hn
    · exact h₂ hn
    · exact h₃ hn
    · exact h₄ hn
    · exact h₅ hn

mutual

theorem exists_answers_ofNode : (node : Xml.Node) → ∃ answers,
    List.Forall₂ (Answer r) node.topElements answers ∧
      ofNode r node = ⟨answers.filterMap (·.value), answers.flatMap (·.problems)⟩
  | .document children | .fragment children => by
    rw [ofNode]
    exact exists_answers_ofNodes children
  | .element name attributes children => by
    obtain ⟨answer, hanswer, he⟩ := exists_answer_ofElement r ⟨name, attributes, children⟩
    refine ⟨[answer], .cons hanswer .nil, ?_⟩
    rw [ofNode, he, List.flatMap_singleton]
    obtain ⟨command, problems⟩ := answer
    cases command <;> rfl
  | .attr _ | .text _ | .comment _ | .instruction _ _ | .notationName _ | .other _ =>
    ⟨[], .nil, by rw [ofNode] <;> first | rfl | nofun⟩

theorem exists_answers_ofNodes : (nodes : List Xml.Node) → ∃ answers,
    List.Forall₂ (Answer r) (Xml.topElementsAll nodes) answers ∧
      ofNodes r nodes = ⟨answers.filterMap (·.value), answers.flatMap (·.problems)⟩
  | [] => ⟨[], .nil, by rw [ofNodes]; rfl⟩
  | node :: rest => by
    obtain ⟨first, hfirst, hnode⟩ := exists_answers_ofNode node
    obtain ⟨later, hlater, hrest⟩ := exists_answers_ofNodes rest
    refine ⟨first ++ later, List.rel_append hfirst hlater, ?_⟩
    rw [ofNodes, hnode, hrest, List.filterMap_append, List.flatMap_append]
    exact Reported.ext rfl (congrArg (_ ++ ·) (List.append_nil _))

end

theorem ofNode_applyChunks {name : String} (h : Text.same name "apply_chunks" = true)
    (as : List Xml.Attribute) (children : List Xml.Node) :
    ofNode r (.document [.element name as children]) =
      ⟨[.applyChunks (r.build true (.fragment children)).value],
        (r.build true (.fragment children)).problems⟩ := by
  have hname : Text.fold name = "apply_chunks" := (Text.same_iff.mp h).trans (by decide)
  rw [ofNode, ofNodes, ofNodes, ofNode, Registry.build]
  simp only [ofElement, hname]
  apply Reported.ext
  · rfl
  · simp only [Reported.problems_bind, Reported.problems_pure, List.append_nil]

end Answer

/-- Command documents and documents of chunks agree: each element outside of all others gives at
most one command, with the database that its children make. -/
theorem answered (r : Registry) :
    (∀ node, ∃ answers, List.Forall₂ (Answer r) node.topElements answers ∧
      ofNode r node = ⟨answers.filterMap (·.value), answers.flatMap (·.problems)⟩) ∧
    ∀ name as source, Text.same name "apply_chunks" = true → Xml.ProperTag name as →
      ∀ node, Xml.readDocument source = .ok node → ∃ db, r.readDatabase true source = .ok db ∧
        r.readCommands (Xml.enclose name as source) =
          .ok ⟨[.applyChunks db.value], db.problems⟩ := by
  refine ⟨exists_answers_ofNode r, fun name as source hname htag node hnode => ?_⟩
  obtain ⟨nodes, rfl, -⟩ := Xml.siblings_of_readDocument_eq hnode
  obtain ⟨children, hread, hchildren⟩ := Xml.exists_readDocument_enclose htag hnode
  refine ⟨r.build true (.document nodes), by rw [Registry.readDatabase, hnode]; rfl, ?_⟩
  have hbuild : r.build true (.fragment children) = r.build true (.document nodes) := by
    rw [Registry.build, Registry.build, ← r.buildEach_withoutText, hchildren,
      r.buildEach_withoutText]
  rw [Registry.readCommands, hread]
  rw [← hbuild]
  exact congrArg Except.ok (ofNode_applyChunks r hname as children)

def lampSchema : ChunkSchema :=
  { token := "Lamp", givenName := "Lamp"
    properties := [{ token := "on", givenName := "on", kind := .bool }] }

def lampRegistry : Registry :=
  (Registry.empty.register [lampSchema]).value

/-- A document with a mark at its start, a declaration, and line breaks around its element. -/
def lampSource : Bytes :=
  0xEF :: 0xBB :: 0xBF :: Text.encode
    "<?xml version='1.0'?>\n<ConfigChunkDB><Lamp on='true'/><Fan/></ConfigChunkDB>\n"

/-- What a document of chunks holds: how many chunks, and the problems. -/
def summary (r : Registry) (source : Bytes) : Except ReadError (Nat × List Problem) := do
  let db ← r.readDatabase true source
  return (db.value.length, db.problems)

theorem answered_lamp :
    ∃ node db, Xml.readDocument lampSource = .ok node ∧
      Text.same "Apply_Chunks" "apply_chunks" = true ∧
      Xml.ProperTag "Apply_Chunks" [⟨"id", "1"⟩] ∧
      lampRegistry.readDatabase true lampSource = .ok db ∧ db.value.length = 1 ∧
      db.problems = [.unknownChunkType (.unknownChunkType "Fan")] ∧
      lampRegistry.readCommands (Xml.enclose "Apply_Chunks" [⟨"id", "1"⟩] lampSource) =
        .ok ⟨[.applyChunks db.value], db.problems⟩ := by
  have hsummary : summary lampRegistry lampSource =
      .ok (1, [.unknownChunkType (.unknownChunkType "Fan")]) := by decide +kernel
  have hname : Text.same "Apply_Chunks" "apply_chunks" = true := by decide
  have htag : Xml.ProperTag "Apply_Chunks" [⟨"id", "1"⟩] :=
    .of_names "Apply_Chunks" ["id"] rfl rfl (by decide)
  obtain ⟨db, hdb, hs⟩ := exists_of_bind_eq_ok hsummary
  obtain ⟨hlength, hproblems⟩ := Prod.mk.inj (Except.ok.inj hs)
  obtain ⟨node, hnode, -⟩ := exists_of_map_eq_ok hdb
  obtain ⟨db', hdb', hcommands⟩ :=
    (answered lampRegistry).2 "Apply_Chunks" [⟨"id", "1"⟩] lampSource hname htag node hnode
  obtain rfl : db' = db := Except.ok.inj (hdb'.symm.trans hdb)
  exact ⟨node, db', hnode, hname, htag, hdb, hlength, hproblems, hcommands⟩

end Command

end ChunkConfig
