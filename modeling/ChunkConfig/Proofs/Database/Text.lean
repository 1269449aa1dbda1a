import ChunkConfig.Files
import ChunkConfig.Proofs.Building.Restored
import ChunkConfig.Proofs.Building.Tidied
import ChunkConfig.Proofs.Xml.RoundTrip

namespace ChunkConfig

open Xml (Element Node)

/-- The element under which a database stands. -/
def Database.root (db : Database) : Node :=
  .element "ConfigChunkDB" [] (db.map fun c => c.node.value)

theorem Database.value_document (db : Database) : db.document.value = .document [db.root] := by
  rw [document, root]
  simp only [Reported.value_bind, Reported.value_pure, Reported.value_mapM]

theorem Database.topWritable {db : Database} (h : ∀ c ∈ db, c.Throughout Chunk.Named) :
    Xml.TopWritable [db.root] := by
  intro d hd
  rw [List.mem_singleton.mp hd]
  refine ⟨⟨.of_names "ConfigChunkDB" [] rfl rfl (by decide),
    Xml.allWritable_of_elements (fun e he => ?_) false⟩, rfl⟩
  obtain ⟨c, hc, rfl⟩ := List.mem_map.mp he
  exact Chunk.writable_node (h c hc)

namespace Registry

variable {r : Registry} {populate : Bool}

theorem buildElements_value_node {db : Database} (hr : r.Sound)
    (h : ∀ c ∈ db, c.Throughout (Chunk.Restorable r populate)) :
    r.buildElements populate (db.map fun c => c.node.value) =
      pure (db.map (Chunk.restored r populate)) := by
  induction db with
  | nil => rw [List.map_nil, buildElements, List.map_nil]
  | cons c db ih =>
    have hc := buildChunk_value_node hr (h c (.head _))
    rw [Chunk.value_node] at hc
    rw [List.map_cons, Chunk.value_node, buildElements, hc, ih fun d hd => h d (.tail _ hd)]
    rfl

/-- The text of a database is read as the elements that it was written from. -/
theorem readDatabase_write_eq {db : Database} (hn : ∀ c ∈ db, c.Throughout Chunk.Named)
    (options : Xml.WriteOptions) :
    r.readDatabase populate (Text.encode (db.write options).value) =
      .ok (r.buildElements populate (db.map fun c => c.node.value)) := by
  have hb : r.buildEach populate ([db.root].map fun c => c.laid options.indent 0) =
      r.buildElements populate (db.map fun c => c.node.value) := by
    rw [← buildEach_tidied, Xml.tidiedAll_map_laid, buildEach_tidied, buildEach, buildEach,
      Database.root, build, if_pos (Text.same_self _)]
    simp only [pure_bind, List.append_nil, bind_pure]
  rw [readDatabase, Database.write, Reported.value_map, Database.value_document,
    Xml.readDocument_write options (Database.topWritable hn)]
  exact congrArg Except.ok hb

theorem readDatabase_write (hr : r.Sound) {db : Database}
    (hn : ∀ c ∈ db, c.Throughout Chunk.Named)
    (h : ∀ c ∈ db, c.Throughout (Chunk.Restorable r populate)) (options : Xml.WriteOptions) :
    r.readDatabase populate (Text.encode (db.write options).value) =
      .ok (pure (db.map (Chunk.restored r populate))) := by
  rw [readDatabase_write_eq hn, buildElements_value_node hr h]

end Registry

end ChunkConfig
