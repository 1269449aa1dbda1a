import ChunkConfig.Proofs.Chunk.Slots
import ChunkConfig.Proofs.Database.RoundTrip
import ChunkConfig.Proofs.Registry.Whole

namespace ChunkConfig

/-- The values of a property resolve to what they are, from the tokens under which they are
written. -/
def Property.Unambiguous (p : Property Chunk) : Prop :=
  ∀ v ∈ p.values, v.kind ≠ .embedded →
    ∃ w, p.coerce v.plainToken = .ok w ∧ Chunk.beqValue w v = true

theorem Property.Unambiguous.resolved {p : Property Chunk} (h : p.Unambiguous) (hw : p.Written) :
    p.Resolved := by
  intro v hv hk
  rw [Value.emptied_of_token? (hw v hv hk)]
  exact h v hv hk

/-- The names of a chunk type and of its properties are names of XML. -/
def ChunkSchema.Named (s : ChunkSchema) : Prop :=
  Xml.isName s.token = true ∧ ∀ p ∈ s.properties, Xml.isName p.token = true

theorem Chunk.named_of_schema {c : Chunk} (hc : c.Proper) (h : c.schema.Named) : c.Named := by
  refine ⟨h.1, fun p hp => ?_⟩
  exact h.2 p.schema (List.mem_of_find?_eq_some (hc.declared _ _ (hc.declares.property?_self hp)))

theorem Catalog.forall_described {source : Bytes} {catalog : Reported Catalog}
    (h : Catalog.read source = .ok catalog) : ∀ s ∈ catalog.value, s.Described := by
  obtain ⟨node, -, rfl⟩ := exists_of_map_eq_ok h
  exact fun s hs => described_of_ofNode node hs

namespace Registry

theorem problems_write_eq (db : Database) (options : Xml.WriteOptions) :
    (db.write options).problems = db.flatMap fun c => c.node.problems := by
  rw [Database.write, Reported.problems_map, Database.document, Reported.problems_bind,
    Reported.problems_pure, List.append_nil, Reported.problems_mapM]

theorem problems_write {db : Database} {options : Xml.WriteOptions}
    (h : (db.write options).problems = []) : ∀ c ∈ db, c.node.problems = [] := by
  rw [problems_write_eq, List.flatMap_eq_nil_iff] at h
  exact h

theorem distinct_of_read {source : Bytes} {catalog : Reported Catalog}
    (h : Catalog.read source = .ok catalog) : ∀ s ∈ catalog.value, s.Distinct :=
  fun s hs => (Catalog.forall_described h s hs).distinct

theorem Reached.registerSource {r : Registry} (hr : r.Reached) {source : Bytes}
    {registered : Reported Registry} (h : r.registerSource source = .ok registered) :
    registered.value.Reached := by
  obtain ⟨catalog, hc, rfl⟩ := exists_of_map_eq_ok h
  exact hr.register (distinct_of_read hc)

theorem throughout_of_readDatabase {r : Registry} (hr : r.Whole) {source : Bytes}
    {db : Reported Database} (h : r.readDatabase true source = .ok db) :
    ∀ c ∈ db.value, c.Throughout (Chunk.Whole r) := by
  obtain ⟨node, -, rfl⟩ := exists_of_map_eq_ok h
  exact throughout_build hr node

/-- What was read with default values and is written without problems is read back the same exactly
when each fixed property embeds at least as many chunks as in the default chunk of its type. -/
theorem readDatabase_write_of_read {descriptions source : Bytes} {catalog : Reported Catalog}
    (hc : Catalog.read descriptions = .ok catalog) (hn : ∀ s ∈ catalog.value, s.Named)
    {db : Reported Database}
    (hdb : (empty.register catalog.value).value.readDatabase true source = .ok db)
    (hu : ∀ c ∈ db.value, c.Throughout fun c =>
      ∀ token p, c.property? token = some p → p.Unambiguous)
    {options : Xml.WriteOptions} (hw : (db.value.write options).problems = []) :
    ∃ back, (empty.register catalog.value).value.readDatabase true
        (Text.encode (db.value.write options).value) = .ok (pure back) ∧
      ((back == db.value) = true ↔
        ∀ c ∈ db.value, c.Throughout (Chunk.Covers (empty.register catalog.value).value)) := by
  obtain ⟨hwhole, hmem⟩ := whole_register (distinct_of_read hc)
  -- From here on it only matters that the registry is whole.
  generalize (empty.register catalog.value).value = r at *
  have hall : ∀ c ∈ db.value, c.Throughout (Chunk.Whole r) := throughout_of_readDatabase hwhole hdb
  have hproper : ∀ c ∈ db.value, c.Throughout Chunk.Proper :=
    fun c hm => (hall c hm).mono fun _ h => h.proper
  have hwritten : ∀ c ∈ db.value, c.Throughout fun c =>
      ∀ token p, c.property? token = some p → p.Written :=
    fun c hm => Chunk.written_of_problems_node (hproper c hm) (problems_write hw c hm)
  have hresolved : ∀ c ∈ db.value, c.Throughout fun c =>
      ∀ token p, c.property? token = some p → p.Resolved :=
    fun c hm => ((hu c hm).and (hwritten c hm)).mono
      fun _ h token p hp => (h.1 token p hp).resolved (h.2 token p hp)
  have hnamed : ∀ c ∈ db.value, c.Throughout Chunk.Named :=
    fun c hm => (hall c hm).mono fun _ h =>
      Chunk.named_of_schema h.proper (hn _ (hmem _ _ h.bound))
  have hrest : ∀ c ∈ db.value, c.Throughout (Chunk.Restorable r true) :=
    fun c hm => ((hall c hm).and (hresolved c hm)).mono fun _ h =>
      ⟨h.1.bound, h.1.proper, h.1.complete, fun token p hp => (h.2 token p hp).readable⟩
  -- Nothing was reported in writing, so no value is left without a written form.
  have hemptied : db.value.map Chunk.emptied = db.value :=
    (List.map_congr_left fun c hm =>
      Chunk.emptied_of_written (hproper c hm) (hwritten c hm)).trans (List.map_id _)
  refine ⟨_, readDatabase_write hwhole.sound hnamed hrest options, ?_⟩
  have hsame := beq_map_iff (Chunk.restored r true) Chunk.emptied db.value
  rw [hemptied] at hsame
  rw [hsame]
  apply forall₂_congr
  intro c hm
  rw [Chunk.restored_beq_emptied_iff hwhole.sound (hrest c hm) (hresolved c hm)]
  exact forall_prop_of_true rfl

/-- A type of boxes with one slot for another box, which the default box fills with a new one. -/
def boxSchema : ChunkSchema :=
  { token := "Box", givenName := "Box"
    properties := [{ token := "inner", givenName := "inner", kind := .embedded }]
    defaults := some ⟨"Box", [], [.element "inner" [] [.element "Box" [] []]]⟩ }

def boxDescriptions : String :=
  "<ChunkDescDB><ChunkDesc token='Box'><PropertyDesc token='inner' type='embeddedchunk'/>" ++
    "<Defaults><Box><inner><Box/></inner></Box></Defaults></ChunkDesc></ChunkDescDB>"

def boxRegistry : Registry :=
  (empty.register [boxSchema]).value

def boxSource : String :=
  "<ConfigChunkDB><Box/></ConfigChunkDB>"

theorem read_boxDescriptions :
    Catalog.read (Text.encode boxDescriptions) = .ok ⟨[boxSchema], []⟩ := by
  decide +kernel

theorem named_boxSchema : boxSchema.Named := by
  refine ⟨by decide, fun p hp => ?_⟩
  rw [List.mem_singleton.mp hp]
  decide

theorem unambiguous_box {source : Bytes} {db : Reported Database}
    (h : boxRegistry.readDatabase true source = .ok db) :
    ∀ c ∈ db.value, c.Throughout fun c =>
      ∀ token p, c.property? token = some p → p.Unambiguous := by
  have hdistinct : ∀ s ∈ [boxSchema], s.Distinct := by
    intro s hs
    rw [List.mem_singleton.mp hs, ChunkSchema.Distinct]
    decide
  obtain ⟨hwhole, hmem⟩ := whole_register hdistinct
  intro c hc
  apply (throughout_of_readDatabase hwhole h c hc).mono
  intro d hd token p hp v hv hk
  have hs := hd.proper.declared token p hp
  rw [List.mem_singleton.mp (hmem _ _ hd.bound)] at hs
  have hkind : p.schema.kind = .embedded := by
    rw [List.mem_singleton.mp (List.mem_of_find?_eq_some hs)]
  exact absurd ((hd.proper.proper token p hp).kind_eq v hv) (hkind ▸ hk)

/-- Reads a database, writes it and reads it again. Gives the problems of the writing and of the
second reading, and whether the database is the same. -/
def reread (r : Registry) (source : Bytes) :
    Except ReadError (List Problem × List Problem × Bool) := do
  let db ← r.readDatabase true source
  let written := db.value.write {}
  let back ← r.readDatabase true (Text.encode written.value)
  return (written.problems, back.problems, back.value == db.value)

theorem reread_box : reread boxRegistry (Text.encode boxSource) = .ok ([], [], false) := by
  decide +kernel

/-- The default box embeds a box that no default values were known for when it was built, and
reading this one back fills it. -/
theorem not_reread_box :
    ∃ db back, Catalog.read (Text.encode boxDescriptions) = .ok ⟨[boxSchema], []⟩ ∧
      boxSchema.Named ∧ boxRegistry.readDatabase true (Text.encode boxSource) = .ok db ∧
      (∀ c ∈ db.value, c.Throughout fun c =>
        ∀ token p, c.property? token = some p → p.Unambiguous) ∧
      (db.value.write {}).problems = [] ∧
      boxRegistry.readDatabase true (Text.encode (db.value.write {}).value) = .ok back ∧
      (back.value == db.value) = false := by
  obtain ⟨db, hdb, h⟩ := exists_of_bind_eq_ok reread_box
  obtain ⟨back, hback, h⟩ := exists_of_bind_eq_ok h
  obtain ⟨hw, h⟩ := Prod.mk.inj (Except.ok.inj h)
  exact ⟨db, back, read_boxDescriptions, named_boxSchema, hdb, unambiguous_box hdb, hw, hback,
    (Prod.mk.inj h).2⟩

theorem readDatabase_write_of_read_box :
    ∃ db, boxRegistry.readDatabase true (Text.encode boxSource) = .ok db ∧
      ∃ back, boxRegistry.readDatabase true (Text.encode (db.value.write {}).value) =
          .ok (pure back) ∧
        ((back == db.value) = true ↔ ∀ c ∈ db.value, c.Throughout (Chunk.Covers boxRegistry)) := by
  obtain ⟨db, hdb, h⟩ := exists_of_bind_eq_ok reread_box
  obtain ⟨back, -, h⟩ := exists_of_bind_eq_ok h
  have hn : ∀ s ∈ [boxSchema], s.Named := fun s hs => List.mem_singleton.mp hs ▸ named_boxSchema
  exact ⟨db, hdb, readDatabase_write_of_read read_boxDescriptions hn hdb (unambiguous_box hdb)
    (Prod.mk.inj (Except.ok.inj h)).1⟩

end Registry

end ChunkConfig
