import ChunkConfig.Proofs.Chunk.Legible
import ChunkConfig.Proofs.Database.Reread

namespace ChunkConfig

theorem Xml.Uncut.enclosed {s : String} (h : Uncut s) (ht : Text.trim s = s) (hn : s ≠ "") :
    Enclosed s := by
  have hb : ∀ d ∈ spaces, Text.isBlank d = true := forall_mem_of_all (by decide)
  refine ⟨h, hn, fun d hd hm => ?_⟩
  exact absurd (hb d hd) (Bool.eq_false_iff.mp (Text.isBlank_getLast_of_trimmed ht d hm))

/-- Whether no tag of a chunk or of one of its properties is cut. -/
def Chunk.Uncut (c : Chunk) : Prop :=
  Xml.Uncut c.schema.token ∧ ∀ p ∈ c.properties, Xml.Uncut p.schema.token

theorem Chunk.Uncut.enclosed {c : Chunk} (hu : c.Uncut) (hc : c.Declares)
    (hd : c.schema.Described) : c.Enclosed := by
  refine ⟨hu.1.enclosed hd.token_trimmed hd.token_ne, fun p hp => ?_⟩
  have hm := hd.properties p.schema (List.mem_of_find?_eq_some (hc _ _ (hc.property?_self hp)))
  exact (hu.2 p hp).enclosed hm.token_trimmed hm.token_ne

theorem Database.enclosed_root {db : Database} (h : ∀ c ∈ db, c.Throughout Chunk.Enclosed) :
    db.root.Enclosed := by
  have hname : Xml.Enclosed "ConfigChunkDB" := Xml.enclosed_of_isName (by decide)
  refine .elements hname.tag fun d hd => ?_
  obtain ⟨c, hc, rfl⟩ := List.mem_map.mp hd
  exact Chunk.enclosed_node (h c hc)

theorem Database.legible_root {db : Database} (h : ∀ c ∈ db, c.Throughout Chunk.Proper) :
    (∀ e ∈ db.root.events, e.Legible) ↔ ∀ c ∈ db, c.Throughout Chunk.Legible := by
  have hname : Xml.Legible "ConfigChunkDB" := Xml.legible_of_isName (by decide)
  have hslash : "ConfigChunkDB".toList.getLast? ≠ some '/' := by decide
  rw [root, Xml.legible_events_element, List.forall_mem_map, and_iff_right hname,
    and_iff_right fun _ _ => hslash]
  exact forall₂_congr fun c hc => Chunk.legible_node (h c hc)

namespace Registry

theorem bound_of_readDatabase {r : Registry} (hr : r.Whole) {populate : Bool} {source : Bytes}
    {db : Reported Database} (h : r.readDatabase populate source = .ok db) :
    ∀ c ∈ db.value, c.Throughout fun c => r.schema? c.schema.token = some c.schema ∧ c.Proper := by
  obtain ⟨node, -, rfl⟩ := exists_of_map_eq_ok h
  exact hr.bound_build populate node

/-- The text of a database that was read is a document exactly when no token in it, at any depth,
has a blank or a slash where these end the name of a tag. -/
theorem exists_readDocument_write_iff {descriptions source : Bytes} {catalog : Reported Catalog}
    (hc : Catalog.read descriptions = .ok catalog) {populate : Bool} {db : Reported Database}
    (hdb : (empty.register catalog.value).value.readDatabase populate source = .ok db)
    (hu : ∀ c ∈ db.value, c.Throughout Chunk.Uncut) (options : Xml.WriteOptions) :
    (∃ node, Xml.readDocument (Text.encode (db.value.write options).value) = .ok node) ↔
      ∀ c ∈ db.value, c.Throughout Chunk.Legible := by
  have hd := Catalog.forall_described hc
  obtain ⟨hwhole, hmem⟩ := whole_register fun s hs => (hd s hs).distinct
  have hbound : ∀ c ∈ db.value, c.Throughout fun c => c.schema ∈ catalog.value ∧ c.Proper :=
    fun c hm => (bound_of_readDatabase hwhole hdb c hm).mono fun _ h => ⟨hmem _ _ h.1, h.2⟩
  have hproper : ∀ c ∈ db.value, c.Throughout Chunk.Proper :=
    fun c hm => (hbound c hm).mono fun _ h => h.2
  have henclosed : ∀ c ∈ db.value, c.Throughout Chunk.Enclosed :=
    fun c hm => ((hu c hm).and (hbound c hm)).mono
      fun _ h => h.1.enclosed h.2.2.declares (hd _ h.2.1)
  rw [Database.write, Reported.value_map, Database.value_document,
    Xml.exists_readDocument_iff options
      (List.forall_mem_singleton.mpr (Database.enclosed_root henclosed)),
    List.forall_mem_singleton, Database.legible_root hproper]

/-- A type of road signs. The token of its property is no name of XML. -/
def signSchema : ChunkSchema :=
  { token := "Sign", givenName := "Sign"
    properties := [{ token := "km/h", givenName := "km/h" }] }

def signDescriptions : String :=
  "<ChunkDescDB><ChunkDesc token='Sign'><PropertyDesc token='km/h'/></ChunkDesc></ChunkDescDB>"

def signSource : String :=
  "<ConfigChunkDB><Sign/></ConfigChunkDB>"

def signRegistry : Registry :=
  (empty.register [signSchema]).value

theorem read_signDescriptions :
    Catalog.read (Text.encode signDescriptions) = .ok ⟨[signSchema], []⟩ := by
  decide +kernel

theorem tokens_sign {populate : Bool} {source : Bytes} {db : Reported Database}
    (h : signRegistry.readDatabase populate source = .ok db) :
    ∀ c ∈ db.value, c.Throughout fun c =>
      c.schema.token = "Sign" ∧ ∀ p ∈ c.properties, p.schema.token = "km/h" := by
  obtain ⟨hwhole, hmem⟩ := whole_register (distinct_of_read read_signDescriptions)
  intro c hc
  refine (bound_of_readDatabase hwhole h c hc).mono fun d hd => ?_
  have hs : d.schema = signSchema := List.mem_singleton.mp (hmem _ _ hd.1)
  refine ⟨congrArg _ hs, fun p hp => ?_⟩
  have hdeclared := hd.2.declared _ _ (hd.2.declares.property?_self hp)
  rw [hs] at hdeclared
  exact congrArg _ (List.mem_singleton.mp (List.mem_of_find?_eq_some hdeclared))

theorem uncut_sign : Xml.Uncut "Sign" ∧ Xml.Uncut "km/h" :=
  ⟨⟨forall_mem_of_all (by decide), forall_mem_of_all (by decide)⟩,
    ⟨forall_mem_of_all (by decide), forall_mem_of_all (by decide)⟩⟩

theorem legible_sign : Xml.Legible "Sign" ∧ Xml.Legible "km/h" :=
  ⟨⟨forall_mem_of_all (by decide), by decide⟩, ⟨forall_mem_of_all (by decide), by decide⟩⟩

theorem exists_readDocument_write_sign :
    ∃ db, Catalog.read (Text.encode signDescriptions) = .ok ⟨[signSchema], []⟩ ∧
      signRegistry.readDatabase true (Text.encode signSource) = .ok db ∧
      ∃ node, Xml.readDocument (Text.encode (db.value.write {}).value) = .ok node := by
  have hread : (signRegistry.readDatabase true (Text.encode signSource)).toBool = true := by
    decide +kernel
  cases hdb : signRegistry.readDatabase true (Text.encode signSource) with
  | error e =>
    rw [hdb] at hread
    cases hread
  | ok db =>
    have huncut : ∀ c ∈ db.value, c.Throughout Chunk.Uncut := by
      intro c hc
      refine (tokens_sign hdb c hc).mono ?_
      rintro d ⟨ht, hp⟩
      exact ⟨ht ▸ uncut_sign.1, fun p hm => hp p hm ▸ uncut_sign.2⟩
    have hlegible : ∀ c ∈ db.value, c.Throughout Chunk.Legible := by
      have hslash : "km/h".toList.getLast? ≠ some '/' := by decide
      intro c hc
      refine (tokens_sign hdb c hc).mono ?_
      rintro d ⟨ht, hp⟩
      exact ⟨ht ▸ legible_sign.1, fun p hm => hp p hm ▸ legible_sign.2,
        fun p hm _ => hp p hm ▸ hslash⟩
    exact ⟨db, read_signDescriptions, rfl,
      (exists_readDocument_write_iff read_signDescriptions hdb huncut {}).mpr hlegible⟩

/-- A type of cards. The token of its property is two words. -/
def cardSchema : ChunkSchema :=
  { token := "Card", givenName := "Card"
    properties := [{ token := "full name", givenName := "full name" }] }

def cardDescriptions : String :=
  "<ChunkDescDB><ChunkDesc token='Card'><PropertyDesc token='full name'/></ChunkDesc></ChunkDescDB>"

def cardSource : String :=
  "<ConfigChunkDB><Card/></ConfigChunkDB>"

def cardRegistry : Registry :=
  (empty.register [cardSchema]).value

/-- Reads a database and writes it. Gives the problems of the reading and of the writing, and
whether what was written is the text of a document. -/
def save (r : Registry) (source : Bytes) :
    Except ReadError (List Problem × List Problem × Bool) := do
  let db ← r.readDatabase true source
  let written := db.value.write {}
  return (db.problems, written.problems, (Xml.readDocument (Text.encode written.value)).toBool)

theorem save_card : save cardRegistry (Text.encode cardSource) = .ok ([], [], false) := by
  decide +kernel

/-- The name of the tag of the property ends behind the first word, and the second word is read as
an attribute that has no value. -/
theorem not_readDocument_card :
    ∃ db, Catalog.read (Text.encode cardDescriptions) = .ok ⟨[cardSchema], []⟩ ∧
      cardRegistry.readDatabase true (Text.encode cardSource) = .ok db ∧ db.problems = [] ∧
      (db.value.write {}).problems = [] ∧
      ¬ ∃ node, Xml.readDocument (Text.encode (db.value.write {}).value) = .ok node := by
  have hcatalog : Catalog.read (Text.encode cardDescriptions) = .ok ⟨[cardSchema], []⟩ := by
    decide +kernel
  obtain ⟨db, hdb, h⟩ := exists_of_bind_eq_ok save_card
  obtain ⟨hp, h⟩ := Prod.mk.inj (Except.ok.inj h)
  obtain ⟨hw, hn⟩ := Prod.mk.inj h
  refine ⟨db, hcatalog, hdb, hp, hw, ?_⟩
  rintro ⟨node, hnode⟩
  rw [hnode] at hn
  cases hn

end Registry

end ChunkConfig
