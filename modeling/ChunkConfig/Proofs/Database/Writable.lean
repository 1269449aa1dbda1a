import ChunkConfig.Proofs.Chunk.Quotable
import ChunkConfig.Proofs.Database.Reread
import ChunkConfig.Proofs.Registry.Obtained
import ChunkConfig.Proofs.Registry.Registered

namespace ChunkConfig

namespace Chunk

/-- Whether all values of a chunk have a written form, except in properties with aliases that stand
for texts that cannot be tokens. -/
def Quotes (c : Chunk) : Prop :=
  ∀ token p, c.property? token = some p → p.schema.Quotable → p.Written

end Chunk

namespace Registry

variable {r : Registry} {batches : List Catalog}

/-- A registry whose default chunks hold nothing that cannot be written, at every depth. -/
structure Quotes (r : Registry) : Prop where
  sound : r.Sound
  defaults : ∀ token d, r.default? token = some d → d.Throughout Chunk.Quotes

theorem quotes_create (h : r.Quotes) {token : String} {populate : Bool} {c : Chunk}
    (hc : r.create token populate = .ok c) : c.Quotes := by
  cases hs : r.schema? token with
  | none =>
    rw [create] at hc
    simp only [hs] at hc
    cases hc
  | some s =>
    obtain ⟨d, hd, -, -, hprop⟩ := create_eq h.sound hs populate
    obtain rfl := Except.ok.inj (hd.symm.trans hc)
    intro t p hp hq
    rw [hprop] at hp
    split at hp
    · obtain ⟨q, -, rfl⟩ := Option.map_eq_some_iff.mp hp
      rcases r.start_cases true s q with hstart | ⟨e, he, heq⟩
      · rw [hstart]
        exact Property.written_ofSchema q
      · exact (h.defaults _ e he).here _ _ heq hq
    · cases hp

theorem Quotes.maintains (h : r.Quotes) (nested : Bool) :
    r.Maintains nested
      (fun populate c => c.Built r populate (Chunk.Throughout Chunk.Quotes) ∧ c.Quotes)
      (Chunk.Throughout Chunk.Quotes) where
  create _ _ _ hc :=
    ⟨built_create h.sound (fun token d hd _ he => (h.defaults token d hd).embedded he) hc,
      quotes_create h hc⟩
  rename _ _ name hc := ⟨hc.1.rename name, hc.2⟩
  hold _ c _ s p q hc hs ho hq := by
    refine ⟨hc.1.fill hs ho hq, Chunk.forall_property?_hold hc.2 fun hquotable => ?_⟩
    obtain ⟨hps, hpp⟩ := hc.1.proper.of_open? ho
    obtain rfl := Option.some.inj (hs.symm.trans hps)
    rw [hq.evolves.schema_eq] at hquotable
    apply hq.written hpp.typed hquotable
    rcases Chunk.open?_cases ho with hp | ⟨t, -, rfl⟩
    · exact hc.2 _ p hp hquotable
    · exact Property.written_ofSchema t
  closed _ hc := .intro hc.2 hc.1.embeds

theorem Reached.quotes (hr : r.Reached) : r.Quotes := by
  induction hr with
  | empty => exact ⟨sound_empty, nofun⟩
  | @register r batch hr hb ih =>
    have hentered : (batch.foldl enter r).Quotes :=
      ⟨hr.sound.foldl_enter hb,
        fun token d hd => ih.defaults token d (default?_of_foldl_enter hd).2⟩
    refine ⟨(hr.register hb).sound, fun token d hd => ?_⟩
    rcases default?_of_register hd with hd | ⟨s, -, hd⟩
    · exact hentered.defaults token d hd
    · obtain ⟨template, -, hd⟩ := Option.bind_eq_some_iff.mp (Option.filter_eq_some_iff.mp hd).1
      have hd := (hentered.maintains true).buildChunk template.node false d hd
      exact .intro hd.2 hd.1.embeds

/-- Whatever is read can be written, as long as no type of a chunk in it has an alias. -/
theorem Reached.problems_write (hr : r.Reached) {populate : Bool} {source : Bytes}
    {db : Reported Database} (h : r.readDatabase populate source = .ok db)
    (ha : ∀ c ∈ db.value, c.Throughout fun d => ∀ p ∈ d.schema.properties, p.aliases = [])
    (options : Xml.WriteOptions) : (db.value.write options).problems = [] := by
  obtain ⟨node, -, rfl⟩ := exists_of_map_eq_ok h
  rw [problems_write_eq, List.flatMap_eq_nil_iff]
  intro c hc
  have hformed := hr.bears_formed.of_gives Chunk.lasting_formed (.database hc)
  have hquotes := (hr.quotes.maintains populate).build node c hc
  apply (Chunk.problems_node_eq_nil_iff
    (hformed.mono fun _ hd => ⟨hd.canonical, hd.declares⟩)).mpr
  refine ((hformed.and hquotes).and (ha c hc)).mono fun d hd token p hp => ?_
  obtain ⟨⟨hformed, hquotes⟩, haliases⟩ := hd
  apply hquotes token p hp (PropertySchema.quotable_of_aliases (haliases _ ?_))
  exact List.mem_of_find?_eq_some (hformed.declares token p hp)

/-- What can be read can be written: a string has a written form when it can be a token of a text,
values that text stores are written without a problem unless aliases stand for others, and so are
databases that are read. -/
theorem written_of_read :
    (∀ t, (Text.quote? t).isSome = true ↔ ∃ s, t ∈ Text.tokens s) ∧
    (∀ p : Property Chunk, p.Typed → p.schema.aliases = [] → ∀ slot text i v,
      slot ≤ i ∧ i < (p.fill slot text).next ∨ p.values.length ≤ i →
        (p.fill slot text).property.values[i]? = some v → v.token?.isSome = true) ∧
    ∀ batches : List Catalog,
      (∀ batch ∈ batches, ∀ s ∈ batch, s.Declared ∧ ∀ p ∈ s.properties, p.aliases = []) →
        ∀ populate source db, (registerAll batches).readDatabase populate source = .ok db →
          ∀ options, (db.value.write options).problems = [] := by
  refine ⟨Text.isSome_quote?_iff, fun p hp ha slot text i v =>
    Property.isSome_token?_of_fill hp ha slot text,
    fun batches hb populate source db hdb options => ?_⟩
  have hdeclared : ∀ batch ∈ batches, ∀ s ∈ batch, s.Declared :=
    fun batch hm s hs => (hb batch hm s hs).1
  refine (reached_registerAll hdeclared).problems_write hdb (fun c hc => ?_) options
  obtain ⟨node, -, rfl⟩ := exists_of_map_eq_ok hdb
  refine (registered_build hdeclared populate node c hc).mono fun d hd => ?_
  obtain ⟨batch, hbatch, hs⟩ := List.mem_flatten.mp hd
  exact (hb batch hbatch _ hs).2

def wordsSchema : PropertySchema :=
  { token := "words", count := .variable }

/-- Two words behind a gap, one with a quote and one that stays open. -/
def noteWords : Property.Filled Chunk :=
  (Property.ofSchema wordsSchema).fill 2 "a\"b \" open"

/-- Notes of any number of words, and boards of notes. A new board has a note with default words. -/
def noteBatches : List Catalog :=
  [[{ token := "Note", properties := [wordsSchema, { token := "next", kind := .chunk }]
      defaults := some ⟨"Note", [⟨"words", "\"two words\" quo\"te"⟩], []⟩ },
    { token := "Board"
      properties := [{ token := "notes", kind := .embedded, count := .variable }]
      defaults := some ⟨"Board", [], [.element "notes" [] [.element "Note" [] []]]⟩ }]]

/-- A new board, and a note with words that are quoted, that hold a quote and that stay open. -/
def noteSource : String :=
  "<ConfigChunkDB><Board/><Note words='\"\" a\"b \"c d\"e \" open' next='\"\"'/></ConfigChunkDB>"

theorem written_of_read_note :
    ((Text.quote? "a\"b").isSome = true ↔ ∃ s, "a\"b" ∈ Text.tokens s) ∧
    (noteWords.next = 4 ∧
      ∀ (i : Nat) (v : Value Chunk), noteWords.property.values[i]? = some v →
        v.token?.isSome = true) ∧
    ∃ db, (registerAll noteBatches).readDatabase true (Text.encode noteSource) = .ok db ∧
      db.value.names = ["Board", "Note"] ∧ (db.value.write {}).problems = [] := by
  obtain ⟨hquote, hfill, hwrite⟩ := written_of_read
  refine ⟨hquote "a\"b", ⟨by decide +kernel, fun i v hv => ?_⟩, ?_⟩
  · exact hfill _ (Property.proper_ofSchema wordsSchema).typed rfl 2 _ i v (.inr (Nat.zero_le i)) hv
  · have hread : ((registerAll noteBatches).readDatabase true (Text.encode noteSource)).map
        (fun db => db.value.names) = .ok ["Board", "Note"] := by decide +kernel
    obtain ⟨db, hdb, hnames⟩ := exists_of_map_eq_ok hread
    exact ⟨db, hdb, hnames.symm, hwrite noteBatches (by decide) true _ db hdb {}⟩

end Registry

end ChunkConfig
