import ChunkConfig.Proofs.Chunk.Covers
import ChunkConfig.Proofs.Database.Text
import ChunkConfig.Proofs.Registry.Reached

namespace ChunkConfig

/-- What it takes that a chunk comes back as it was when it is written and read, with the types and
the default chunks of a registry. -/
structure Chunk.Fit (r : Registry) (populate : Bool) (c : Chunk) : Prop where
  bound : r.schema? c.schema.token = some c.schema
  named : c.Named
  proper : c.Proper
  complete : populate = true → ∀ p ∈ c.schema.properties, (c.property? p.token).isSome = true
  covers : populate = true → c.Covers r
  resolved : ∀ token p, c.property? token = some p → p.Resolved

theorem Chunk.Fit.restorable {r : Registry} {populate : Bool} {c : Chunk} (h : c.Fit r populate) :
    c.Restorable r populate :=
  ⟨h.bound, h.proper, h.complete, fun token p hp => (h.resolved token p hp).readable⟩

namespace Registry

theorem beq_map_iff (f g : Chunk → Chunk) (db : Database) :
    (db.map f == db.map g) = true ↔ ∀ c ∈ db, (f c == g c) = true := by
  induction db with
  | nil => simp
  | cons c db ih =>
    rw [List.map_cons, List.map_cons, List.cons_beq_cons, Bool.and_eq_true, ih,
      List.forall_mem_cons]

/-- A database that fits a registry comes back as it was written, without problems, up to values
without a written form, which come back empty. -/
theorem exists_readDatabase_write {r : Registry} (hr : r.Reached) (populate : Bool)
    (options : Xml.WriteOptions) {db : Database}
    (h : ∀ c ∈ db, c.Throughout (Chunk.Fit r populate)) :
    ∃ back, r.readDatabase populate (Text.encode (db.write options).value) = .ok (pure back) ∧
      (back == db.map Chunk.emptied) = true := by
  have hrest : ∀ c ∈ db, c.Throughout (Chunk.Restorable r populate) :=
    fun c hc => (h c hc).mono fun _ hf => hf.restorable
  have hnamed : ∀ c ∈ db, c.Throughout Chunk.Named :=
    fun c hc => (h c hc).mono fun _ hf => hf.named
  refine ⟨_, readDatabase_write hr.sound hnamed hrest options, ?_⟩
  rw [beq_map_iff]
  intro c hc
  have hv := (h c hc).mono fun _ hf => hf.resolved
  exact (Chunk.restored_beq_emptied_iff hr.sound (hrest c hc) hv).mpr
    fun hp => (h c hc).mono fun _ hf => hf.covers hp

def noteText : PropertySchema :=
  { token := "text", givenName := "text" }

def noteReplies : PropertySchema :=
  { token := "replies", givenName := "replies", kind := .embedded, count := .variable }

/-- A type of notes, which have a text and any number of replies. -/
def noteSchema : ChunkSchema :=
  { token := "Note", givenName := "Note", properties := [noteText, noteReplies] }

def noteRegistry : Registry :=
  (empty.register [noteSchema]).value

def note (text : String) (replies : List Chunk) : Chunk :=
  ⟨noteSchema, "note", ⟨[("replies", ⟨noteReplies, replies.map fun c => .embedded (some c)⟩),
    ("text", ⟨noteText, [.string text]⟩)]⟩⟩

theorem property?_note {text token : String} {replies : List Chunk} {p : Property Chunk}
    (h : (note text replies).property? token = some p) :
    Text.same token p.schema.token = true ∧
      (p = ⟨noteReplies, replies.map fun c => .embedded (some c)⟩ ∨
        p = ⟨noteText, [.string text]⟩) := by
  have hm := TokenMap.mem_of_find? h
  rw [Text.same_iff]
  rcases List.mem_cons.mp hm with hm | hm
  · obtain ⟨ht, rfl⟩ := Prod.mk.inj hm
    exact ⟨ht.trans (by decide : "replies" = Text.fold "replies"), .inl rfl⟩
  · obtain ⟨ht, rfl⟩ := Prod.mk.inj (List.mem_singleton.mp hm)
    exact ⟨ht.trans (by decide : "text" = Text.fold "text"), .inr rfl⟩

theorem proper_noteReplies (replies : List Chunk) :
    Property.Proper ⟨noteReplies, replies.map fun c => .embedded (some c)⟩ := by
  have hf : ∀ v ∈ replies.map (fun c => Value.embedded (some c)), v.isFilled = true := by
    intro v hv
    obtain ⟨c, -, rfl⟩ := List.mem_map.mp hv
    rfl
  refine ⟨fun v hv => ?_, nofun, ?_, fun _ _ => hf⟩
  · obtain ⟨c, -, rfl⟩ := List.mem_map.mp hv
    rfl
  · exact List.pairwise_of_forall_mem_list fun v hv _ _ _ => hf v hv

theorem resolved_noteText (text : String) :
    Property.Resolved ⟨noteText, [.string text]⟩ := by
  intro v hv _
  rw [List.mem_singleton.mp hv]
  refine ⟨.string (Value.string text : Value Chunk).plainToken, rfl, ?_⟩
  cases hq : Text.quote? text <;>
    simp [Value.plainToken, Value.emptied, Value.token?, hq, Chunk.beqValue, Value.kind,
      Value.empty]

theorem named_note (text : String) (replies : List Chunk) : (note text replies).Named := by
  refine ⟨(by decide : Xml.isName "Note" = true), fun p hp => ?_⟩
  obtain ⟨s, -, hs⟩ := List.mem_filterMap.mp hp
  rcases (property?_note hs).2 with rfl | rfl
  · exact (by decide : Xml.isName "replies" = true)
  · exact (by decide : Xml.isName "text" = true)

theorem canonical_note (text : String) (replies : List Chunk) :
    (note text replies).held.Canonical := by
  refine ⟨List.pairwise_cons.mpr ⟨fun e he => ?_, List.pairwise_singleton _ _⟩, fun e he => ?_⟩
  · rw [List.mem_singleton.mp he]
    exact (by decide : "replies" < "text")
  · rcases List.mem_cons.mp he with rfl | he
    · exact (by decide : Text.fold "replies" = "replies")
    · rw [List.mem_singleton.mp he]
      exact (by decide : Text.fold "text" = "text")

theorem proper_note (text : String) (replies : List Chunk) : (note text replies).Proper where
  canonical := canonical_note text replies
  declared t p hp := by
    obtain ⟨ht, hp⟩ := property?_note hp
    apply (noteSchema.property?_congr ht).trans
    rcases hp with rfl | rfl
    · exact (by decide : noteSchema.property? "replies" = some noteReplies)
    · exact (by decide : noteSchema.property? "text" = some noteText)
  proper t p hp := by
    rcases (property?_note hp).2 with rfl | rfl
    · exact proper_noteReplies replies
    · exact .of_primitive nofun (fun v hv => by rw [List.mem_singleton.mp hv]; rfl)
        fun n hn => SlotCount.fixed.inj hn

theorem fit_note (text : String) (replies : List Chunk) :
    (note text replies).Fit noteRegistry true where
  bound := (by decide +kernel : noteRegistry.schema? "Note" = some noteSchema)
  named := named_note text replies
  proper := proper_note text replies
  complete _ p hp := by
    rcases List.mem_cons.mp hp with rfl | hp
    · rfl
    · rw [List.mem_singleton.mp hp]
      rfl
  covers _ d hd := by
    have hn : (noteRegistry.default? "Note").isNone = true := by decide +kernel
    exact absurd (hd.symm.trans (Option.isNone_iff_eq_none.mp hn)) nofun
  resolved t p hp := by
    rcases (property?_note hp).2 with rfl | rfl
    · intro v hv hk
      exact absurd ((proper_noteReplies replies).kind_eq v hv) hk
    · exact resolved_noteText text

theorem throughout_note {text : String} {replies : List Chunk}
    (h : ∀ c ∈ replies, c.Throughout (Chunk.Fit noteRegistry true)) :
    (note text replies).Throughout (Chunk.Fit noteRegistry true) := by
  refine .intro (fit_note text replies) fun d hd => ?_
  obtain ⟨e, he, hd⟩ := hd
  rcases List.mem_cons.mp he with rfl | he
  · obtain ⟨v, hv, hvd⟩ := List.mem_filterMap.mp hd
    obtain ⟨c, hc, rfl⟩ := List.mem_map.mp hv
    obtain rfl := Option.some.inj hvd
    exact h _ hc
  · rw [List.mem_singleton.mp he] at hd
    cases hd

theorem exists_readDatabase_write_note :
    ∃ back, noteRegistry.readDatabase true
        (Text.encode (Database.write {} [note "a b" [note "a \"b" []]]).value) = .ok (pure back) ∧
      (back == [note "a b" [note "a \"b" []]].map Chunk.emptied) = true := by
  refine exists_readDatabase_write (.register .empty fun s hs => ?_) true {} fun c hc => ?_
  · rw [List.mem_singleton.mp hs, ChunkSchema.Distinct]
    decide
  · rw [List.mem_singleton.mp hc]
    apply throughout_note
    intro d hd
    rw [List.mem_singleton.mp hd]
    exact throughout_note fun e he => absurd he List.not_mem_nil

end Registry

end ChunkConfig
