import ChunkConfig.Proofs.Building.Reread

namespace ChunkConfig

open Xml (Attribute Element Node)

/-- What a value without chunks in it reads back as. -/
def PropertySchema.restored (p : PropertySchema) (v : Value Chunk) : Value Chunk :=
  match (Property.ofSchema p).coerce v.plainToken with
  | .ok w => w
  | .error _ => v

namespace Chunk

variable (r : Registry) (populate : Bool)

mutual

/-- What a chunk reads back as after it was written. Values are laid over those of a new chunk. -/
def restored : Chunk → Chunk
  | ⟨schema, name, ⟨entries⟩⟩ => ⟨schema, name, ⟨restoredEntries schema entries⟩⟩

def restoredEntries (owner : ChunkSchema) :
    List (String × Property Chunk) → List (String × Property Chunk)
  | [] => []
  | (key, ⟨schema, values⟩) :: rest =>
    let laid := (r.start populate owner schema).restart.overlay 0 (restoredValues schema values)
    (key, ⟨schema, laid.values⟩) :: restoredEntries owner rest

/-- Unfilled slots leave no trace. -/
def restoredValues (schema : PropertySchema) : List (Value Chunk) → List (Value Chunk)
  | [] => []
  | .embedded (some c) :: rest => .embedded (some c.restored) :: restoredValues schema rest
  | .embedded none :: rest => restoredValues schema rest
  | v :: rest => schema.restored v :: restoredValues schema rest

end

def restoredProperty (owner : ChunkSchema) (p : Property Chunk) : Property Chunk :=
  ⟨p.schema, ((r.start populate owner p.schema).restart.overlay 0
    (restoredValues r populate p.schema p.values)).values⟩

theorem restoredEntries_eq (owner : ChunkSchema) (entries : List (String × Property Chunk)) :
    restoredEntries r populate owner entries =
      entries.map fun e => (e.1, restoredProperty r populate owner e.2) := by
  induction entries with
  | nil => rw [restoredEntries, List.map_nil]
  | cons e rest ih =>
    obtain ⟨key, schema, values⟩ := e
    rw [restoredEntries, List.map_cons, ih]
    rfl

theorem restored_eq (c : Chunk) : c.restored r populate =
    ⟨c.schema, c.name, c.held.map (restoredProperty r populate c.schema)⟩ := by
  obtain ⟨schema, name, entries⟩ := c
  rw [restored, restoredEntries_eq]
  rfl

theorem restoredValues_of_embedded {schema : PropertySchema} {vs : List (Value Chunk)}
    (h : ∀ v ∈ vs, v.kind = .embedded) : restoredValues r populate schema vs =
      (vs.filterMap Value.content?).map fun c => .embedded (some (c.restored r populate)) := by
  induction vs with
  | nil => rw [restoredValues]; rfl
  | cons v vs ih =>
    have hi := ih fun w hw => h w (.tail _ hw)
    have hk := h v (.head _)
    cases v with
    | embedded c =>
      cases c with
      | none =>
        rw [restoredValues, hi]
        rfl
      | some c =>
        rw [restoredValues, hi]
        rfl
    | _ => cases hk

theorem restoredValues_of_primitive {schema : PropertySchema} {vs : List (Value Chunk)}
    (h : ∀ v ∈ vs, v.kind ≠ .embedded) :
    restoredValues r populate schema vs = vs.map schema.restored := by
  induction vs with
  | nil => rw [restoredValues, List.map_nil]
  | cons v vs ih =>
    have hi := ih fun w hw => h w (.tail _ hw)
    have hk := h v (.head _)
    cases v with
    | embedded c => exact absurd rfl hk
    | _ => simp only [restoredValues, hi, List.map_cons]

end Chunk

namespace Registry

variable {r : Registry}

theorem buildAll_eq {f : Chunk → Chunk} {nested : Bool} {cs : List Chunk}
    (h : ∀ c ∈ cs, r.buildChunk nested nested c.node.value = pure (some (f c))) :
    r.buildAll nested (cs.map fun c => c.node.value) = pure (cs.map f) := by
  induction cs with
  | nil => rw [List.map_nil, buildAll, List.map_nil]
  | cons c cs ih =>
    rw [List.map_cons, buildAll, h c (.head _), ih fun d hd => h d (.tail _ hd)]
    rfl

end Registry

namespace Property

/-- The values of a property can be read back from the tokens under which they are written. -/
def Readable (p : Property Chunk) : Prop :=
  ∀ v ∈ p.values, v.kind ≠ .embedded → ∃ w, p.coerce v.plainToken = .ok w

theorem Readable.coerce_eq {p : Property Chunk} (h : p.Readable) {v : Value Chunk}
    (hv : v ∈ p.values) (hk : v.kind ≠ .embedded) :
    p.coerce v.plainToken = .ok (p.schema.restored v) := by
  obtain ⟨w, hw⟩ := h v hv hk
  rw [PropertySchema.restored, coerce_congr (schema_ofSchema p.schema), hw]

theorem storeTokens_plainTokens {p q : Property Chunk} (hs : q.schema = p.schema) (hp : p.Proper)
    (hq : q.Proper) (hk : p.schema.kind ≠ .embedded) (hr : p.Readable) :
    q.restart.storeTokens 0 (p.values.map Value.plainToken) =
      ⟨q.restart.overlay 0 (p.values.map p.schema.restored), p.values.length, none⟩ := by
  have hcoerce : List.Forall₂ (fun token v => q.restart.coerce token = .ok v)
      (p.values.map Value.plainToken) (p.values.map p.schema.restored) := by
    rw [List.forall₂_map_left_iff, List.forall₂_map_right_iff, List.forall₂_same]
    intro v hv
    rw [coerce_congr (q.schema_restart.trans hs)]
    exact hr.coerce_eq hv (hp.not_embedded hk v hv)
  have hroom : q.restart.Room 0 (p.values.map p.schema.restored).length := by
    refine room_restart fun n hn => ⟨hq.slots n hn, ?_⟩
    rw [List.length_map, hp.slots n (hs ▸ hn)]
  rw [storeTokens_eq hcoerce hroom, List.length_map, Nat.zero_add]

end Property

namespace Chunk

theorem fillContent_tokens {p q : Property Chunk} (hs : q.schema = p.schema) (hp : p.Proper)
    (hq : q.Proper) (hk : p.schema.kind ≠ .embedded) (hr : p.Readable) (element : String) :
    fillContent q.restart 0 element (content [] p.writtenTokens) =
      pure (q.restart.overlay 0 (p.values.map p.schema.restored)) := by
  rw [fillContent_writtenTokens (hp.not_embedded hk),
    Property.storeTokens_plainTokens hs hp hq hk hr]
  rfl

end Chunk

/-- What it takes that a chunk can be read back: its type is registered, and it holds what a chunk
of this type can be filled with. -/
structure Chunk.Restorable (r : Registry) (populate : Bool) (c : Chunk) : Prop where
  bound : r.schema? c.schema.token = some c.schema
  proper : c.Proper
  complete : populate = true → ∀ p ∈ c.schema.properties, (c.property? p.token).isSome = true
  readable : ∀ token p, c.property? token = some p → p.Readable

namespace Registry

variable {r : Registry} {populate : Bool}

/-- The element of a property is read as the values of the property laid over those of a new
chunk. -/
theorem rereadProperty_eq (hr : r.Sound) {s : ChunkSchema} {p : Property Chunk}
    (hb : r.schema? s.token = some s) (hp : s.property? p.schema.token = some p.schema)
    (hpp : p.Proper) (hv : p.Readable)
    (hc : ∀ e ∈ p.contents,
      r.buildChunk populate populate e.node.value = pure (some (e.restored r populate))) :
    r.rereadProperty populate s p = pure (Chunk.restoredProperty r populate s p) := by
  obtain ⟨hs, hq⟩ := start_spec hr hb hp populate
  have hl : ∀ vs, (r.start populate s p.schema).restart.overlay 0 vs =
      ⟨p.schema, ((r.start populate s p.schema).restart.overlay 0 vs).values⟩ := by
    intro vs
    have hr := ((r.start populate s p.schema).schema_restart).trans hs
    exact congrArg (Property.mk · _) hr
  rw [rereadProperty]
  split
  · next hk =>
    have hkind : ∀ v ∈ p.values, v.kind = .embedded := fun v hm => (hpp.kind_eq v hm).trans hk
    rw [buildAll_eq hc, pure_bind, Chunk.storeChunks_contents hs hpp hq hk, Chunk.restoredProperty,
      Chunk.restoredValues_of_embedded r populate hkind, hl]
    rfl
  · next hk =>
    rw [Chunk.fillContent_tokens hs hpp hq hk hv, Chunk.restoredProperty,
      Chunk.restoredValues_of_primitive r populate (hpp.not_embedded hk), hl]

theorem holdAll_restored (hr : r.Sound) {c d : Chunk} (h : c.Restorable r populate)
    (hs : d.schema = c.schema) (hn : d.name = c.name) (hd : d.Proper)
    (hp : ∀ t, d.property? t =
      if populate then (c.schema.property? t).map (r.start true c.schema) else none) :
    d.holdAll (c.properties.map (Chunk.restoredProperty r populate c.schema)) =
      c.restored r populate := by
  have hheld : (d.holdAll (c.properties.map (Chunk.restoredProperty r populate c.schema))).held =
      c.held.map (Chunk.restoredProperty r populate c.schema) := by
    apply (Chunk.canonical_holdAll hd.canonical _).ext (h.proper.canonical.map _)
    intro t
    have hprop := property?_holdAll_properties (d := d) h.proper (hr.schema _ _ h.bound).2
      (f := Chunk.restoredProperty r populate c.schema) (fun _ _ => rfl) t
    refine Eq.trans hprop ?_
    rw [hp, TokenMap.find?_map, ← Chunk.property?]
    cases hc : c.property? t with
    | some p => rfl
    | none =>
      cases populate with
      | false => rfl
      | true =>
        cases hq : c.schema.property? t with
        | none => rfl
        | some q =>
          have hcq := h.complete rfl q (List.mem_of_find?_eq_some hq)
          rw [c.property?_congr (ChunkSchema.same_of_property? hq), hc] at hcq
          cases hcq
  rw [Chunk.restored_eq]
  exact Chunk.ext ((d.schema_holdAll _).trans hs) ((d.name_holdAll _).trans hn) hheld

/-- The element of a chunk is read back as what it takes for the values of the chunk to be laid
over those of a new one. -/
theorem buildChunk_value_node (hr : r.Sound) {c : Chunk}
    (h : c.Throughout (Chunk.Restorable r populate)) :
    r.buildChunk populate populate c.node.value = pure (some (c.restored r populate)) := by
  induction h with
  | @intro c here _ ih =>
    obtain ⟨d, hs, hn, hd, hprop, hbuild⟩ := buildChunk_node hr here.bound here.proper populate
    have hread : ∀ p ∈ c.properties, r.rereadProperty populate c.schema p =
        pure (Chunk.restoredProperty r populate c.schema p) := by
      intro p hp
      have hself := here.proper.declares.property?_self hp
      exact rereadProperty_eq hr here.bound (here.proper.declared _ _ hself)
        (here.proper.proper _ _ hself) (here.readable _ _ hself)
        fun e he => ih e (Chunk.embeds_of_mem_properties hp he)
    rw [hbuild, Reported.mapM_eq_pure hread, map_pure, holdAll_restored hr here hs hn hd hprop]

end Registry

end ChunkConfig
