import ChunkConfig.Proofs.Building.Built
import ChunkConfig.Proofs.Chunk.Node
import ChunkConfig.Proofs.Text.Tokens
import Mathlib.Data.List.Find

namespace ChunkConfig

open Xml (Element Node)

theorem Reported.mapM_eq_pure {α β : Type} {f : α → Reported β} {g : α → β} {as : List α}
    (h : ∀ a ∈ as, f a = pure (g a)) : as.mapM f = pure (as.map g) := by
  induction as with
  | nil => rfl
  | cons a as ih =>
    rw [List.mapM_cons, h a (.head _), ih fun b hb => h b (.tail _ hb)]
    rfl

namespace Property

theorem writtenTokens_of_primitive {p : Property Chunk} (h : ∀ v ∈ p.values, v.kind ≠ .embedded) :
    p.writtenTokens = p.values.map Value.writtenToken := by
  rw [writtenTokens, List.filter_eq_self.mpr fun v hv => decide_eq_true (h v hv)]

theorem writtenTokens_of_embedded {p : Property Chunk} (h : ∀ v ∈ p.values, v.kind = .embedded) :
    p.writtenTokens = [] := by
  rw [writtenTokens, List.filter_eq_nil_iff.mpr fun v hv => ?_]
  · rfl
  · rw [decide_eq_true_iff]
    exact not_not.mpr (h v hv)

end Property

namespace Chunk

theorem fillContent_writtenTokens {p : Property Chunk} (h : ∀ v ∈ p.values, v.kind ≠ .embedded)
    (q : Property Chunk) (element : String) :
    fillContent q 0 element (content [] p.writtenTokens) =
      ⟨(q.storeTokens 0 (p.values.map Value.plainToken)).property,
        (q.storeTokens 0 (p.values.map Value.plainToken)).problem.toList⟩ := by
  have htokens := Value.tokens_intercalate_writtenToken h
  rw [Property.writtenTokens_of_primitive h, content]
  split
  · next he =>
    rw [List.isEmpty_iff, List.map_eq_nil_iff] at he
    rw [fillContent, he]
    rfl
  · rw [List.nil_append, fillContent, Property.fill, htokens]
    exact Reported.ext rfl (List.append_nil _)

theorem storeChunks_contents {p q : Property Chunk} {f : Chunk → Chunk} (hs : q.schema = p.schema)
    (hp : p.Proper) (hq : q.Proper) (hk : p.schema.kind = .embedded) :
    storeChunks q.restart 0 (p.contents.map f) =
      pure (q.restart.overlay 0 (p.contents.map fun c => .embedded (some (f c)))) := by
  have hroom : q.restart.Room 0 (p.contents.map f).length := by
    refine Property.room_restart fun n hn => ⟨hq.slots n hn, ?_⟩
    have hl := p.contents_length_le
    rwa [hp.slots n (hs ▸ hn), ← List.length_map f] at hl
  rw [storeChunks_eq ((congrArg _ (q.schema_restart.trans hs)).trans hk) hroom, List.map_map]
  rfl

end Chunk

namespace Registry

variable {r : Registry} {populate : Bool}

theorem start_spec (hr : r.Sound) {token t : String} {s : ChunkSchema} {p : PropertySchema}
    (hs : r.schema? token = some s) (hp : s.property? t = some p) (populate : Bool) :
    (r.start populate s p).schema = p ∧ (r.start populate s p).Proper := by
  cases populate with
  | false =>
    rw [start, if_neg Bool.false_ne_true]
    exact ⟨Property.schema_ofSchema p, Property.proper_ofSchema p⟩
  | true =>
    obtain ⟨c, -, rfl, hc, hprop⟩ := create_eq hr hs true
    have ht := hprop t
    rw [if_pos rfl, hp, Option.map_some] at ht
    exact ⟨Option.some.inj ((hc.declared t _ ht).symm.trans hp), hc.proper t _ ht⟩

/-- What becomes of a property when its element is read over the values of a new chunk. -/
def rereadProperty (r : Registry) (populate : Bool) (owner : ChunkSchema) (p : Property Chunk) :
    Reported (Property Chunk) :=
  if p.schema.kind = .embedded then do
    let chunks ← r.buildAll populate (p.contents.map fun c => c.node.value)
    Chunk.storeChunks (r.start populate owner p.schema).restart 0 chunks
  else
    Chunk.fillContent (r.start populate owner p.schema).restart 0 p.schema.token
      (Chunk.content [] p.writtenTokens)

theorem schema_rereadProperty (owner : ChunkSchema) (p : Property Chunk) :
    (r.rereadProperty populate owner p).value.schema =
      (r.start populate owner p.schema).schema := by
  refine Eq.trans ?_ (r.start populate owner p.schema).schema_restart
  rw [rereadProperty]
  split
  · exact (Chunk.evolves_storeChunks (P := fun _ => True) _ 0 fun _ _ => trivial).schema_eq
  · exact (Chunk.evolves_fillContent (P := fun _ => True) _ 0 _ _).schema_eq

theorem applyNode_propertyElement {d : Chunk} {p : Property Chunk}
    (hp : d.schema.property? p.schema.token = some p.schema)
    (ho : d.open? p.schema.token = some (r.start populate d.schema p.schema)) (hpp : p.Proper) :
    r.applyNode populate d (Chunk.propertyElement p).node =
      d.hold p.schema.token <$> r.rereadProperty populate d.schema p := by
  rw [Element.node, applyNode]
  simp only [Chunk.propertyElement, hp, ho, rereadProperty]
  split
  · next hk =>
    have hkind : ∀ v ∈ p.values, v.kind = .embedded := fun v hm => (hpp.kind_eq v hm).trans hk
    rw [Property.writtenTokens_of_embedded hkind, Chunk.content, if_pos List.isEmpty_nil, map_bind]
    rfl
  · next hk =>
    rw [Property.contents_of_primitive (hpp.not_embedded hk), List.map_nil]
    rfl

theorem applyAll_propertyElements (hr : r.Sound) {ps : List (Property Chunk)} {d : Chunk}
    (hb : r.schema? d.schema.token = some d.schema)
    (hp : ∀ p ∈ ps, d.schema.property? p.schema.token = some p.schema ∧ p.Proper)
    (hn : (ps.map fun p => Text.fold p.schema.token).Nodup)
    (ho : ∀ p ∈ ps, d.open? p.schema.token = some (r.start populate d.schema p.schema)) :
    r.applyAll populate d (ps.map fun p => (Chunk.propertyElement p).node) =
      d.holdAll <$> ps.mapM (r.rereadProperty populate d.schema) := by
  induction ps generalizing d with
  | nil => rw [List.map_nil, applyAll]; rfl
  | cons p ps ih =>
    obtain ⟨hpn, hps⟩ := List.nodup_cons.mp hn
    obtain ⟨hs, hpp⟩ := hp p (.head _)
    have hschema : (r.rereadProperty populate d.schema p).value.schema = p.schema :=
      (schema_rereadProperty d.schema p).trans (start_spec hr hb hs populate).1
    have hrest : ∀ q, r.applyAll populate (d.hold p.schema.token q)
        (ps.map fun p => (Chunk.propertyElement p).node) =
          (d.hold p.schema.token q).holdAll <$> ps.mapM (r.rereadProperty populate d.schema) := by
      intro q
      apply ih (d := d.hold p.schema.token q) hb (fun q hq => hp q (.tail _ hq)) hps
      intro q hq
      rw [Chunk.open?_hold]
      · exact ho q (.tail _ hq)
      · rw [← Bool.not_eq_true, Text.same_iff]
        intro heq
        exact hpn (List.mem_map.mpr ⟨q, hq, heq⟩)
    rw [List.map_cons, applyAll, applyNode_propertyElement hs (ho p (.head _)) hpp, List.mapM_cons]
    -- The chunk holds what was read under the token of its schema, which is that of the element.
    apply Reported.ext
    · simp only [Reported.value_bind, Reported.value_map, Reported.value_pure, hrest]
      rw [Chunk.holdAll, Chunk.holdAll, List.foldl_cons, hschema]
    · simp only [Reported.problems_bind, Reported.problems_map, Reported.problems_pure,
        Reported.value_map, hrest, List.append_nil]

theorem property?_holdAll_properties {c d : Chunk} (hc : c.Proper) (hdist : c.schema.Distinct)
    {f : Property Chunk → Property Chunk}
    (hf : ∀ p ∈ c.properties, (f p).schema = p.schema) (t : String) :
    (d.holdAll (c.properties.map f)).property? t =
      ((c.property? t).map f).or (d.property? t) := by
  have htoken : ∀ p ∈ c.properties, (f p).schema.token = p.schema.token :=
    fun p hp => congrArg PropertySchema.token (hf p hp)
  have hnodup : ((c.properties.map f).map fun p => Text.fold p.schema.token).Nodup := by
    have hsame : (c.properties.map f).map (fun p => Text.fold p.schema.token) =
        c.properties.map fun p => Text.fold p.schema.token := by
      rw [List.map_map]
      exact List.map_congr_left fun p hp => congrArg Text.fold (htoken p hp)
    rw [hsame]
    exact hc.declares.nodup_properties hdist
  have hfind : ((c.properties.map f).find? fun p => Text.same p.schema.token t) =
      (c.property? t).map f := by
    rw [List.find?_map, ← hc.declares.find?_properties hdist]
    congr 1
    apply List.find?_congr
    intro p hp
    rw [Function.comp_apply, htoken p hp]
  rw [Chunk.property?_holdAll hnodup, hfind]

/-- The element of a chunk is read property by property into a new chunk of its type and name. -/
theorem buildChunk_node (hr : r.Sound) {c : Chunk}
    (hb : r.schema? c.schema.token = some c.schema) (hc : c.Proper) (populate : Bool) :
    ∃ d : Chunk, d.schema = c.schema ∧ d.name = c.name ∧ d.Proper ∧
      (∀ t, d.property? t =
        if populate then (c.schema.property? t).map (r.start true c.schema) else none) ∧
      r.buildChunk populate populate c.node.value =
        (fun ps => some (d.holdAll ps)) <$>
          c.properties.mapM (r.rereadProperty populate c.schema) := by
  obtain ⟨⟨s, name, held⟩, hd, hs, hdp, hprop⟩ := create_eq hr hb populate
  obtain rfl : s = c.schema := hs
  have hself : ∀ p ∈ c.properties, c.schema.property? p.schema.token = some p.schema ∧ p.Proper :=
    fun p hp => ⟨hc.declared _ _ (hc.declares.property?_self hp),
      hc.proper _ _ (hc.declares.property?_self hp)⟩
  have hopen : ∀ p ∈ c.properties, (⟨c.schema, c.name, held⟩ : Chunk).open? p.schema.token =
      some (r.start populate c.schema p.schema) := by
    intro p hp
    have hproperty : (⟨c.schema, c.name, held⟩ : Chunk).property? p.schema.token =
        if populate then (c.schema.property? p.schema.token).map (r.start true c.schema)
        else none :=
      hprop p.schema.token
    rw [Chunk.open?, hproperty, (hself p hp).1]
    cases populate <;> rfl
  have hall := applyAll_propertyElements (d := ⟨c.schema, c.name, held⟩) hr hb hself
    (hc.declares.nodup_properties (hr.schema _ _ hb).2) hopen
  refine ⟨⟨c.schema, c.name, held⟩, rfl, rfl, ⟨hdp.canonical, hdp.declared, hdp.proper⟩, hprop, ?_⟩
  rw [Chunk.value_node, buildChunk, hd]
  simp only [List.foldlM_cons, List.foldlM_nil, Chunk.applyAttribute, Text.same_self, if_true,
    pure_bind, hall, bind_pure_comp, Functor.map_map]

/-- What a chunk is read back as. -/
def rereadChunk (r : Registry) (populate : Bool) (c : Chunk) : Chunk :=
  (r.buildChunk populate populate c.node.value).value.getD c

variable {c : Chunk}

theorem value_buildChunk_node (hr : r.Sound) (hb : r.schema? c.schema.token = some c.schema)
    (hc : c.Proper) (populate : Bool) :
    (r.buildChunk populate populate c.node.value).value = some (r.rereadChunk populate c) := by
  obtain ⟨d, -, -, -, -, hbuild⟩ := buildChunk_node hr hb hc populate
  rw [rereadChunk, hbuild]
  rfl

/-- Each property of a chunk is read back on its own. -/
theorem property?_rereadChunk (hr : r.Sound) (hb : r.schema? c.schema.token = some c.schema)
    (hc : c.Proper) (populate : Bool) {token : String} {p : Property Chunk}
    (hp : c.property? token = some p) : (r.rereadChunk populate c).property? token =
      some (r.rereadProperty populate c.schema p).value := by
  obtain ⟨d, -, -, -, -, hbuild⟩ := buildChunk_node hr hb hc populate
  have hschema : ∀ q ∈ c.properties,
      (r.rereadProperty populate c.schema q).value.schema = q.schema := by
    intro q hq
    have hdecl := hc.declared _ _ (hc.declares.property?_self hq)
    exact (schema_rereadProperty c.schema q).trans (start_spec hr hb hdecl populate).1
  rw [rereadChunk, hbuild, Reported.value_map, Option.getD_some, Reported.value_mapM,
    property?_holdAll_properties hc (hr.schema _ _ hb).2 hschema, hp]
  rfl

theorem value_rereadProperty_of_primitive (owner : ChunkSchema) {p : Property Chunk} (hp : p.Proper)
    (hk : p.schema.kind ≠ .embedded) : (r.rereadProperty populate owner p).value =
      ((r.start populate owner p.schema).restart.storeTokens 0
        (p.values.map Value.plainToken)).property := by
  rw [rereadProperty, if_neg hk, Chunk.fillContent_writtenTokens (hp.not_embedded hk)]

theorem value_buildAll {f : Chunk → Chunk} {nested : Bool} {cs : List Chunk}
    (h : ∀ c ∈ cs, (r.buildChunk nested nested c.node.value).value = some (f c)) :
    (r.buildAll nested (cs.map fun c => c.node.value)).value = cs.map f := by
  induction cs with
  | nil => rw [List.map_nil, buildAll, List.map_nil]; rfl
  | cons c cs ih =>
    rw [List.map_cons, buildAll, List.map_cons, ← ih fun d hd => h d (.tail _ hd)]
    simp only [Reported.value_bind, Reported.value_pure, h c (.head _)]
    rfl

theorem value_rereadProperty_of_embedded (hr : r.Sound) {owner : ChunkSchema} {p : Property Chunk}
    (hb : r.schema? owner.token = some owner)
    (hs : owner.property? p.schema.token = some p.schema) (hp : p.Proper)
    (hk : p.schema.kind = .embedded)
    (hc : ∀ c ∈ p.contents, r.schema? c.schema.token = some c.schema ∧ c.Proper) :
    (r.rereadProperty populate owner p).value =
      (r.start populate owner p.schema).restart.overlay 0
        (p.contents.map fun c => .embedded (some (r.rereadChunk populate c))) := by
  obtain ⟨hstart, hq⟩ := start_spec hr hb hs populate
  have hchunks : (r.buildAll populate (p.contents.map fun c => c.node.value)).value =
      p.contents.map (r.rereadChunk populate) :=
    value_buildAll fun c hm => value_buildChunk_node hr (hc c hm).1 (hc c hm).2 populate
  rw [rereadProperty, if_pos hk, Reported.value_bind, hchunks,
    Chunk.storeChunks_contents hstart hp hq hk]
  rfl

end Registry

end ChunkConfig
