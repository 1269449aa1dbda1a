import ChunkConfig.Proofs.Building.Given

namespace ChunkConfig

open Xml (Attribute Element Node)

theorem PropertySchema.valuesOf_embedded {p : PropertySchema} (hk : p.kind = .embedded)
    (tokens : List String) : p.valuesOf (α := Chunk) tokens = [] := by
  cases tokens with
  | nil => rfl
  | cons token rest =>
    have he : (Property.ofSchema p : Property Chunk).coerce token =
        .error (.textForEmbedded p.token) := by
      rw [Property.coerce, Property.schema_ofSchema, hk]
    rw [valuesOf, he]

theorem Property.Proper.room {q : Property Chunk} (hq : q.Proper) : q.Room 0 0 :=
  ⟨Nat.zero_le _, fun n hn => ⟨hq.slots n hn, Nat.zero_le _⟩⟩

namespace Chunk

variable {r : Registry} {nested : Bool} {c : Chunk} {p : PropertySchema}

theorem Proper.opened (hc : c.Proper) (hs : c.schema.property? p.token = some p) :
    ((c.property? p.token).getD (.ofSchema p)).Proper ∧
      ((c.property? p.token).getD (.ofSchema p)).schema = p := by
  obtain ⟨hp, hq⟩ := hc.of_open? (open?_eq hs)
  exact ⟨hq, (Option.some.inj (hs.symm.trans hp)).symm⟩

theorem fill_eq_apply (r : Registry) (nested : Bool) {q : Property Chunk} (hq : q.Proper)
    (a : Attribute) :
    ((if q.schema.kind = .embedded then q else q.restart).fill 0 a.value).property =
      (q.schema.attributeMention a).apply r nested q := by
  rw [PropertySchema.attributeMention]
  split
  · next hk =>
    rw [Property.fill, (Property.storeTokens_cut hq.room _).1, PropertySchema.valuesOf_embedded hk,
      SlotCount.cut_nil, Property.overlay_nil]
    rfl
  · next hk =>
    rw [Property.fill, (Property.storeTokens_cut hq.restart.room _).1, q.schema_restart,
      Mention.apply, Given.map_resolve_value]

/-- An attribute changes the property that it mentions, and no other one. -/
theorem property?_applyAttribute (r : Registry) (nested : Bool) (hc : c.Proper)
    (hs : c.schema.property? p.token = some p) (a : Attribute) :
    (c.applyAttribute a).value.property? p.token =
      if p.isMentionedBy a then
        Mention.absorb r nested p (c.property? p.token) (p.attributeMention a)
      else c.property? p.token := by
  rw [applyAttribute, PropertySchema.isMentionedBy]
  cases hn : Text.same a.name "name" with
  | true => rfl
  | false =>
    rw [if_neg Bool.false_ne_true, Bool.not_false, Bool.true_and]
    cases ha : Text.same a.name p.token with
    | true =>
      have hp : c.schema.property? a.name = some p :=
        (c.schema.property?_congr ha).trans hs
      obtain ⟨hq, hqs⟩ := hc.opened hs
      rw [open?_eq hp, hp, c.property?_congr ha, if_pos rfl, Mention.absorb]
      generalize (c.property? p.token).getD (.ofSchema p) = q at *
      obtain rfl := hqs
      rw [← fill_eq_apply r nested hq a]
      exact (c.property?_hold _ _ _).trans (if_pos (Text.same_comm _ _ ▸ ha))
    | false =>
      have hne : ¬ Text.same p.token a.name = true := by
        rw [Text.same_comm, ha]
        exact Bool.false_ne_true
      rw [if_neg Bool.false_ne_true]
      split
      · rw [fill, property?_hold, if_neg hne]
      · rfl

end Chunk

namespace Registry

variable {r : Registry} {nested populate : Bool} {c : Chunk} {p : PropertySchema}

theorem chunkElements_cons (r : Registry) (node : Node) (rest : List Node) :
    r.chunkElements (node :: rest) =
      (node.element?.filter fun e => (r.schema? e.name).isSome).toList ++ r.chunkElements rest := by
  rw [chunkElements, List.filterMap_cons]
  cases node.element? with
  | none => rfl
  | some e =>
    rw [List.filter_cons, Option.filter_some]
    split <;> rfl

theorem map_value_buildAll {nodes : List Node} (hp : ∀ node ∈ nodes, node.Parsed) :
    (r.buildAll nested nodes).value.map (fun c => Value.embedded (some c)) =
      (r.chunkElements nodes).map fun e => (Given.chunk e).resolve r nested := by
  induction nodes with
  | nil =>
    rw [buildAll]
    rfl
  | cons node rest ih =>
    have hrest := ih fun n hn => hp n (.tail _ hn)
    rw [buildAll]
    cases hp node (.head _) with
    | @element name as cs =>
      have hb := r.buildChunk_element nested nested ⟨name, as, cs⟩
      have hres : (Given.chunk ⟨name, as, cs⟩).resolve r nested =
          .embedded (r.buildChunk nested nested (.element name as cs)).value := by
        rw [Given.resolve, Element.node]
      rw [chunkElements_cons, Node.element?, Option.filter_some, ← hb, Option.isSome_map,
        Element.node]
      rw [Reported.value_bind, Reported.value_bind, Reported.value_pure, List.map_append,
        List.map_append, hrest]
      generalize (r.buildChunk nested nested (.element name as cs)).value = x at *
      cases x with
      | none => rfl
      | some c =>
        rw [Option.isSome_some, if_pos rfl, Option.toList_some, Option.toList_some,
          List.map_singleton, List.map_singleton, hres]
    | _ => exact hrest

theorem storeChunks_eq_apply {q : Property Chunk} (hq : q.Proper)
    (hk : q.schema.kind = .embedded) (f : Element) (hp : ∀ node ∈ f.children, node.Parsed) :
    (Chunk.storeChunks q.restart 0 (r.buildAll nested f.children).value).value =
      (r.elementMention q.schema f).apply r nested q := by
  rw [elementMention, if_pos hk, Chunk.storeChunks_cut hq.restart.room
    ((congrArg _ q.schema_restart).trans hk), map_value_buildAll hp, q.schema_restart,
    Mention.apply, List.map_map, SlotCount.cut_map]
  rfl

theorem fillContent_eq_apply {q : Property Chunk} (hq : q.Proper)
    (hk : q.schema.kind ≠ .embedded) (f : Element) :
    (Chunk.fillContent q.restart 0 f.name f.children).value =
      (r.elementMention q.schema f).apply r nested q := by
  rw [elementMention, if_neg hk, Chunk.fillContent_cut hq.restart.room, q.schema_restart,
    Mention.apply, Given.map_resolve_value]

theorem property?_applyNode_element (hc : c.Proper) (hs : c.schema.property? p.token = some p)
    (f : Element) (hp : ∀ node ∈ f.children, node.Parsed) :
    (r.applyNode nested c f.node).value.property? p.token =
      if Text.same f.name p.token then
        Mention.absorb r nested p (c.property? p.token) (r.elementMention p f)
      else c.property? p.token := by
  rw [Element.node, applyNode]
  cases ha : Text.same f.name p.token with
  | true =>
    have hf : c.schema.property? f.name = some p := (c.schema.property?_congr ha).trans hs
    have hself : Text.same p.token f.name = true := Text.same_comm _ _ ▸ ha
    obtain ⟨hq, hqs⟩ := hc.opened hs
    rw [Chunk.open?_eq hf, hf, c.property?_congr ha, if_pos rfl, Mention.absorb]
    generalize (c.property? p.token).getD (.ofSchema p) = q at *
    obtain rfl := hqs
    by_cases hk : q.schema.kind = .embedded
    · simp only [hk, if_true]
      rw [← storeChunks_eq_apply hq hk f hp]
      exact (c.property?_hold _ _ _).trans (if_pos hself)
    · simp only [hk, if_false]
      rw [← fillContent_eq_apply hq hk f]
      exact (c.property?_hold _ _ _).trans (if_pos hself)
  | false =>
    have hne : ¬ Text.same p.token f.name = true := by
      rw [Text.same_comm, ha]
      exact Bool.false_ne_true
    rw [if_neg Bool.false_ne_true]
    split
    · split
      all_goals exact (c.property?_hold _ _ _).trans (if_neg hne)
    · rfl

theorem value_applyNode {node : Node} (hp : node.Parsed) (he : node.element? = none) :
    (r.applyNode nested c node).value = c := by
  cases hp with
  | element => cases he
  | _ => rfl

theorem Sound.maintains_proper (hr : r.Sound) (nested : Bool) :
    r.Maintains nested (fun _ c => c.Proper) fun _ => True where
  create populate token c hc := by
    have hb : c.Built r populate fun _ => True := built_create hr (fun _ _ _ _ _ => trivial) hc
    exact hb.proper
  rename _ _ _ hc := ⟨hc.canonical, hc.declared, hc.proper⟩
  hold populate c token s p q hc hs hp hq := by
    obtain ⟨hps, hpp⟩ := hc.of_open? hp
    obtain rfl := Option.some.inj (hs.symm.trans hps)
    exact hc.hold (hps.trans (congrArg some hq.evolves.schema_eq.symm)) (hq.proper hpp)
  closed _ _ := trivial

theorem Sound.proper_applyAttribute (hr : r.Sound) (hc : c.Proper) (a : Attribute) :
    (c.applyAttribute a).value.Proper :=
  @Maintains.applyAttribute r true _ _ true (hr.maintains_proper true) c hc a

theorem Sound.proper_applyNode (hr : r.Sound) (nested : Bool) (hc : c.Proper) (node : Node) :
    (r.applyNode nested c node).value.Proper :=
  @Maintains.applyNode r nested _ _ (hr.maintains_proper nested) true node c hc

theorem Sound.proper_applyAll (hr : r.Sound) (nested : Bool) (hc : c.Proper) (nodes : List Node) :
    (r.applyAll nested c nodes).value.Proper :=
  @Maintains.applyAll r nested _ _ (hr.maintains_proper nested) true nodes c hc

theorem Sound.proper_attributes (hr : r.Sound) (hc : c.Proper) (as : List Attribute) :
    (as.foldlM Chunk.applyAttribute c).value.Proper :=
  @Maintains.foldlM_applyAttribute r true _ _ true (hr.maintains_proper true) as c hc

theorem property?_attributes (hr : r.Sound) (nested : Bool) (as : List Attribute) (hc : c.Proper)
    (hs : c.schema.property? p.token = some p) :
    (as.foldlM Chunk.applyAttribute c).value.property? p.token =
      ((as.filter p.isMentionedBy).map p.attributeMention).foldl (Mention.absorb r nested p)
        (c.property? p.token) := by
  induction as generalizing c with
  | nil => rfl
  | cons a as ih =>
    rw [List.foldlM_cons, Reported.value_bind,
      ih (hr.proper_applyAttribute hc a) ((c.schema_applyAttribute a).symm ▸ hs),
      Chunk.property?_applyAttribute r nested hc hs a, List.filter_cons]
    split <;> rfl

theorem property?_applyAll (hr : r.Sound) {nodes : List Node} (hp : ∀ node ∈ nodes, node.Parsed)
    (hc : c.Proper) (hs : c.schema.property? p.token = some p) :
    (r.applyAll nested c nodes).value.property? p.token =
      (((nodes.filterMap Node.element?).filter fun f => Text.same f.name p.token).map
        (r.elementMention p)).foldl (Mention.absorb r nested p) (c.property? p.token) := by
  induction nodes generalizing c with
  | nil =>
    rw [applyAll]
    rfl
  | cons node rest ih =>
    rw [applyAll, Reported.value_bind, ih (fun n hn => hp n (.tail _ hn))
      (hr.proper_applyNode nested hc node) ((r.schema_applyNode nested c node).symm ▸ hs)]
    cases hf : node.element? with
    | none => rw [value_applyNode (hp node (.head _)) hf, List.filterMap_cons_none hf]
    | some f =>
      obtain rfl := Node.eq_node_of_element? hf
      rw [property?_applyNode_element hc hs f (hp f.node (.head _)).children,
        List.filterMap_cons_some hf, List.filter_cons]
      split <;> rfl

/-- The chunk of an element holds what a new chunk holds, with what the element gives for the
properties that it mentions. -/
theorem exists_buildChunk (hr : r.Sound) {e : Element} (hp : e.node.Parsed) {s : ChunkSchema}
    (hs : r.schema? e.name = some s) (nested populate : Bool) : ∃ new c,
      r.create e.name populate = .ok new ∧
      (r.buildChunk nested populate e.node).value = some c ∧ c.schema = s ∧ c.Proper ∧
      ∀ p ∈ s.properties, c.property? p.token =
        (r.mentions p e).foldl (Mention.absorb r nested p) (new.property? p.token) := by
  obtain ⟨new, hnew, hns, hproper, -⟩ := create_eq hr hs populate
  have has := hr.proper_attributes hproper e.attributes
  have hschema := (new.schema_foldlM_applyAttribute e.attributes).trans hns
  refine ⟨new, _, hnew, ?_, (r.schema_applyAll nested _ e.children).trans hschema,
    hr.proper_applyAll nested has e.children, fun p hps => ?_⟩
  · rw [Element.node, buildChunk, hnew]
    rfl
  · have hdist := (hr.schema _ _ hs).2.property?_of_mem hps
    rw [property?_applyAll hr hp.children has (hschema.symm ▸ hdist),
      property?_attributes hr nested e.attributes hproper (hns.symm ▸ hdist), mentions,
      List.foldl_append]

end Registry

end ChunkConfig
