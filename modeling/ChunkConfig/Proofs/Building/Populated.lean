import ChunkConfig.Proofs.Building.Alike
import ChunkConfig.Proofs.Building.Taken
import ChunkConfig.Proofs.Registry.Run
import ChunkConfig.Source

namespace ChunkConfig

open Xml (Element Node)

/-- How a property `p` of a chunk that was not populated and the same property `q` of one that was
go together, where the document gives `m` and new populated chunks have `d`. -/
structure Mention.Agrees (m : Mention) (p q d : Property Chunk) : Prop where
  schema_eq : p.schema = d.schema ∧ q.schema = d.schema
  value : ∀ (i : Nat) (v : Value Chunk), m.slots[i]? = some (.value v) →
    p.values[i]? = some v ∧ q.values[i]? = some v
  chunk : ∀ (i : Nat) (e : Element), m.slots[i]? = some (.chunk e) →
    ∃ c c', p.values[i]? = some (.embedded (some c)) ∧ q.values[i]? = some (.embedded (some c'))
  length : ∀ n, d.schema.count = .fixed n → p.values.length = n ∧ q.values.length = n
  unset : ∀ n, d.schema.count = .fixed n → ∀ i, i < n → m.slots[i]? = none →
    p.values[i]? = some (.empty d.schema.kind) ∧ q.values[i]? = d.values[i]?
  restarted : d.schema.count = .variable → ∀ gs, m = some gs →
    p.values.length = gs.length ∧ q.values.length = gs.length
  kept : d.schema.count = .variable → m = none → p.values = [] ∧ q = d

/-- Whether a chunk that was not populated and one that was go together, as chunks of an element:
they hold what the element gives, and the populated one has the default values elsewhere. -/
inductive Registry.Corresponds (r : Registry) : Element → Chunk → Chunk → Prop
  | intro {e : Element} {c c' new : Chunk} (created : r.create e.name true = .ok new)
    (schema_eq : c.schema = new.schema ∧ c'.schema = new.schema) (name_eq : c.name = c'.name)
    (mentioned : ∀ p ∈ new.schema.properties,
      (c.property? p.token).isSome = true ↔ r.mentions p e ≠ [])
    (untouched : ∀ token, c.property? token = none → c'.property? token = new.property? token)
    (held : ∀ token p, c.property? token = some p → ∃ q d, c'.property? token = some q ∧
      new.property? token = some d ∧ (r.given p.schema e).Agrees p q d)
    (length_eq : ∀ token p q, c.property? token = some p → c'.property? token = some q →
      p.schema.count = .variable → Registry.Restarts p.schema e →
      p.values.length = q.values.length)
    (below : ∀ token p q, c.property? token = some p → c'.property? token = some q →
      ∀ (i : Nat) f, (r.given p.schema e).slots[i]? = some (.chunk f) →
      ∀ d d', p.values[i]? = some (.embedded (some d)) →
        q.values[i]? = some (.embedded (some d')) → Registry.Corresponds r f d d') :
    Registry.Corresponds r e c c'

theorem SlotCount.mem_of_mem_cut {α : Type} {count : SlotCount} {slot : Nat} {as : List α} {a : α}
    (h : a ∈ count.cut slot as) : a ∈ as := by
  cases count with
  | fixed n => exact List.mem_of_mem_take h
  | «variable» => exact h

namespace Registry

variable {r : Registry} {p : PropertySchema} {e : Element}

theorem slots_given_le {n : Nat} (hc : p.count = .fixed n) :
    (r.given p e).slots.length ≤ n := by
  have hcut : ∀ {α : Type} (as : List α), (p.count.cut 0 as).length ≤ n := by
    intro α as
    rw [hc, SlotCount.cut, List.length_take]
    exact Nat.min_le_left _ _
  rw [given, hc]
  refine Mention.slots_foldl_le (fun m hm => ?_) (Nat.zero_le n)
  rcases List.mem_append.mp hm with hm | hm
  · obtain ⟨a, -, rfl⟩ := List.mem_map.mp hm
    rw [PropertySchema.attributeMention]
    split
    · exact Nat.zero_le n
    · exact (List.length_map _).trans_le (hcut _)
  · obtain ⟨f, -, rfl⟩ := List.mem_map.mp hm
    rw [elementMention]
    split
    · exact (List.length_map _).trans_le (hcut _)
    · exact (List.length_map _).trans_le (hcut _)

theorem mem_children_of_given {f : Element} (hf : Given.chunk f ∈ (r.given p e).slots) :
    ∃ g : Element, g.node ∈ e.children ∧ f ∈ r.chunkElements g.children := by
  have hvalue : ∀ vs : List (Value Chunk), Given.chunk f ∉ vs.map Given.value := by
    intro vs hm
    obtain ⟨v, -, hv⟩ := List.mem_map.mp hm
    cases hv
  rcases Mention.mem_slots_foldl hf with hf | ⟨m, hm, hf⟩
  · cases hf
  · rcases List.mem_append.mp hm with hm | hm
    · obtain ⟨a, -, rfl⟩ := List.mem_map.mp hm
      rw [PropertySchema.attributeMention] at hf
      split at hf
      · cases hf
      · exact absurd hf (hvalue _)
    · obtain ⟨g, hg, rfl⟩ := List.mem_map.mp hm
      obtain ⟨node, hnode, hg⟩ := List.mem_filterMap.mp (List.mem_of_mem_filter hg)
      obtain rfl := Node.eq_node_of_element? hg
      rw [elementMention] at hf
      split at hf
      · obtain ⟨f', hf', heq⟩ := List.mem_map.mp hf
        obtain rfl := Given.chunk.inj heq
        exact ⟨g, hnode, SlotCount.mem_of_mem_cut hf'⟩
      · exact absurd hf (hvalue _)

theorem mem_chunkElements {nodes : List Node} {f : Element} (hf : f ∈ r.chunkElements nodes) :
    f.node ∈ nodes ∧ ∃ s, r.schema? f.name = some s := by
  obtain ⟨hf, hs⟩ := List.mem_filter.mp hf
  obtain ⟨node, hnode, hf⟩ := List.mem_filterMap.mp hf
  obtain rfl := Node.eq_node_of_element? hf
  exact ⟨hnode, Option.isSome_iff_exists.mp hs⟩

/-- What a document gives goes into a lean property and into a default one alike. -/
theorem agrees_apply {m : Mention} {d : Property Chunk} (hd : d.Proper)
    (hm : ∀ n, d.schema.count = .fixed n → m.slots.length ≤ n)
    (hchunk : ∀ f, Given.chunk f ∈ m.slots → ∃ c c',
      (r.buildChunk false false f.node).value = some c ∧
      (r.buildChunk true true f.node).value = some c') :
    m.Agrees (m.apply r false (.ofSchema d.schema)) (m.apply r true d) d := by
  have hlean := Property.proper_ofSchema (α := Chunk) d.schema
  have hs := Property.schema_ofSchema (α := Chunk) d.schema
  refine ⟨⟨(m.schema_apply _).trans hs, m.schema_apply d⟩, fun i v hv => ?_, fun i f hf => ?_,
    fun n hn => ?_, fun n hn i hi hnone => ?_, fun hn gs hgs => ?_, fun hn hnone => ?_⟩
  · exact ⟨Mention.getElem?_apply_of_given hv, Mention.getElem?_apply_of_given hv⟩
  · obtain ⟨c, c', hc, hc'⟩ := hchunk f (List.mem_of_getElem? hf)
    refine ⟨c, c', ?_, ?_⟩
    · rw [Mention.getElem?_apply_of_given hf, Given.resolve, hc]
    · rw [Mention.getElem?_apply_of_given hf, Given.resolve, hc']
  · exact ⟨Mention.length_apply_of_fixed (hs.symm ▸ hn) (hlean.slots n (hs.symm ▸ hn)) (hm n hn),
      Mention.length_apply_of_fixed hn (hd.slots n hn) (hm n hn)⟩
  · have hle := List.getElem?_eq_none_iff.mp hnone
    have hempty : (Property.ofSchema d.schema : Property Chunk).values =
        List.replicate n (.empty d.schema.kind) := by
      rw [Property.ofSchema, hn]
    rw [Mention.getElem?_apply_of_fixed (hs.symm ▸ hn) hle, Mention.getElem?_apply_of_fixed hn hle,
      hempty, List.getElem?_replicate_of_lt hi]
    exact ⟨rfl, rfl⟩
  · subst hgs
    exact ⟨Mention.length_apply_of_variable (hs.symm ▸ hn), Mention.length_apply_of_variable hn⟩
  · subst hnone
    refine ⟨?_, rfl⟩
    rw [Mention.apply, Property.ofSchema, hn]

/-- Whether the chunks that an element describes, populated or not, go together. -/
def Corresponding (r : Registry) (e : Element) : Prop :=
  ∃ c c', (r.buildChunk false false e.node).value = some c ∧
    (r.buildChunk true true e.node).value = some c' ∧ r.Corresponds e c c'

theorem property?_corresponding {c c' new : Chunk} {d : Property Chunk}
    (hlean : c.property? p.token = (r.mentions p e).foldl (Mention.absorb r false p) none)
    (hfull : c'.property? p.token =
      (r.mentions p e).foldl (Mention.absorb r true p) (new.property? p.token))
    (hnew : new.property? p.token = some d) (hd : d.schema = p) :
    (r.mentions p e = [] ∧ c.property? p.token = none ∧
        c'.property? p.token = new.property? p.token) ∨
      (r.mentions p e ≠ [] ∧
        c.property? p.token = some ((r.given p e).apply r false (.ofSchema p)) ∧
        c'.property? p.token = some ((r.given p e).apply r true d)) := by
  by_cases hms : r.mentions p e = []
  · rw [hms] at hlean hfull
    exact .inl ⟨hms, hlean, hfull⟩
  · rw [Mention.foldl_absorb hms fun q hq => absurd hq (Option.not_mem_none q)] at hlean
    rw [hnew, Mention.foldl_absorb hms fun q hq => Option.some.inj hq ▸ hd] at hfull
    exact .inr ⟨hms, hlean, hfull⟩

/-- What the chunks of an element hold, the one that was not populated and the one that was: what
the element gives, over nothing and over the values of the new populated chunk of their type. -/
structure Filled (r : Registry) (s : ChunkSchema) (e : Element) (c c' new : Chunk) : Prop where
  schema_eq : c.schema = s
  schema_eq' : c'.schema = s
  schema_new : new.schema = s
  proper : c.Proper
  proper' : c'.Proper
  proper_new : new.Proper
  name_eq : c.name = c'.name
  declared : ∀ p ∈ s.properties, ∃ d, new.property? p.token = some d ∧ d.schema = p ∧
    ((r.mentions p e = [] ∧ c.property? p.token = none ∧
        c'.property? p.token = new.property? p.token) ∨
      (r.mentions p e ≠ [] ∧
        c.property? p.token = some ((r.given p e).apply r false (.ofSchema p)) ∧
        c'.property? p.token = some ((r.given p e).apply r true d)))

theorem exists_filled (hr : r.Sound) (hparsed : e.node.Parsed) {s : ChunkSchema}
    (hs : r.schema? e.name = some s) :
    ∃ c c' new, r.create e.name true = .ok new ∧
      (r.buildChunk false false e.node).value = some c ∧
      (r.buildChunk true true e.node).value = some c' ∧ r.Filled s e c c' new := by
  obtain ⟨new₀, c, hnew₀, hc, hcs, hcp, hlean⟩ := exists_buildChunk hr hparsed hs false false
  obtain ⟨new, c', hnew, hc', hcs', hcp', hfull⟩ := exists_buildChunk hr hparsed hs true true
  obtain ⟨x, hx, -, -, hbare⟩ := create_eq hr hs false
  obtain ⟨y, hy, hys, hyp, hstart⟩ := create_eq hr hs true
  obtain rfl := Except.ok.inj (hx.symm.trans hnew₀)
  obtain rfl := Except.ok.inj (hy.symm.trans hnew)
  have htwins := (buildChunk_alike hr false true e.node false true).value
  rw [hc, hc'] at htwins
  cases htwins with
  | some htwins =>
    refine ⟨c, c', y, hnew, hc, hc', hcs, hcs', hys, hcp, hcp', hyp, htwins.name_eq,
      fun p hps => ?_⟩
    have hdist := (hr.schema _ _ hs).2.property?_of_mem hps
    have hd := hstart p.token
    rw [if_pos rfl, hdist, Option.map_some] at hd
    have hdecl := hyp.declared _ _ hd
    rw [hys, hdist] at hdecl
    have hds := (Option.some.inj hdecl).symm
    have hnone : x.property? p.token = none := hbare p.token
    have hc := hlean p hps
    rw [hnone] at hc
    exact ⟨_, hd, hds, property?_corresponding hc (hfull p hps) hd hds⟩

namespace Filled

variable {s : ChunkSchema} {c c' new : Chunk} {token : String} {q : Property Chunk}

theorem mentioned (h : r.Filled s e c c' new) (hp : p ∈ s.properties) :
    (c.property? p.token).isSome = true ↔ r.mentions p e ≠ [] := by
  obtain ⟨d, -, -, ⟨hms, hnone, -⟩ | ⟨hms, hsome, -⟩⟩ := h.declared p hp
  · rw [hnone]
    exact iff_of_false nofun fun hne => hne hms
  · rw [hsome]
    exact iff_of_true rfl hms

theorem untouched (h : r.Filled s e c c' new) (hnone : c.property? token = none) :
    c'.property? token = new.property? token := by
  cases hq : s.property? token with
  | none =>
    rw [h.proper'.property?_of_undeclared (h.schema_eq' ▸ hq),
      h.proper_new.property?_of_undeclared (h.schema_new ▸ hq)]
  | some q =>
    have hsame := ChunkSchema.same_of_property? hq
    rw [← c.property?_congr hsame] at hnone
    rw [← c'.property?_congr hsame, ← new.property?_congr hsame]
    obtain ⟨d, -, -, ⟨-, -, h⟩ | ⟨-, hsome, -⟩⟩ := h.declared q (List.mem_of_find?_eq_some hq)
    · exact h
    · rw [hsome] at hnone
      cases hnone

theorem held (h : r.Filled s e c c' new) (hq : c.property? token = some q) :
    ∃ d, new.property? token = some d ∧ d.schema = q.schema ∧
      q = (r.given q.schema e).apply r false (.ofSchema q.schema) ∧
      c'.property? token = some ((r.given q.schema e).apply r true d) := by
  have hs : s.property? token = some q.schema := h.schema_eq ▸ h.proper.declared token q hq
  have hsame := ChunkSchema.same_of_property? hs
  rw [← c.property?_congr hsame] at hq
  rw [← c'.property?_congr hsame, ← new.property?_congr hsame]
  obtain ⟨d, hd, hds, ⟨-, hnone, -⟩ | ⟨-, hsome, hfull⟩⟩ :=
    h.declared q.schema (List.mem_of_find?_eq_some hs)
  · rw [hnone] at hq
    cases hq
  · exact ⟨d, hd, hds, Option.some.inj (hq.symm.trans hsome), hfull⟩

theorem agrees (h : r.Filled s e c c' new) (hq : c.property? token = some q)
    (hbelow : ∀ f, Given.chunk f ∈ (r.given q.schema e).slots → r.Corresponding f) :
    ∃ q' d, c'.property? token = some q' ∧ new.property? token = some d ∧
      (r.given q.schema e).Agrees q q' d := by
  obtain ⟨d, hd, hds, heq, hfull⟩ := h.held hq
  refine ⟨_, d, hfull, hd, ?_⟩
  have hle : ∀ n, d.schema.count = .fixed n → (r.given q.schema e).slots.length ≤ n :=
    fun n hn => slots_given_le (hds ▸ hn)
  have hchunk : ∀ f, Given.chunk f ∈ (r.given q.schema e).slots → ∃ a b,
      (r.buildChunk false false f.node).value = some a ∧
      (r.buildChunk true true f.node).value = some b := by
    intro f hf
    obtain ⟨a, b, ha, hb, -⟩ := hbelow f hf
    exact ⟨a, b, ha, hb⟩
  have hagrees := agrees_apply (h.proper_new.proper token d hd) hle hchunk
  rwa [hds, ← heq] at hagrees

theorem length_eq (h : r.Filled s e c c' new) {q' : Property Chunk}
    (hq : c.property? token = some q) (hq' : c'.property? token = some q')
    (hc : q.schema.count = .variable) (hre : Registry.Restarts q.schema e) :
    q.values.length = q'.values.length := by
  obtain ⟨d, hd, hds, heq, hfull⟩ := h.held hq
  obtain rfl := Option.some.inj (hq'.symm.trans hfull)
  obtain ⟨gs, hgs⟩ := Option.isSome_iff_exists.mp (isSome_given_iff.mpr hre)
  have hlean : q.values.length = gs.length := by
    rw [heq, hgs]
    exact Mention.length_apply_of_variable
      ((congrArg _ (Property.schema_ofSchema q.schema)).trans hc)
  rw [hlean, hgs]
  exact (Mention.length_apply_of_variable (hds ▸ hc)).symm

theorem below (h : r.Filled s e c c' new) {q' : Property Chunk} {i : Nat} {f : Element}
    {b b' : Chunk} (hq : c.property? token = some q) (hq' : c'.property? token = some q')
    (hf : (r.given q.schema e).slots[i]? = some (.chunk f)) (hcf : r.Corresponding f)
    (hb : q.values[i]? = some (.embedded (some b)))
    (hb' : q'.values[i]? = some (.embedded (some b'))) : r.Corresponds f b b' := by
  obtain ⟨d, hd, hds, heq, hfull⟩ := h.held hq
  obtain rfl := Option.some.inj (hq'.symm.trans hfull)
  obtain ⟨a, a', ha, ha', haa⟩ := hcf
  rw [heq, Mention.getElem?_apply_of_given hf, Given.resolve, ha] at hb
  rw [Mention.getElem?_apply_of_given hf, Given.resolve, ha'] at hb'
  cases hb
  cases hb'
  exact haa

end Filled

/-- An element gives chunks that go together when the elements that it embeds do. -/
theorem corresponding_of_below (hr : r.Sound) (hparsed : e.node.Parsed) {s : ChunkSchema}
    (hs : r.schema? e.name = some s)
    (hbelow : ∀ g : Element, g.node ∈ e.children → ∀ f ∈ r.chunkElements g.children,
      r.Corresponding f) : r.Corresponding e := by
  obtain ⟨c, c', new, hnew, hc, hc', h⟩ := exists_filled hr hparsed hs
  have hgiven : ∀ p f, Given.chunk f ∈ (r.given p e).slots → r.Corresponding f := by
    intro p f hf
    obtain ⟨g, hg, hf⟩ := mem_children_of_given hf
    exact hbelow g hg f hf
  refine ⟨c, c', hc, hc', .intro hnew ?_ h.name_eq ?_ ?_ ?_ ?_ ?_⟩
  · exact ⟨h.schema_eq.trans h.schema_new.symm, h.schema_eq'.trans h.schema_new.symm⟩
  · exact fun p hp => h.mentioned (h.schema_new ▸ hp)
  · exact fun token hnone => h.untouched hnone
  · exact fun token q hq => h.agrees hq (hgiven q.schema)
  · exact fun token q q' hq hq' hc hre => h.length_eq hq hq' hc hre
  · intro token q q' hq hq' i f hf b b' hb hb'
    exact h.below hq hq' hf (hgiven _ f (List.mem_of_getElem? hf)) hb hb'

theorem corresponding_of_parsed (hr : r.Sound) {node : Node} (hp : node.Parsed) :
    (∀ e s, node = e.node → r.schema? e.name = some s → r.Corresponding e) ∧
      ∀ e s, e.node ∈ node.children → r.schema? e.name = some s → r.Corresponding e := by
  induction hp with
  | @element name as cs hd hc ha ih =>
    have hbelow : ∀ e s, e.node ∈ cs → r.schema? e.name = some s → r.Corresponding e :=
      fun e s he hs => (ih _ he).1 e s rfl hs
    refine ⟨fun e s he hs => ?_, hbelow⟩
    cases he
    refine corresponding_of_below hr (.element hd hc ha) hs fun g hg f hf => ?_
    obtain ⟨hf, t, ht⟩ := mem_chunkElements hf
    exact (ih _ hg).2 f t hf ht
  | _ => exact ⟨nofun, fun _ _ he => absurd he List.not_mem_nil⟩

/-- The elements of the chunks in a document, in their order. -/
def databaseElements (r : Registry) (nodes : List Node) : List Element :=
  nodes.flatMap fun
    | .element name _ children =>
      if Text.same name "ConfigChunkDB" then r.chunkElements children else []
    | _ => []

theorem filterMap_chunkElements_cons (r : Registry) (populate : Bool) (node : Node)
    (rest : List Node) :
    ((r.chunkElements (node :: rest)).filterMap fun e =>
        (r.buildChunk populate populate e.node).value) =
      (node.element?.bind fun e => (r.buildChunk populate populate e.node).value).toList ++
        (r.chunkElements rest).filterMap fun e =>
          (r.buildChunk populate populate e.node).value := by
  rw [chunkElements_cons, List.filterMap_append]
  cases node.element? with
  | none => rfl
  | some e =>
    have hb := r.buildChunk_element populate populate e
    rw [Option.filter_some, Option.bind_some, ← hb, Option.isSome_map]
    congr 1
    cases hx : (r.buildChunk populate populate e.node).value with
    | none => rfl
    | some c =>
      simp only [Option.isSome_some, if_true, Option.toList_some, List.filterMap_cons, hx,
        List.filterMap_nil]

theorem value_buildElements (r : Registry) (populate : Bool) (nodes : List Node) :
    (r.buildElements populate nodes).value = (r.chunkElements nodes).filterMap fun e =>
      (r.buildChunk populate populate e.node).value := by
  induction nodes with
  | nil => rfl
  | cons node rest ih =>
    rw [filterMap_chunkElements_cons, ← ih]
    cases node with
    | element name as cs =>
      rw [buildElements]
      rfl
    | _ => rfl

theorem value_buildEach (r : Registry) (populate : Bool) {nodes : List Node}
    (hp : ∀ node ∈ nodes, node.Parsed) :
    (r.buildEach populate nodes).value = (r.databaseElements nodes).filterMap fun e =>
      (r.buildChunk populate populate e.node).value := by
  induction nodes with
  | nil =>
    rw [buildEach]
    rfl
  | cons node rest ih =>
    rw [buildEach, databaseElements, List.flatMap_cons, List.filterMap_append]
    have hrest := ih fun n hn => hp n (.tail _ hn)
    rw [databaseElements] at hrest
    rw [Reported.value_bind, Reported.value_bind, Reported.value_pure, hrest]
    congr 1
    cases hp node (.head _) with
    | @element name as cs =>
      rw [build]
      by_cases hn : Text.same name "ConfigChunkDB" = true
      · simp only [hn, if_true]
        exact r.value_buildElements populate cs
      · simp only [hn]
        rfl
    | _ => rfl

theorem corresponding_of_databaseElements (hr : r.Sound) {nodes : List Node}
    (hp : ∀ node ∈ nodes, node.Parsed) (he : e ∈ r.databaseElements nodes) :
    r.Corresponding e := by
  obtain ⟨node, hnode, he⟩ := List.mem_flatMap.mp he
  split at he
  · next name as cs =>
    split at he
    · obtain ⟨he, s, hs⟩ := mem_chunkElements he
      exact (corresponding_of_parsed hr (hp _ hnode)).2 e s he hs
    · cases he
  · cases he

theorem exists_pairs {es : List Element} (he : ∀ e ∈ es, r.Corresponding e) :
    ∃ pairs : List (Chunk × Chunk),
      (es.filterMap fun e => (r.buildChunk false false e.node).value) = pairs.map Prod.fst ∧
      (es.filterMap fun e => (r.buildChunk true true e.node).value) = pairs.map Prod.snd ∧
      List.Forall₂ (fun e pair => r.Corresponds e pair.1 pair.2) es pairs := by
  induction es with
  | nil => exact ⟨[], rfl, rfl, .nil⟩
  | cons e es ih =>
    obtain ⟨pairs, hlean, hfull, hpairs⟩ := ih fun f hf => he f (.tail _ hf)
    obtain ⟨c, c', hc, hc', hcc⟩ := he e (.head _)
    refine ⟨(c, c') :: pairs, ?_, ?_, .cons hcc hpairs⟩
    · simp only [List.filterMap_cons, hc, hlean, List.map_cons]
    · simp only [List.filterMap_cons, hc', hfull, List.map_cons]

/-- Reading with and without default values gives databases that go together chunk by chunk and the
same problems, or the same failure. -/
theorem Reached.readDatabase_populated (hr : r.Reached) (source : Bytes) :
    (∃ e, r.readDatabase false source = .error e ∧ r.readDatabase true source = .error e) ∨
      ∃ nodes pairs problems, Xml.readDocument source = .ok (.document nodes) ∧
        r.readDatabase false source = .ok ⟨pairs.map Prod.fst, problems⟩ ∧
        r.readDatabase true source = .ok ⟨pairs.map Prod.snd, problems⟩ ∧
        List.Forall₂ (fun e pair => r.Corresponds e pair.1 pair.2) (r.databaseElements nodes)
          pairs := by
  rw [readDatabase, readDatabase]
  cases hread : Xml.readDocument source with
  | error e => exact .inl ⟨e, rfl, rfl⟩
  | ok node =>
    obtain ⟨nodes, rfl, hs⟩ := Xml.siblings_of_readDocument_eq hread
    obtain ⟨pairs, hlean, hfull, hpairs⟩ :=
      exists_pairs (r := r) fun e he => corresponding_of_databaseElements hr.sound hs.parsed he
    refine .inr ⟨nodes, pairs, (r.build false (.document nodes)).problems, rfl, ?_, ?_, hpairs⟩
    · refine congrArg Except.ok (Reported.ext ?_ rfl)
      rw [build, value_buildEach r false hs.parsed, hlean]
    · refine congrArg Except.ok (Reported.ext ?_ ?_)
      · rw [build, value_buildEach r true hs.parsed, hfull]
      · exact problems_build_eq hr.sound true false _

/-- Rows of three cells and of any number of marks, and shelves of two rows, one of which the
default shelf has. -/
def rowBatch : Catalog :=
  [{ token := "Row"
     properties := [{ token := "cells", kind := .int, count := .fixed 3 },
       { token := "marks", kind := .int, count := .variable }]
     defaults := some ⟨"Row", [⟨"cells", "1 2 3"⟩, ⟨"marks", "4 5"⟩], []⟩ },
   { token := "Shelf", properties := [{ token := "rows", kind := .embedded, count := .fixed 2 }]
     defaults := some ⟨"Shelf", [], [.element "rows" [] [.element "Row" [] []]]⟩ }]

theorem declared_rowBatch : ∀ batch ∈ [rowBatch], ∀ s ∈ batch, s.Declared := by decide

/-- A shelf with a row that has one cell of its own. -/
def rowSource : String :=
  "<ConfigChunkDB><Shelf><rows><Row cells='9' marks='7 8 9'/></rows></Shelf><Row/></ConfigChunkDB>"

def rowNodes : List Node :=
  [.element "ConfigChunkDB" []
    [.element "Shelf" []
      [.element "rows" [] [.element "Row" [⟨"cells", "9"⟩, ⟨"marks", "7 8 9"⟩] []]],
      .element "Row" [] []]]

theorem readDatabase_populated_row :
    ∃ pairs problems,
      (registerAll [rowBatch]).readDatabase false (Text.encode rowSource) =
        .ok ⟨pairs.map Prod.fst, problems⟩ ∧
      (registerAll [rowBatch]).readDatabase true (Text.encode rowSource) =
        .ok ⟨pairs.map Prod.snd, problems⟩ ∧
      List.Forall₂ (fun e pair => (registerAll [rowBatch]).Corresponds e pair.1 pair.2)
        ((registerAll [rowBatch]).databaseElements rowNodes) pairs := by
  have hread : Xml.readDocument (Text.encode rowSource) = .ok (.document rowNodes) := by
    decide +kernel
  rcases Reached.readDatabase_populated (reached_registerAll declared_rowBatch)
    (Text.encode rowSource) with ⟨e, he, -⟩ | ⟨nodes, pairs, problems, hnodes, h⟩
  · rw [readDatabase, hread] at he
    cases he
  · obtain rfl := Node.document.inj (Except.ok.inj (hnodes.symm.trans hread))
    exact ⟨pairs, problems, h⟩

end Registry

end ChunkConfig
