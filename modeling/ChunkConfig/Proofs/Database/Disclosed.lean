import ChunkConfig.Proofs.Building.Stored
import ChunkConfig.Proofs.Chunk.Slots
import ChunkConfig.Proofs.Database.Reread
import ChunkConfig.Proofs.Registry.Made

namespace ChunkConfig

namespace Chunk

/-- Whether the slots in which another chunk differs from this one are exactly those that are
reported when this one is written. -/
def Tells (c d : Chunk) : Prop :=
  ∀ s ∈ c.slots, d.Holds s ↔ s.problem? = none

/-- Whether all properties of a chunk that embed nothing are disclosed. -/
def Disclosed (r : Registry) (c : Chunk) : Prop :=
  ∀ token p, c.property? token = some p → p.schema.kind ≠ .embedded → p.Disclosed r c.schema

variable {r : Registry} {c : Chunk}

section Reread

variable (hr : r.Sound) (hb : r.schema? c.schema.token = some c.schema) (hc : c.Proper)
  {p : Property Chunk} (hp : p ∈ c.properties) {i : Nat} {v : Value Chunk}
include hr hb hc hp

theorem value?_rereadChunk (i : Nat) : (r.rereadChunk true c).value? p.schema.token i =
    (r.rereadProperty true c.schema p).value.values[i]? := by
  rw [value?, Registry.property?_rereadChunk hr hb hc true (hc.declares.property?_self hp)]
  rfl

theorem holds_rereadChunk_iff (owner : String) (hk : p.schema.kind ≠ .embedded) :
    (r.rereadChunk true c).Holds ⟨[], owner, p.schema.token, i, v⟩ ↔
      ∃ w, (p.stored r c.schema).values[i]? = some w ∧ beqValue w v = true := by
  have hpp := hc.proper _ _ (hc.declares.property?_self hp)
  rw [Holds, valueAt?, value?_rereadChunk hr hb hc hp,
    Registry.value_rereadProperty_of_primitive c.schema hpp hk, Property.stored]

theorem holds_rereadChunk_under_iff
    (hcs : ∀ e, c.Embeds e → r.schema? e.schema.token = some e.schema ∧ e.Proper)
    (hv : p.values[i]? = some v) {d : Chunk} (hd : v.content? = some d) (s : Slot) :
    (r.rereadChunk true c).Holds (s.under p.schema.token i) ↔ (r.rereadChunk true d).Holds s := by
  have hself := hc.declares.property?_self hp
  have hpp := hc.proper _ _ hself
  have hi := hpp.getElem?_contents hv hd
  have hk : p.schema.kind = .embedded := by
    by_contra hne
    rw [Property.contents_of_primitive (hpp.not_embedded hne)] at hi
    cases hi
  have hvalue : (r.rereadChunk true c).value? p.schema.token i =
      some (.embedded (some (r.rereadChunk true d))) := by
    have hlt : i < (p.contents.map fun e =>
        (.embedded (some (r.rereadChunk true e)) : Value Chunk)).length := by
      rw [List.length_map]
      exact (List.getElem?_eq_some_iff.mp hi).1
    rw [value?_rereadChunk hr hb hc hp, Registry.value_rereadProperty_of_embedded hr hb
      (hc.declared _ _ hself) hpp hk fun e he => hcs e (embeds_of_mem_properties hp he),
      Property.overlay_zero]
    simp only [List.getElem?_append_left hlt, List.getElem?_map, hi, Option.map_some]
  rw [Holds, Slot.under, valueAt?, hvalue]
  rfl

end Reread

/-- A chunk tells what it is read back as exactly when the properties in it do, at every depth. -/
theorem tells_rereadChunk_iff (hr : r.Sound)
    (h : c.Throughout fun c => r.schema? c.schema.token = some c.schema ∧ c.Proper) :
    c.Tells (r.rereadChunk true c) ↔ c.Throughout (Disclosed r) := by
  induction h with
  | @intro c here below ih =>
    obtain ⟨hb, hc⟩ := here
    have hnested : ∀ e, c.Embeds e → r.schema? e.schema.token = some e.schema ∧ e.Proper :=
      fun e he => (below e he).here
    rw [Tells, forall_mem_slots]
    constructor
    · intro hall
      apply Throughout.intro
      · intro token p hp hk i v hv
        have hm := hc.declares.mem_properties hp
        have hne : v.kind ≠ .embedded :=
          (hc.proper token p hp).not_embedded hk v (List.mem_of_getElem? hv)
        rw [← holds_rereadChunk_iff hr hb hc hm c.name hk, (hall p hm i v hv).1 hne,
          problem?_eq_none_iff]
      · intro d hd
        rw [← ih d hd]
        obtain ⟨e, he, hed⟩ := hd
        obtain ⟨v, hv, hvd⟩ := List.mem_filterMap.mp hed
        obtain ⟨i, hi⟩ := List.getElem?_of_mem hv
        have hm := hc.declares.mem_properties (hc.canonical.find?_of_mem he)
        intro s hs
        rw [← holds_rereadChunk_under_iff hr hb hc hm hnested hi hvd]
        exact (hall e.2 hm i v hi).2 d hvd s hs
    · intro hall p hp i v hv
      have hself := hc.declares.property?_self hp
      constructor
      · intro hne
        have hk : p.schema.kind ≠ .embedded :=
          (hc.proper _ p hself).kind_eq v (List.mem_of_getElem? hv) ▸ hne
        rw [holds_rereadChunk_iff hr hb hc hp c.name hk, problem?_eq_none_iff]
        exact hall.here _ p hself hk i v hv
      · intro d hd s hs
        have hembeds : c.Embeds d :=
          embeds_of_mem_properties hp (List.mem_filterMap.mpr ⟨v, List.mem_of_getElem? hv, hd⟩)
        rw [holds_rereadChunk_under_iff hr hb hc hp hnested hv hd]
        exact (ih d hembeds).mpr (hall.embedded hembeds) s hs

end Chunk

namespace Registry

variable {r : Registry}

theorem value_buildElements_nodes (hr : r.Sound) {populate : Bool} {db : Database}
    (h : ∀ c ∈ db, r.schema? c.schema.token = some c.schema ∧ c.Proper) :
    (r.buildElements populate (db.map fun c => c.node.value)).value =
      db.map (r.rereadChunk populate) := by
  induction db with
  | nil => rw [List.map_nil, buildElements]; rfl
  | cons c db ih =>
    have hc := value_buildChunk_node hr (h c (.head _)).1 (h c (.head _)).2 populate
    rw [Chunk.value_node] at hc
    rw [List.map_cons, Chunk.value_node, buildElements, List.map_cons,
      ← ih fun d hd => h d (.tail _ hd)]
    simp only [Reported.value_bind, Reported.value_pure, hc]
    rfl

/-- Writing reports the slots without a written form, and these are the ones that come back changed
exactly when all properties are disclosed, at every depth. -/
theorem reported_iff_changed (hr : r.Reached)
    (hn : ∀ token s, r.schema? token = some s → s.Named) {db : Database}
    (hdb : ∀ c ∈ db, c.Made r) (hb : ∀ c ∈ db, c.Throughout (Chunk.Bound r))
    (options : Xml.WriteOptions) :
    (db.write options).problems = (db.flatMap Chunk.slots).filterMap Slot.problem? ∧
    ∃ back, r.readDatabase true (Text.encode (db.write options).value) = .ok back ∧
      (List.Forall₂ Chunk.Tells db back.value ↔ ∀ c ∈ db, c.Throughout (Chunk.Disclosed r)) ∧
      ((∀ c ∈ db, c.Throughout fun c => ∀ token p, c.property? token = some p →
          p.schema.kind ≠ .embedded → p.Resolving) →
        List.Forall₂ Chunk.Tells db back.value) := by
  have hall : ∀ c ∈ db, c.Throughout fun c =>
      r.schema? c.schema.token = some c.schema ∧ c.Proper :=
    fun c hc => (hb c hc).and ((hdb c hc).throughout_proper hr)
  have hnamed : ∀ c ∈ db, c.Throughout Chunk.Named :=
    fun c hc => (hall c hc).mono fun _ h => Chunk.named_of_schema h.2 (hn _ _ h.1)
  have hback : (r.buildElements true (db.map fun c => c.node.value)).value =
      db.map (r.rereadChunk true) :=
    value_buildElements_nodes hr.sound fun c hc => (hall c hc).here
  have htells : List.Forall₂ Chunk.Tells db (db.map (r.rereadChunk true)) ↔
      ∀ c ∈ db, c.Throughout (Chunk.Disclosed r) := by
    rw [List.forall₂_map_right_iff, List.forall₂_same]
    exact forall₂_congr fun c hc => Chunk.tells_rereadChunk_iff hr.sound (hall c hc)
  constructor
  · rw [problems_write_eq, List.filterMap_flatMap]
    exact List.flatMap_congr fun c _ => Chunk.problems_node_eq c
  · refine ⟨_, readDatabase_write_eq hnamed options, ?_⟩
    rw [hback]
    refine ⟨htells, ?_⟩
    intro hresolving
    apply htells.mpr
    intro c hc
    apply ((hall c hc).and (hresolving c hc)).mono
    intro d hd token p hp hk
    have hself := hd.1.2.declares.mem_properties hp
    exact (hd.2 token p hp hk).disclosed hr.sound hd.1.1
      (hd.1.2.declared _ _ (hd.1.2.declares.property?_self hself)) (hd.1.2.proper token p hp) hk

/-- The level of a dial, where the label for the lowest one is `1`. -/
def dialLevel : PropertySchema :=
  { token := "level", kind := .int, aliases := [⟨"1", "2"⟩] }

def dialLabel : PropertySchema :=
  { token := "label" }

def dialSchema : ChunkSchema :=
  { token := "Dial", properties := [dialLevel, dialLabel] }

def dialRegistry : Registry :=
  (empty.register [dialSchema]).value

def dial (level : Int64) (label : String) : Chunk :=
  ⟨dialSchema, "Dial",
    ⟨[("label", ⟨dialLabel, [.string label]⟩), ("level", ⟨dialLevel, [.int level]⟩)]⟩⟩

theorem distinct_dialSchema : ∀ s ∈ [dialSchema], s.Distinct := by decide

theorem reached_dialRegistry : dialRegistry.Reached :=
  .register .empty distinct_dialSchema

theorem named_dialRegistry (token : String) (s : ChunkSchema)
    (h : dialRegistry.schema? token = some s) : s.Named := by
  have hs : s ∈ [dialSchema] := (whole_register distinct_dialSchema).2 token s h
  rw [List.mem_singleton.mp hs, ChunkSchema.Named]
  decide

theorem made_dial (level : Int64) (label : String) : (dial level label).Made dialRegistry := by
  have hnew : dialRegistry.create "Dial" true = .ok (dial 0 "") := rfl
  have hlevel : (dial 0 "").set? "level" 0 (.int level) = some (.ok (), dial level "") := rfl
  have hlabel : (dial level "").set? "label" 0 (.string label) =
      some (.ok (), dial level label) := rfl
  have hmade : (dial level "").Made dialRegistry := by
    apply (Chunk.Made.create hnew).set _ _ hlevel
    · exact dialLevel
    · rfl
    · nofun
  apply hmade.set _ _ hlabel
  · exact dialLabel
  · rfl
  · nofun

theorem bound_dial (level : Int64) (label : String) :
    (dial level label).Throughout (Chunk.Bound dialRegistry) :=
  (made_dial level label).throughout_bound reached_dialRegistry
    (whole_register distinct_dialSchema).1.fresh

theorem reported_iff_changed_dial :
    (Database.write {} [dial 3 "a \"b"]).problems =
      ([dial 3 "a \"b"].flatMap Chunk.slots).filterMap Slot.problem? ∧
    ∃ back, dialRegistry.readDatabase true
        (Text.encode (Database.write {} [dial 3 "a \"b"]).value) = .ok back ∧
      (List.Forall₂ Chunk.Tells [dial 3 "a \"b"] back.value ↔
        ∀ c ∈ [dial 3 "a \"b"], c.Throughout (Chunk.Disclosed dialRegistry)) ∧
      ((∀ c ∈ [dial 3 "a \"b"], c.Throughout fun c => ∀ token p, c.property? token = some p →
          p.schema.kind ≠ .embedded → p.Resolving) →
        List.Forall₂ Chunk.Tells [dial 3 "a \"b"] back.value) := by
  apply reported_iff_changed reached_dialRegistry named_dialRegistry
  · intro c hc
    rw [List.mem_singleton.mp hc]
    exact made_dial 3 "a \"b"
  · intro c hc
    rw [List.mem_singleton.mp hc]
    exact bound_dial 3 "a \"b"

/-- The lowest level is written as the label of another one and comes back as that one, and nothing
is reported. -/
theorem unreported_dial :
    (dial 1 "").Made dialRegistry ∧ (dial 1 "").Throughout (Chunk.Bound dialRegistry) ∧
    (Database.write {} [dial 1 ""]).problems = [] ∧
    ∃ back, dialRegistry.readDatabase true
        (Text.encode (Database.write {} [dial 1 ""]).value) = .ok back ∧
      ¬ List.Forall₂ Chunk.Tells [dial 1 ""] back.value := by
  have hr := reached_dialRegistry.sound
  have hp := ((made_dial 1 "").throughout_proper reached_dialRegistry).here
  have hb := (bound_dial 1 "").here
  have hnamed : ∀ c ∈ [dial 1 ""], c.Throughout Chunk.Named := by
    intro c hc
    rw [List.mem_singleton.mp hc]
    have h := ((made_dial 1 "").throughout_proper reached_dialRegistry).and (bound_dial 1 "")
    exact h.mono fun _ h => Chunk.named_of_schema h.1 (named_dialRegistry _ _ h.2)
  have hback : (dialRegistry.buildElements true ([dial 1 ""].map fun c => c.node.value)).value =
      [dialRegistry.rereadChunk true (dial 1 "")] := by
    apply value_buildElements_nodes hr
    intro c hc
    rw [List.mem_singleton.mp hc]
    exact ⟨hb, hp⟩
  refine ⟨made_dial 1 "", bound_dial 1 "", rfl, _, readDatabase_write_eq hnamed {}, ?_⟩
  rw [hback, List.forall₂_cons]
  rintro ⟨htells, -⟩
  have hlevel : (⟨dialLevel, [.int 1]⟩ : Property Chunk) ∈ (dial 1 "").properties := .head _
  have hholds := (htells ⟨[], "Dial", "level", 0, .int 1⟩ (.head _)).mpr rfl
  obtain ⟨w, hw, hsame⟩ := (Chunk.holds_rereadChunk_iff hr hb hp hlevel "Dial" nofun).mp hholds
  have hstored : Property.stored dialRegistry (dial 1 "").schema ⟨dialLevel, [.int 1]⟩ =
      ⟨dialLevel, [.int 2]⟩ := rfl
  rw [hstored] at hw
  obtain rfl := Option.some.inj hw
  rw [Chunk.beqValue] at hsame
  exact absurd hsame (by decide)

end Registry

end ChunkConfig
