import ChunkConfig.Proofs.Registry.Obtained
import ChunkConfig.Proofs.Schema.Repeated

namespace ChunkConfig

open PropertySchema (folded)
open Xml (Element Node)

namespace Chunk

/-- A chunk that holds one property for each that its type declares, and no other. -/
structure Complete (c : Chunk) : Prop where
  listed : c.properties.map Property.schema = c.schema.properties
  keys : (c.held.entries.map (·.1)).Perm (c.schema.properties.map folded)

theorem Formed.complete {c : Chunk} (hc : c.Formed)
    (h : ∀ p ∈ c.schema.properties, (c.property? p.token).isSome = true) : c.Complete := by
  have hlisted : c.properties.map Property.schema = c.schema.properties := by
    apply hc.sublist_properties.eq_of_length
    rw [List.length_map, properties, List.length_filterMap_eq_countP, List.countP_eq_length]
    exact h
  refine ⟨hlisted, ?_⟩
  rw [← hlisted, List.map_map, ← hc.map_key]
  exact (hc.perm_properties.map _).symm

/-- A complete chunk holds one property for each token under which its type was given properties. -/
theorem Complete.keys_perm {c : Chunk} (hc : c.Complete) {fresh : ChunkSchema}
    {ps : List PropertySchema} (hf : fresh.properties = [])
    (hs : c.schema.properties = (fresh.declareAll ps).properties) :
    (c.held.entries.map (·.1)).Perm (ps.map folded).eraseDups := by
  rw [← ChunkSchema.map_folded_declareAll hf, ← hs]
  exact hc.keys

end Chunk

namespace Registry

variable {r : Registry}

/-- The chunks that a registry populates: new ones, and those that are built with default values. -/
inductive Populates (r : Registry) : Chunk → Prop
  | create {token : String} {c : Chunk} (h : r.create token true = .ok c) : Populates r c
  | build {node : Node} {c : Chunk} (h : c ∈ (r.buildChunk true true node).value) : Populates r c
  | database {node : Node} {c : Chunk} (h : c ∈ (r.build true node).value) : Populates r c

theorem Reached.keeps_complete (hr : r.Reached) : r.Keeps (Chunk.Throughout Chunk.Complete) :=
  hr.keeps fun _ hs _ hc =>
    .intro ((hc.proper.formed (hs.schema _ _ hc.bound).2).complete (hc.complete rfl)) hc.embeds

theorem Populates.complete {c : Chunk} (hr : r.Reached) (h : r.Populates c) :
    c.Throughout Chunk.Complete := by
  have hk := hr.keeps_complete
  cases h with
  | create h => exact hk.closed c (built_create hk.sound hk.defaults h)
  | build h => exact hk.closed c (built_buildChunk hk _ true c h)
  | database h => exact hk.maintains.build _ c h

end Registry

namespace ChunkSchema

/-- The properties of a type are an ordered map in which the last declaration of a token wins, and
every populated chunk holds one property for each token. -/
theorem collects_recounts_complete {fresh : ChunkSchema} (hf : fresh.properties = [])
    (ps : List PropertySchema) :
    fresh.Collects ps ∧
      (∀ e, describedBy e = ps → Recounts e ps) ∧
      ∀ r : Registry, r.Reached → ∀ c, r.Populates c → c.Throughout fun d =>
        d.schema.properties = (fresh.declareAll ps).properties →
          (d.held.entries.map (·.1)).Perm (ps.map folded).eraseDups ∧
            d.properties.map Property.schema = (fresh.declareAll ps).properties := by
  refine ⟨collects hf ps, fun e he => he ▸ recounts_describedBy e, fun r hr c hc => ?_⟩
  exact (hc.complete hr).mono fun d hd hs => ⟨hd.keys_perm hf hs, hd.listed.trans hs⟩

/-- A type of lamps whose switch is described four times, in different cases and with different
kinds. One of the descriptions is given up. -/
def lampElement : Element :=
  ⟨"ChunkDesc", [⟨"token", "Lamp"⟩],
    [.element "PropertyDesc" [⟨"token", "On"⟩, ⟨"type", "int"⟩] [],
      .element "PropertyDesc" [⟨"token", "dim"⟩, ⟨"type", "float"⟩] [],
      .element "PropertyDesc" [⟨"token", "ON"⟩, ⟨"type", "switch"⟩] [],
      .element "PropertyDesc" [⟨"token", "oN"⟩, ⟨"type", "string"⟩] [],
      .element "PropertyDesc" [⟨"token", "ON"⟩, ⟨"type", "bool"⟩] []]⟩

def lampParts : List PropertySchema :=
  [{ token := "On", givenName := "On", kind := .int },
    { token := "dim", givenName := "dim", kind := .float }, { token := "oN", givenName := "oN" },
    { token := "ON", givenName := "ON", kind := .bool }]

def lampRegistry : Registry :=
  (Registry.empty.register [declareAll { token := "Lamp" } lampParts]).value

theorem reached_lampRegistry : lampRegistry.Reached :=
  .register .empty (by decide)

theorem describedBy_lampElement : describedBy lampElement = lampParts := by
  decide +kernel

theorem collects_recounts_complete_lamp :
    Collects { token := "Lamp" } lampParts ∧
      (ofElement lampElement).problems.filter Problem.isRepeat =
        [.duplicateProperty "Lamp" "oN", .duplicateProperty "Lamp" "ON"] ∧
      ∃ c, lampRegistry.create "lamp" true = .ok c ∧
        (c.held.entries.map (·.1)).Perm ["on", "dim"] ∧
        c.properties.map (·.schema.kind) = [.bool, .float] := by
  have hfresh : ({ token := "Lamp" } : ChunkSchema).properties = [] := rfl
  obtain ⟨hcollects, htold, hcomplete⟩ := collects_recounts_complete hfresh lampParts
  have hcreate : (lampRegistry.create "lamp" true).map Chunk.schema =
      .ok (declareAll { token := "Lamp" } lampParts) := by decide +kernel
  obtain ⟨c, hc, hs⟩ := exists_of_map_eq_ok hcreate
  obtain ⟨hkeys, hlisted⟩ :=
    (hcomplete _ reached_lampRegistry c (.create hc)).here (congrArg properties hs.symm)
  refine ⟨hcollects, (htold lampElement describedBy_lampElement).told.trans (by decide), c, hc,
    hkeys.trans (by decide), ?_⟩
  have hkinds := congrArg (List.map PropertySchema.kind) hlisted
  rw [List.map_map] at hkinds
  exact hkinds.trans (by decide)

end ChunkSchema

end ChunkConfig
