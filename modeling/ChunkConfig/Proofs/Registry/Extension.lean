import ChunkConfig.Proofs.Building.Known
import ChunkConfig.Proofs.Registry.Batch

namespace ChunkConfig

open Xml (Node)

namespace Registry

variable {r : Registry} {batch : Catalog}

theorem last?_eq_none_of_new (hb : ∀ s ∈ batch, r.schema? s.token = none) {token : String}
    (hs : (r.schema? token).isSome = true) : batch.last? token = none := by
  cases hl : batch.last? token with
  | none => rfl
  | some s =>
    rw [← r.schema?_congr (Catalog.same_of_last? hl), hb s (Catalog.mem_of_last? hl)] at hs
    cases hs

/-- Types under new tokens leave the chunks of the registered types as they are created. -/
theorem extends_register (hb : ∀ s ∈ batch, r.schema? s.token = none) :
    r.Extends (r.register batch).value := by
  intro token populate c hc
  have hs : (r.schema? token).isSome = true := by
    cases hs : r.schema? token with
    | some s => rfl
    | none =>
      simp only [create, hs] at hc
      cases hc
  have hn := last?_eq_none_of_new hb hs
  rw [create, schema?_register, default?_register, hn, Option.none_or]
  exact hc

/-- Registering types under new tokens changes no chunk that can be created, and nothing in what a
document without unknown types means. -/
theorem build_register_of_new (hb : ∀ s ∈ batch, r.schema? s.token = none) :
    (∀ populate node, (∀ p ∈ (r.build populate node).problems, p.code ≠ .unknownChunkType) →
      (r.register batch).value.build populate node = r.build populate node) ∧
    ∀ token populate c, r.create token populate = .ok c →
      (r.register batch).value.create token populate = .ok c :=
  ⟨fun _ node hk => (extends_register hb).build node hk, extends_register hb⟩

/-- A document with a lamp of its own value, and with an attribute that lamps do not have. -/
def lampDocument : Node :=
  .document [.element "ConfigChunkDB" []
    [.element "lamp" [⟨"on", "false"⟩, ⟨"color", "red"⟩] [], .element "Lamp" [] []]]

theorem build_register_of_new_knot :
    (∀ s ∈ knotBatch, (empty.register lampBatch).value.schema? s.token = none) ∧
      (∀ p ∈ ((empty.register lampBatch).value.build true lampDocument).problems,
        p.code ≠ .unknownChunkType) ∧
      ((empty.register lampBatch).value.register knotBatch).value.build true lampDocument =
        (empty.register lampBatch).value.build true lampDocument := by
  have hb : ∀ s ∈ knotBatch, (empty.register lampBatch).value.schema? s.token = none := by
    decide +kernel
  have hk : ∀ p ∈ ((empty.register lampBatch).value.build true lampDocument).problems,
      p.code ≠ .unknownChunkType := by
    decide +kernel
  exact ⟨hb, hk, (build_register_of_new hb).1 true lampDocument hk⟩

end Registry

end ChunkConfig
