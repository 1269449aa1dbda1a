import ChunkConfig.Proofs.Chunk.Hold
import ChunkConfig.Registration

namespace ChunkConfig

namespace Registry

/-- What holds for every registry that types were registered in. -/
structure Sound (r : Registry) : Prop where
  schema : ∀ token s, r.schema? token = some s → Text.same s.token token = true ∧ s.Distinct
  default : ∀ token d, r.default? token = some d →
    r.schema? token = some d.schema ∧ d.Proper

variable {r : Registry}

theorem schema?_congr (r : Registry) {a b : String} (h : Text.same a b = true) :
    r.schema? a = r.schema? b := by
  rw [schema?, schema?, TokenMap.find?, TokenMap.find?, Text.same_iff.mp h]

theorem default?_congr (r : Registry) {a b : String} (h : Text.same a b = true) :
    r.default? a = r.default? b := by
  rw [default?, default?, TokenMap.find?, TokenMap.find?, Text.same_iff.mp h]

/-- A property of a new chunk, before anything of the document is stored in it. -/
def start (r : Registry) (populate : Bool) (s : ChunkSchema) (p : PropertySchema) :
    Property Chunk :=
  if populate then ((r.default? s.token).bind (·.property? p.token)).getD (.ofSchema p)
  else .ofSchema p

/-- A property of a new chunk is a new one, or it is that of the default chunk. -/
theorem start_cases (r : Registry) (populate : Bool) (s : ChunkSchema) (p : PropertySchema) :
    r.start populate s p = .ofSchema p ∨ ∃ d, r.default? s.token = some d ∧
      d.property? p.token = some (r.start populate s p) := by
  rw [start]
  split
  · cases hq : (r.default? s.token).bind (·.property? p.token) with
    | none => exact .inl rfl
    | some q => exact .inr (Option.bind_eq_some_iff.mp hq)
  · exact .inl rfl

theorem property?_default (hr : r.Sound) {token : String} {s : ChunkSchema}
    (hs : r.schema? token = some s) {d : Chunk} (hd : r.default? token = some d) (t : String) :
    (d.property? t).or ((Chunk.full s).property? t) = (s.property? t).map (r.start true s) := by
  obtain ⟨hst, hdist⟩ := hr.schema token s hs
  obtain ⟨hds, hp⟩ := hr.default token d hd
  obtain rfl : s = d.schema := Option.some.inj (hs.symm.trans hds)
  rw [Chunk.property?_full hdist]
  cases hq : d.schema.property? t with
  | none =>
    cases ht : d.property? t with
    | none => rfl
    | some q => exact absurd (hq.symm.trans (hp.declared t q ht)) nofun
  | some p =>
    have hdt : r.default? d.schema.token = some d := (r.default?_congr hst).trans hd
    rw [Option.map_some, Option.map_some, start, if_pos rfl, hdt, Option.bind_some,
      d.property?_congr (ChunkSchema.same_of_property? hq)]
    cases d.property? t <;> rfl

theorem create_eq (hr : r.Sound) {token : String} {s : ChunkSchema}
    (hs : r.schema? token = some s) (populate : Bool) :
    ∃ c, r.create token populate = .ok c ∧ c.schema = s ∧ c.Proper ∧
      ∀ t, c.property? t = if populate then (s.property? t).map (r.start true s) else none := by
  obtain ⟨hst, hdist⟩ := hr.schema token s hs
  rw [create]
  simp only [hs]
  cases populate with
  | false => exact ⟨.bare s, rfl, rfl, Chunk.proper_bare s, fun _ => rfl⟩
  | true =>
    cases hd : r.default? token with
    | none =>
      refine ⟨.full s, rfl, Chunk.schema_full s, Chunk.proper_full hdist, fun t => ?_⟩
      have hdt : r.default? s.token = none := (r.default?_congr hst).trans hd
      rw [Chunk.property?_full hdist]
      have hf : r.start true s = .ofSchema := by
        funext p
        rw [start, if_pos rfl, hdt]
        rfl
      rw [if_pos rfl, hf]
    | some d =>
      obtain ⟨hds, hp⟩ := hr.default token d hd
      have hsd : d.schema = (Chunk.full s).schema := by
        rw [Chunk.schema_full]
        exact Option.some.inj (hds.symm.trans hs)
      refine ⟨(Chunk.full s).adopt d, rfl, Chunk.schema_full s,
        (Chunk.proper_full hdist).adopt hp hsd, fun t => ?_⟩
      rw [Chunk.property?_adopt _ hp.canonical, if_pos rfl]
      exact property?_default hr hs hd t

end Registry

end ChunkConfig
