import ChunkConfig.Proofs.Building.Invariant
import ChunkConfig.Proofs.Chunk.Hold
import ChunkConfig.Proofs.Registry.Sound

namespace ChunkConfig

open Xml (Node)

namespace Chunk

theorem proper_storeChunks {p : Property Chunk} (hp : p.Proper) (hk : p.schema.kind = .embedded)
    {slot : Nat} (hslot : slot ≤ p.values.length) (hf : ∀ v ∈ p.values.take slot, v.isFilled = true)
    (cs : List Chunk) : (storeChunks p slot cs).value.Proper := by
  induction cs generalizing p slot with
  | nil => exact hp
  | cons c rest ih =>
    rw [storeChunks]
    split
    · next q hq =>
      have hroom := hp.room_of_set hslot hq
      have hov := Property.set_eq_ok hroom (v := .embedded (some c)) hk.symm
      obtain rfl := Except.ok.inj (hq.symm.trans hov)
      have hlen : (p.values.take slot ++ [Value.embedded (some c)]).length = slot + 1 := by
        rw [List.length_append, List.length_take_of_le hslot, List.length_singleton]
      have hnext : slot + 1 ≤ (p.overlay slot [.embedded (some c)]).values.length := by
        rw [Property.overlay, List.length_append, hlen]
        exact Nat.le_add_right _ _
      have hfilled : ∀ v ∈ (p.overlay slot [.embedded (some c)]).values.take (slot + 1),
          v.isFilled = true := by
        intro v hv
        rw [Property.overlay, List.take_left' hlen] at hv
        rcases List.mem_append.mp hv with hv | hv
        · exact hf v hv
        · rw [List.mem_singleton.mp hv]
          rfl
      have hq := hp.overlay (v := .embedded (some c)) hroom hk.symm fun _ => ⟨rfl, hf⟩
      exact ih hq hk hnext hfilled
    · exact hp
    · exact hp

theorem proper_fillContent {p : Property Chunk} (hp : p.Proper) (slot : Nat) (element : String)
    (nodes : List Node) : (fillContent p slot element nodes).value.Proper := by
  induction nodes generalizing p slot with
  | nil => exact hp
  | cons node rest ih =>
    cases node with
    | text content => exact ih (hp.storeTokens slot (Text.tokens content)) _
    | _ => exact ih hp slot

theorem Filling.proper {P : Chunk → Prop} {p q : Property Chunk} (h : Filling P p.schema p q)
    (hp : p.Proper) : q.Proper := by
  cases h with
  | text h text =>
    rcases h with rfl | rfl
    · exact hp.storeTokens 0 _
    · exact hp.restart.storeTokens 0 _
  | content element nodes => exact proper_fillContent hp.restart 0 element nodes
  | chunks hk _ =>
    exact proper_storeChunks hp.restart ((congrArg _ p.schema_restart).trans hk) (Nat.zero_le _)
      (fun v hv => absurd hv List.not_mem_nil) _

/-- What holds for a chunk that is built: its type is registered, a populated chunk holds all that
its type declares, and the chunks below it have some property. -/
structure Built (r : Registry) (populate : Bool) (P : Chunk → Prop) (c : Chunk) : Prop where
  bound : r.schema? c.schema.token = some c.schema
  proper : c.Proper
  complete : populate = true → ∀ p ∈ c.schema.properties, (c.property? p.token).isSome = true
  embeds : ∀ d, c.Embeds d → P d

variable {r : Registry} {populate : Bool} {P : Chunk → Prop}

theorem Built.congr {r' : Registry} {c : Chunk} (h : c.Built r populate P)
    (hs : ∀ token, r.schema? token = r'.schema? token) : c.Built r' populate P :=
  ⟨(hs _).symm.trans h.bound, h.proper, h.complete, h.embeds⟩

theorem Built.hold {c : Chunk} (h : c.Built r populate P) {token : String} {p : Property Chunk}
    (hs : c.schema.property? token = some p.schema) (hp : p.Proper) (hd : ∀ d ∈ p.contents, P d) :
    (c.hold token p).Built r populate P where
  bound := h.bound
  proper := h.proper.hold hs hp
  complete hpop q hq := by
    rw [property?_hold]
    split
    · rfl
    · exact h.complete hpop q hq
  embeds d he := (embeds_hold he).elim (hd d) (h.embeds d)

theorem Built.rename {c : Chunk} (h : c.Built r populate P) (name : String) :
    ({ c with name } : Chunk).Built r populate P :=
  ⟨h.bound, ⟨h.proper.canonical, h.proper.declared, h.proper.proper⟩, h.complete, h.embeds⟩

theorem Built.fill {c : Chunk} (h : c.Built r populate P) {token : String} {s : PropertySchema}
    {p q : Property Chunk} (hs : c.schema.property? token = some s)
    (hp : c.open? token = some p) (hq : Filling P s p q) : (c.hold token q).Built r populate P := by
  obtain ⟨hps, hpp⟩ := h.proper.of_open? hp
  obtain rfl := Option.some.inj (hs.symm.trans hps)
  apply h.hold (hps.trans (congrArg some hq.evolves.schema_eq.symm)) (hq.proper hpp)
  intro d hd
  exact (hq.evolves.contents d hd).elim (fun hd => h.embeds d (embeds_of_open? hp hd)) id

end Chunk

namespace Registry

variable {r : Registry} {P : Chunk → Prop}

theorem embeds_start {populate : Bool} {s : ChunkSchema} {p : PropertySchema}
    (hd : ∀ token d, r.default? token = some d → ∀ e, d.Embeds e → P e) :
    ∀ e ∈ (r.start populate s p).contents, P e := by
  intro e he
  rcases r.start_cases populate s p with hs | ⟨d, hdt, hdp⟩
  · rw [hs, Property.contents_ofSchema] at he
    cases he
  · exact hd _ d hdt e (Chunk.embeds_of_property? hdp he)

/-- A new chunk embeds nothing but what default chunks embed. -/
theorem built_create (hr : r.Sound)
    (hd : ∀ token d, r.default? token = some d → ∀ e, d.Embeds e → P e) {token : String}
    {populate : Bool} {c : Chunk} (h : r.create token populate = .ok c) :
    c.Built r populate P := by
  cases hs : r.schema? token with
  | none =>
    rw [create] at h
    simp only [hs] at h
    cases h
  | some s =>
    obtain ⟨d, hc, rfl, hp, hprop⟩ := create_eq hr hs populate
    obtain rfl := Except.ok.inj (hc.symm.trans h)
    have hb : r.schema? _ = some _ := (r.schema?_congr (hr.schema _ _ hs).1).trans hs
    refine ⟨hb, hp, fun hpop p hm => ?_, fun e he => ?_⟩
    · rw [hprop, if_pos hpop, (hr.schema _ _ hs).2.property?_of_mem hm]
      rfl
    · obtain ⟨f, hf, hef⟩ := he
      have ht := hprop f.1
      rw [Chunk.property?, hp.canonical.find?_of_mem hf] at ht
      split at ht
      · obtain ⟨p, -, hq⟩ := Option.map_eq_some_iff.mp ht.symm
        rw [← hq] at hef
        exact embeds_start hd e hef
      · cases ht

/-- A property that holds for all chunks below default chunks, and for a populated chunk once it
holds for those below it. -/
structure Keeps (r : Registry) (P : Chunk → Prop) : Prop where
  sound : r.Sound
  defaults : ∀ token d, r.default? token = some d → ∀ e, d.Embeds e → P e
  closed : ∀ c : Chunk, c.Built r true P → P c

/-- What the chunks below default chunks have, and every chunk once those below it do, is maintained
below all chunks that are built. -/
theorem Sound.maintains (hr : r.Sound) {nested : Bool}
    (hd : ∀ token d, r.default? token = some d → ∀ e, d.Embeds e → P e)
    (hclosed : ∀ c : Chunk, c.Built r nested P → P c) :
    r.Maintains nested (fun populate c => c.Built r populate P) P where
  create _ _ _ hc := built_create hr hd hc
  rename _ _ name hc := hc.rename name
  hold _ _ _ _ _ _ hc hs hp hq := hc.fill hs hp hq
  closed := hclosed

theorem Keeps.maintains (h : r.Keeps P) :
    r.Maintains true (fun populate c => c.Built r populate P) P :=
  h.sound.maintains h.defaults h.closed

theorem built_buildChunk (h : r.Keeps P) (node : Node) (populate : Bool) :
    ∀ c ∈ (r.buildChunk true populate node).value, c.Built r populate P :=
  h.maintains.buildChunk node populate

end Registry

end ChunkConfig
