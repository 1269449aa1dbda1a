import ChunkConfig.Proofs.Property.Evolves
import ChunkConfig.Proofs.Chunk.Nested

namespace ChunkConfig

open Xml (Attribute Node)

namespace Chunk

/-- What building can make of an opened property `p` whose schema in the type of the chunk is `s`,
when all chunks that it stores have the property `P`. -/
inductive Filling (P : Chunk → Prop) (s : PropertySchema) (p : Property Chunk) :
    Property Chunk → Prop
  | text {start : Property Chunk} (h : start = p ∨ start = p.restart) (text : String) :
    Filling P s p (start.fill 0 text).property
  | content (element : String) (nodes : List Node) :
    Filling P s p (fillContent p.restart 0 element nodes).value
  | chunks (hk : s.kind = .embedded) {cs : List Chunk} (hcs : ∀ c ∈ cs, P c) :
    Filling P s p (storeChunks p.restart 0 cs).value

variable {P : Chunk → Prop} {s : PropertySchema} {p q : Property Chunk}

theorem evolves_fillContent (p : Property Chunk) (slot : Nat) (element : String)
    (nodes : List Node) : Property.Evolves P p (fillContent p slot element nodes).value := by
  induction nodes generalizing p slot with
  | nil => exact .refl p
  | cons node rest ih =>
    cases node with
    | text content => exact (Property.evolves_storeTokens p slot _).trans (ih _ _)
    | _ => exact ih p slot

theorem evolves_storeChunks (p : Property Chunk) (slot : Nat) {cs : List Chunk}
    (hcs : ∀ c ∈ cs, P c) : Property.Evolves P p (storeChunks p slot cs).value := by
  induction cs generalizing p slot with
  | nil => exact .refl p
  | cons c rest ih =>
    have hc : ∀ a, (Value.embedded (some c)).content? = some a → P a := by
      rintro a ⟨⟩
      exact hcs c (.head _)
    rw [storeChunks]
    split
    · next q hq =>
      exact (Property.evolves_set hc hq).trans (ih q (slot + 1) fun d hd => hcs d (.tail _ hd))
    · exact .refl p
    · exact .refl p

theorem Filling.evolves (h : Filling P s p q) : Property.Evolves P p q := by
  cases h with
  | text h text =>
    rcases h with rfl | rfl
    · exact Property.evolves_storeTokens _ 0 _
    · exact (Property.evolves_restart p).trans (Property.evolves_storeTokens _ 0 _)
  | content element nodes =>
    exact (Property.evolves_restart p).trans (evolves_fillContent _ 0 element nodes)
  | chunks _ hcs => exact (Property.evolves_restart p).trans (evolves_storeChunks _ 0 hcs)

end Chunk

namespace Registry

/-- What it takes that building keeps a property `Q` of the chunk that is built, which may depend on
whether the chunk was populated, when the chunks below it have a property `P`. -/
structure Maintains (r : Registry) (nested : Bool) (Q : Bool → Chunk → Prop) (P : Chunk → Prop) :
    Prop where
  create : ∀ populate token c, r.create token populate = .ok c → Q populate c
  rename : ∀ populate c name, Q populate c → Q populate { c with name }
  hold : ∀ populate c token s p q, Q populate c → c.schema.property? token = some s →
    c.open? token = some p → Chunk.Filling P s p q → Q populate (c.hold token q)
  closed : ∀ c, Q nested c → P c

variable {r : Registry} {nested : Bool} {Q : Bool → Chunk → Prop} {P : Chunk → Prop}
  {populate : Bool}

theorem Maintains.applyAttribute (h : r.Maintains nested Q P) {c : Chunk} (hc : Q populate c)
    (a : Attribute) : Q populate (c.applyAttribute a).value := by
  rw [Chunk.applyAttribute]
  split
  · exact h.rename populate c a.value hc
  · split
    · next s p hs hp =>
      have hstart : (if s.kind = .embedded then p else p.restart) = p ∨
          (if s.kind = .embedded then p else p.restart) = p.restart := by
        split
        · exact .inl rfl
        · exact .inr rfl
      exact h.hold populate c a.name s p _ hc hs hp (.text hstart a.value)
    · exact hc

theorem Maintains.foldlM_applyAttribute (h : r.Maintains nested Q P) (as : List Attribute)
    {c : Chunk} (hc : Q populate c) : Q populate (as.foldlM Chunk.applyAttribute c).value := by
  induction as generalizing c with
  | nil => exact hc
  | cons a as ih => exact ih (h.applyAttribute hc a)

mutual

/-- What building maintains holds of every chunk that is built, whatever the nodes are. -/
theorem Maintains.buildChunk (h : r.Maintains nested Q P) : (node : Node) → ∀ populate,
    ∀ c ∈ (r.buildChunk nested populate node).value, Q populate c
  | .document [], _ | .fragment [], _ => by
    rw [Registry.buildChunk]
    intro c hc
    exact absurd hc (Option.not_mem_none c)
  | .document (child :: _), populate | .fragment (child :: _), populate => by
    rw [Registry.buildChunk]
    exact h.buildChunk child populate
  | .element name as cs, populate => by
    rw [Registry.buildChunk]
    split
    · intro c hc
      exact absurd hc (Option.not_mem_none c)
    · next d hd =>
      intro c hc
      obtain rfl := Option.some.inj hc
      exact h.applyAll cs (h.foldlM_applyAttribute as (h.create populate name d hd))
  | .text _, _ | .comment _, _ | .instruction .., _ | .notationName _, _ | .attr _, _
  | .other _, _ => fun c hc => absurd hc (Option.not_mem_none c)

theorem Maintains.applyAll (h : r.Maintains nested Q P) {populate : Bool} :
    (nodes : List Node) → ∀ {c : Chunk}, Q populate c →
      Q populate (r.applyAll nested c nodes).value
  | [], c, hc => by
    rw [Registry.applyAll]
    exact hc
  | node :: rest, c, hc => by
    rw [Registry.applyAll]
    exact h.applyAll rest (h.applyNode node hc)

theorem Maintains.applyNode (h : r.Maintains nested Q P) {populate : Bool} :
    (node : Node) → ∀ {c : Chunk}, Q populate c → Q populate (r.applyNode nested c node).value
  | .attr a, c, hc => by
    rw [Registry.applyNode]
    exact h.applyAttribute hc a
  | .element name as cs, c, hc => by
    rw [Registry.applyNode]
    split
    · next s p hs hp =>
      split
      · next hk =>
        exact h.hold populate c name s p _ hc hs hp (.chunks hk (h.buildAll cs))
      · exact h.hold populate c name s p _ hc hs hp (.content name cs)
    · exact hc
  | .document _, _, hc | .fragment _, _, hc | .text _, _, hc | .comment _, _, hc
  | .instruction .., _, hc | .notationName _, _, hc | .other _, _, hc => hc

theorem Maintains.buildAll (h : r.Maintains nested Q P) :
    (nodes : List Node) → ∀ c ∈ (r.buildAll nested nodes).value, P c
  | [] => by
    rw [Registry.buildAll]
    intro c hc
    exact absurd hc List.not_mem_nil
  | node :: rest => by
    rw [Registry.buildAll]
    intro c hc
    rcases List.mem_append.mp hc with hc | hc
    · exact h.closed c (h.buildChunk node nested c (Option.mem_toList.mp hc))
    · exact h.buildAll rest c hc

end

theorem Maintains.buildElements (h : r.Maintains nested Q P) (nodes : List Node) :
    ∀ c ∈ (r.buildElements nested nodes).value, P c := by
  induction nodes with
  | nil =>
    rw [Registry.buildElements]
    intro c hc
    exact absurd hc List.not_mem_nil
  | cons node rest ih =>
    cases node with
    | element name as cs =>
      rw [Registry.buildElements]
      intro c hc
      rcases List.mem_append.mp hc with hc | hc
      · exact h.closed c (h.buildChunk _ nested c (Option.mem_toList.mp hc))
      · exact ih c hc
    | _ => exact ih

mutual

theorem Maintains.build (h : r.Maintains nested Q P) :
    (node : Node) → ∀ c ∈ (r.build nested node).value, P c
  | .document cs | .fragment cs => by
    rw [Registry.build]
    exact h.buildEach cs
  | .element name as cs => by
    rw [Registry.build]
    split
    · exact h.buildElements cs
    · intro c hc
      exact absurd hc List.not_mem_nil
  | .text _ | .comment _ | .instruction .. | .notationName _ | .attr _ | .other _ =>
    fun c hc => absurd hc List.not_mem_nil

theorem Maintains.buildEach (h : r.Maintains nested Q P) :
    (nodes : List Node) → ∀ c ∈ (r.buildEach nested nodes).value, P c
  | [] => by
    rw [Registry.buildEach]
    intro c hc
    exact absurd hc List.not_mem_nil
  | node :: rest => by
    rw [Registry.buildEach]
    intro c hc
    rcases List.mem_append.mp hc with hc | hc
    · exact h.build node c hc
    · exact h.buildEach rest c hc

end

end Registry

end ChunkConfig
