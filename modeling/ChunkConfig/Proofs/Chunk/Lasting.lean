import ChunkConfig.Proofs.Building.Invariant
import ChunkConfig.Proofs.Chunk.Hold

namespace ChunkConfig

namespace Chunk

/-- How a chunk is edited: one of its properties is opened, and it holds what becomes of that. What
is embedded anew has the property `P`. -/
def Edited (P : Chunk → Prop) (token : String) (c d : Chunk) : Prop :=
  ∃ p q, c.open? token = some p ∧ Property.Evolves P p q ∧ d = c.hold token q

section Edited

variable {P : Chunk → Prop} {c d : Chunk} {token : String}

theorem edited_edit {β : Type} {f : Property Chunk → β × Property Chunk} {b : β}
    (hf : ∀ p, Property.Evolves P p (f p).2) (h : c.edit? token f = some (b, d)) :
    Edited P token c d := by
  obtain ⟨p, hp, hd⟩ := Option.map_eq_some_iff.mp h
  cases hd
  exact ⟨p, (f p).2, hp, hf p, rfl⟩

/-- A chunk is edited also when it refuses the value, for it holds the property from then on. -/
theorem edited_set {index : Nat} {v : Value Chunk} {result : Except ModelError Unit}
    (hv : ∀ e, v.content? = some e → P e) (h : c.set? token index v = some (result, d)) :
    Edited P token c d := by
  refine edited_edit (fun p => ?_) h
  split
  · next q hq => exact Property.evolves_set hv hq
  · exact .refl p

theorem edited_setText {text : String} {slot : Nat} {filled : Property.Filled Chunk}
    (h : c.setText? token slot text = some (filled, d)) : Edited P token c d :=
  edited_edit (fun p => Property.evolves_storeTokens p _ _) h

theorem edited_clear (h : c.clear? token = some d) : Edited P token c d := by
  obtain ⟨⟨b, e⟩, he, hd⟩ := Option.map_eq_some_iff.mp h
  cases hd
  exact edited_edit (fun p => Property.evolves_clear p) he

end Edited

/-- A property of chunks that a chunk does not lose by another name, nor by anything that becomes of
what it holds. -/
structure Lasting (P : Chunk → Prop) : Prop where
  renamed : ∀ c name, P c → P { c with name }
  held : ∀ c token p q, P c → c.open? token = some p → Property.Evolves (Throughout P) p q →
    P (c.hold token q)

theorem lasting_schema (P : ChunkSchema → Prop) : Lasting fun c => P c.schema where
  renamed _ _ hc := hc
  held _ _ _ _ hc _ _ := hc

variable {P : Chunk → Prop} (h : Lasting P) {c d : Chunk} {token : String}
include h

theorem Lasting.rename (hc : c.Throughout P) (name : String) :
    ({ c with name } : Chunk).Throughout P :=
  .intro (h.renamed c name hc.here) fun _ => hc.embedded

theorem Lasting.edit (hc : c.Throughout P) (he : Edited (Throughout P) token c d) :
    d.Throughout P := by
  obtain ⟨p, q, ho, hq, rfl⟩ := he
  refine .intro (h.held c token p q hc.here ho hq) fun e he => ?_
  rcases embeds_hold he with he | he
  · rcases hq.contents e he with he | he
    · exact hc.embedded (embeds_of_open? ho he)
    · exact he
  · exact hc.embedded he

/-- What lasts is maintained by building when it holds of new chunks. -/
theorem Lasting.maintains {r : Registry}
    (hcreate : ∀ populate token c, r.create token populate = .ok c → c.Throughout P)
    (nested : Bool) : r.Maintains nested (fun _ => Throughout P) (Throughout P) where
  create := hcreate
  rename _ _ name hc := h.rename hc name
  hold _ _ _ _ p q hc _ ho hq := h.edit hc ⟨p, q, ho, hq.evolves, rfl⟩
  closed _ hc := hc

end Chunk

end ChunkConfig
