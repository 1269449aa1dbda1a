import ChunkConfig.Proofs.Building.Rearranged
import ChunkConfig.Proofs.Building.Rejected
import ChunkConfig.Proofs.Registry.Run

namespace ChunkConfig

open Xml (Attribute Element Node)
open Reported (Permuted)

/-- The element that has the value of an attribute as its text. -/
def Xml.Attribute.spelled (a : Attribute) : Node :=
  .element a.name [] [.text a.value]

namespace ChunkSchema

/-- Whether an attribute gives text for a property of the type that embeds no chunks. -/
def takesText (s : ChunkSchema) (a : Attribute) : Bool :=
  !Text.same a.name "name" && (s.property? a.name).any fun p => p.kind ≠ .embedded

theorem takesText_iff {s : ChunkSchema} {a : Attribute} : s.takesText a = true ↔
    Text.same a.name "name" = false ∧ ∃ p, s.property? a.name = some p ∧ p.kind ≠ .embedded := by
  rw [takesText, Bool.and_eq_true, Bool.not_eq_true', Option.any_eq_true]
  simp only [decide_eq_true_eq]

end ChunkSchema

namespace Registry

/-- The element of a chunk with an element of its own for each property that an attribute gives text
for. These stand before the other children, in the order of the attributes. -/
def spellOut (r : Registry) (e : Element) : Element :=
  match r.schema? e.name with
  | none => e
  | some s =>
    { e with
      attributes := e.attributes.filter (!s.takesText ·)
      children := (e.attributes.filter s.takesText).map Attribute.spelled ++ e.children }

variable {r : Registry} {nested : Bool} {c : Chunk} {a b : Attribute}

theorem applyNode_spelled (r : Registry) (nested : Bool) (h : c.schema.takesText a = true) :
    r.applyNode nested c a.spelled = c.applyAttribute a := by
  obtain ⟨hname, s, hs, hk⟩ := ChunkSchema.takesText_iff.mp h
  have hattr : r.applyNode nested c (.attr a) = c.applyAttribute a := by rw [applyNode]
  rw [← hattr, applyNode_of_givesText (.attr hname) hs hk, Attribute.spelled,
    applyNode_of_givesText (.element a.name [] a.value) hs hk]

theorem permuted_applyAttribute (ha : c.schema.takesText a = true)
    (hb : c.schema.takesText b = false) :
    Permuted (c.applyAttribute a >>= fun d => d.applyAttribute b)
      (c.applyAttribute b >>= fun d => d.applyAttribute a) := by
  obtain ⟨hname, s, hs, hk⟩ := ChunkSchema.takesText_iff.mp ha
  simp only [Chunk.applyAttribute_eq]
  rw [Chunk.attributeChange, if_neg (Bool.eq_false_iff.mp hname), Chunk.attributeChange]
  split
  · exact (Chunk.Change.permuted_rename hs b.value).symm
  · next hbname =>
    apply Chunk.Change.permuted_rework
    by_contra hsame
    rw [Bool.not_eq_false] at hsame
    have hsb : c.schema.property? b.name = some s :=
      (c.schema.property?_congr hsame).symm.trans hs
    rw [ChunkSchema.takesText_iff.mpr ⟨Bool.eq_false_iff.mpr hbname, s, hsb, hk⟩] at hb
    cases hb

theorem permuted_foldlM_applyAttribute (ha : c.schema.takesText a = true) {bs : List Attribute}
    (hb : ∀ b ∈ bs, c.schema.takesText b = false) :
    Permuted (c.applyAttribute a >>= bs.foldlM Chunk.applyAttribute)
      (bs.foldlM Chunk.applyAttribute c >>= fun d => d.applyAttribute a) := by
  induction bs generalizing c with
  | nil =>
    simp only [List.foldlM_nil, bind_pure, pure_bind]
    exact .refl _
  | cons b bs ih =>
    have hschema := c.schema_applyAttribute b
    have hswap : Permuted
        ((c.applyAttribute a >>= fun d => d.applyAttribute b) >>= bs.foldlM Chunk.applyAttribute)
        ((c.applyAttribute b >>= fun d => d.applyAttribute a) >>= bs.foldlM Chunk.applyAttribute) :=
      (permuted_applyAttribute ha (hb b (.head _))).bind (.refl _)
    have hrest : Permuted
        (c.applyAttribute b >>= fun d => d.applyAttribute a >>= bs.foldlM Chunk.applyAttribute)
        (c.applyAttribute b >>= fun d =>
          bs.foldlM Chunk.applyAttribute d >>= fun e => e.applyAttribute a) := by
      apply (Permuted.refl (c.applyAttribute b)).bind
      apply ih
      · rw [hschema]
        exact ha
      · intro d hd
        rw [hschema]
        exact hb d (.tail _ hd)
    rw [bind_assoc, bind_assoc] at hswap
    simp only [List.foldlM_cons, bind_assoc]
    exact hswap.trans hrest

/-- The attributes that give text come to the same as their elements, behind all other
attributes. -/
theorem permuted_spelled (r : Registry) (nested : Bool) {s : ChunkSchema} (hc : c.schema = s)
    (as : List Attribute) :
    Permuted (as.foldlM Chunk.applyAttribute c)
      ((as.filter (!s.takesText ·)).foldlM Chunk.applyAttribute c >>= fun d =>
        r.applyAll nested d ((as.filter s.takesText).map Attribute.spelled)) := by
  induction as generalizing c with
  | nil =>
    simp only [List.filter_nil, List.map_nil, List.foldlM_nil, pure_bind, applyAll]
    exact .refl _
  | cons a as ih =>
    have hschema := (c.schema_applyAttribute a).trans hc
    -- What is left is spelled out first, so that only `a` has to find its place.
    have hrest : Permuted (c.applyAttribute a >>= as.foldlM Chunk.applyAttribute)
        (c.applyAttribute a >>= fun d =>
          (as.filter (!s.takesText ·)).foldlM Chunk.applyAttribute d >>= fun e =>
            r.applyAll nested e ((as.filter s.takesText).map Attribute.spelled)) :=
      (Permuted.refl _).bind (ih hschema)
    rw [List.foldlM_cons]
    apply hrest.trans
    cases ha : s.takesText a with
    | false =>
      simp only [List.filter_cons, ha, Bool.not_false, if_true, Bool.false_eq_true, if_false,
        List.foldlM_cons, bind_assoc]
      exact .refl _
    | true =>
      have hstay : ∀ b ∈ as.filter (!s.takesText ·), c.schema.takesText b = false := by
        intro b hb
        rw [hc]
        exact (Bool.not_eq_true' _).mp (List.mem_filter.mp hb).2
      simp only [List.filter_cons, ha, Bool.not_true, if_true, Bool.false_eq_true, if_false,
        List.map_cons]
      generalize as.filter (!s.takesText ·) = bs at hstay
      generalize (as.filter s.takesText).map Attribute.spelled = moved
      have hmove : Permuted
          ((c.applyAttribute a >>= bs.foldlM Chunk.applyAttribute) >>= fun d =>
            r.applyAll nested d moved)
          ((bs.foldlM Chunk.applyAttribute c >>= fun d => d.applyAttribute a) >>= fun d =>
            r.applyAll nested d moved) :=
        (permuted_foldlM_applyAttribute (hc ▸ ha) hstay).bind (.refl _)
      have hspelled : Permuted
          (bs.foldlM Chunk.applyAttribute c >>= fun d => d.applyAttribute a >>= fun e =>
            r.applyAll nested e moved)
          (bs.foldlM Chunk.applyAttribute c >>= fun d =>
            r.applyAll nested d (a.spelled :: moved)) := by
        apply (Permuted.refl _).bind
        have htakes : (bs.foldlM Chunk.applyAttribute c).value.schema.takesText a = true := by
          rw [Chunk.schema_foldlM_applyAttribute, hc]
          exact ha
        rw [applyAll, applyNode_spelled r nested htakes]
        exact .refl _
      rw [bind_assoc, bind_assoc] at hmove
      exact hmove.trans hspelled

/-- For the chunk and for what is reported it makes no difference whether the text of a property is
given in an attribute or in an element. -/
theorem buildChunk_spellOut (r : Registry) (nested populate : Bool) (e : Element) :
    Permuted (r.buildChunk nested populate (r.spellOut e).node)
      (r.buildChunk nested populate e.node) := by
  rw [spellOut]
  cases hs : r.schema? e.name with
  | none => exact .refl _
  | some s =>
    obtain ⟨c, hc, hschema, -⟩ := create_of_schema? hs populate
    rw [Element.node, Element.node, buildChunk, buildChunk]
    simp only [hc, applyAll_eq, List.foldlM_append]
    have hattributes := (permuted_spelled r nested hschema e.attributes).symm
    simp only [applyAll_eq] at hattributes
    have hchildren := hattributes.bind
      (f := fun d => e.children.foldlM (r.applyNode nested) d >>= fun d => pure (some d))
      (g := fun d => e.children.foldlM (r.applyNode nested) d >>= fun d => pure (some d)) (.refl _)
    simp only [bind_assoc] at hchildren ⊢
    exact hchildren

end Registry

end ChunkConfig
