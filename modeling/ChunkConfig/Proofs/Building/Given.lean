import ChunkConfig.Proofs.Building.Built
import ChunkConfig.Proofs.Property.Cut
import ChunkConfig.Proofs.Registry.Run
import ChunkConfig.Proofs.Xml.Parsed

namespace ChunkConfig

open Xml (Attribute Element Node)

/-- What a document gives for one slot: a value, or the element of a chunk. -/
inductive Given where
  | value (v : Value Chunk)
  | chunk (e : Element)

/-- What one mention of a property gives for its slots, from the first one on. An attribute gives
nothing for embedded chunks, and is no new start for them either. -/
abbrev Mention := Option (List Given)

/-- What a mention gives, slot by slot. -/
def Mention.slots (m : Mention) : List Given :=
  m.getD []

/-- What is given by a mention and a later one. Values of a variable count do not mix. -/
def Mention.andThen (count : SlotCount) : Mention → Mention → Mention
  | m, none => m
  | none, some later => some later
  | some earlier, some later =>
    match count with
    | .fixed _ => some (later ++ earlier.drop later.length)
    | .variable => some later

namespace PropertySchema

/-- Whether an attribute of a chunk element mentions a property. -/
def isMentionedBy (p : PropertySchema) (a : Attribute) : Bool :=
  !Text.same a.name "name" && Text.same a.name p.token

def attributeMention (p : PropertySchema) (a : Attribute) : Mention :=
  if p.kind = .embedded then none
  else some ((p.count.cut 0 (p.valuesOf (Text.tokens a.value))).map .value)

end PropertySchema

namespace Registry

/-- The elements among nodes that describe chunks. -/
def chunkElements (r : Registry) (nodes : List Node) : List Element :=
  (nodes.filterMap Node.element?).filter fun e => (r.schema? e.name).isSome

def elementMention (r : Registry) (p : PropertySchema) (f : Element) : Mention :=
  some (if p.kind = .embedded then (p.count.cut 0 (r.chunkElements f.children)).map .chunk
    else (p.count.cut 0 (f.children.flatMap (Chunk.textValues p))).map .value)

/-- The mentions of a property in the element of a chunk, in their order. -/
def mentions (r : Registry) (p : PropertySchema) (e : Element) : List Mention :=
  (e.attributes.filter p.isMentionedBy).map p.attributeMention ++
    ((e.children.filterMap Node.element?).filter fun f => Text.same f.name p.token).map
      (r.elementMention p)

/-- Whether the element of a chunk has an element for a property, or an attribute for it where it
embeds no chunks. -/
def Restarts (p : PropertySchema) (e : Element) : Prop :=
  (∃ f : Element, f.node ∈ e.children ∧ Text.same f.name p.token = true) ∨
    p.kind ≠ .embedded ∧ ∃ a ∈ e.attributes, p.isMentionedBy a = true

/-- What the element of a chunk gives for the slots of a property. -/
def given (r : Registry) (p : PropertySchema) (e : Element) : Mention :=
  (r.mentions p e).foldl (Mention.andThen p.count) none

end Registry

/-- The value that is stored for what a document gives. -/
def Given.resolve (r : Registry) (nested : Bool) : Given → Value Chunk
  | .value v => v
  | .chunk e => .embedded (r.buildChunk nested nested e.node).value

theorem Given.map_resolve_value (r : Registry) (nested : Bool) (vs : List (Value Chunk)) :
    (vs.map Given.value).map (Given.resolve r nested) = vs := by
  rw [List.map_map]
  exact List.map_id vs

namespace Mention

variable {r : Registry} {nested : Bool} {p : PropertySchema}

/-- A property after a mention. -/
def apply (r : Registry) (nested : Bool) (m : Mention) (q : Property Chunk) : Property Chunk :=
  match m with
  | none => q
  | some gs => q.restart.overlay 0 (gs.map (Given.resolve r nested))

theorem schema_apply (m : Mention) (q : Property Chunk) :
    (m.apply r nested q).schema = q.schema := by
  cases m with
  | none => rfl
  | some gs => exact q.schema_restart

theorem apply_andThen (m m' : Mention) (q : Property Chunk) :
    (m.andThen q.schema.count m').apply r nested q =
      m'.apply r nested (m.apply r nested q) := by
  cases m' with
  | none => cases m <;> rfl
  | some later =>
    cases m with
    | none => rfl
    | some earlier =>
      have hdrop : (q.restart.values.drop earlier.length).drop (later.length - earlier.length) =
          q.restart.values.drop (later ++ earlier.drop later.length).length := by
        rw [List.drop_drop, List.length_append, List.length_drop]
        congr 1
        omega
      cases hc : q.schema.count with
      | fixed n =>
        rw [andThen, apply, apply, apply, Property.restart_of_fixed hc] at *
        rw [Property.restart_of_fixed (p := q.overlay 0 _) hc]
        simp only [Property.overlay_zero, List.length_map]
        simp only [List.drop_append, List.length_map, hdrop, List.map_append, List.map_drop,
          List.append_assoc]
      | «variable» =>
        rw [andThen, apply, apply, apply, Property.restart_of_variable (p := q.restart.overlay 0 _)
          ((congrArg _ q.schema_restart).trans hc), Property.restart_of_variable hc]
        rfl

/-- What a mention makes of a property that is held, or of a new one. -/
def absorb (r : Registry) (nested : Bool) (p : PropertySchema) (o : Option (Property Chunk))
    (m : Mention) : Option (Property Chunk) :=
  some (m.apply r nested (o.getD (.ofSchema p)))

theorem foldl_absorb_apply (ms : List Mention) (m : Mention) {q : Property Chunk}
    (hq : q.schema = p) : ms.foldl (absorb r nested p) (some (m.apply r nested q)) =
      some ((ms.foldl (andThen p.count) m).apply r nested q) := by
  induction ms generalizing m with
  | nil => rfl
  | cons m' ms ih =>
    rw [List.foldl_cons, List.foldl_cons, ← ih, absorb, Option.getD_some, ← hq, apply_andThen]

/-- Mentions one after the other are one mention that gives what they give together. -/
theorem foldl_absorb {ms : List Mention} (hne : ms ≠ []) {o : Option (Property Chunk)}
    (ho : ∀ q ∈ o, q.schema = p) : ms.foldl (absorb r nested p) o =
      absorb r nested p o (ms.foldl (andThen p.count) none) := by
  have hq : (o.getD (.ofSchema p)).schema = p := by
    cases o with
    | none => exact Property.schema_ofSchema p
    | some q => exact ho q rfl
  cases ms with
  | nil => exact absurd rfl hne
  | cons m ms =>
    rw [List.foldl_cons, List.foldl_cons, absorb, foldl_absorb_apply ms m hq, absorb]
    cases m <;> rfl

variable {m : Mention} {q : Property Chunk}

theorem getElem?_apply_of_given {i : Nat} {g : Given} (h : m.slots[i]? = some g) :
    (m.apply r nested q).values[i]? = some (g.resolve r nested) := by
  cases m with
  | none => cases h
  | some gs =>
    have hi : i < (gs.map (Given.resolve r nested)).length := by
      rw [List.length_map]
      exact (List.getElem?_eq_some_iff.mp h).1
    have hg : gs[i]? = some g := h
    rw [apply, Property.overlay_zero]
    simp only [List.getElem?_append_left hi, List.getElem?_map, hg, Option.map_some]

theorem getElem?_apply_of_fixed {n i : Nat} (hc : q.schema.count = .fixed n)
    (hi : m.slots.length ≤ i) : (m.apply r nested q).values[i]? = q.values[i]? := by
  cases m with
  | none => rfl
  | some gs =>
    have hl : (gs.map (Given.resolve r nested)).length ≤ i := by
      rw [List.length_map]
      exact hi
    rw [apply, Property.overlay_zero, Property.restart_of_fixed hc]
    simp only [List.getElem?_append_right hl, List.getElem?_drop, Nat.add_sub_cancel' hl]

theorem length_apply_of_fixed {n : Nat} (hc : q.schema.count = .fixed n)
    (hq : q.values.length = n) (hm : m.slots.length ≤ n) :
    (m.apply r nested q).values.length = n := by
  cases m with
  | none => exact hq
  | some gs =>
    have hl : gs.length ≤ n := hm
    rw [apply, Property.overlay_zero, Property.restart_of_fixed hc]
    simp only [List.length_append, List.length_drop, List.length_map, hq]
    omega

theorem length_apply_of_variable {gs : List Given} (hc : q.schema.count = .variable) :
    (apply r nested (some gs) q).values.length = gs.length := by
  rw [apply, Property.overlay_zero, Property.restart_of_variable hc]
  simp only [List.drop_nil, List.append_nil, List.length_map]

theorem slots_andThen_le {n : Nat} {m' : Mention} (hm : m.slots.length ≤ n)
    (hm' : m'.slots.length ≤ n) : (m.andThen (.fixed n) m').slots.length ≤ n := by
  cases m' with
  | none => cases m <;> exact hm
  | some later =>
    cases m with
    | none => exact hm'
    | some earlier =>
      have h₁ : earlier.length ≤ n := hm
      have h₂ : later.length ≤ n := hm'
      rw [andThen, slots, Option.getD_some, List.length_append, List.length_drop]
      omega

theorem mem_slots_andThen {count : SlotCount} {m' : Mention} {g : Given}
    (hg : g ∈ (m.andThen count m').slots) : g ∈ m.slots ∨ g ∈ m'.slots := by
  cases m' with
  | none => cases m <;> exact .inl hg
  | some later =>
    cases m with
    | none => exact .inr hg
    | some earlier =>
      cases count with
      | fixed n => exact (List.mem_append.mp hg).symm.imp_left List.mem_of_mem_drop
      | «variable» => exact .inr hg

theorem slots_foldl_le {n : Nat} {ms : List Mention} (hms : ∀ m ∈ ms, m.slots.length ≤ n)
    (hm : m.slots.length ≤ n) : (ms.foldl (andThen (.fixed n)) m).slots.length ≤ n := by
  induction ms generalizing m with
  | nil => exact hm
  | cons m' ms ih =>
    exact ih (fun a ha => hms a (.tail _ ha)) (slots_andThen_le hm (hms m' (.head _)))

theorem mem_slots_foldl {count : SlotCount} {ms : List Mention} {g : Given}
    (hg : g ∈ (ms.foldl (andThen count) m).slots) : g ∈ m.slots ∨ ∃ m' ∈ ms, g ∈ m'.slots := by
  induction ms generalizing m with
  | nil => exact .inl hg
  | cons m' ms ih =>
    rcases ih hg with hg | ⟨a, ha, hg⟩
    · exact (mem_slots_andThen hg).imp_right fun hg => ⟨m', .head _, hg⟩
    · exact .inr ⟨a, .tail _ ha, hg⟩

theorem isSome_andThen (count : SlotCount) (m m' : Mention) :
    (m.andThen count m').isSome = (m.isSome || m'.isSome) := by
  cases m' with
  | none => cases m <;> rfl
  | some later =>
    cases m with
    | none => rfl
    | some earlier => cases count <;> rfl

theorem isSome_foldl (count : SlotCount) (ms : List Mention) (m : Mention) :
    (ms.foldl (andThen count) m).isSome = (m.isSome || ms.any Option.isSome) := by
  induction ms generalizing m with
  | nil => exact (Bool.or_false _).symm
  | cons m' ms ih => rw [List.foldl_cons, ih, isSome_andThen, List.any_cons, Bool.or_assoc]

end Mention

namespace Registry

variable {r : Registry} {p : PropertySchema} {e : Element}

theorem isSome_given_iff : (r.given p e).isSome = true ↔ Restarts p e := by
  rw [given, Mention.isSome_foldl, Option.isSome_none, Bool.false_or, List.any_eq_true]
  constructor
  · rintro ⟨m, hm, hsome⟩
    rcases List.mem_append.mp hm with hm | hm
    · obtain ⟨a, ha, rfl⟩ := List.mem_map.mp hm
      obtain ⟨ha, hp⟩ := List.mem_filter.mp ha
      refine .inr ⟨fun hk => ?_, a, ha, hp⟩
      rw [PropertySchema.attributeMention, if_pos hk] at hsome
      cases hsome
    · obtain ⟨f, hf, rfl⟩ := List.mem_map.mp hm
      obtain ⟨hf, hp⟩ := List.mem_filter.mp hf
      obtain ⟨node, hnode, hf⟩ := List.mem_filterMap.mp hf
      obtain rfl := Node.eq_node_of_element? hf
      exact .inl ⟨f, hnode, hp⟩
  · rintro (⟨f, hf, hp⟩ | ⟨hk, a, ha, hp⟩)
    · have hmem : f ∈ e.children.filterMap Node.element? :=
        List.mem_filterMap.mpr ⟨f.node, hf, rfl⟩
      exact ⟨r.elementMention p f, List.mem_append_right _
        (List.mem_map_of_mem (List.mem_filter.mpr ⟨hmem, hp⟩)), rfl⟩
    · refine ⟨p.attributeMention a, List.mem_append_left _
        (List.mem_map_of_mem (List.mem_filter.mpr ⟨ha, hp⟩)), ?_⟩
      rw [PropertySchema.attributeMention, if_neg hk]
      rfl

end Registry

end ChunkConfig
