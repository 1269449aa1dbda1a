import ChunkConfig.Proofs.Chunk.Nested
import ChunkConfig.Proofs.Schema.Described

namespace ChunkConfig

theorem Text.same_comm (a b : String) : same a b = same b a := by
  rw [same]
  exact Bool.beq_comm

theorem Text.same_congr {a b : String} (h : same a b = true) (c : String) :
    same a c = same b c := by
  unfold same
  rw [same_iff.mp h]

theorem ChunkSchema.same_of_property? {s : ChunkSchema} {token : String} {p : PropertySchema}
    (h : s.property? token = some p) : Text.same p.token token = true := by
  have hs := List.find?_some (p := fun q : PropertySchema => Text.same q.token token) h
  exact hs

theorem ChunkSchema.property?_congr (s : ChunkSchema) {a b : String} (h : Text.same a b = true) :
    s.property? a = s.property? b := by
  unfold property?
  simp only [Text.same_comm _ a, Text.same_comm _ b, Text.same_congr h]

theorem find?_of_nodup {α β : Type} [DecidableEq β] {f : α → β} {as : List α}
    (hd : (as.map f).Nodup) {a : α} (ha : a ∈ as) : as.find? (fun b => f b == f a) = some a := by
  induction as with
  | nil => cases ha
  | cons b as ih =>
    obtain ⟨hb, hs⟩ := List.nodup_cons.mp hd
    rcases List.mem_cons.mp ha with rfl | ha
    · exact List.find?_cons_of_pos (beq_self_eq_true _)
    · have hne : ¬ (f b == f a) = true := fun h => hb (eq_of_beq h ▸ List.mem_map_of_mem ha)
      rw [List.find?_cons_of_neg (p := fun b => f b == f a) hne]
      exact ih hs ha

theorem ChunkSchema.Distinct.property?_of_mem {s : ChunkSchema} (h : s.Distinct)
    {p : PropertySchema} (hp : p ∈ s.properties) : s.property? p.token = some p :=
  find?_of_nodup h hp

namespace Chunk

/-- A chunk that holds some more properties. -/
def holdAll (c : Chunk) (ps : List (Property Chunk)) : Chunk :=
  ps.foldl (fun c p => c.hold p.schema.token p) c

theorem property?_hold (c : Chunk) (token t : String) (p : Property Chunk) :
    (c.hold token p).property? t = if Text.same t token then some p else c.property? t :=
  TokenMap.find?_insert _ _ _ _

theorem property?_congr (c : Chunk) {a b : String} (h : Text.same a b = true) :
    c.property? a = c.property? b := by
  rw [property?, property?, TokenMap.find?, TokenMap.find?, Text.same_iff.mp h]

theorem schema_holdAll (c : Chunk) (ps : List (Property Chunk)) :
    (c.holdAll ps).schema = c.schema := by
  induction ps generalizing c with
  | nil => rfl
  | cons p ps ih => exact ih _

theorem name_holdAll (c : Chunk) (ps : List (Property Chunk)) : (c.holdAll ps).name = c.name := by
  induction ps generalizing c with
  | nil => rfl
  | cons p ps ih => exact ih _

theorem canonical_holdAll {c : Chunk} (h : c.held.Canonical) (ps : List (Property Chunk)) :
    (c.holdAll ps).held.Canonical := by
  induction ps generalizing c with
  | nil => exact h
  | cons p ps ih => exact ih (h.insert _ _)

theorem property?_holdAll {ps : List (Property Chunk)}
    (hd : (ps.map fun p => Text.fold p.schema.token).Nodup) (c : Chunk) (token : String) :
    (c.holdAll ps).property? token =
      (ps.find? fun p => Text.same p.schema.token token).or (c.property? token) := by
  induction ps generalizing c with
  | nil => rfl
  | cons p ps ih =>
    obtain ⟨hp, hs⟩ := List.nodup_cons.mp hd
    have hi := ih hs (c.hold p.schema.token p)
    rw [property?_hold, Text.same_comm token] at hi
    apply Eq.trans hi
    rw [List.find?_cons]
    cases hc : Text.same p.schema.token token with
    | true =>
      have hn : (ps.find? fun q => Text.same q.schema.token token) = none := by
        rw [List.find?_eq_none]
        intro q hq hsame
        rw [Text.same_iff] at hc hsame
        exact hp (List.mem_map.mpr ⟨q, hq, hsame.trans hc.symm⟩)
      simp only [hn, if_true, Option.none_or, Option.some_or]
    | false => simp only [Bool.false_eq_true, if_false]

theorem full_eq (s : ChunkSchema) : full s = (bare s).holdAll (s.properties.map .ofSchema) := by
  rw [full, holdAll, List.foldl_map]
  simp only [Property.schema_ofSchema]

theorem property?_full {s : ChunkSchema} (hs : s.Distinct) (token : String) :
    (full s).property? token = (s.property? token).map .ofSchema := by
  have hd : ((s.properties.map (Property.ofSchema (α := Chunk))).map
      fun p => Text.fold p.schema.token).Nodup := by
    rw [List.map_map]
    simp only [Function.comp_def, Property.schema_ofSchema]
    exact hs
  rw [full_eq, property?_holdAll hd, List.find?_map, ChunkSchema.property?]
  simp only [Function.comp_def, Property.schema_ofSchema]
  exact Option.or_none

theorem schema_full (s : ChunkSchema) : (full s).schema = s := by
  rw [full_eq, schema_holdAll]
  rfl

theorem canonical_full (s : ChunkSchema) : (full s).held.Canonical := by
  rw [full_eq]
  exact canonical_holdAll TokenMap.canonical_empty _

theorem property?_adopt (c : Chunk) {other : Chunk} (ho : other.held.Canonical) (token : String) :
    (c.adopt other).property? token = (other.property? token).or (c.property? token) :=
  TokenMap.find?_union _ ho token

theorem embeds_hold {c d : Chunk} {token : String} {p : Property Chunk}
    (h : (c.hold token p).Embeds d) : d ∈ p.contents ∨ c.Embeds d := by
  obtain ⟨e, he, hd⟩ := h
  rcases TokenMap.mem_insertEntry he with rfl | he
  · exact .inl hd
  · exact .inr ⟨e, he, hd⟩

/-- A property that is opened is held, or it is a new one that the type declares. -/
theorem open?_cases {c : Chunk} {token : String} {p : Property Chunk} (h : c.open? token = some p) :
    c.property? token = some p ∨ ∃ s, c.schema.property? token = some s ∧ p = .ofSchema s := by
  rw [open?] at h
  split at h
  · next q hq =>
    cases h
    exact .inl hq
  · obtain ⟨s, hs, rfl⟩ := Option.map_eq_some_iff.mp h
    exact .inr ⟨s, hs, rfl⟩

theorem open?_eq {c : Chunk} {token : String} {s : PropertySchema}
    (hs : c.schema.property? token = some s) :
    c.open? token = some ((c.property? token).getD (.ofSchema s)) := by
  rw [open?]
  split
  · next q hq => rw [hq, Option.getD_some]
  · next hq => rw [hq, hs, Option.map_some, Option.getD_none]

theorem open?_congr (c : Chunk) {a b : String} (h : Text.same a b = true) :
    c.open? a = c.open? b := by
  rw [open?, open?, c.property?_congr h, c.schema.property?_congr h]

theorem open?_hold (c : Chunk) {token t : String} (p : Property Chunk)
    (h : Text.same t token = false) : (c.hold token p).open? t = c.open? t := by
  rw [open?, property?_hold, h]
  rfl

theorem hold_congr (c : Chunk) {a b : String} (h : Text.same a b = true) (p : Property Chunk) :
    c.hold a p = c.hold b p := by
  rw [hold, hold, TokenMap.insert, TokenMap.insert, Text.same_iff.mp h]

theorem hold_comm (c : Chunk) {s t : String} (h : Text.same s t = false) (p q : Property Chunk) :
    (c.hold s p).hold t q = (c.hold t q).hold s p :=
  congrArg (Chunk.mk c.schema c.name) (c.held.insert_comm h p q)

theorem embeds_of_open? {c d : Chunk} {token : String} {p : Property Chunk}
    (h : c.open? token = some p) (hd : d ∈ p.contents) : c.Embeds d := by
  rcases open?_cases h with hp | ⟨s, -, rfl⟩
  · exact embeds_of_property? hp hd
  · rw [Property.contents_ofSchema] at hd
    cases hd

theorem forall_property?_hold {P : Property Chunk → Prop} {c : Chunk} {token : String}
    {p : Property Chunk} (hc : ∀ t q, c.property? t = some q → P q) (hp : P p) :
    ∀ t q, (c.hold token p).property? t = some q → P q := by
  intro t q hq
  rw [property?_hold] at hq
  split at hq
  · cases hq
    exact hp
  · exact hc t q hq

/-- Every property that a chunk holds is the one that its type declares under the same token. -/
def Declares (c : Chunk) : Prop :=
  ∀ token p, c.property? token = some p → c.schema.property? token = some p.schema

theorem Declares.hold {c : Chunk} (hc : c.Declares) {token : String} {p : Property Chunk}
    (hs : c.schema.property? token = some p.schema) : (c.hold token p).Declares := by
  intro t q hq
  rw [property?_hold] at hq
  split at hq
  · next hsame =>
    cases hq
    exact (c.schema.property?_congr hsame).trans hs
  · exact hc t q hq

theorem Declares.of_open? {c : Chunk} (hc : c.Declares) {token : String} {p : Property Chunk}
    (h : c.open? token = some p) : c.schema.property? token = some p.schema := by
  rcases open?_cases h with hp | ⟨s, hs, rfl⟩
  · exact hc token p hp
  · rw [Property.schema_ofSchema]
    exact hs

theorem Declares.exists_open? {c : Chunk} (hc : c.Declares) {token : String} {s : PropertySchema}
    (hs : c.schema.property? token = some s) : ∃ p, c.open? token = some p ∧ p.schema = s := by
  have ho := open?_eq hs
  exact ⟨_, ho, Option.some.inj ((hc.of_open? ho).symm.trans hs)⟩

/-- What holds for every chunk that was built: its properties are properties of its type, and each
is proper. -/
structure Proper (c : Chunk) : Prop where
  canonical : c.held.Canonical
  declared : ∀ token p, c.property? token = some p → c.schema.property? token = some p.schema
  proper : ∀ token p, c.property? token = some p → p.Proper

theorem Proper.declares {c : Chunk} (hc : c.Proper) : c.Declares :=
  hc.declared

theorem proper_bare (s : ChunkSchema) : (bare s).Proper :=
  ⟨TokenMap.canonical_empty, nofun, nofun⟩

theorem proper_full {s : ChunkSchema} (hs : s.Distinct) : (full s).Proper := by
  refine ⟨canonical_full s, fun token p hp => ?_, fun token p hp => ?_⟩
  all_goals
    rw [property?_full hs] at hp
    obtain ⟨q, hq, rfl⟩ := Option.map_eq_some_iff.mp hp
  · rw [schema_full, Property.schema_ofSchema, hq]
  · exact Property.proper_ofSchema q

theorem Proper.adopt {c other : Chunk} (hc : c.Proper) (ho : other.Proper)
    (hs : other.schema = c.schema) : (c.adopt other).Proper := by
  refine ⟨hc.canonical.union ho.canonical, fun token p hp => ?_, fun token p hp => ?_⟩
  all_goals
    rw [property?_adopt _ ho.canonical] at hp
    rcases Option.or_eq_some_iff.mp hp with hp | ⟨-, hp⟩
  · exact hs ▸ ho.declared token p hp
  · exact hc.declared token p hp
  · exact ho.proper token p hp
  · exact hc.proper token p hp

theorem Proper.hold {c : Chunk} (hc : c.Proper) {token : String} {p : Property Chunk}
    (hs : c.schema.property? token = some p.schema) (hp : p.Proper) : (c.hold token p).Proper :=
  ⟨hc.canonical.insert _ _, hc.declares.hold hs, forall_property?_hold hc.proper hp⟩

theorem Proper.of_open? {c : Chunk} (hc : c.Proper) {token : String} {p : Property Chunk}
    (h : c.open? token = some p) : c.schema.property? token = some p.schema ∧ p.Proper := by
  refine ⟨hc.declares.of_open? h, ?_⟩
  rcases open?_cases h with hp | ⟨s, -, rfl⟩
  · exact hc.proper token p hp
  · exact Property.proper_ofSchema s

theorem Proper.exists_open? {c : Chunk} (hc : c.Proper) {token : String} {s : PropertySchema}
    (hs : c.schema.property? token = some s) :
    ∃ p, c.open? token = some p ∧ p.schema = s ∧ p.Proper := by
  obtain ⟨p, ho, hp⟩ := hc.declares.exists_open? hs
  exact ⟨p, ho, hp, (hc.of_open? ho).2⟩

theorem Proper.property?_of_undeclared {c : Chunk} (hc : c.Proper) {token : String}
    (hs : c.schema.property? token = none) : c.property? token = none := by
  cases hp : c.property? token with
  | none => rfl
  | some p => exact nomatch hs.symm.trans (hc.declared token p hp)

section Declares

variable {c : Chunk} (hc : c.Declares)
include hc

theorem Declares.property?_self {p : Property Chunk} (hp : p ∈ c.properties) :
    c.property? p.schema.token = some p := by
  obtain ⟨s, -, hs⟩ := List.mem_filterMap.mp hp
  rw [c.property?_congr (ChunkSchema.same_of_property? (hc _ _ hs)), hs]

theorem Declares.mem_properties {token : String} {p : Property Chunk}
    (hp : c.property? token = some p) : p ∈ c.properties := by
  have hs := hc token p hp
  refine List.mem_filterMap.mpr ⟨p.schema, List.mem_of_find?_eq_some hs, ?_⟩
  rw [c.property?_congr (ChunkSchema.same_of_property? hs), hp]

theorem Declares.nodup_properties (hd : c.schema.Distinct) :
    (c.properties.map fun p => Text.fold p.schema.token).Nodup := by
  refine List.pairwise_map.mpr (List.Pairwise.filterMap _ ?_ (List.pairwise_map.mp hd))
  intro s t hst p hp q hq heq
  have hps := ChunkSchema.same_of_property? (hc _ _ hp)
  have hqt := ChunkSchema.same_of_property? (hc _ _ hq)
  exact hst ((Text.same_iff.mp hps).symm.trans (heq.trans (Text.same_iff.mp hqt)))

theorem Declares.find?_properties (hd : c.schema.Distinct) (token : String) :
    (c.properties.find? fun p => Text.same p.schema.token token) = c.property? token := by
  cases hp : c.property? token with
  | none =>
    rw [List.find?_eq_none]
    intro q hq hsame
    have hself := hc.property?_self hq
    rw [c.property?_congr hsame, hp] at hself
    cases hself
  | some p =>
    have hs := Text.same_iff.mp (ChunkSchema.same_of_property? (hc token p hp))
    unfold Text.same
    rw [← hs]
    exact find?_of_nodup (hc.nodup_properties hd) (hc.mem_properties hp)

end Declares

end Chunk

end ChunkConfig
