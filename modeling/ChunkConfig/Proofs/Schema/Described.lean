import ChunkConfig.Proofs.Outcome
import ChunkConfig.Proofs.Text.Trim
import ChunkConfig.Schema.Reading

namespace ChunkConfig

theorem SlotCount.le_of_read {text : String} {n : Nat} (h : SlotCount.read text = .ok (.fixed n)) :
    n ≤ SlotCount.limit := by
  unfold SlotCount.read at h
  simp only at h
  split at h
  · cases h
  · split at h
    · next m hm =>
      cases h
      exact of_decide_eq_true (Option.filter_eq_some_iff.mp hm).2
    · cases h

theorem allBlank_nameOrToken {name token : String} (h : Text.allBlank token = false) :
    Text.allBlank (nameOrToken name token) = false := by
  rw [nameOrToken]
  split
  · exact h
  · next hn => exact Bool.not_eq_true _ ▸ hn

theorem value_applyElements {α : Type} {f : α → Xml.Element → Reported α} {P : α → Prop}
    (nodes : List Xml.Node) (hf : ∀ a e, e.node ∈ nodes → P a → P (f a e).value) {a : α}
    (ha : P a) : P (applyElements f a nodes).value := by
  induction nodes generalizing a with
  | nil => exact ha
  | cons node rest ih =>
    have hrest : ∀ a e, e.node ∈ rest → P a → P (f a e).value :=
      fun a e he => hf a e (.tail _ he)
    cases node with
    | element name as cs => exact ih hrest (hf a ⟨name, as, cs⟩ (.head _) ha)
    | _ => exact ih hrest ha

namespace PropertySchema

/-- What every property schema that a document describes has in common. -/
structure Described (p : PropertySchema) : Prop where
  token_trimmed : Text.trim p.token = p.token
  token_ne : p.token ≠ ""
  name_visible : Text.allBlank p.givenName = false
  label_ne : ∀ label ∈ p.labels, label ≠ ""
  alias_ne : ∀ a ∈ p.aliases, a.label ≠ ""
  count_le : ∀ n, p.count = .fixed n → n ≤ SlotCount.limit

/-- A property schema of which only attributes have been read. -/
structure Opened (p : PropertySchema) : Prop where
  token_trimmed : Text.trim p.token = p.token
  labels_eq : p.labels = []
  aliases_eq : p.aliases = []
  count_le : ∀ n, p.count = .fixed n → n ≤ SlotCount.limit

theorem Opened.applyAttribute {owner : String} {p q : PropertySchema} {a : Xml.Attribute}
    (hp : p.Opened) (h : p.applyAttribute owner a = .ok q) : q.Opened := by
  rw [PropertySchema.applyAttribute] at h
  split at h
  · cases h
    exact { hp with token_trimmed := Text.trim_trim _ }
  · cases h
    exact { hp with }
  · split at h <;> cases h
    exact { hp with }
  · split at h
    · next count hc =>
      cases h
      refine { hp with count_le := fun n hn => ?_ }
      cases hn
      exact SlotCount.le_of_read hc
    · cases h
  · cases h
    exact { hp with }
  · cases h
    exact hp

theorem Opened.described {p : PropertySchema} (hp : p.Opened) (ht : p.token ≠ "") :
    { p with givenName := nameOrToken p.givenName p.token : PropertySchema }.Described where
  token_trimmed := hp.token_trimmed
  token_ne := ht
  name_visible :=
    allBlank_nameOrToken (Text.allBlank_eq_false_of_trimmed hp.token_trimmed ht)
  label_ne := by simp only [hp.labels_eq, List.not_mem_nil, false_implies, implies_true]
  alias_ne := by simp only [hp.aliases_eq, List.not_mem_nil, false_implies, implies_true]
  count_le := hp.count_le

theorem described_of_ofAttributes {attributes : List Xml.Attribute} {p : PropertySchema}
    (h : ofAttributes attributes = .ok p) : p.Described := by
  obtain ⟨q, hf, hp⟩ := exists_of_bind_eq_ok h
  have hq : q.Opened := by
    refine of_foldlM_eq_ok (fun _ _ _ => Opened.applyAttribute) ⟨rfl, rfl, rfl, ?_⟩ hf
    intro n hn
    cases hn
    decide
  split at hp
  · cases hp
  · next ht =>
    cases hp
    exact hq.described fun he => ht (by rw [he]; rfl)

theorem Described.applyElement {p : PropertySchema} (hp : p.Described) (e : Xml.Element) :
    (p.applyElement e).value.Described := by
  rw [PropertySchema.applyElement]
  split
  · simp only [Reported.value_bind, Reported.value_pure]
    split
    · exact hp
    · next hl =>
      refine { hp with label_ne := fun label h => ?_ }
      rcases List.mem_append.mp h with h | h
      · exact hp.label_ne label h
      · rw [List.mem_singleton.mp h]
        intro he
        exact hl (by rw [he]; rfl)
  · split
    · simp only [Reported.value_bind, Reported.value_pure]
      split
      · exact hp
      · next hl =>
        refine { hp with alias_ne := fun a h => ?_ }
        rcases List.mem_append.mp h with h | h
        · exact hp.alias_ne a h
        · rw [List.mem_singleton.mp h]
          intro he
          change lastValue e.attributes "name" = "" at he
          exact hl (by rw [he]; rfl)
    · split
      · exact { hp with }
      · exact hp

theorem described_of_ofElement {e : Xml.Element} {p : PropertySchema}
    (h : (ofElement e).value = some p) : p.Described := by
  rw [ofElement] at h
  split at h
  · cases h
  · next q hq =>
    cases h
    exact value_applyElements _ (fun _ e _ hp => hp.applyElement e) (described_of_ofAttributes hq)

theorem mem_insertInto {p q : PropertySchema} {qs : List PropertySchema}
    (h : q ∈ (p.insertInto qs).2) : q = p ∨ q ∈ qs := by
  induction qs with
  | nil => exact .inl (List.mem_singleton.mp h)
  | cons r qs ih =>
    simp only [insertInto] at h
    split at h
    · rcases List.mem_cons.mp h with h | h
      · exact .inl h
      · exact .inr (.tail _ h)
    · rcases List.mem_cons.mp h with h | h
      · exact .inr (h ▸ .head _)
      · exact (ih h).imp_right (.tail _)

theorem nodup_insertInto {qs : List PropertySchema} (p : PropertySchema)
    (h : (qs.map fun q => Text.fold q.token).Nodup) :
    ((p.insertInto qs).2.map fun q => Text.fold q.token).Nodup := by
  induction qs with
  | nil => exact List.pairwise_singleton _ _
  | cons q qs ih =>
    rw [List.map_cons, List.nodup_cons] at h
    obtain ⟨hq, hqs⟩ := h
    simp only [insertInto]
    split
    · next hs =>
      rw [Text.same_iff.mp hs] at hq
      exact List.nodup_cons.mpr ⟨hq, hqs⟩
    · next hs =>
      rw [Text.same_iff] at hs
      refine List.nodup_cons.mpr ⟨fun hm => ?_, ih hqs⟩
      obtain ⟨r, hr, he⟩ := List.mem_map.mp hm
      rcases mem_insertInto hr with rfl | hr
      · exact hs he.symm
      · exact hq (List.mem_map.mpr ⟨r, hr, he⟩)

theorem insertInto_of_new {p : PropertySchema} {qs : List PropertySchema}
    (h : Text.fold p.token ∉ qs.map fun q => Text.fold q.token) :
    p.insertInto qs = (none, qs ++ [p]) := by
  induction qs with
  | nil => rfl
  | cons q qs ih =>
    rw [List.map_cons, List.mem_cons, not_or] at h
    have hs : ¬ Text.same q.token p.token = true := by
      rw [Text.same_iff]
      exact Ne.symm h.1
    rw [insertInto, if_neg hs, ih h.2]
    rfl

end PropertySchema

namespace ChunkSchema

/-- No two properties of the type have the same token. -/
def Distinct (s : ChunkSchema) : Prop :=
  (s.properties.map fun p => Text.fold p.token).Nodup

instance (s : ChunkSchema) : Decidable s.Distinct :=
  inferInstanceAs (Decidable (List.Nodup _))

theorem Distinct.declare {s : ChunkSchema} (h : s.Distinct) (p : PropertySchema) :
    (s.declare p).2.Distinct :=
  p.nodup_insertInto h

def declareAll (s : ChunkSchema) (ps : List PropertySchema) : ChunkSchema :=
  ps.foldl (fun t p => (t.declare p).2) s

/-- The properties of the type were declared one after the other. -/
def Declared (s : ChunkSchema) : Prop :=
  ∃ ps, s.properties = (declareAll {} ps).properties

theorem Distinct.declareAll {s : ChunkSchema} (h : s.Distinct) (ps : List PropertySchema) :
    (s.declareAll ps).Distinct := by
  induction ps generalizing s with
  | nil => exact h
  | cons p ps ih => exact ih (h.declare p)

theorem properties_declareAll {s : ChunkSchema} {ps : List PropertySchema}
    (h : ((s.properties ++ ps).map fun p => Text.fold p.token).Nodup) :
    (s.declareAll ps).properties = s.properties ++ ps := by
  induction ps generalizing s with
  | nil => exact (List.append_nil _).symm
  | cons p ps ih =>
    have hnew : Text.fold p.token ∉ s.properties.map fun q => Text.fold q.token := by
      rw [List.map_append, List.map_cons] at h
      intro hm
      exact (List.nodup_append.mp h).2.2 _ hm _ (.head _) rfl
    have hd : (s.declare p).2.properties = s.properties ++ [p] := by
      rw [declare, PropertySchema.insertInto_of_new hnew]
    rw [List.append_cons, ← hd] at h ⊢
    exact ih h

/-- Declaring properties one after the other gives the types without repeated tokens, and all of
them. -/
theorem declared_iff {s : ChunkSchema} : s.Declared ↔ s.Distinct := by
  constructor
  · rintro ⟨ps, hps⟩
    have hd : Distinct {} := List.nodup_nil
    rw [Distinct, hps]
    exact hd.declareAll ps
  · intro h
    exact ⟨s.properties, (properties_declareAll (s := {}) h).symm⟩

instance (s : ChunkSchema) : Decidable s.Declared :=
  decidable_of_iff _ declared_iff.symm

/-- What every chunk type that a document describes has in common. -/
structure Described (s : ChunkSchema) : Prop where
  token_trimmed : Text.trim s.token = s.token
  token_ne : s.token ≠ ""
  name_visible : Text.allBlank s.givenName = false
  distinct : s.Distinct
  properties : ∀ p ∈ s.properties, p.Described

theorem Described.declared {s : ChunkSchema} (hs : s.Described) : s.Declared :=
  declared_iff.mpr hs.distinct

theorem Described.declare {s : ChunkSchema} (hs : s.Described) {p : PropertySchema}
    (hp : p.Described) : (s.declare p).2.Described :=
  { hs with
    distinct := hs.distinct.declare p
    properties := fun q hq => (p.mem_insertInto hq).elim (· ▸ hp) (hs.properties q) }

theorem Described.applyElement {s : ChunkSchema} (hs : s.Described) (e : Xml.Element) :
    (s.applyElement e).value.Described := by
  rw [ChunkSchema.applyElement]
  split
  · simp only [Reported.value_bind]
    split
    · exact hs
    · next p hp =>
      have hd := hs.declare (PropertySchema.described_of_ofElement hp)
      split
      · exact hd
      · exact hd
  · split
    · exact { hs with }
    · split
      · unfold applyTemplates
        split
        · exact hs
        · exact { hs with }
      · exact hs

theorem described_of_ofElement {e : Xml.Element} {s : ChunkSchema}
    (h : (ofElement e).value = some s) : s.Described := by
  unfold ofElement at h
  simp only at h
  split at h
  · cases h
  · next ht =>
    cases h
    refine value_applyElements _ (fun _ e _ hs => hs.applyElement e) ?_
    have hn : Text.trim (lastValue e.attributes "token") ≠ "" := fun he => ht (by rw [he]; rfl)
    exact {
      token_trimmed := Text.trim_trim _
      token_ne := hn
      name_visible :=
        allBlank_nameOrToken (Text.allBlank_eq_false_of_trimmed (Text.trim_trim _) hn)
      distinct := List.nodup_nil
      properties := by simp only [List.not_mem_nil, false_implies, implies_true] }

theorem described_of_ofNode {node : Xml.Node} {s : ChunkSchema}
    (h : (ofNode node).value = some s) : s.Described := by
  fun_induction ofNode node with
  | case3 child _ ih => exact ih h
  | case4 child _ ih => exact ih h
  | case5 name attributes children => exact described_of_ofElement h
  | _ => cases h

end ChunkSchema

namespace Catalog

theorem described_of_ofChildren {nodes : List Xml.Node} {s : ChunkSchema}
    (h : s ∈ (ofChildren nodes).value) : s.Described := by
  induction nodes with
  | nil => exact absurd h List.not_mem_nil
  | cons node rest ih =>
    rcases List.mem_append.mp h with h | h
    · exact ChunkSchema.described_of_ofNode (Option.mem_toList.mp h)
    · exact ih h

mutual

/-- Every chunk type that is read from a document is a described one. -/
theorem described_of_ofNode {s : ChunkSchema} :
    (node : Xml.Node) → s ∈ (ofNode node).value → s.Described
  | .document children, h | .fragment children, h => described_of_ofNodes children h
  | .element name attributes children, h => by
    rw [ofNode] at h
    split at h
    · exact described_of_ofChildren h
    · exact absurd h List.not_mem_nil
  | .attr _, h | .text _, h | .comment _, h | .instruction .., h | .notationName _, h
  | .other _, h => absurd h List.not_mem_nil

theorem described_of_ofNodes {s : ChunkSchema} :
    (nodes : List Xml.Node) → s ∈ (ofNodes nodes).value → s.Described
  | [], h => absurd h List.not_mem_nil
  | node :: rest, h => by
    rcases List.mem_append.mp h with h | h
    · exact described_of_ofNode node h
    · exact described_of_ofNodes rest h

end

end Catalog

end ChunkConfig
