import ChunkConfig.Proofs.Chunk.Written

namespace ChunkConfig

/-- A slot whose value embeds nothing, in a chunk or in one below it. The path tells the slots that
lead from the chunk to the one that owns the slot. -/
structure Slot where
  path : List (String × Nat)
  owner : String
  token : String
  index : Nat
  value : Value Chunk

namespace Slot

/-- The same slot, seen from a chunk that embeds the one it was seen from. -/
def under (token : String) (index : Nat) (s : Slot) : Slot :=
  { s with path := (token, index) :: s.path }

/-- What is reported when the slot is written. -/
def problem? (s : Slot) : Option Problem :=
  if s.value.token?.isSome then none
  else some (.unwritableValue s.index s.token s.owner)

theorem problem?_under (token : String) (index : Nat) (s : Slot) :
    (s.under token index).problem? = s.problem? := rfl

end Slot

namespace Chunk

mutual

/-- The slots of a chunk and of all chunks below it, in the order in which they are written. -/
def slots : Chunk → List Slot
  | ⟨schema, name, ⟨entries⟩⟩ =>
    let listed : TokenMap (List Slot) := ⟨entrySlots name entries⟩
    (schema.properties.filterMap fun p => listed.find? p.token).flatten

/-- The slots in all properties of a chunk, under the keys of the properties. -/
def entrySlots (owner : String) : List (String × Property Chunk) → List (String × List Slot)
  | [] => []
  | (key, ⟨schema, values⟩) :: rest =>
    (key, valueSlots owner schema.token 0 values) :: entrySlots owner rest

/-- The slots of a property from an index on. -/
def valueSlots (owner token : String) (index : Nat) : List (Value Chunk) → List Slot
  | [] => []
  | .embedded (some c) :: rest =>
    c.slots.map (Slot.under token index) ++ valueSlots owner token (index + 1) rest
  | .embedded none :: rest => valueSlots owner token (index + 1) rest
  | v :: rest => ⟨[], owner, token, index, v⟩ :: valueSlots owner token (index + 1) rest

end

/-- The value in the slot that a path leads to. -/
def valueAt? : Chunk → List (String × Nat) → String → Nat → Option (Value Chunk)
  | c, [], token, index => c.value? token index
  | c, (t, i) :: path, token, index =>
    ((c.value? t i).bind Value.content?).bind fun d => d.valueAt? path token index

/-- Whether a chunk has the value of a slot in its place. -/
def Holds (d : Chunk) (s : Slot) : Prop :=
  ∃ w, d.valueAt? s.path s.token s.index = some w ∧ beqValue w s.value = true

def propertySlots (owner : String) (p : Property Chunk) : List Slot :=
  valueSlots owner p.schema.token 0 p.values

theorem lookup_entrySlots (owner : String) (entries : List (String × Property Chunk))
    (key : String) :
    (entrySlots owner entries).lookup key = (entries.lookup key).map (propertySlots owner) := by
  induction entries with
  | nil => rw [entrySlots]; rfl
  | cons e rest ih =>
    obtain ⟨k, schema, vs⟩ := e
    rw [entrySlots, List.lookup_cons, List.lookup_cons]
    split
    · rfl
    · exact ih

theorem slots_eq (c : Chunk) : c.slots = c.properties.flatMap (propertySlots c.name) := by
  obtain ⟨schema, name, ⟨entries⟩⟩ := c
  rw [slots, List.flatMap_def, properties, List.map_filterMap]
  simp only [property?, TokenMap.find?, lookup_entrySlots]

theorem problems_tokenOf (owner token : String) (index : Nat) (v : Value Chunk) :
    (tokenOf owner token index v).problems =
      (Slot.problem? ⟨[], owner, token, index, v⟩).toList := by
  rw [tokenOf, Slot.problem?]
  cases v.token? <;> rfl

mutual

/-- Writing a chunk reports the slots without a written form, and nothing else. -/
theorem problems_node_eq : (c : Chunk) → c.node.problems = c.slots.filterMap Slot.problem?
  | ⟨schema, name, ⟨entries⟩⟩ => by
    rw [problems_node, slots_eq, List.filterMap_flatMap]
    apply List.flatMap_congr
    intro p hp
    obtain ⟨s, -, hs⟩ := List.mem_filterMap.mp hp
    exact problems_propertyNodes_eq name entries _ (TokenMap.mem_of_find? hs)

theorem problems_propertyNodes_eq (owner : String) : (entries : List (String × Property Chunk)) →
    ∀ e ∈ entries, (propertyNode owner e.2).problems =
      (propertySlots owner e.2).filterMap Slot.problem?
  | [] => nofun
  | (key, ⟨schema, values⟩) :: rest => by
    intro e he
    rcases List.mem_cons.mp he with rfl | he
    · rw [problems_propertyNode]
      exact problems_valueNodes_eq owner schema.token values 0
    · exact problems_propertyNodes_eq owner rest e he

theorem problems_valueNodes_eq (owner token : String) : (vs : List (Value Chunk)) →
    ∀ index, (valueNodes owner token index vs).problems =
      (valueSlots owner token index vs).filterMap Slot.problem?
  | [], index => by rw [valueNodes, valueSlots]; rfl
  | .embedded (some c) :: rest, index => by
    have hrest := problems_valueNodes_eq owner token rest (index + 1)
    have hc := problems_node_eq c
    simp only [valueNodes, valueSlots, Reported.problems_bind, Reported.problems_pure,
      List.append_nil, List.filterMap_append, List.filterMap_map, Function.comp_def,
      Slot.problem?_under, hrest, hc]
  | .embedded none :: rest, index => by
    rw [valueNodes, valueSlots]
    exact problems_valueNodes_eq owner token rest (index + 1)
  | .int n :: rest, index | .float x :: rest, index | .bool b :: rest, index
  | .string s :: rest, index | .chunk s :: rest, index => by
    have hrest := problems_valueNodes_eq owner token rest (index + 1)
    simp only [valueNodes, valueSlots, Reported.problems_bind, Reported.problems_pure,
      List.append_nil, problems_tokenOf, hrest, List.filterMap_cons]
    cases Slot.problem? _ <;> rfl

end

theorem forall_getElem?_cons {α : Type} {R : Nat → α → Prop} {a : α} {as : List α} :
    (∀ i b, (a :: as)[i]? = some b → R i b) ↔ R 0 a ∧ ∀ i b, as[i]? = some b → R (i + 1) b := by
  constructor
  · intro h
    exact ⟨h 0 a rfl, fun i b hb => h (i + 1) b hb⟩
  · rintro ⟨h₀, h⟩ i b hb
    cases i with
    | zero =>
      obtain rfl := Option.some.inj hb
      exact h₀
    | succ i => exact h i b hb

theorem valueSlots_cons (owner token : String) (index : Nat) (v : Value Chunk)
    (rest : List (Value Chunk)) : valueSlots owner token index (v :: rest) =
      valueSlots owner token index [v] ++ valueSlots owner token (index + 1) rest := by
  rcases v with _ | _ | _ | _ | _ | _ | c <;>
    simp only [valueSlots, List.append_nil, List.nil_append, List.cons_append]

theorem forall_mem_valueSlots_singleton {Q : Slot → Prop} {owner token : String} {index : Nat}
    {v : Value Chunk} : (∀ s ∈ valueSlots owner token index [v], Q s) ↔
      (v.kind ≠ .embedded → Q ⟨[], owner, token, index, v⟩) ∧
        ∀ c, v.content? = some c → ∀ s ∈ c.slots, Q (s.under token index) := by
  rcases v with _ | _ | _ | _ | _ | _ | c
  case embedded.none =>
    simp only [valueSlots]
    exact iff_of_true nofun ⟨fun hk => absurd rfl hk, nofun⟩
  case embedded.some =>
    simp only [valueSlots, List.append_nil, List.forall_mem_map]
    constructor
    · intro h
      refine ⟨fun hk => absurd rfl hk, ?_⟩
      rintro d ⟨⟩
      exact h
    · exact fun h => h.2 c rfl
  all_goals
    simp only [valueSlots, List.forall_mem_singleton]
    exact ⟨fun h => ⟨fun _ => h, nofun⟩, fun h => h.1 nofun⟩

theorem forall_mem_valueSlots {Q : Slot → Prop} {owner token : String} {vs : List (Value Chunk)}
    (index : Nat) : (∀ s ∈ valueSlots owner token index vs, Q s) ↔
      ∀ i v, vs[i]? = some v →
        (v.kind ≠ .embedded → Q ⟨[], owner, token, index + i, v⟩) ∧
          ∀ c, v.content? = some c → ∀ s ∈ c.slots, Q (s.under token (index + i)) := by
  induction vs generalizing index with
  | nil =>
    rw [valueSlots]
    exact iff_of_true nofun nofun
  | cons v rest ih =>
    rw [forall_getElem?_cons, valueSlots_cons, List.forall_mem_append, ih (index + 1),
      forall_mem_valueSlots_singleton]
    simp only [Nat.add_zero, Nat.add_assoc, Nat.add_comm 1]

theorem forall_mem_propertySlots {Q : Slot → Prop} {owner : String} {p : Property Chunk} :
    (∀ s ∈ propertySlots owner p, Q s) ↔ ∀ i v, p.values[i]? = some v →
      (v.kind ≠ .embedded → Q ⟨[], owner, p.schema.token, i, v⟩) ∧
        ∀ c, v.content? = some c → ∀ s ∈ c.slots, Q (s.under p.schema.token i) := by
  rw [propertySlots, forall_mem_valueSlots]
  simp only [Nat.zero_add]

theorem forall_mem_slots {Q : Slot → Prop} {c : Chunk} : (∀ s ∈ c.slots, Q s) ↔
    ∀ p ∈ c.properties, ∀ i v, p.values[i]? = some v →
      (v.kind ≠ .embedded → Q ⟨[], c.name, p.schema.token, i, v⟩) ∧
        ∀ d, v.content? = some d → ∀ s ∈ d.slots, Q (s.under p.schema.token i) := by
  rw [slots_eq, List.forall_mem_flatMap]
  simp only [forall_mem_propertySlots]

theorem problem?_eq_none_iff (s : Slot) : s.problem? = none ↔ s.value.token?.isSome = true := by
  rw [Slot.problem?]
  cases s.value.token? <;> simp

/-- No problem is met in writing a chunk exactly when all its values have a written form, at every
depth. -/
theorem problems_node_eq_nil_iff {c : Chunk}
    (hc : c.Throughout fun c => c.held.Canonical ∧ c.Declares) : c.node.problems = [] ↔
      c.Throughout fun c => ∀ token p, c.property? token = some p → p.Written := by
  rw [problems_node_eq, List.filterMap_eq_nil_iff]
  induction hc with
  | @intro c here _ ih =>
    obtain ⟨hcanonical, hdeclares⟩ := here
    rw [forall_mem_slots]
    constructor
    · intro h
      refine .intro (fun token p hp v hv hk => ?_) fun d hd => ?_
      · obtain ⟨i, hi⟩ := List.getElem?_of_mem hv
        exact (problem?_eq_none_iff _).mp ((h p (hdeclares.mem_properties hp) i v hi).1 hk)
      · obtain ⟨e, he, hed⟩ := hd
        obtain ⟨v, hv, hvd⟩ := List.mem_filterMap.mp hed
        obtain ⟨i, hi⟩ := List.getElem?_of_mem hv
        have hm := hdeclares.mem_properties (hcanonical.find?_of_mem he)
        exact (ih d ⟨e, he, hed⟩).mp ((h e.2 hm i v hi).2 d hvd)
    · intro h p hp i v hi
      have hv := List.mem_of_getElem? hi
      constructor
      · intro hk
        exact (problem?_eq_none_iff _).mpr (h.here _ p (hdeclares.property?_self hp) v hv hk)
      · intro d hd
        have he : c.Embeds d := embeds_of_mem_properties hp (List.mem_filterMap.mpr ⟨v, hv, hd⟩)
        exact (ih d he).mpr (h.embedded he)

theorem written_of_problems_node {c : Chunk} (hc : c.Throughout Proper)
    (h : c.node.problems = []) :
    c.Throughout fun c => ∀ token p, c.property? token = some p → p.Written :=
  (problems_node_eq_nil_iff (hc.mono fun _ hd => ⟨hd.canonical, hd.declares⟩)).mp h

end Chunk

end ChunkConfig
