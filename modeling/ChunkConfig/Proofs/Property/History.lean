import ChunkConfig.Proofs.Property.Effect

namespace ChunkConfig

instance (count : SlotCount) (slot : Nat) : Decidable (count.Includes slot) :=
  match count with
  | .fixed n => decidable_of_iff (slot < n)
    ⟨fun h _ hm => SlotCount.fixed.inj hm ▸ h, fun h => h n rfl⟩
  | .variable => .isTrue nofun

namespace Property

variable {α : Type} {s : PropertySchema} {p q : Property α} {index : Nat} {v : Value α}

/-- What can be asked of a property from outside. -/
inductive Request (α : Type) where
  | set (index : Nat) (v : Value α)
  | clear

/-- The answer to a request and the property after it. A request that is refused leaves the property
as it was. -/
def respond (p : Property α) : Request α → Except ModelError Unit × Property α
  | .set index v =>
    match p.set index v with
    | .ok q => (.ok (), q)
    | .error e => (.error e, p)
  | .clear => (.ok (), p.clear)

/-- A property after some requests. -/
def after (p : Property α) (requests : List (Request α)) : Property α :=
  requests.foldl (fun p request => (p.respond request).2) p

/-- The values that were stored since a property was last cleared, each with its slot and the last
one first. -/
abbrev Record (α : Type) := List (Nat × Value α)

/-- A record after a request. Values that are refused do not get into it. -/
def Record.add (s : PropertySchema) (record : Record α) : Request α → Record α
  | .set index v =>
    if v.kind = s.kind ∧ s.count.Includes index then (index, v) :: record else record
  | .clear => []

def Record.after (s : PropertySchema) (requests : List (Request α)) : Record α :=
  requests.foldl (Record.add s) []

/-- How many slots a property has that values were stored in. -/
def Record.size (s : PropertySchema) (record : Record α) : Nat :=
  match s.count with
  | .fixed n => n
  | .variable => (record.map fun e => e.1 + 1).foldr max 0

theorem set_eq_error_iff {e : ModelError} : p.set index v = .error e ↔
    v.kind ≠ p.schema.kind ∧ e = .kindMismatch p.schema.kind v.kind ∨
      v.kind = p.schema.kind ∧ ∃ n, p.schema.count = .fixed n ∧ n ≤ index ∧
        e = .indexOutOfRange p.schema.token index n := by
  by_cases hk : v.kind = p.schema.kind
  · by_cases hs : p.schema.count.Includes index
    · obtain ⟨q, hq⟩ := exists_set_eq_ok hk hs
      rw [hq]
      refine iff_of_false nofun ?_
      rintro (⟨hne, -⟩ | ⟨-, n, hn, hle, -⟩)
      · exact hne hk
      · exact Nat.not_lt_of_le hle (hs n hn)
    · obtain ⟨n, hn, hle, he⟩ := exists_set_eq_error hk hs
      rw [he, Except.error.injEq]
      constructor
      · rintro rfl
        exact .inr ⟨hk, n, hn, hle, rfl⟩
      · rintro (⟨hne, -⟩ | ⟨-, m, hm, -, rfl⟩)
        · exact absurd hk hne
        · rw [SlotCount.fixed.inj (hn.symm.trans hm)]
  · rw [set, if_pos hk, Except.error.injEq]
    constructor
    · rintro rfl
      exact .inl ⟨hk, rfl⟩
    · rintro (⟨-, rfl⟩ | ⟨he, -⟩)
      · rfl
      · exact absurd he hk

theorem includes_of_set_eq_ok (h : p.set index v = .ok q) : p.schema.count.Includes index := by
  intro n hn
  by_contra hlt
  obtain ⟨-, hk, -, -⟩ := of_set_eq_ok h
  have he := set_eq_error_iff.mpr (.inr ⟨hk, n, hn, Nat.not_lt.mp hlt, rfl⟩)
  cases h.symm.trans he

theorem length_of_set_eq_ok (hp : p.Typed) (h : p.set index v = .ok q) :
    q.values.length = max p.values.length (index + 1) := by
  rw [set] at h
  split at h
  · cases h
  · split at h
    · next n hn =>
      split at h
      · next hlt =>
        cases h
        have hl := hp.slots n hn
        rw [List.length_set]
        omega
      · cases h
    · split at h
      · cases h
        rw [List.length_set]
        omega
      · cases h
        simp only [List.length_append, List.length_replicate, List.length_singleton]
        omega

theorem clear_eq_ofSchema (hp : p.Typed) : p.clear = ofSchema p.schema := by
  rw [clear, ofSchema]
  split
  · next n hn =>
    rw [List.map_const', hp.slots n hn]
  · rfl

/-- What a property holds whose values were stored and cleared one after the other. -/
structure Recorded (s : PropertySchema) (record : Record α) (p : Property α) : Prop where
  schema_eq : p.schema = s
  typed : p.Typed
  length_eq : p.values.length = record.size s
  values : ∀ i < p.values.length, p.values[i]? = some ((record.lookup i).getD (.empty s.kind))
  beyond : ∀ i, p.values.length ≤ i → record.lookup i = none

theorem values_ofSchema (s : PropertySchema) :
    (ofSchema s : Property α).values =
      List.replicate (Record.size (α := α) s []) (.empty s.kind) := by
  cases hc : s.count <;> simp only [ofSchema, Record.size, hc, List.map_nil, List.foldr_nil,
    List.replicate_zero]

theorem recorded_ofSchema (s : PropertySchema) : Recorded s [] (ofSchema s : Property α) where
  schema_eq := schema_ofSchema s
  typed := (proper_ofSchema s).typed
  length_eq := by rw [values_ofSchema, List.length_replicate]
  values i hi := by
    rw [values_ofSchema, List.length_replicate] at hi
    rw [values_ofSchema, List.getElem?_replicate, if_pos hi]
    rfl
  beyond _ _ := rfl

theorem Record.size_cons {record : Record α} (h : s.count.Includes index) :
    Record.size s ((index, v) :: record) = max (record.size s) (index + 1) := by
  cases hc : s.count with
  | fixed n =>
    simp only [Record.size, hc]
    exact (Nat.max_eq_left (h n hc)).symm
  | «variable» =>
    simp only [Record.size, hc, List.map_cons, List.foldr_cons]
    exact Nat.max_comm _ _

theorem Recorded.set {record : Record α} (hp : Recorded s record p) (h : p.set index v = .ok q) :
    Recorded s ((index, v) :: record) q := by
  obtain ⟨rfl, htyped, hlength, hvalues, hbeyond⟩ := hp
  have hlong := length_of_set_eq_ok htyped h
  obtain ⟨hschema, -, -, -⟩ := of_set_eq_ok h
  have htyped' := (evolves_set (P := fun _ => True) (fun _ _ => trivial) h).typed htyped
  have hlookup (i : Nat) :
      List.lookup i ((index, v) :: record) = if i = index then some v else record.lookup i := by
    by_cases hi : i = index
    · rw [if_pos hi, hi, List.lookup_cons_self]
    · rw [if_neg hi, List.lookup_cons, beq_false_of_ne hi]
  refine ⟨hschema, htyped', ?_, ?_, ?_⟩
  · rw [hlong, hlength, Record.size_cons (includes_of_set_eq_ok h)]
  · intro i hi
    rw [getElem?_of_set_eq_ok htyped h, hlookup]
    by_cases hindex : i = index
    · rw [if_pos hindex, if_pos hindex, Option.getD_some]
    · rw [if_neg hindex, if_neg hindex]
      split
      · next hgap => rw [hbeyond i hgap.1, Option.getD_none]
      · exact hvalues i (by omega)
  · intro i hi
    rw [hlookup, if_neg (by omega), hbeyond i (by omega)]

theorem Recorded.clear {record : Record α} (hp : Recorded s record p) : Recorded s [] p.clear := by
  obtain ⟨rfl, htyped, -, -, -⟩ := hp
  rw [clear_eq_ofSchema htyped]
  exact recorded_ofSchema p.schema

/-- One request is recorded. -/
theorem Recorded.respond {record : Record α} (hp : Recorded s record p) (request : Request α) :
    Recorded s (record.add s request) (p.respond request).2 := by
  cases request with
  | set index v =>
    obtain rfl := hp.schema_eq
    cases hset : p.set index v with
    | ok q =>
      obtain ⟨-, hk, -, -⟩ := of_set_eq_ok hset
      rw [Property.respond, hset, Record.add, if_pos ⟨hk, includes_of_set_eq_ok hset⟩]
      exact hp.set hset
    | error e =>
      have hrefused : ¬ (v.kind = p.schema.kind ∧ p.schema.count.Includes index) := by
        rintro ⟨hk, hs⟩
        obtain ⟨q, hq⟩ := exists_set_eq_ok hk hs
        cases hq.symm.trans hset
      rw [Property.respond, hset, Record.add, if_neg hrefused]
      exact hp
  | clear => exact hp.clear

theorem Recorded.after {record : Record α} (hp : Recorded s record p)
    (requests : List (Request α)) :
    Recorded s (requests.foldl (Record.add s) record) (p.after requests) := by
  induction requests generalizing p record with
  | nil => exact hp
  | cons request rest ih => exact ih (hp.respond request)

/-- How a property with a schema takes requests: as an array of values of one kind does. -/
structure Indexed (s : PropertySchema) (p : Property α) : Prop where
  schema_eq : p.schema = s
  kind_eq : ∀ v ∈ p.values, v.kind = s.kind
  /-- A wrong kind is seen before a wrong index. -/
  refused_iff : ∀ index v e, p.set index v = .error e ↔
    v.kind ≠ s.kind ∧ e = .kindMismatch s.kind v.kind ∨
      v.kind = s.kind ∧ ∃ n, s.count = .fixed n ∧ n ≤ index ∧ e = .indexOutOfRange s.token index n
  unchanged : ∀ request e, (p.respond request).1 = .error e → (p.respond request).2 = p
  stored : ∀ index v q, p.set index v = .ok q →
    q.schema = s ∧ q.values.length = max p.values.length (index + 1) ∧
      ∀ i, q.values[i]? = if i = index then some v
        else if p.values.length ≤ i ∧ i < index then some (.empty s.kind)
        else p.values[i]?
  /-- No slot of a fixed number of slots is ever missing. -/
  fixed : ∀ n, s.count = .fixed n → p.values.length = n ∧ ∀ index v q, p.set index v = .ok q →
    index < p.values.length ∧ q.values.length = p.values.length
  cleared : p.clear = ofSchema s
  cleared_of_variable : s.count = .variable → p.clear.values = []

theorem Recorded.indexed {record : Record α} (hp : Recorded s record p) : p.Indexed s := by
  obtain ⟨rfl, htyped, -, -, -⟩ := hp
  refine {
    schema_eq := rfl
    kind_eq := htyped.kind_eq
    refused_iff := fun _ _ _ => set_eq_error_iff
    unchanged := fun request e he => ?_
    stored := fun index v q h => ?_
    fixed := fun n hn => ⟨htyped.slots n hn, fun index v q h => ?_⟩
    cleared := clear_eq_ofSchema htyped
    cleared_of_variable := fun hc => ?_ }
  · cases request with
    | set index v =>
      rw [Property.respond] at he ⊢
      split at he
      · cases he
      · rfl
    | clear => cases he
  · obtain ⟨hs, -, -, -⟩ := of_set_eq_ok h
    exact ⟨hs, length_of_set_eq_ok htyped h, getElem?_of_set_eq_ok htyped h⟩
  · have hlt := includes_of_set_eq_ok h n hn
    rw [length_of_set_eq_ok htyped h, htyped.slots n hn]
    exact ⟨hlt, Nat.max_eq_left hlt⟩
  · rw [Property.clear, hc]

/-- Whatever was asked of a property since it was new, each slot holds what was stored there last
since the property was cleared, and is empty when nothing was. -/
theorem indexed_after (s : PropertySchema) (requests : List (Request α)) :
    ((ofSchema s : Property α).after requests).Indexed s ∧
      ((ofSchema s : Property α).after requests).values.length =
        (Record.after s requests).size s ∧
      ∀ i < (Record.after s requests).size s,
        ((ofSchema s : Property α).after requests).values[i]? =
          some (((Record.after s requests).lookup i).getD (.empty s.kind)) := by
  have h := (recorded_ofSchema s).after requests
  refine ⟨h.indexed, h.length_eq, ?_⟩
  intro i hi
  exact h.values i (h.length_eq ▸ hi)

end Property

end ChunkConfig
