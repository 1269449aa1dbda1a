import ChunkConfig.Proofs.Property.Evolves

namespace ChunkConfig

namespace PropertySchema

variable {α : Type} {s : PropertySchema} {slot : Nat} {token : String} {tokens : List String}
  {v : Value α} {vs : List (Value α)}

/-- The value that a token stands for. Names of chunks stand for themselves, and other tokens for a
literal, be it that of an alias or the token itself. -/
def meaning? (s : PropertySchema) (token : String) : Option (Value α) :=
  if s.kind = .chunk then some (.chunk token) else Value.literal? s.kind (s.literal token)

theorem meaning?_of_embedded (hk : s.kind = .embedded) (token : String) :
    s.meaning? (α := α) token = none := by
  rw [meaning?, hk, if_neg nofun]
  rfl

/-- Whether values are those that the first ones of some tokens stand for, and a property has slots
for all of them from a slot on. -/
structure Storable (s : PropertySchema) (slot : Nat) (tokens : List String)
    (vs : List (Value α)) : Prop where
  meant : (tokens.take vs.length).map s.meaning? = vs.map some
  fits : ∀ i < vs.length, s.count.Includes (slot + i)

theorem storable_nil (s : PropertySchema) (slot : Nat) (tokens : List String) :
    s.Storable slot tokens ([] : List (Value α)) :=
  ⟨rfl, fun _ hi => absurd hi (Nat.not_lt_zero _)⟩

theorem Storable.eq_nil (h : s.Storable slot [] vs) : vs = [] := by
  have hm := h.meant
  rw [List.take_nil] at hm
  exact List.map_eq_nil_iff.mp hm.symm

theorem Storable.exists_token (h : s.Storable slot tokens vs) (hv : v ∈ vs) :
    ∃ token ∈ tokens, s.meaning? token = some v := by
  have hm : some v ∈ vs.map some := List.mem_map_of_mem hv
  rw [← h.meant] at hm
  obtain ⟨token, ht, hs⟩ := List.mem_map.mp hm
  exact ⟨token, List.mem_of_mem_take ht, hs⟩

theorem storable_cons_iff : s.Storable slot (token :: tokens) (v :: vs) ↔
    s.meaning? token = some v ∧ s.count.Includes slot ∧ s.Storable (slot + 1) tokens vs := by
  constructor
  · intro h
    obtain ⟨hv, hvs⟩ := List.cons.inj h.meant
    refine ⟨hv, h.fits 0 (Nat.zero_lt_succ _), hvs, ?_⟩
    intro i hi
    have hf := h.fits (i + 1) (Nat.succ_lt_succ hi)
    rwa [← Nat.add_assoc, Nat.add_right_comm] at hf
  · intro h
    obtain ⟨hv, h₀, hvs, hf⟩ := h
    refine ⟨?_, ?_⟩
    · rw [List.length_cons, List.take_succ_cons, List.map_cons, List.map_cons, hv, hvs]
    · intro i hi
      cases i with
      | zero => exact h₀
      | succ i =>
        have := hf i (Nat.lt_of_succ_lt_succ hi)
        rwa [Nat.add_assoc, Nat.add_comm 1] at this

theorem Storable.eq_nil_of_not (h : s.Storable slot (token :: tokens) vs)
    (hn : ¬ ∃ v : Value α, s.meaning? token = some v ∧ s.count.Includes slot) : vs = [] := by
  cases vs with
  | nil => rfl
  | cons v vs =>
    obtain ⟨hv, hs, -⟩ := storable_cons_iff.mp h
    exact absurd ⟨v, hv, hs⟩ hn

/-- What is reported where the tokens of a text end in a property, at a slot and with some tokens
left over: nothing when there are none, and otherwise why the first of them is not stored. -/
inductive Ending (α : Type) (s : PropertySchema) (slot : Nat) : List String → Option Problem → Prop
  | complete : Ending α s slot [] none
  | embedded {token : String} {rest : List String} (hk : s.kind = .embedded) :
    Ending α s slot (token :: rest) (some (.textForEmbedded s.token))
  | rejected {token : String} {rest : List String} (hk : s.kind ≠ .embedded)
    (hm : s.meaning? (α := α) token = none) : Ending α s slot (token :: rest)
      (some (.invalidLiteral s.token (.invalidLiteral s.kind (s.literal token))))
  | full {token : String} {rest : List String} {v : Value α} {capacity : Nat}
    (hm : s.meaning? token = some v) (hc : s.count = .fixed capacity) (hs : capacity ≤ slot) :
    Ending α s slot (token :: rest) (some (.tooManyValues s.token capacity token))

end PropertySchema

namespace Property

variable {α : Type} {p q : Property α} {slot : Nat} {token : String} {tokens : List String}
  {v : Value α} {vs : List (Value α)} {f : Filled α}

theorem coerce_of_literal_kind (hc : p.schema.kind ≠ .chunk) (he : p.schema.kind ≠ .embedded)
    (token : String) : p.coerce token =
      (p.schema.resolve token).mapError (.invalidLiteral p.schema.token) := by
  rw [coerce]
  split
  · next hk => exact absurd hk hc
  · next hk => exact absurd hk he
  all_goals rfl

theorem coerce_of_meaning? (h : p.schema.meaning? token = some v) : p.coerce token = .ok v := by
  rw [PropertySchema.meaning?] at h
  by_cases hc : p.schema.kind = .chunk
  · rw [if_pos hc] at h
    obtain rfl := Option.some.inj h
    rw [coerce, hc]
  · rw [if_neg hc] at h
    have he : p.schema.kind ≠ .embedded := by
      intro he
      rw [he] at h
      cases h
    rw [coerce_of_literal_kind hc he, PropertySchema.resolve, Value.read, h]
    rfl

theorem coerce_of_meaningless (he : p.schema.kind ≠ .embedded)
    (h : p.schema.meaning? (α := α) token = none) : p.coerce token =
      .error (.invalidLiteral p.schema.token
        (.invalidLiteral p.schema.kind (p.schema.literal token))) := by
  rw [PropertySchema.meaning?] at h
  by_cases hc : p.schema.kind = .chunk
  · rw [if_pos hc] at h
    cases h
  · rw [if_neg hc] at h
    rw [coerce_of_literal_kind hc he, PropertySchema.resolve, Value.read, h]
    rfl

theorem coerce_of_embedded (he : p.schema.kind = .embedded) (token : String) :
    p.coerce token = .error (.textForEmbedded p.schema.token) := by
  rw [coerce, he]

theorem meaning?_of_coerce (h : p.coerce token = .ok v) : p.schema.meaning? token = some v := by
  cases hm : p.schema.meaning? (α := α) token with
  | some w =>
    rw [coerce_of_meaning? hm] at h
    rw [Except.ok.inj h]
  | none =>
    by_cases he : p.schema.kind = .embedded
    · rw [coerce_of_embedded he] at h
      cases h
    · rw [coerce_of_meaningless he hm] at h
      cases h

theorem kind_of_meaning? (h : p.schema.meaning? token = some v) : v.kind = p.schema.kind := by
  exact (kind_of_coerce (coerce_of_meaning? h)).1

theorem getElem?_set_of_lt {as : List α} {n : Nat} (h : n < as.length) (a e : α) (i : Nat) :
    (as.set n a)[i]? =
      if i = n then some a else if as.length ≤ i ∧ i < n then some e else as[i]? := by
  have hgap : ¬ (as.length ≤ i ∧ i < n) := by omega
  rw [if_neg hgap, List.getElem?_set]
  by_cases hi : i = n
  · rw [if_pos hi, if_pos hi.symm, if_pos h]
  · rw [if_neg hi, if_neg fun h => hi h.symm]

theorem getElem?_append_gap {as : List α} {n : Nat} (h : as.length ≤ n) (a e : α) (i : Nat) :
    (as ++ List.replicate (n - as.length) e ++ [a])[i]? =
      if i = n then some a else if as.length ≤ i ∧ i < n then some e else as[i]? := by
  rw [List.append_assoc, List.getElem?_append]
  by_cases hold : i < as.length
  · have hne : i ≠ n := by omega
    have hgap : ¬ (as.length ≤ i ∧ i < n) := by omega
    rw [if_pos hold, if_neg hne, if_neg hgap]
  · rw [if_neg hold, List.getElem?_append, List.length_replicate, List.getElem?_replicate,
      List.getElem?_singleton, List.getElem?_eq_none (Nat.not_lt.mp hold)]
    grind

/-- A value that is stored stands in its slot, slots that come up before it are empty, and all
others are as they were. -/
theorem getElem?_of_set_eq_ok (hp : p.Typed) (h : p.set slot v = .ok q) (i : Nat) :
    q.values[i]? = if i = slot then some v
      else if p.values.length ≤ i ∧ i < slot then some (.empty p.schema.kind)
      else p.values[i]? := by
  rw [set] at h
  split at h
  · cases h
  · split at h
    · next n hn =>
      split at h
      · next hlt =>
        cases h
        exact getElem?_set_of_lt (hp.slots n hn ▸ hlt) v _ i
      · cases h
    · split at h
      · next hlt =>
        cases h
        exact getElem?_set_of_lt hlt v _ i
      · next hle =>
        cases h
        exact getElem?_append_gap (Nat.not_lt.mp hle) v _ i

/-- What the tokens of a text come to when they are stored in a property from a slot on, and the
values of the first ones are the given ones. -/
structure Effect (p : Property α) (slot : Nat) (tokens : List String) (vs : List (Value α))
    (f : Filled α) : Prop where
  storable : p.schema.Storable slot tokens vs
  longest : ∀ ws : List (Value α), p.schema.Storable slot tokens ws → ws.length ≤ vs.length
  next_eq : f.next = slot + vs.length
  schema_eq : f.property.schema = p.schema
  typed : f.property.Typed
  values : ∀ i, f.property.values[i]? =
    if slot ≤ i ∧ i < slot + vs.length then vs[i - slot]?
    else if vs ≠ [] ∧ p.values.length ≤ i ∧ i < slot then some (.empty p.schema.kind)
    else p.values[i]?
  primitive : p.schema.kind = .embedded → vs = []
  ending : p.schema.Ending α f.next (tokens.drop vs.length) f.problem

theorem effect_of_ending (hp : p.Typed) {problem : Option Problem}
    (hn : ∀ ws : List (Value α), p.schema.Storable slot tokens ws → ws = [])
    (he : p.schema.Ending α slot tokens problem) : p.Effect slot tokens [] ⟨p, slot, problem⟩ where
  storable := p.schema.storable_nil slot tokens
  longest ws hw := Nat.le_of_eq (congrArg List.length (hn ws hw))
  next_eq := rfl
  schema_eq := rfl
  typed := hp
  values i := by
    have hempty : ¬ (slot ≤ i ∧ i < slot + ([] : List (Value α)).length) := by
      rw [List.length_nil]
      omega
    rw [if_neg hempty, if_neg fun h => h.1 rfl]
  primitive _ := rfl
  ending := he

/-- The slots after a value is stored and others are stored behind it. -/
theorem Effect.values_cons (hp : p.Typed) (hq : p.set slot v = .ok q)
    (h : q.Effect (slot + 1) tokens vs f) (i : Nat) : f.property.values[i]? =
      if slot ≤ i ∧ i < slot + (v :: vs).length then (v :: vs)[i - slot]?
      else if p.values.length ≤ i ∧ i < slot then some (.empty p.schema.kind)
      else p.values[i]? := by
  have hset := getElem?_of_set_eq_ok hp hq
  have hlong : slot < q.values.length := by
    apply (List.getElem?_eq_some_iff.mp _).1
    · exact v
    · rw [hset, if_pos rfl]
  -- The slot of the first value is there by then, so the others leave no gap.
  have hgap : ¬ (vs ≠ [] ∧ q.values.length ≤ i ∧ i < slot + 1) := by omega
  rw [h.values, if_neg hgap, hset, List.length_cons]
  by_cases hi : slot + 1 ≤ i ∧ i < slot + 1 + vs.length
  · have hin : slot ≤ i ∧ i < slot + (vs.length + 1) := by omega
    have hnext : i - slot = i - (slot + 1) + 1 := by omega
    rw [if_pos hi, if_pos hin, hnext, List.getElem?_cons_succ]
  · rw [if_neg hi]
    by_cases hi' : i = slot
    · have hin : slot ≤ i ∧ i < slot + (vs.length + 1) := by omega
      rw [if_pos hi', if_pos hin, hi', Nat.sub_self, List.getElem?_cons_zero]
    · have hout : ¬ (slot ≤ i ∧ i < slot + (vs.length + 1)) := by omega
      rw [if_neg hi', if_neg hout]

theorem Effect.cons (hp : p.Typed) (hv : p.schema.meaning? token = some v)
    (hq : p.set slot v = .ok q) (h : q.Effect (slot + 1) tokens vs f) :
    p.Effect slot (token :: tokens) (v :: vs) f := by
  have hnot : p.schema.kind ≠ .embedded := by
    intro he
    rw [PropertySchema.meaning?_of_embedded he] at hv
    cases hv
  have hslot : p.schema.count.Includes slot := by
    by_contra hn
    obtain ⟨n, -, -, he⟩ := exists_set_eq_error (kind_of_meaning? hv) hn
    cases hq.symm.trans he
  have hvalues := h.values_cons hp hq
  obtain ⟨hs, -, -, -⟩ := of_set_eq_ok hq
  obtain ⟨hstorable, hlongest, hnext, hschema, htyped, -, -, hending⟩ := h
  rw [hs] at hstorable hlongest hschema hending
  refine ⟨PropertySchema.storable_cons_iff.mpr ⟨hv, hslot, hstorable⟩, ?_, ?_, hschema, htyped, ?_,
    fun he => absurd he hnot, hending⟩
  · intro ws hw
    cases ws with
    | nil => exact Nat.zero_le _
    | cons w ws =>
      obtain ⟨-, -, hws⟩ := PropertySchema.storable_cons_iff.mp hw
      exact Nat.succ_le_succ (hlongest ws hws)
  · rw [hnext, List.length_cons, Nat.add_assoc, Nat.add_comm 1]
  · simpa only [ne_eq, reduceCtorEq, not_false_eq_true, true_and] using hvalues

/-- Tokens go on where the ones before them stopped, unless one of those was refused. -/
theorem storeTokens_append (p : Property α) (slot : Nat) (tokens others : List String) :
    p.storeTokens slot (tokens ++ others) =
      if (p.storeTokens slot tokens).problem = none then
        (p.storeTokens slot tokens).property.storeTokens (p.storeTokens slot tokens).next others
      else p.storeTokens slot tokens := by
  induction tokens generalizing p slot with
  | nil => rfl
  | cons token rest ih =>
    rw [List.cons_append, storeTokens, storeTokens]
    split
    · rfl
    · split
      · rfl
      · exact ih _ _

/-- Every token of a text has its effect, up to the first one that is refused. -/
theorem exists_effect (hp : p.Typed) (slot : Nat) (tokens : List String) :
    ∃ vs, p.Effect slot tokens vs (p.storeTokens slot tokens) := by
  induction tokens generalizing p slot with
  | nil => exact ⟨[], effect_of_ending hp (fun _ hw => hw.eq_nil) .complete⟩
  | cons token rest ih =>
    -- The ways to refuse a token differ only in what is said of it.
    have hstuck {problem : Problem}
        (hn : ¬ ∃ v : Value α, p.schema.meaning? token = some v ∧ p.schema.count.Includes slot)
        (he : p.schema.Ending α slot (token :: rest) (some problem)) :
        p.Effect slot (token :: rest) [] ⟨p, slot, some problem⟩ :=
      effect_of_ending hp (fun _ hw => hw.eq_nil_of_not hn) he
    rw [storeTokens]
    cases hm : p.schema.meaning? (α := α) token with
    | none =>
      have hn : ¬ ∃ v : Value α, p.schema.meaning? token = some v ∧
          p.schema.count.Includes slot := by
        intro hn
        obtain ⟨v, hv, -⟩ := hn
        cases hm.symm.trans hv
      by_cases hk : p.schema.kind = .embedded
      · rw [coerce_of_embedded hk]
        exact ⟨[], hstuck hn (.embedded hk)⟩
      · rw [coerce_of_meaningless hk hm]
        exact ⟨[], hstuck hn (.rejected hk hm)⟩
    | some v =>
      have hk := kind_of_meaning? hm
      rw [coerce_of_meaning? hm]
      by_cases hs : p.schema.count.Includes slot
      · obtain ⟨q, hq⟩ := exists_set_eq_ok hk hs
        have hqt : q.Typed := (evolves_set (P := fun _ => True) (fun _ _ => trivial) hq).typed hp
        obtain ⟨vs, h⟩ := ih hqt (slot + 1)
        simp only [hq]
        exact ⟨v :: vs, h.cons hp hm hq⟩
      · obtain ⟨n, hn, hle, he⟩ := exists_set_eq_error hk hs
        simp only [he]
        refine ⟨[], hstuck ?_ (.full hm hn hle)⟩
        intro hn
        obtain ⟨-, -, hi⟩ := hn
        exact hs hi

end Property

end ChunkConfig
