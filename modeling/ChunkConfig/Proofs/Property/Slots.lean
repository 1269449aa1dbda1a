import ChunkConfig.Proofs.Property.Store

namespace ChunkConfig

namespace Value

variable {α : Type}

/-- What an embedded value holds. -/
def content? : Value α → Option α
  | embedded c => c
  | _ => none

def isFilled (v : Value α) : Bool :=
  v.content?.isSome

theorem isFilled_of_kind {v : Value α} (h : v.kind ≠ .embedded) : v.isFilled = false := by
  cases v with
  | embedded c => exact absurd rfl h
  | _ => rfl

theorem isFilled_empty (k : ValueKind) : (empty k : Value α).isFilled = false := by
  cases k <;> rfl

theorem content?_of_kind {v : Value α} (h : v.kind ≠ .embedded) : v.content? = none :=
  Option.not_isSome_iff_eq_none.mp (Bool.not_eq_true _ ▸ isFilled_of_kind h)

theorem content?_empty (k : ValueKind) : (empty k : Value α).content? = none :=
  Option.not_isSome_iff_eq_none.mp (Bool.not_eq_true _ ▸ isFilled_empty k)

theorem eq_embedded_of_isFilled {v : Value α} (h : v.isFilled = true) :
    ∃ a, v = embedded (some a) := by
  cases v with
  | embedded c =>
    obtain ⟨a, rfl⟩ := Option.isSome_iff_exists.mp h
    exact ⟨a, rfl⟩
  | _ => cases h

theorem eq_embedded_none {v : Value α} (hk : v.kind = .embedded) (h : v.isFilled = false) :
    v = embedded none := by
  cases v with
  | embedded c =>
    have hc : c = none := Option.isNone_iff_eq_none.mp (Option.isSome_eq_false_iff.mp h)
    rw [hc]
  | _ => cases hk

/-- No filled slot comes after an unfilled one. -/
def FilledFirst (vs : List (Value α)) : Prop :=
  vs.Pairwise fun v w => w.isFilled = true → v.isFilled = true

theorem FilledFirst.of_kind {vs : List (Value α)} (h : ∀ v ∈ vs, v.kind ≠ .embedded) :
    FilledFirst vs :=
  List.pairwise_of_forall_mem_list fun _ _ w hw hf =>
    absurd (hf.symm.trans (isFilled_of_kind (h w hw))) nofun

theorem FilledFirst.append {vs ws : List (Value α)} (hv : ∀ v ∈ vs, v.isFilled = true)
    (hw : FilledFirst ws) : FilledFirst (vs ++ ws) :=
  List.pairwise_append.mpr
    ⟨List.pairwise_of_forall_mem_list fun v hm _ _ _ => hv v hm, hw, fun v hm _ _ _ => hv v hm⟩

theorem FilledFirst.eq_append {vs : List (Value α)} (hk : ∀ v ∈ vs, v.kind = .embedded)
    (h : FilledFirst vs) :
    vs = ((vs.filterMap content?).map fun a => embedded (some a)) ++
      List.replicate (vs.length - (vs.filterMap content?).length) (embedded none) := by
  induction vs with
  | nil => rfl
  | cons v vs ih =>
    obtain ⟨hv, hvs⟩ := List.pairwise_cons.mp h
    cases hf : v.isFilled with
    | true =>
      obtain ⟨a, rfl⟩ := eq_embedded_of_isFilled hf
      have hc : content? (embedded (some a)) = some a := rfl
      rw [List.filterMap_cons_some hc, List.map_cons, List.cons_append, List.length_cons,
        List.length_cons, Nat.add_sub_add_right, ← ih (fun w hw => hk w (.tail _ hw)) hvs]
    | false =>
      have hall : ∀ w ∈ v :: vs, w = embedded none := by
        intro w hw
        apply eq_embedded_none (hk w hw)
        rcases List.mem_cons.mp hw with rfl | hw
        · exact hf
        · exact Bool.eq_false_iff.mpr fun ht => Bool.false_ne_true (hf.symm.trans (hv w hw ht))
      have hnone : (v :: vs).filterMap content? = [] := by
        rw [List.filterMap_eq_nil_iff]
        intro w hw
        rw [hall w hw]
        rfl
      rw [hnone, List.map_nil, List.nil_append, List.length_nil, Nat.sub_zero]
      exact List.eq_replicate_of_mem hall

end Value

namespace Property

variable {α : Type}

/-- The things that a property embeds, in the order of their slots. -/
def contents (p : Property α) : List α :=
  p.values.filterMap Value.content?

theorem contents_of_primitive {p : Property α} (h : ∀ v ∈ p.values, v.kind ≠ .embedded) :
    p.contents = [] := by
  rw [contents, List.filterMap_eq_nil_iff]
  intro v hv
  exact Value.content?_of_kind (h v hv)

/-- What holds for every property that is only ever filled from its first slot on. -/
structure Proper (p : Property α) : Prop where
  kind_eq : ∀ v ∈ p.values, v.kind = p.schema.kind
  slots : ∀ n, p.schema.count = .fixed n → p.values.length = n
  filledFirst : Value.FilledFirst p.values
  solid : p.schema.count = .variable → p.schema.kind = .embedded →
    ∀ v ∈ p.values, v.isFilled = true

theorem Proper.values_eq {p : Property α} (h : p.Proper) (hk : p.schema.kind = .embedded) :
    p.values = (p.contents.map fun a => .embedded (some a)) ++
      List.replicate (p.values.length - p.contents.length) (.embedded none) :=
  h.filledFirst.eq_append fun v hv => (h.kind_eq v hv).trans hk

theorem Proper.getElem?_contents {p : Property α} (hp : p.Proper) {i : Nat}
    {v : Value α} {a : α} (hv : p.values[i]? = some v) (hc : v.content? = some a) :
    p.contents[i]? = some a := by
  have hk : p.schema.kind = .embedded := by
    rw [← hp.kind_eq v (List.mem_of_getElem? hv)]
    cases v with
    | embedded _ => rfl
    | _ => cases hc
  rw [hp.values_eq hk, List.getElem?_append] at hv
  split at hv
  · rw [List.getElem?_map] at hv
    obtain ⟨b, hb, rfl⟩ := Option.map_eq_some_iff.mp hv
    rw [hb]
    exact hc
  · rw [List.eq_of_mem_replicate (List.mem_of_getElem? hv)] at hc
    cases hc

theorem contents_length_le (p : Property α) : p.contents.length ≤ p.values.length :=
  List.length_filterMap_le _ _

theorem proper_ofSchema (s : PropertySchema) : (ofSchema s : Property α).Proper := by
  rw [ofSchema]
  split
  · next n hn =>
    refine ⟨fun v hv => ?_, fun m hm => ?_, ?_, fun hv => ?_⟩
    · rw [List.eq_of_mem_replicate hv, Value.kind_empty]
    · rw [List.length_replicate]
      exact SlotCount.fixed.inj (hn.symm.trans hm)
    · apply List.pairwise_of_forall_mem_list
      intro _ _ w hw hf
      rw [List.eq_of_mem_replicate hw, Value.isFilled_empty] at hf
      exact absurd hf Bool.false_ne_true
    · rw [hn] at hv
      cases hv
  · next hn =>
    refine ⟨fun _ hv => absurd hv List.not_mem_nil, fun m hm => ?_, .nil,
      fun _ _ _ hv => absurd hv List.not_mem_nil⟩
    rw [hn] at hm
    cases hm

theorem schema_ofSchema (s : PropertySchema) : (ofSchema s : Property α).schema = s := by
  rw [ofSchema]
  split <;> rfl

theorem contents_ofSchema (s : PropertySchema) : (ofSchema s : Property α).contents = [] := by
  rw [contents, List.filterMap_eq_nil_iff]
  intro v hv
  rw [ofSchema] at hv
  split at hv
  · rw [List.eq_of_mem_replicate hv]
    exact Value.content?_empty s.kind
  · cases hv

theorem Proper.restart {p : Property α} (h : p.Proper) : p.restart.Proper := by
  cases hc : p.schema.count with
  | fixed n =>
    rw [restart_of_fixed hc]
    exact h
  | «variable» =>
    rw [restart_of_variable hc]
    refine ⟨fun _ hv => absurd hv List.not_mem_nil, fun n hn => ?_, .nil,
      fun _ _ _ hv => absurd hv List.not_mem_nil⟩
    cases hc.symm.trans hn

/-- Values that are laid over the first slots keep a property proper. -/
theorem Proper.overlay {p : Property α} (h : p.Proper) {slot : Nat} {v : Value α}
    (hr : p.Room slot 1) (hk : v.kind = p.schema.kind)
    (hf : p.schema.kind = .embedded →
      v.isFilled = true ∧ ∀ w ∈ p.values.take slot, w.isFilled = true) :
    (p.overlay slot [v]).Proper := by
  have hm : ∀ w ∈ (p.overlay slot [v]).values, w = v ∨ w ∈ p.values := by
    intro w hw
    rw [Property.overlay, List.mem_append, List.mem_append] at hw
    rcases hw with (hw | hw) | hw
    · exact .inr (List.mem_of_mem_take hw)
    · exact .inl (List.mem_singleton.mp hw)
    · exact .inr (List.mem_of_mem_drop hw)
  have hkinds : ∀ w ∈ (p.overlay slot [v]).values, w.kind = p.schema.kind := by
    intro w hw
    rcases hm w hw with rfl | hw
    · exact hk
    · exact h.kind_eq w hw
  refine ⟨hkinds, fun n hn => ?_, ?_, fun hc he w hw => ?_⟩
  · obtain ⟨hl, hle⟩ := hr.fits n hn
    rw [Property.overlay, List.length_append, List.length_append, List.length_take_of_le hr.reached,
      List.length_drop, List.length_singleton]
    omega
  · by_cases he : p.schema.kind = .embedded
    · refine .append (fun w hw => ?_) (h.filledFirst.sublist (List.drop_sublist _ _))
      rcases List.mem_append.mp hw with hw | hw
      · exact (hf he).2 w hw
      · rw [List.mem_singleton.mp hw]
        exact (hf he).1
    · exact .of_kind fun w hw hk => he ((hkinds w hw).symm.trans hk)
  · rcases hm w hw with rfl | hw
    · exact (hf he).1
    · exact h.solid hc he w hw

end Property

end ChunkConfig
