import ChunkConfig.Proofs.Building.Restored
import ChunkConfig.Proofs.Chunk.Convert
import ChunkConfig.Proofs.Property.Kept

namespace ChunkConfig

theorem forall₂_append_iff {α β : Type} {R : α → β → Prop} {as bs : List α} {cs ds : List β}
    (h : as.length = cs.length) :
    List.Forall₂ R (as ++ bs) (cs ++ ds) ↔ List.Forall₂ R as cs ∧ List.Forall₂ R bs ds := by
  induction as generalizing cs with
  | nil =>
    cases cs with
    | nil => simp
    | cons c cs => cases h
  | cons a as ih =>
    cases cs with
    | nil => cases h
    | cons c cs =>
      rw [List.cons_append, List.cons_append, List.forall₂_cons, List.forall₂_cons,
        ih (Nat.succ.inj h), and_assoc]

/-- A value that is empty when it has no written form. -/
def Value.emptied {α : Type} (v : Value α) : Value α :=
  if v.token?.isSome then v else .empty v.kind

/-- A chunk whose values without a written form are empty, at every depth. -/
def Chunk.emptied (c : Chunk) : Chunk :=
  c.convert id id Value.emptied

def Property.emptied (p : Property Chunk) : Property Chunk :=
  Chunk.convertProperty id id Value.emptied p

/-- The values of a property resolve, from the tokens under which they are written, to what they
are, or to empty values where they have no written form. -/
def Property.Resolved (p : Property Chunk) : Prop :=
  ∀ v ∈ p.values, v.kind ≠ .embedded →
    ∃ w, p.coerce v.plainToken = .ok w ∧ Chunk.beqValue w v.emptied = true

theorem Property.Resolved.readable {p : Property Chunk} (h : p.Resolved) : p.Readable := by
  intro v hv hk
  obtain ⟨w, hw, -⟩ := h v hv hk
  exact ⟨w, hw⟩

theorem Property.Resolved.beqValue {p : Property Chunk} (h : p.Resolved) {v : Value Chunk}
    (hv : v ∈ p.values) (hk : v.kind ≠ .embedded) :
    Chunk.beqValue (p.schema.restored v) v.emptied = true := by
  obtain ⟨w, hw, hb⟩ := h v hv hk
  obtain rfl := Except.ok.inj (hw.symm.trans (h.readable.coerce_eq hv hk))
  exact hb

namespace Property

variable {r : Registry} {populate : Bool} {p q : Property Chunk}

theorem values_emptied_of_primitive (h : ∀ v ∈ p.values, v.kind ≠ .embedded) :
    p.emptied.values = p.values.map Value.emptied := by
  apply List.map_congr_left
  intro v hv
  have hk := h v hv
  cases v with
  | embedded c => exact absurd rfl hk
  | _ => rfl

theorem values_emptied_of_embedded (hp : p.Proper) (hk : p.schema.kind = .embedded) :
    p.emptied.values = (p.contents.map fun c => .embedded (some c.emptied)) ++
      List.replicate (p.values.length - p.contents.length) (.embedded none) := by
  have h := congrArg (List.map (Chunk.convertValue id id Value.emptied)) (hp.values_eq hk)
  rw [List.map_append, List.map_map, List.map_replicate] at h
  exact h

theorem drop_restart (hs : q.schema = p.schema) (hp : p.Proper) (hq : q.Proper) :
    q.restart.values.drop p.values.length = [] := by
  cases hc : q.schema.count with
  | fixed n =>
    rw [restart_of_fixed hc, hp.slots n (hs ▸ hc), List.drop_eq_nil_of_le (hq.slots n hc).le]
  | «variable» => rw [restart_of_variable hc, List.drop_nil]

theorem contents_length_of_variable (hp : p.Proper) (hk : p.schema.kind = .embedded)
    (hc : p.schema.count = .variable) : p.contents.length = p.values.length := by
  refine Nat.le_antisymm p.contents_length_le (Nat.not_lt.mp fun hlt => ?_)
  have hm : (.embedded none : Value Chunk) ∈ p.values := by
    rw [hp.values_eq hk]
    exact List.mem_append_right _ (List.mem_replicate.mpr ⟨by omega, rfl⟩)
  exact Bool.false_ne_true (hp.solid hc hk _ hm)

/-- Behind the chunks that were taken over there are unfilled slots, unless there were more chunks
before. -/
theorem drop_restart_iff (hs : q.schema = p.schema) (hp : p.Proper) (hq : q.Proper)
    (hk : p.schema.kind = .embedded) :
    q.restart.values.drop p.contents.length =
        List.replicate (p.values.length - p.contents.length) (.embedded none) ↔
      (p.schema.count ≠ .variable → q.contents.length ≤ p.contents.length) := by
  cases hc : p.schema.count with
  | «variable» =>
    rw [restart_of_variable (hs ▸ hc), List.drop_nil, contents_length_of_variable hp hk hc,
      Nat.sub_self, List.replicate_zero]
    exact iff_of_true rfl fun h => absurd rfl h
  | fixed n =>
    have hl : p.values.length = q.values.length := by
      rw [hp.slots n hc, hq.slots n (hs ▸ hc)]
    rw [restart_of_fixed (hs ▸ hc), hl]
    constructor
    · intro h _
      apply Nat.not_lt.mp
      intro hlt
      have hm : (.embedded (some q.contents[p.contents.length]) : Value Chunk) ∈
          q.values.drop p.contents.length := by
        rw [hq.values_eq (hs ▸ hk), List.drop_append_of_le_length (by
          rw [List.length_map]
          exact hlt.le), ← List.map_drop, List.drop_eq_getElem_cons hlt]
        exact .head _
      rw [h] at hm
      cases List.eq_of_mem_replicate hm
    · intro h
      have hle := h nofun
      conv_lhs => rw [hq.values_eq (hs ▸ hk)]
      rw [List.drop_append, List.drop_eq_nil_of_le (by rwa [List.length_map]), List.nil_append,
        List.drop_replicate, List.length_map]
      congr 1
      omega

theorem forall₂_replicate_none_iff {vs : List (Value Chunk)} {n : Nat} :
    List.Forall₂ (fun v w => Chunk.beqValue v w = true) vs (List.replicate n (.embedded none)) ↔
      vs = List.replicate n (.embedded none) := by
  induction n generalizing vs with
  | zero => simp
  | succ n ih =>
    cases vs with
    | nil => simp [List.replicate_succ]
    | cons v vs => simp [List.replicate_succ, ih, Chunk.beqValue_none_iff]

theorem sameValues_restored_iff {s : ChunkSchema}
    (hs : (r.start populate s p.schema).schema = p.schema)
    (hq : (r.start populate s p.schema).Proper) (hp : p.Proper) (hr : p.Resolved) :
    Chunk.SameValues (Chunk.restoredProperty r populate s p) p.emptied ↔
      (∀ c ∈ p.contents, (c.restored r populate == c.emptied) = true) ∧
        (p.schema.count ≠ .variable →
          (r.start populate s p.schema).contents.length ≤ p.contents.length) := by
  have hschema : (Chunk.restoredProperty r populate s p).schema = p.emptied.schema := rfl
  have hvalues : (Chunk.restoredProperty r populate s p).values =
      Chunk.restoredValues r populate p.schema p.values ++
        (r.start populate s p.schema).restart.values.drop
          (Chunk.restoredValues r populate p.schema p.values).length := by
    rw [Chunk.restoredProperty, overlay_zero]
  rw [Chunk.SameValues, and_iff_right hschema, hvalues]
  by_cases hk : p.schema.kind = .embedded
  · have hkind : ∀ v ∈ p.values, v.kind = .embedded := fun v hv => (hp.kind_eq v hv).trans hk
    have hvs : Chunk.restoredValues r populate p.schema p.values =
        p.contents.map fun c => .embedded (some (c.restored r populate)) :=
      Chunk.restoredValues_of_embedded r populate hkind
    rw [hvs, values_emptied_of_embedded hp hk, List.length_map,
      forall₂_append_iff (by rw [List.length_map, List.length_map])]
    refine and_congr ?_ ?_
    · rw [List.forall₂_map_left_iff, List.forall₂_map_right_iff, List.forall₂_same]
      simp only [Chunk.beqValue_some]
    · exact forall₂_replicate_none_iff.trans (drop_restart_iff hs hp hq hk)
  · have hkind := hp.not_embedded hk
    have hstart := hq.not_embedded (by rwa [hs])
    rw [contents_of_primitive hkind, contents_of_primitive hstart,
      Chunk.restoredValues_of_primitive r populate hkind, List.length_map,
      drop_restart hs hp hq, List.append_nil, values_emptied_of_primitive hkind]
    refine iff_of_true ?_ ⟨fun _ hc => absurd hc List.not_mem_nil, fun _ => Nat.le_refl _⟩
    rw [List.forall₂_map_left_iff, List.forall₂_map_right_iff, List.forall₂_same]
    intro v hv
    exact hr.beqValue hv (hkind v hv)

end Property

end ChunkConfig
