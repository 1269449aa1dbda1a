import ChunkConfig.Proofs.Building.Built
import ChunkConfig.Proofs.Chunk.Emptied

namespace ChunkConfig

namespace Chunk

/-- Whether the properties of fixed count of a chunk embed at least as many chunks as those of the
default chunk of its type. -/
def Covers (r : Registry) (c : Chunk) : Prop :=
  ∀ d, r.default? c.schema.token = some d → ∀ token p q, c.property? token = some p →
    d.property? token = some q → p.schema.count ≠ .variable →
    q.contents.length ≤ p.contents.length

variable {r : Registry} {populate : Bool}

theorem covers_iff {c : Chunk} (hc : c.Proper) : c.Covers r ↔
    ∀ token p, c.property? token = some p → p.schema.count ≠ .variable →
      (r.start true c.schema p.schema).contents.length ≤ p.contents.length := by
  constructor
  · intro h token p hp hcount
    have hsame := ChunkSchema.same_of_property? (hc.declared token p hp)
    rw [Registry.start, if_pos rfl]
    cases hq : (r.default? c.schema.token).bind (·.property? p.schema.token) with
    | none =>
      rw [Option.getD_none, Property.contents_ofSchema]
      exact Nat.zero_le _
    | some q =>
      obtain ⟨d, hd, hdq⟩ := Option.bind_eq_some_iff.mp hq
      rw [d.property?_congr hsame] at hdq
      exact h d hd token p q hp hdq hcount
  · intro h d hd token p q hp hq hcount
    have hsame := ChunkSchema.same_of_property? (hc.declared token p hp)
    have hle := h token p hp hcount
    rwa [Registry.start, if_pos rfl, hd, Option.bind_some, d.property?_congr hsame, hq,
      Option.getD_some] at hle

theorem restored_beq_emptied_iff (hr : r.Sound) {c : Chunk}
    (h : c.Throughout (Restorable r populate))
    (hv : c.Throughout fun c => ∀ token p, c.property? token = some p → p.Resolved) :
    (c.restored r populate == c.emptied) = true ↔
      (populate = true → c.Throughout (Covers r)) := by
  induction h with
  | @intro c here below ih =>
    -- What the equality asks of this chunk alone, with the chunks in it left to the induction.
    have hsame : ∀ e ∈ c.held.entries,
        (SameValues (restoredProperty r populate c.schema e.2) e.2.emptied ↔
          (∀ d ∈ e.2.contents, (d.restored r populate == d.emptied) = true) ∧
            (e.2.schema.count ≠ .variable →
              (r.start populate c.schema e.2.schema).contents.length ≤ e.2.contents.length)) := by
      intro e he
      have hp : c.property? e.1 = some e.2 := here.proper.canonical.find?_of_mem he
      obtain ⟨hs, hq⟩ := Registry.start_spec hr here.bound (here.proper.declared _ _ hp) populate
      exact Property.sameValues_restored_iff hs hq (here.proper.proper _ _ hp) (hv.here _ _ hp)
    have hbeq : (c.restored r populate == c.emptied) = true ↔ ∀ e ∈ c.held.entries,
        (∀ d ∈ e.2.contents, (d.restored r populate == d.emptied) = true) ∧
          (e.2.schema.count ≠ .variable →
            (r.start populate c.schema e.2.schema).contents.length ≤ e.2.contents.length) := by
      rw [beq_iff, restored_eq, emptied, convert_eq]
      simp only [id, true_and, TokenMap.map]
      rw [List.forall₂_map_left_iff, List.forall₂_map_right_iff, List.forall₂_same]
      exact forall₂_congr fun e he => (and_iff_right rfl).trans (hsame e he)
    rw [hbeq]
    cases populate with
    | false =>
      apply iff_of_true _ fun h => absurd h Bool.false_ne_true
      intro e he
      refine ⟨fun d hd => ?_, fun _ => ?_⟩
      · exact (ih d ⟨e, he, hd⟩ (hv.embedded ⟨e, he, hd⟩)).mpr fun h => absurd h Bool.false_ne_true
      · rw [Registry.start, if_neg Bool.false_ne_true, Property.contents_ofSchema]
        exact Nat.zero_le _
    | true =>
      constructor
      · intro hall _
        refine .intro ((covers_iff here.proper).mpr fun token p hp => ?_) fun d hd => ?_
        · exact (hall _ (TokenMap.mem_of_find? hp)).2
        · obtain ⟨e, he, hed⟩ := hd
          exact (ih d ⟨e, he, hed⟩ (hv.embedded ⟨e, he, hed⟩)).mp ((hall e he).1 d hed) rfl
      · intro hcov e he
        refine ⟨fun d hd => ?_, ?_⟩
        · exact (ih d ⟨e, he, hd⟩ (hv.embedded ⟨e, he, hd⟩)).mpr
            fun _ => (hcov rfl).embedded ⟨e, he, hd⟩
        · exact (covers_iff here.proper).mp (hcov rfl).here e.1 e.2
            (here.proper.canonical.find?_of_mem he)

end Chunk

end ChunkConfig
