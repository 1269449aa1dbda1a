import ChunkConfig.Proofs.Chunk.Lasting
import ChunkConfig.Proofs.Registry.Fresh
import ChunkConfig.Proofs.Registry.Whole

namespace ChunkConfig

theorem Registry.Whole.fresh {r : Registry} (h : r.Whole) : r.Fresh :=
  fun token d hd e he => (h.defaults token d hd e he).mono fun _ hw => hw.bound

namespace Chunk

/-- The chunks that a registry makes with default values. After that, names may be changed, and
values be stored in properties that embed nothing or be cleared from them. -/
inductive Made (r : Registry) : Chunk → Prop
  | create {token : String} {c : Chunk} (h : r.create token true = .ok c) : Made r c
  | rename {c : Chunk} (hc : Made r c) (name : String) : Made r { c with name }
  | set {c d : Chunk} (hc : Made r c) {token : String} {s : PropertySchema}
    (hs : c.schema.property? token = some s) (hk : s.kind ≠ .embedded) {index : Nat}
    {v : Value Chunk} {result : Except ModelError Unit}
    (h : c.set? token index v = some (result, d)) : Made r d
  | clear {c d : Chunk} (hc : Made r c) {token : String} {s : PropertySchema}
    (hs : c.schema.property? token = some s) (hk : s.kind ≠ .embedded)
    (h : c.clear? token = some d) : Made r d

variable {r : Registry} {c d : Chunk} {token : String} {s : PropertySchema}

theorem Built.edit {P : Chunk → Prop} {populate : Bool} (hc : c.Built r populate P)
    (hs : c.schema.property? token = some s) (hk : s.kind ≠ .embedded)
    (h : Edited (fun _ => True) token c d) : d.Built r populate P := by
  obtain ⟨p, q, hp, he, rfl⟩ := h
  obtain ⟨hps, hpp⟩ := hc.proper.of_open? hp
  obtain rfl := Option.some.inj (hs.symm.trans hps)
  have hkind : q.schema.kind ≠ .embedded := by
    rw [he.schema_eq]
    exact hk
  have ht := he.typed hpp.typed
  have hq : q.Proper := .of_primitive hkind ht.kind_eq ht.slots
  apply hc.hold _ hq
  · intro e hm
    rw [Property.contents_of_primitive (hq.not_embedded hkind)] at hm
    cases hm
  · rw [he.schema_eq]
    exact hs

theorem Made.built {P : Chunk → Prop} (hk : r.Keeps P) (h : c.Made r) : c.Built r true P := by
  induction h with
  | create h => exact Registry.built_create hk.sound hk.defaults h
  | rename _ name ih => exact ih.rename name
  | set _ hs hne h ih => exact ih.edit hs hne (edited_set (fun _ _ => trivial) h)
  | clear _ hs hne h ih => exact ih.edit hs hne (edited_clear h)

theorem Made.throughout_proper (hr : r.Reached) (h : c.Made r) : c.Throughout Proper :=
  hr.keeps_proper.closed c (h.built hr.keeps_proper)

/-- Unless a type was replaced below a default chunk, all chunks below the ones that are made are of
registered types. -/
theorem Made.throughout_bound (hr : r.Reached) (hf : r.Fresh) (h : c.Made r) :
    c.Throughout (Bound r) := by
  have hk := Registry.keeps_bound hr.sound hf
  exact hk.closed c (h.built hk)

end Chunk

end ChunkConfig
