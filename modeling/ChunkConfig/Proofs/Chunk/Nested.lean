import ChunkConfig.Chunk
import ChunkConfig.Proofs.Property.Slots
import ChunkConfig.Proofs.TokenMap

namespace ChunkConfig.Chunk

theorem ext {c d : Chunk} (hs : c.schema = d.schema) (hn : c.name = d.name)
    (hh : c.held = d.held) : c = d := by
  cases c
  cases d
  cases hs
  cases hn
  cases hh
  rfl

/-- A chunk is embedded in another one when one of its properties holds it. -/
def Embeds (c d : Chunk) : Prop :=
  ∃ e ∈ c.held.entries, d ∈ e.2.contents

/-- A statement about a chunk and all chunks below it. -/
inductive Throughout (P : Chunk → Prop) : Chunk → Prop
  | intro {c : Chunk} (here : P c) (below : ∀ d, c.Embeds d → Throughout P d) : Throughout P c

variable {P Q : Chunk → Prop} {c d : Chunk}

theorem Throughout.here (h : Throughout P c) : P c := by
  cases h with
  | intro here _ => exact here

theorem Throughout.embedded (h : Throughout P c) (hd : c.Embeds d) : Throughout P d := by
  cases h with
  | intro _ below => exact below d hd

theorem Throughout.mono (hpq : ∀ c, P c → Q c) (h : Throughout P c) : Throughout Q c := by
  induction h with
  | intro here _ ih => exact .intro (hpq _ here) ih

theorem Throughout.and (hp : Throughout P c) (hq : Throughout Q c) :
    Throughout (fun c => P c ∧ Q c) c := by
  induction hp with
  | intro here _ ih => exact .intro ⟨here, hq.here⟩ fun d hd => ih d hd (hq.embedded hd)

theorem embeds_of_property? {token : String} {p : Property Chunk} (h : c.property? token = some p)
    (hd : d ∈ p.contents) : c.Embeds d :=
  ⟨_, TokenMap.mem_of_find? h, hd⟩

/-- What it means that two properties are equal. -/
def SameValues (p q : Property Chunk) : Prop :=
  p.schema = q.schema ∧ List.Forall₂ (fun v w => beqValue v w = true) p.values q.values

theorem beqValues_iff {vs ws : List (Value Chunk)} :
    beqValues vs ws = true ↔ List.Forall₂ (fun v w => beqValue v w = true) vs ws := by
  induction vs generalizing ws with
  | nil => cases ws <;> simp [beqValues]
  | cons v vs ih => cases ws <;> simp [beqValues, ih]

theorem beqEntries_iff {ps qs : List (String × Property Chunk)} :
    beqEntries ps qs = true ↔
      List.Forall₂ (fun e f => e.1 = f.1 ∧ SameValues e.2 f.2) ps qs := by
  induction ps generalizing qs with
  | nil => cases qs <;> simp [beqEntries]
  | cons e ps ih =>
    obtain ⟨k, s, vs⟩ := e
    cases qs with
    | nil => simp [beqEntries]
    | cons f qs =>
      obtain ⟨l, t, ws⟩ := f
      simp [beqEntries, beqValues_iff, ih, SameValues, and_assoc]

theorem beq_iff : (c == d) = true ↔ c.schema = d.schema ∧ c.name = d.name ∧
    List.Forall₂ (fun e f => e.1 = f.1 ∧ SameValues e.2 f.2) c.held.entries d.held.entries := by
  obtain ⟨s, n, ⟨ps⟩⟩ := c
  obtain ⟨t, m, ⟨qs⟩⟩ := d
  change beq _ _ = true ↔ _
  simp [beq, beqEntries_iff, and_assoc]

theorem beqValue_some (c d : Chunk) :
    beqValue (.embedded (some c)) (.embedded (some d)) = (c == d) := by
  rw [beqValue]
  rfl

theorem beqValue_none_iff {v : Value Chunk} :
    beqValue v (.embedded none) = true ↔ v = .embedded none := by
  rcases v with _ | _ | _ | _ | _ | _ | _ <;> simp [beqValue]

end ChunkConfig.Chunk
