import ChunkConfig.Proofs.Schema.Described
import Mathlib.Data.List.Induction

namespace ChunkConfig

theorem eraseDups_concat {α : Type} [BEq α] [LawfulBEq α] (as : List α) (a : α)
    [Decidable (a ∈ as)] :
    (as ++ [a]).eraseDups = if a ∈ as then as.eraseDups else as.eraseDups ++ [a] := by
  rw [List.eraseDups_append, List.removeAll, List.filter_singleton, List.elem_eq_contains]
  split
  · next h =>
    rw [List.contains_iff_mem.mpr h, Bool.not_true, cond_false, List.eraseDups_nil,
      List.append_nil]
  · next h =>
    rw [Bool.eq_false_iff.mpr fun hc => h (List.contains_iff_mem.mp hc), Bool.not_false, cond_true]
    rfl

namespace PropertySchema

/-- The token of a property in the form under which tokens are compared. -/
def folded (p : PropertySchema) : String :=
  Text.fold p.token

theorem same_iff {p q : PropertySchema} :
    Text.same p.token q.token = true ↔ p.folded = q.folded :=
  Text.same_iff

/-- The declaration of a property behind others, with the property that has to leave: it goes to the
end when its token is new, and else to where the property with this token stands. -/
inductive Declares (p : PropertySchema) :
    List PropertySchema → Option PropertySchema → List PropertySchema → Prop
  | last {qs : List PropertySchema} (new : p.folded ∉ qs.map folded) :
    Declares p qs none (qs ++ [p])
  | inPlace {before after : List PropertySchema} {q : PropertySchema}
    (first : p.folded ∉ before.map folded) (same : q.folded = p.folded) :
    Declares p (before ++ q :: after) (some q) (before ++ p :: after)

variable {p : PropertySchema} {qs rs : List PropertySchema} {displaced : Option PropertySchema}

theorem declares_insertInto (p : PropertySchema) (qs : List PropertySchema) :
    p.Declares qs (p.insertInto qs).1 (p.insertInto qs).2 := by
  induction qs with
  | nil => exact .last List.not_mem_nil
  | cons q qs ih =>
    rw [insertInto]
    split
    · next hs => exact @Declares.inPlace p [] qs q List.not_mem_nil (same_iff.mp hs)
    · next hs =>
      rw [same_iff] at hs
      have hq {ks : List String} (h : p.folded ∉ ks) : p.folded ∉ q.folded :: ks := fun hm =>
        (List.mem_cons.mp hm).elim (fun he => hs he.symm) h
      generalize p.insertInto qs = result at ih
      obtain ⟨displaced, rs⟩ := result
      cases ih with
      | last new => exact @Declares.last p (q :: qs) (hq new)
      | @inPlace before after r first same =>
        exact @Declares.inPlace p (q :: before) after r (hq first) same

theorem find?_eq_none_of_new {token : String} (h : Text.fold token ∉ qs.map folded) :
    (qs.find? fun q => Text.same q.token token) = none := by
  rw [List.find?_eq_none]
  intro q hq hs
  exact h (List.mem_map.mpr ⟨q, hq, Text.same_iff.mp hs⟩)

theorem Declares.displaced_eq (h : p.Declares qs displaced rs) :
    displaced = qs.find? fun q => Text.same q.token p.token := by
  cases h with
  | last new => exact (find?_eq_none_of_new new).symm
  | inPlace first same =>
    rw [List.find?_append, find?_eq_none_of_new first, List.find?_cons, same_iff.mpr same]
    rfl

theorem Declares.find?_eq (h : p.Declares qs displaced rs) (token : String) :
    (rs.find? fun q => Text.same q.token token) =
      if Text.same p.token token then some p else qs.find? fun q => Text.same q.token token := by
  split
  · next hs =>
    have hp : p.folded = Text.fold token := Text.same_iff.mp hs
    cases h with
    | last new =>
      rw [List.find?_append, find?_eq_none_of_new (hp ▸ new), List.find?_cons, hs]
      rfl
    | inPlace first _ =>
      rw [List.find?_append, find?_eq_none_of_new (hp ▸ first), List.find?_cons, hs]
      rfl
  · next hs =>
    rw [Bool.not_eq_true] at hs
    cases h with
    | last new =>
      rw [List.find?_append, List.find?_singleton, hs]
      exact Option.or_none
    | @inPlace _ _ q _ same =>
      have hq : Text.same q.token token = Text.same p.token token := by
        rw [Text.same, Text.same, ← folded, ← folded, same]
      rw [List.find?_append, List.find?_append, List.find?_cons, List.find?_cons, hq, hs]

theorem Declares.map_folded (h : p.Declares qs displaced rs) :
    rs.map folded =
      if p.folded ∈ qs.map folded then qs.map folded else qs.map folded ++ [p.folded] := by
  cases h with
  | last new =>
    rw [if_neg new, List.map_append]
    rfl
  | inPlace _ same =>
    rw [List.map_append, List.map_append, List.map_cons, List.map_cons, same, if_pos]
    exact List.mem_append_right _ (.head _)

theorem Declares.isSome_iff (h : p.Declares qs displaced rs) :
    displaced.isSome = true ↔ p.folded ∈ qs.map folded := by
  cases h with
  | last new => exact iff_of_false nofun new
  | inPlace _ same =>
    refine iff_of_true rfl ?_
    rw [List.map_append, List.map_cons, same]
    exact List.mem_append_right _ (.head _)

/-- The properties that have the token of one before them, or one that was seen already. -/
def repeats (seen : List String) : List PropertySchema → List PropertySchema
  | [] => []
  | p :: ps =>
    if p.folded ∈ seen then p :: repeats seen ps else repeats (seen ++ [p.folded]) ps

/-- Of the properties with a token that was not seen, all but one are repeated. -/
theorem count_repeats (seen : List String) (ps : List PropertySchema) (key : String) :
    ((repeats seen ps).map folded).count key =
      (ps.map folded).count key - if key ∈ seen then 0 else 1 := by
  induction ps generalizing seen with
  | nil => exact (Nat.zero_sub _).symm
  | cons p ps ih =>
    rw [repeats, List.map_cons]
    by_cases hk : p.folded = key
    · subst hk
      rw [List.count_cons_self]
      by_cases hp : p.folded ∈ seen
      · rw [if_pos hp, if_pos hp, List.map_cons, List.count_cons_self, ih, if_pos hp]
        rfl
      · rw [if_neg hp, if_neg hp, ih, if_pos (List.mem_append_right _ (.head _))]
        rfl
    · rw [List.count_cons_of_ne hk]
      split
      · rw [List.map_cons, List.count_cons_of_ne hk, ih]
      · have hs : key ∈ seen ++ [p.folded] ↔ key ∈ seen := by
          rw [List.mem_append, List.mem_singleton, or_iff_left (Ne.symm hk)]
        rw [ih]
        simp only [hs]

end PropertySchema

namespace ChunkSchema

open PropertySchema (folded repeats)

variable {s t fresh : ChunkSchema} {ps : List PropertySchema}

theorem declares_declare (s : ChunkSchema) (p : PropertySchema) :
    p.Declares s.properties (s.declare p).1 (s.declare p).2.properties :=
  p.declares_insertInto s.properties

theorem property?_declare (s : ChunkSchema) (p : PropertySchema) (token : String) :
    (s.declare p).2.property? token =
      if Text.same p.token token then some p else s.property? token :=
  (s.declares_declare p).find?_eq token

theorem declareAll_concat (s : ChunkSchema) (ps : List PropertySchema) (p : PropertySchema) :
    s.declareAll (ps ++ [p]) = ((s.declareAll ps).declare p).2 :=
  List.foldl_concat _ _ _ _

theorem declareAll_append (s : ChunkSchema) (ps qs : List PropertySchema) :
    s.declareAll (ps ++ qs) = (s.declareAll ps).declareAll qs :=
  List.foldl_append

theorem properties_declareAll_congr (h : s.properties = t.properties) (ps : List PropertySchema) :
    (s.declareAll ps).properties = (t.declareAll ps).properties := by
  induction ps generalizing s t with
  | nil => exact h
  | cons p ps ih =>
    apply ih
    change (p.insertInto s.properties).2 = (p.insertInto t.properties).2
    rw [h]

theorem property?_declareAll (s : ChunkSchema) (ps : List PropertySchema) (token : String) :
    (s.declareAll ps).property? token =
      (ps.reverse.find? fun p => Text.same p.token token).or (s.property? token) := by
  induction ps using List.reverseRecOn with
  | nil => rfl
  | append_singleton ps p ih =>
    rw [declareAll_concat, property?_declare, ih, List.reverse_concat, List.find?_cons]
    cases Text.same p.token token <;> rfl

theorem map_folded_declareAll (hs : s.properties = []) (ps : List PropertySchema) :
    (s.declareAll ps).properties.map folded = (ps.map folded).eraseDups := by
  induction ps using List.reverseRecOn with
  | nil =>
    change s.properties.map folded = _
    rw [hs]
    rfl
  | append_singleton ps p ih =>
    have hmem : p.folded ∈ (s.declareAll ps).properties.map folded ↔ p.folded ∈ ps.map folded := by
      rw [ih, List.mem_eraseDups]
    rw [declareAll_concat, (declares_declare _ p).map_folded, List.map_append, List.map_singleton,
      eraseDups_concat, ih]
    simp only [List.mem_eraseDups]

/-- What is repeated in a sequence of properties is what is repeated in its first part, and in its
second part behind the first. -/
theorem repeats_append (s : ChunkSchema) (ps qs : List PropertySchema) :
    repeats (s.properties.map folded) (ps ++ qs) =
      repeats (s.properties.map folded) ps ++
        repeats ((s.declareAll ps).properties.map folded) qs := by
  induction ps generalizing s with
  | nil => rfl
  | cons p ps ih =>
    have hp := (s.declares_declare p).map_folded
    have h := ih (s.declare p).2
    rw [List.cons_append, repeats, repeats]
    change _ = _ ++ repeats (((s.declare p).2.declareAll ps).properties.map folded) qs
    split
    · next hm =>
      rw [if_pos hm] at hp
      rw [hp] at h
      rw [List.cons_append, ← h]
    · next hm =>
      rw [if_neg hm] at hp
      rw [← hp, h]

/-- What becomes of properties that are declared one after the other in a type that has none yet. -/
structure Collects (fresh : ChunkSchema) (ps : List PropertySchema) : Prop where
  distinct : (fresh.declareAll ps).Distinct
  ordered : (fresh.declareAll ps).properties.map folded = (ps.map folded).eraseDups
  found : ∀ token, (fresh.declareAll ps).property? token =
    ps.reverse.find? fun p => Text.same p.token token
  declares : ∀ before p after, ps = before ++ p :: after →
    p.Declares (fresh.declareAll before).properties ((fresh.declareAll before).declare p).1
      (fresh.declareAll (before ++ [p])).properties
  displaced : ∀ before p after, ps = before ++ p :: after →
    ((fresh.declareAll before).declare p).1 =
      before.reverse.find? fun q => Text.same q.token p.token

theorem collects (hf : fresh.properties = []) (ps : List PropertySchema) : fresh.Collects ps := by
  have hfound (ps : List PropertySchema) (token : String) :
      (fresh.declareAll ps).property? token =
        ps.reverse.find? fun p => Text.same p.token token := by
    rw [property?_declareAll, property?, hf, List.find?_nil, Option.or_none]
  refine ⟨?_, map_folded_declareAll hf ps, hfound ps, fun before p _ _ => ?_,
    fun before p _ _ => ?_⟩
  · apply Distinct.declareAll
    rw [Distinct, hf]
    exact List.nodup_nil
  · rw [declareAll_concat]
    exact declares_declare _ p
  · exact (declares_declare _ p).displaced_eq.trans (hfound before p.token)

end ChunkSchema

end ChunkConfig
