import ChunkConfig.Proofs.Building.Graded
import ChunkConfig.Proofs.Registry.Batch

namespace ChunkConfig

open Xml (Attribute Node)
open Reported (Permuted Shuffled)

namespace Xml

/-- The name by which an attribute mentions a property. -/
def Attribute.mentioned? (a : Attribute) : Option String :=
  some a.name

/-- The name by which a child of a chunk element mentions a property. -/
def Node.mentioned? : Node → Option String
  | attr a => a.mentioned?
  | element name .. => some name
  | _ => none

end Xml

section Rearranged

variable {α σ : Type} {key : α → Option String} {as bs : List α} {a b : α}

/-- Whether something goes by a token. -/
def goesBy (key : α → Option String) (token : String) (a : α) : Bool :=
  (key a).any fun own => Text.same own token

/-- Whether two things do not go by the same token. -/
def Distinguished (key : α → Option String) (a b : α) : Prop :=
  ∀ token ∈ key a, goesBy key token b = false

/-- Whether a list is another one in an order that keeps what goes by the same token in its
order. -/
structure Rearranged (key : α → Option String) (as bs : List α) : Prop where
  perm : as.Perm bs
  order : ∀ token, as.filter (goesBy key token) = bs.filter (goesBy key token)

theorem goesBy_congr {own token : String} (ha : key a = some own) (h : goesBy key token a = true) :
    goesBy key token b = goesBy key own b := by
  rw [goesBy, ha] at h
  unfold goesBy
  simp only [Text.same_comm _ token, Text.same_comm _ own, Text.same_congr h]

theorem Rearranged.trans {cs : List α} (h : Rearranged key as bs) (h' : Rearranged key bs cs) :
    Rearranged key as cs :=
  ⟨h.perm.trans h'.perm, fun token => (h.order token).trans (h'.order token)⟩

theorem Rearranged.swap (before after : List α) (h : Distinguished key a b) :
    Rearranged key (before ++ a :: b :: after) (before ++ b :: a :: after) where
  perm := (List.Perm.swap b a after).append_left before
  order := by
    intro token
    have hpair : [a, b].filter (goesBy key token) = [b, a].filter (goesBy key token) := by
      cases ha : goesBy key token a with
      | false => simp only [List.filter_cons, ha, Bool.false_eq_true, if_false]
      | true =>
        obtain ⟨own, hown, -⟩ := (Option.any_eq_true _ _).mp ha
        have hb : goesBy key token b = false := (goesBy_congr hown ha).trans (h own hown)
        simp only [List.filter_cons, hb, Bool.false_eq_true, if_false]
    have hafter := congrArg (· ++ after.filter (goesBy key token)) hpair
    simp only [← List.filter_append] at hafter
    rw [List.filter_append, List.filter_append]
    exact congrArg (before.filter (goesBy key token) ++ ·) hafter

theorem Rearranged.exists_eq_append (h : Rearranged key (a :: as) bs) :
    ∃ before after, bs = before ++ a :: after ∧ ∀ b ∈ before, Distinguished key a b := by
  cases ha : key a with
  | none =>
    obtain ⟨before, after, rfl⟩ := List.append_of_mem (h.perm.mem_iff.mp (.head _))
    refine ⟨before, after, rfl, fun b hb token htoken => ?_⟩
    rw [ha] at htoken
    cases htoken
  | some own =>
    have hself : goesBy key own a = true := by
      rw [goesBy, ha]
      exact Text.same_self own
    have hown := h.order own
    rw [List.filter_cons_of_pos hself] at hown
    obtain ⟨before, after, rfl, hbefore, -, -⟩ := List.filter_eq_cons_iff.mp hown.symm
    refine ⟨before, after, rfl, fun b hb token htoken => ?_⟩
    rw [ha] at htoken
    cases htoken
    exact Bool.eq_false_iff.mpr (hbefore b hb)

theorem Rearranged.tail {before after : List α}
    (h : Rearranged key (a :: as) (before ++ a :: after))
    (hbefore : ∀ b ∈ before, Distinguished key a b) : Rearranged key as (before ++ after) where
  perm := (h.perm.trans List.perm_middle).cons_inv
  order := by
    intro token
    have htoken := h.order token
    rw [List.filter_append] at htoken ⊢
    by_cases hgoes : goesBy key token a = true
    · obtain ⟨own, ha, -⟩ := (Option.any_eq_true _ _).mp hgoes
      have hnone : before.filter (goesBy key token) = [] := by
        rw [List.filter_eq_nil_iff]
        intro b hb
        rw [goesBy_congr ha hgoes, hbefore b hb own ha]
        exact Bool.false_ne_true
      rw [List.filter_cons_of_pos hgoes, List.filter_cons_of_pos hgoes, hnone] at htoken
      rw [hnone]
      exact (List.cons.inj htoken).2
    · rwa [List.filter_cons_of_neg hgoes, List.filter_cons_of_neg hgoes] at htoken

variable {step : σ → α → Reported σ}

theorem shuffled_foldlM_middle {before : List α} (after : List α)
    (h : ∀ b ∈ before, ∀ s, Shuffled (step s a >>= fun t => step t b)
      (step s b >>= fun t => step t a)) (s : σ) :
    Shuffled ((a :: (before ++ after)).foldlM step s) ((before ++ a :: after).foldlM step s) := by
  induction before generalizing s with
  | nil => exact .refl _
  | cons b before ih =>
    have hswap : Shuffled ((step s a >>= fun t => step t b) >>= (before ++ after).foldlM step)
        ((step s b >>= fun t => step t a) >>= (before ++ after).foldlM step) :=
      (h b (.head _) s).bind fun _ => .refl _
    rw [bind_assoc, bind_assoc] at hswap
    have hrest : Shuffled (step s b >>= (a :: (before ++ after)).foldlM step)
        (step s b >>= (before ++ a :: after).foldlM step) :=
      (Shuffled.refl (step s b)).bind (ih fun c hc => h c (.tail _ hc))
    exact hswap.trans hrest

/-- When steps of different tokens commute, to rearrange them only shuffles their problems. -/
theorem Rearranged.shuffled_foldlM (hcomm : ∀ a b, Distinguished key a b → ∀ s,
    Shuffled (step s a >>= fun t => step t b) (step s b >>= fun t => step t a))
    (h : Rearranged key as bs) (s : σ) : Shuffled (as.foldlM step s) (bs.foldlM step s) := by
  induction as generalizing bs s with
  | nil =>
    rw [h.perm.nil_eq]
    exact .refl _
  | cons a as ih =>
    obtain ⟨before, after, rfl, hbefore⟩ := h.exists_eq_append
    have htail : Shuffled (step s a >>= as.foldlM step)
        (step s a >>= (before ++ after).foldlM step) :=
      (Shuffled.refl (step s a)).bind (ih (h.tail hbefore))
    apply htail.trans
    exact shuffled_foldlM_middle after (fun b hb => hcomm a b (hbefore b hb)) s

end Rearranged

namespace Chunk

/-- What an attribute or a child of its element does to a chunk. -/
inductive Change where
  /-- Nothing but to report problems. -/
  | keep (problems : List Problem)
  | rename (name : String)
  /-- Opens a property and holds what becomes of it. -/
  | rework (token : String) (f : PropertySchema → Property Chunk → Reported (Property Chunk))

namespace Change

variable {token : String} {f : PropertySchema → Property Chunk → Reported (Property Chunk)}
variable {c : Chunk}

/-- Makes a change to a chunk. -/
def run (c : Chunk) : Change → Reported Chunk
  | keep problems => ⟨c, problems⟩
  | rename name => pure { c with name }
  | rework token f =>
    match c.schema.property? token, c.open? token with
    | some s, some p => do return c.hold token (← f s p)
    | _, _ => do
      c.reportNoProperty token
      return c

/-- Changes that do not touch the same part of a chunk. -/
def Apart : Change → Change → Prop
  | rename _, rename _ => False
  | rework s _, rework t _ => Text.same s t = false
  | _, _ => True

theorem Apart.symm {x y : Change} (h : x.Apart y) : y.Apart x := by
  cases x with
  | rework s f =>
    cases y with
    | rework t g => exact (Text.same_comm t s).trans h
    | _ => trivial
  | _ =>
    cases y with
    | rename _ => exact h
    | _ => trivial

theorem apart_keep (x : Change) (problems : List Problem) : x.Apart (keep problems) := by
  cases x
  all_goals trivial

theorem run_of_undeclared (hs : c.schema.property? token = none) :
    (rework token f).run c = ⟨c, [.noSuchProperty token c.name c.schema.token]⟩ := by
  rw [run, hs]
  rfl

theorem run_of_open? {s : PropertySchema} {p : Property Chunk}
    (hs : c.schema.property? token = some s) (hp : c.open? token = some p) :
    (rework token f).run c = ⟨c.hold token (f s p).value, (f s p).problems⟩ := by
  rw [run, hs, hp]
  exact Reported.ext rfl (List.append_nil _)

/-- Changes may change places when both orders end in the same chunk, and each of the two meets the
same problems before and behind the other one. -/
theorem shuffled_of_eq {x y : Change} {d e k : Chunk} {ps qs ps' qs' : List Problem}
    (hx : x.run c = ⟨d, ps⟩) (hy : y.run c = ⟨e, qs⟩) (hxy : y.run d = ⟨k, qs'⟩)
    (hyx : x.run e = ⟨k, ps'⟩) (hps : ps.map Problem.grade = ps'.map Problem.grade)
    (hqs : qs.map Problem.grade = qs'.map Problem.grade) :
    Shuffled (x.run c >>= y.run) (y.run c >>= x.run) where
  value_eq := by rw [Reported.value_bind, Reported.value_bind, hx, hy, hxy, hyx]
  grades_perm := by
    rw [Reported.problems_bind, Reported.problems_bind, hx, hy, hxy, hyx, List.map_append,
      List.map_append, hps, hqs]
    exact List.perm_append_comm

theorem permuted_of_eq {x y : Change} {d e k : Chunk} {ps qs : List Problem}
    (hx : x.run c = ⟨d, ps⟩) (hy : y.run c = ⟨e, qs⟩) (hxy : y.run d = ⟨k, qs⟩)
    (hyx : x.run e = ⟨k, ps⟩) : Permuted (x.run c >>= y.run) (y.run c >>= x.run) where
  value_eq := by rw [Reported.value_bind, Reported.value_bind, hx, hy, hxy, hyx]
  problems_perm := by
    rw [Reported.problems_bind, Reported.problems_bind, hx, hy, hxy, hyx]
    exact List.perm_append_comm

theorem permuted_keep (problems : List Problem) (y : Change) (c : Chunk) :
    Permuted ((keep problems).run c >>= y.run) (y.run c >>= (keep problems).run) :=
  permuted_of_eq rfl rfl rfl rfl

theorem permuted_rename {s : PropertySchema} (hs : c.schema.property? token = some s)
    (name : String) : Permuted ((rename name).run c >>= (rework token f).run)
      ((rework token f).run c >>= (rename name).run) := by
  have hp := open?_eq hs
  exact permuted_of_eq rfl (run_of_open? hs hp) (run_of_open? hs hp) rfl

theorem shuffled_rename (name token : String)
    (f : PropertySchema → Property Chunk → Reported (Property Chunk)) (c : Chunk) :
    Shuffled ((rename name).run c >>= (rework token f).run)
      ((rework token f).run c >>= (rename name).run) := by
  -- The message about an unknown property has the name in it, so the problems agree up to grades.
  cases hs : c.schema.property? token with
  | none => exact shuffled_of_eq rfl (run_of_undeclared hs) (run_of_undeclared hs) rfl rfl rfl
  | some s => exact (permuted_rename hs name).shuffled

theorem permuted_rework {t u : String} (h : Text.same t u = false)
    (f g : PropertySchema → Property Chunk → Reported (Property Chunk)) (c : Chunk) :
    Permuted ((rework t f).run c >>= (rework u g).run)
      ((rework u g).run c >>= (rework t f).run) := by
  have h' : Text.same u t = false := (Text.same_comm u t).trans h
  cases ht : c.schema.property? t with
  | none =>
    have hc : (rework t f).run c = _ := run_of_undeclared ht
    cases hu : c.schema.property? u with
    | none => exact permuted_of_eq hc (run_of_undeclared hu) (run_of_undeclared hu) hc
    | some s =>
      have hq := open?_eq hu
      exact permuted_of_eq hc (run_of_open? hu hq) (run_of_open? hu hq) (run_of_undeclared ht)
  | some s =>
    obtain ⟨p, hp⟩ : ∃ p, c.open? t = some p := ⟨_, open?_eq ht⟩
    have hc : (rework t f).run c = _ := run_of_open? ht hp
    cases hu : c.schema.property? u with
    | none => exact permuted_of_eq hc (run_of_undeclared hu) (run_of_undeclared hu) hc
    | some s' =>
      obtain ⟨q, hq⟩ : ∃ q, c.open? u = some q := ⟨_, open?_eq hu⟩
      have hp' := (c.open?_hold (g s' q).value h).trans hp
      have hq' := (c.open?_hold (f s p).value h').trans hq
      have hd : (rework u g).run (c.hold t _) = _ := run_of_open? hu hq'
      rw [c.hold_comm h] at hd
      exact permuted_of_eq hc (run_of_open? hu hq) hd (run_of_open? ht hp')

/-- Changes that touch other parts of a chunk may change places. -/
theorem Apart.shuffled {x y : Change} (h : x.Apart y) (c : Chunk) :
    Shuffled (x.run c >>= y.run) (y.run c >>= x.run) := by
  cases x with
  | keep problems => exact (permuted_keep problems y c).shuffled
  | rename name =>
    cases y with
    | keep problems => exact (permuted_keep problems (rename name) c).symm.shuffled
    | rename _ => cases h
    | rework token f => exact shuffled_rename name token f c
  | rework token f =>
    cases y with
    | keep problems => exact (permuted_keep problems (rework token f) c).symm.shuffled
    | rename name => exact (shuffled_rename name token f c).symm
    | rework _ g => exact (permuted_rework h f g c).shuffled

end Change

/-- What an attribute does to a chunk. -/
def attributeChange (a : Attribute) : Change :=
  if Text.same a.name "name" then .rename a.value
  else .rework a.name fun s p =>
    let filled := (if s.kind = .embedded then p else p.restart).fill 0 a.value
    ⟨filled.property, filled.problem.toList⟩

theorem applyAttribute_eq (c : Chunk) (a : Attribute) :
    c.applyAttribute a = (attributeChange a).run c := by
  rw [applyAttribute, attributeChange]
  split
  · rfl
  · cases hs : c.schema.property? a.name with
    | none =>
      rw [Change.run_of_undeclared hs]
      rfl
    | some s =>
      rw [Change.run_of_open? hs (open?_eq hs), open?_eq hs]
      rfl

theorem apart_rework {a : Attribute} {token : String} (h : Text.same token a.name = false)
    (f : PropertySchema → Property Chunk → Reported (Property Chunk)) :
    (attributeChange a).Apart (.rework token f) := by
  rw [attributeChange]
  split
  · trivial
  · exact (Text.same_comm _ _).trans h

theorem apart_attributeChange {a b : Attribute} (h : Distinguished Attribute.mentioned? a b) :
    (attributeChange a).Apart (attributeChange b) := by
  have hname : Text.same b.name a.name = false := h a.name rfl
  by_cases hb : Text.same b.name "name" = true
  · have ha : ¬ Text.same a.name "name" = true := by
      intro ha
      rw [Text.same_congr hb, Text.same_comm, ha] at hname
      cases hname
    rw [attributeChange, attributeChange, if_neg ha, if_pos hb]
    trivial
  · rw [attributeChange.eq_1 b, if_neg hb]
    exact apart_rework hname _

end Chunk

namespace Registry

open Chunk (Change)

/-- What a child of its element does to a chunk. -/
def nodeChange (r : Registry) (nested : Bool) : Node → Change
  | .attr a => Chunk.attributeChange a
  | .element name _ children =>
    .rework name fun s p =>
      if s.kind = .embedded then do Chunk.storeChunks p.restart 0 (← r.buildAll nested children)
      else Chunk.fillContent p.restart 0 name children
  | .text _ | .comment _ | .instruction .. | .notationName _ => .keep []
  | node => .keep [.unexpectedNode node.kind node.name]

theorem applyNode_eq (r : Registry) (nested : Bool) (c : Chunk) (node : Node) :
    r.applyNode nested c node = (r.nodeChange nested node).run c := by
  cases node with
  | attr a =>
    rw [applyNode]
    exact c.applyAttribute_eq a
  | element name as cs =>
    rw [applyNode, nodeChange]
    cases hs : c.schema.property? name with
    | none =>
      rw [Change.run_of_undeclared hs]
      rfl
    | some s =>
      rw [Change.run_of_open? hs (Chunk.open?_eq hs), Chunk.open?_eq hs]
      dsimp only
      split
      · exact Reported.ext rfl (congrArg (_ ++ ·) (List.append_nil _))
      · exact Reported.ext rfl (List.append_nil _)
  | _ => rfl

theorem apart_nodeChange (r : Registry) (nested : Bool) {a b : Node}
    (h : Distinguished Node.mentioned? a b) :
    (r.nodeChange nested a).Apart (r.nodeChange nested b) := by
  cases a with
  | attr a =>
    cases b with
    | attr b => exact Chunk.apart_attributeChange h
    | element name as cs => exact Chunk.apart_rework (h a.name rfl) _
    | _ => exact Change.apart_keep _ _
  | element name as cs =>
    cases b with
    | attr b =>
      have hname : Text.same name b.name = false := (Text.same_comm _ _).trans (h name rfl)
      exact (Chunk.apart_rework hname _).symm
    | element other bs ds =>
      have hname : Text.same other name = false := h name rfl
      exact (Text.same_comm _ _).trans hname
    | _ => exact Change.apart_keep _ _
  | _ => trivial

theorem applyAll_eq (r : Registry) (nested : Bool) (c : Chunk) (nodes : List Node) :
    r.applyAll nested c nodes = nodes.foldlM (r.applyNode nested) c := by
  induction nodes generalizing c with
  | nil =>
    rw [applyAll]
    rfl
  | cons node rest ih =>
    rw [applyAll, List.foldlM_cons]
    exact bind_congr ih

variable {as bs : List Attribute} {cs ds : List Node}

/-- The properties of a chunk are built independently of one another: where attributes and children
of its element stand matters only among those of the same name. -/
theorem buildChunk_rearranged (r : Registry) (nested populate : Bool) (name : String)
    (ha : Rearranged Attribute.mentioned? as bs) (hc : Rearranged Node.mentioned? cs ds) :
    Shuffled (r.buildChunk nested populate (.element name as cs))
      (r.buildChunk nested populate (.element name bs ds)) := by
  have hattributes : ∀ c : Chunk,
      Shuffled (as.foldlM Chunk.applyAttribute c) (bs.foldlM Chunk.applyAttribute c) := by
    apply ha.shuffled_foldlM
    intro a b hab c
    simp only [Chunk.applyAttribute_eq]
    exact (Chunk.apart_attributeChange hab).shuffled c
  have hchildren : ∀ c, Shuffled (r.applyAll nested c cs) (r.applyAll nested c ds) := by
    intro c
    rw [applyAll_eq, applyAll_eq]
    apply hc.shuffled_foldlM
    intro a b hab d
    simp only [applyNode_eq]
    exact (r.apart_nodeChange nested hab).shuffled d
  rw [buildChunk, buildChunk]
  split
  · exact .refl _
  · exact (hattributes _).bind fun d => (hchildren d).bind fun _ => .refl _

/-- The property of a box with a lamp in it. -/
def innerLamp : Node :=
  .element "inner" [] [.element "Lamp" [] []]

theorem buildChunk_rearranged_box :
    Shuffled
      ((empty.register (knotBatch ++ lampBatch)).value.buildChunk true true
        (.element "Box" [⟨"color", "Red"⟩, ⟨"name", "Crate"⟩]
          [innerLamp, .text " ", .attr ⟨"Name", "Case"⟩]))
      ((empty.register (knotBatch ++ lampBatch)).value.buildChunk true true
        (.element "Box" [⟨"name", "Crate"⟩, ⟨"color", "Red"⟩]
          [.text " ", .attr ⟨"Name", "Case"⟩, innerLamp])) := by
  have hcolor : Distinguished Attribute.mentioned? ⟨"color", "Red"⟩ ⟨"name", "Crate"⟩ := by
    unfold Distinguished
    decide +kernel
  have htext : Distinguished Node.mentioned? innerLamp (.text " ") := by
    unfold Distinguished
    decide +kernel
  have hname : Distinguished Node.mentioned? innerLamp (.attr ⟨"Name", "Case"⟩) := by
    unfold Distinguished
    decide +kernel
  have hbehind := Rearranged.swap [] [Node.attr ⟨"Name", "Case"⟩] htext
  have hlast := Rearranged.swap [Node.text " "] [] hname
  exact buildChunk_rearranged _ true true "Box" (.swap [] [] hcolor) (hbehind.trans hlast)

end Registry

end ChunkConfig
