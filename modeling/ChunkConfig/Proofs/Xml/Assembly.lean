import ChunkConfig.Proofs.Text.Trim
import ChunkConfig.Proofs.Xml.Layout
import ChunkConfig.Xml.Assembly

namespace ChunkConfig.Xml

def Node.isText : Node → Bool
  | text _ => true
  | _ => false

mutual

/-- A node below an element that can be written and read back. -/
def Node.Writable : Node → Prop
  | .element name as cs => ProperTag name as ∧ AllWritable false cs
  | .text _ => True
  | .comment content => (Event.comment content).Readable
  | .instruction target data =>
    (Event.instruction target data).Readable ∧ Text.trim data = data
  | .document _ | .fragment _ | .attr _ | .notationName _ | .other _ => False

/-- Neighbours that can be written and read back: no text follows another text. `after` says whether
a text stands before them. -/
def AllWritable (after : Bool) : List Node → Prop
  | [] => True
  | c :: cs => c.Writable ∧ ¬ (after = true ∧ c.isText = true) ∧ AllWritable c.isText cs

end

/-- The line break before a node, as a node. -/
def breakNodes (indent depth : Nat) (fresh : Bool) : List Node :=
  if indent = 0 ∨ !fresh then [] else [.text (newLine indent depth)]

mutual

/-- A node as it reads back after it was laid out at a depth. -/
def Node.laid (indent depth : Nat) : Node → Node
  | .element name as cs =>
    .element name as
      (if cs.all Node.isBlankText then [] else laidAll indent (depth + 1) true cs)
  | c => c

/-- The children of an element as they read back, with a break before the end of the element. -/
def laidAll (indent depth : Nat) (fresh : Bool) : List Node → List Node
  | [] => breakNodes indent (depth - 1) fresh
  | c :: cs =>
    if c.isBlankText then laidAll indent depth fresh cs
    else (if c.isText then [] else breakNodes indent depth fresh) ++
      c.laid indent depth :: laidAll indent depth (!c.isText) cs

end

theorem AllWritable.of_true {cs : List Node} (h : AllWritable true cs) : AllWritable false cs := by
  cases cs with
  | nil => trivial
  | cons c cs =>
    obtain ⟨hc, -, hcs⟩ := h
    exact ⟨hc, fun hn => Bool.false_ne_true hn.1, hcs⟩

section Nested

variable {opened : List String} {rest : List Event}

theorem Nested.markup {e : Event} (he : e.Readable) (ht : e.isText = false)
    (ho : ∀ name, e ≠ .finish name) (h : Nested (e.nest opened) rest) :
    Nested opened (e :: rest) := by
  refine ⟨he, fun name hn => absurd hn (ho name), fun hn => ?_, h⟩
  exact absurd (ht.symm.trans hn) Bool.false_ne_true

theorem exists_events_eq_cons {c : Node} (h : c.Writable) (ht : c.isText = false) :
    ∃ f fs, c.events = f :: fs ∧ f.isText = false := by
  cases c with
  | element name as cs =>
    rw [Node.events]
    split
    · exact ⟨_, _, rfl, rfl⟩
    · exact ⟨_, _, rfl, rfl⟩
  | comment => exact ⟨_, _, rfl, rfl⟩
  | instruction => exact ⟨_, _, rfl, rfl⟩
  | text => cases ht
  | document | fragment | attr | notationName | other => exact h.elim

theorem exists_allEvents_eq_cons {cs : List Node} (h : AllWritable true cs)
    (hr : ∃ f fs, rest = f :: fs ∧ f.isText = false) :
    ∃ f fs, allEvents cs ++ rest = f :: fs ∧ f.isText = false := by
  cases cs with
  | nil => exact hr
  | cons c cs =>
    have ht : c.isText = false := Bool.eq_false_iff.mpr fun hn => h.2.1 ⟨rfl, hn⟩
    obtain ⟨f, fs, he, hf⟩ := exists_events_eq_cons h.1 ht
    exact ⟨f, _, by rw [allEvents, he, List.cons_append, List.cons_append], hf⟩

mutual

/-- The events of a node are nested, whatever follows them. -/
theorem nested_events :
    (c : Node) → c.Writable → c.isText = false → ∀ {opened : List String} {rest : List Event},
      Nested opened rest → Nested opened (c.events ++ rest)
  | .element name as cs, h, _, opened, rest, hr => by
    rw [Node.events]
    split
    · exact .markup h.1 rfl (fun _ => Event.noConfusion) hr
    · rw [List.cons_append, List.cons_append, List.append_assoc]
      refine .markup h.1 rfl (fun _ => Event.noConfusion) ?_
      refine nested_allEvents cs h.2 ?_ ⟨_, _, rfl, rfl⟩
      refine ⟨h.1.name, ?_, fun hn => absurd hn Bool.false_ne_true, hr⟩
      rintro n ⟨⟩
      rfl
  | .comment content, h, _, _, _, hr => .markup h rfl (fun _ => Event.noConfusion) hr
  | .instruction target data, h, _, _, _, hr =>
    .markup h.1 rfl (fun _ => Event.noConfusion) hr
  | .text _, _, ht, _, _, _ => absurd ht.symm Bool.false_ne_true
  | .document _, h, _, _, _, _ | .fragment _, h, _, _, _, _ | .attr _, h, _, _, _, _
  | .notationName _, h, _, _, _, _ | .other _, h, _, _, _, _ => h.elim

theorem nested_allEvents {after : Bool} :
    (cs : List Node) → AllWritable after cs → ∀ {opened : List String} {rest : List Event},
      Nested opened rest → (∃ f fs, rest = f :: fs ∧ f.isText = false) →
        Nested opened (allEvents cs ++ rest)
  | [], _, _, _, hr, _ => hr
  | c :: cs, h, opened, rest, hr, hf => by
    have hcs : Nested opened (allEvents cs ++ rest) := nested_allEvents cs h.2.2 hr hf
    rw [allEvents, List.append_assoc]
    cases ht : c.isText with
    | false => exact nested_events c h.1 ht hcs
    | true =>
      cases c with
      | text content =>
        rw [Node.events]
        split
        · exact hcs
        · next hb =>
          have hne : content ≠ "" := by
            rintro rfl
            exact hb rfl
          have hn : ∀ name, Event.text content = .finish name → opened.head? = some name :=
            fun _ he => Event.noConfusion he
          exact ⟨hne, hn, fun _ => exists_allEvents_eq_cons h.2.2 hf, hcs⟩
      | _ => cases ht

end

end Nested

section Frame

variable (name : String) (as : List Attribute) (ks : List Node) (frames : List Frame)
  (top : List Node)

theorem Assembly.modify_frame (f : List Node → List Node) :
    Assembly.modify ⟨⟨name, as, ks⟩ :: frames, top⟩ f = ⟨⟨name, as, f ks⟩ :: frames, top⟩ :=
  rfl

theorem Assembly.close_frame :
    Assembly.close ⟨⟨name, as, ks⟩ :: frames, top⟩ =
      Assembly.add ⟨frames, top⟩ (.element name as ks.reverse) :=
  rfl

end Frame

theorem reverse_breakNodes (indent depth : Nat) (fresh : Bool) :
    (breakNodes indent depth fresh).reverse = breakNodes indent depth fresh := by
  rw [breakNodes]
  split <;> rfl

theorem Node.isText_laid (indent depth : Nat) (c : Node) :
    (c.laid indent depth).isText = c.isText := by
  cases c <;> rfl

theorem Node.isBlankText_of_not_isText {c : Node} (h : c.isText = false) :
    c.isBlankText = false := by
  cases c <;> first | rfl | cases h

theorem Assembly.step_text {name : String} {as : List Attribute} {ks : List Node}
    {frames : List Frame} {top : List Node} (hk : ks.head?.any Node.isText = false)
    (content : String) :
    Assembly.step ⟨⟨name, as, ks⟩ :: frames, top⟩ (.text content) =
      ⟨⟨name, as, .text content :: ks⟩ :: frames, top⟩ := by
  have hj : joinText content ks = .text content :: ks := by
    cases ks with
    | nil => rfl
    | cons k ks => cases k <;> first | rfl | cases hk
  rw [Assembly.step, addText, if_neg fun h => Bool.false_ne_true h.1, modify_frame, hj]

theorem Assembly.foldl_breakEvents {name : String} {as : List Attribute} {ks : List Node}
    {frames : List Frame} {top : List Node} (indent depth : Nat) {fresh : Bool}
    (hk : ks.head?.any Node.isText = !fresh) :
    (breakEvents indent depth fresh).foldl Assembly.step ⟨⟨name, as, ks⟩ :: frames, top⟩ =
      ⟨⟨name, as, breakNodes indent depth fresh ++ ks⟩ :: frames, top⟩ := by
  unfold breakEvents breakNodes
  split
  · rfl
  · next h =>
    have hf : (!fresh) = false := Bool.eq_false_iff.mpr fun hf => h (.inr hf)
    rw [hf] at hk
    exact Assembly.step_text hk _

theorem laidEvents_text (indent depth : Nat) (fresh : Bool) (content : String) (es : List Event) :
    laidEvents indent depth fresh (.text content :: es) =
      .text content :: laidEvents indent depth false es :=
  rfl

theorem trim_blank_append (data : String) : Text.trim (" " ++ data) = Text.trim data := by
  have hb : Text.isBlank ' ' = true := by decide
  have hs : " ".toList = [' '] := rfl
  rw [Text.trim, Text.trim, String.toList_append, hs, List.singleton_append, Text.trimStart,
    List.dropWhile_cons_of_pos hb]
  rfl

mutual

/-- The events of a node, laid out, put the laid out node behind the line break before it. -/
theorem foldl_laidEvents (indent : Nat) :
    (c : Node) → c.Writable → c.isText = false →
      ∀ (depth : Nat) (fresh : Bool) (a : Assembly) (rest : List Event),
        (laidEvents indent depth fresh (c.events ++ rest)).foldl Assembly.step a =
          (laidEvents indent depth true rest).foldl Assembly.step
            (((breakEvents indent depth fresh).foldl Assembly.step a).add (c.laid indent depth))
  | .element name as cs, h, _, depth, fresh, a, rest => by
    rw [Node.events, Node.laid]
    split
    · rw [List.singleton_append, laidEvents, List.foldl_append]
      rfl
    · rw [List.cons_append, List.cons_append, List.append_assoc, laidEvents, List.foldl_append,
        List.foldl_cons]
      have hcs : AllWritable (!true) cs := h.2
      exact foldl_laidEvents_all indent cs hcs depth rfl name rest
  | .comment content, _, _, depth, fresh, a, rest => by
    rw [Node.events, List.singleton_append, laidEvents, List.foldl_append]
    rfl
  | .instruction target data, h, _, depth, fresh, a, rest => by
    have ht : Text.trim (" " ++ data) = data := (trim_blank_append data).trans h.2
    rw [Node.events, List.singleton_append, laidEvents, List.foldl_append, List.foldl_cons]
    change List.foldl Assembly.step
      (Assembly.add _ (.instruction target (Text.trim (" " ++ data)))) _ = _
    rw [ht]
    rfl
  | .text _, _, ht, _, _, _, _ => absurd ht.symm Bool.false_ne_true
  | .document _, h, _, _, _, _, _ | .fragment _, h, _, _, _, _, _ | .attr _, h, _, _, _, _, _
  | .notationName _, h, _, _, _, _, _ | .other _, h, _, _, _, _, _ => h.elim

theorem foldl_laidEvents_all (indent : Nat) :
    (cs : List Node) → ∀ {ks : List Node} {fresh : Bool}, AllWritable (!fresh) cs →
      ∀ (depth : Nat) (_ : ks.head?.any Node.isText = !fresh) {name : String}
        {as : List Attribute} {frames : List Frame} {top : List Node} (closed : String)
        (rest : List Event),
        (laidEvents indent (depth + 1) fresh (allEvents cs ++ .finish closed :: rest)).foldl
            Assembly.step ⟨⟨name, as, ks⟩ :: frames, top⟩ =
          (laidEvents indent depth true rest).foldl Assembly.step
            (Assembly.add ⟨frames, top⟩
              (.element name as (ks.reverse ++ laidAll indent (depth + 1) fresh cs)))
  | [], ks, fresh, _, depth, hk, name, as, frames, top, closed, rest => by
    rw [allEvents, List.nil_append, laidEvents, List.foldl_append, List.foldl_cons, laidAll]
    change List.foldl Assembly.step (Assembly.close
      ((breakEvents indent depth fresh).foldl Assembly.step _)) _ = _
    rw [Assembly.foldl_breakEvents indent depth hk, Assembly.close_frame, List.reverse_append,
      reverse_breakNodes]
    rfl
  | c :: cs, ks, fresh, h, depth, hk, name, as, frames, top, closed, rest => by
    obtain ⟨hc, ha, hcs⟩ := h
    rw [allEvents, List.append_assoc, laidAll]
    cases ht : c.isText with
    | false =>
      have hcs' : AllWritable (!true) cs := by rwa [ht] at hcs
      have hl (ls : List Node) :
          (c.laid indent (depth + 1) :: ls).head?.any Node.isText = !true :=
        (c.isText_laid indent (depth + 1)).trans ht
      rw [foldl_laidEvents indent c hc ht, Assembly.foldl_breakEvents indent _ hk, Assembly.add,
        Assembly.modify_frame, foldl_laidEvents_all indent cs hcs' depth (hl _),
        Node.isBlankText_of_not_isText ht]
      simp only [Bool.false_eq_true, if_false, List.reverse_cons, List.reverse_append,
        reverse_breakNodes, List.append_assoc, List.singleton_append, Bool.not_false]
    | true =>
      rw [ht] at hcs ha
      -- Behind a text there is no other text, so this one is not joined to what stands before.
      have hf : fresh = true := by
        rw [← Bool.not_eq_false]
        intro hf
        exact ha ⟨by rw [hf]; rfl, rfl⟩
      subst hf
      cases c with
      | text content =>
        rw [Node.events, Node.isBlankText]
        cases hb : Text.allBlank content with
        | true =>
          have hcs' : AllWritable (!true) cs := hcs.of_true
          rw [if_pos rfl, if_pos rfl, List.nil_append]
          exact foldl_laidEvents_all indent cs hcs' depth hk closed rest
        | false =>
          have hcs' : AllWritable (!false) cs := hcs
          rw [if_neg Bool.false_ne_true, if_neg Bool.false_ne_true, if_pos rfl,
            List.singleton_append, laidEvents_text, List.foldl_cons, Assembly.step_text hk,
            foldl_laidEvents_all indent cs hcs' depth rfl closed rest]
          simp only [List.reverse_cons, List.append_assoc, List.singleton_append, Node.laid,
            List.nil_append, Bool.not_true]
      | _ => cases ht

end

end ChunkConfig.Xml
