import ChunkConfig.Proofs.Xml.RoundTrip
import ChunkConfig.Proofs.Xml.Tidied

namespace ChunkConfig.Xml

mutual

/-- A node that is no blank text and has none below it. -/
def Node.Solid : Node → Prop
  | .element _ _ cs => AllSolid cs
  | .text content => Text.allBlank content = false
  | _ => True

def AllSolid : List Node → Prop
  | [] => True
  | c :: cs => c.Solid ∧ AllSolid cs

end

theorem Node.Solid.isBlankText {c : Node} (h : c.Solid) : c.isBlankText = false := by
  cases c with
  | text => exact h
  | _ => rfl

mutual

theorem Node.tidied_of_solid : (c : Node) → c.Solid → c.tidied = c
  | .element name as cs, h => by
    rw [Node.tidied, tidiedAll_of_solid cs h]
  | .document _, _ | .fragment _, _ | .attr _, _ | .text _, _ | .comment _, _
  | .instruction .., _ | .notationName _, _ | .other _, _ => rfl

theorem tidiedAll_of_solid : (cs : List Node) → AllSolid cs → tidiedAll cs = cs
  | [], _ => rfl
  | c :: cs, ⟨hc, hcs⟩ => by
    rw [tidiedAll, hc.isBlankText, if_neg Bool.false_ne_true, Node.tidied_of_solid c hc,
      tidiedAll_of_solid cs hcs]

end

theorem breakNodes_zero (depth : Nat) (fresh : Bool) : breakNodes 0 depth fresh = [] :=
  if_pos (.inl rfl)

mutual

theorem Node.laid_zero : (c : Node) → ∀ depth, c.laid 0 depth = c.tidied
  | .element name as cs, depth => by
    rw [Node.laid, Node.tidied]
    split
    · next h => rw [tidiedAll_of_blank h]
    · rw [laidAll_zero cs]
  | .document _, _ | .fragment _, _ | .attr _, _ | .text _, _ | .comment _, _
  | .instruction .., _ | .notationName _, _ | .other _, _ => rfl

theorem laidAll_zero : (cs : List Node) → ∀ depth fresh, laidAll 0 depth fresh cs = tidiedAll cs
  | [], depth, fresh => breakNodes_zero (depth - 1) fresh
  | c :: cs, depth, fresh => by
    rw [laidAll, tidiedAll, breakNodes_zero, ite_self, List.nil_append, Node.laid_zero c,
      laidAll_zero cs, laidAll_zero cs]

end

theorem map_laid_zero (depth : Nat) {cs : List Node} (h : AllSolid cs) :
    (cs.map fun c => c.laid 0 depth) = cs := by
  induction cs with
  | nil => rfl
  | cons c cs ih =>
    obtain ⟨hc, hcs⟩ := h
    rw [List.map_cons, Node.laid_zero, Node.tidied_of_solid c hc, ih hcs]

theorem Node.events_of_isBlankText {c : Node} (h : c.isBlankText = true) : c.events = [] := by
  cases c with
  | text content => exact if_pos h
  | _ => cases h

theorem allEvents_breakNodes_append (indent depth : Nat) (fresh : Bool) (cs : List Node) :
    allEvents (breakNodes indent depth fresh ++ cs) = allEvents cs := by
  rw [breakNodes]
  split
  · rfl
  · have hb : (Node.text (newLine indent depth)).isBlankText = true := allBlank_newLine indent depth
    rw [List.singleton_append, allEvents, Node.events_of_isBlankText hb, List.nil_append]

theorem all_isBlankText_breakNodes (indent depth : Nat) (fresh : Bool) :
    (breakNodes indent depth fresh).all Node.isBlankText = true := by
  rw [breakNodes]
  split
  · rfl
  · rw [List.all_cons, Node.isBlankText, allBlank_newLine]
    rfl

theorem all_isBlankText_laidAll (indent depth : Nat) (fresh : Bool) (cs : List Node) :
    (laidAll indent depth fresh cs).all Node.isBlankText = cs.all Node.isBlankText := by
  induction cs generalizing fresh with
  | nil => exact all_isBlankText_breakNodes indent (depth - 1) fresh
  | cons c cs ih =>
    rw [laidAll, List.all_cons]
    split
    · next hb => rw [ih, hb, Bool.true_and]
    · next hb =>
      rw [List.all_append, List.all_cons, Node.isBlankText_laid, Bool.eq_false_iff.mpr hb,
        Bool.false_and, Bool.false_and, Bool.and_false]

mutual

/-- Layout adds nothing that is written again. -/
theorem Node.events_laid (indent : Nat) :
    (c : Node) → ∀ depth, (c.laid indent depth).events = c.events
  | .element name as cs, depth => by
    rw [Node.laid, Node.events, Node.events]
    split
    · rfl
    · next h =>
      rw [all_isBlankText_laidAll, if_neg h, allEvents_laidAll indent cs]
  | .document _, _ | .fragment _, _ | .attr _, _ | .text _, _ | .comment _, _
  | .instruction .., _ | .notationName _, _ | .other _, _ => rfl

theorem allEvents_laidAll (indent : Nat) :
    (cs : List Node) → ∀ depth fresh, allEvents (laidAll indent depth fresh cs) = allEvents cs
  | [], depth, fresh => by
    rw [laidAll, ← List.append_nil (breakNodes indent (depth - 1) fresh),
      allEvents_breakNodes_append]
  | c :: cs, depth, fresh => by
    rw [laidAll, allEvents]
    split
    · next hb =>
      rw [allEvents_laidAll indent cs, Node.events_of_isBlankText hb, List.nil_append]
    · split
      · rw [List.nil_append, allEvents, Node.events_laid indent c, allEvents_laidAll indent cs]
      · rw [allEvents_breakNodes_append, allEvents, Node.events_laid indent c,
          allEvents_laidAll indent cs]

end

theorem allEvents_map_laid (indent depth : Nat) (cs : List Node) :
    allEvents (cs.map fun c => c.laid indent depth) = allEvents cs := by
  induction cs with
  | nil => rfl
  | cons c cs ih => rw [List.map_cons, allEvents, allEvents, Node.events_laid, ih]

/-- A document reads back as it was, apart from the blank text of the layout, and what was read is
written as the same text again. -/
theorem exists_readDocument_write {cs : List Node} (h : TopWritable cs) (hs : AllSolid cs)
    (options : WriteOptions) :
    ∃ back, readDocument (Text.encode (write options (.document cs))) = .ok (.document back) ∧
      (options.indent = 0 → back = cs) ∧ tidiedAll back = cs ∧
      write options (.document back) = write options (.document cs) := by
  refine ⟨cs.map fun c => c.laid options.indent 0, readDocument_write options h, fun hi => ?_,
    ?_, ?_⟩
  · rw [hi, map_laid_zero 0 hs]
  · rw [tidiedAll_map_laid, tidiedAll_of_solid cs hs]
  · simp only [write, Node.events, allEvents_map_laid]

/-- Nodes whose texts are full of what has a meaning in markup. -/
def awkward : List Node :=
  [.comment "-> ", .instruction "app" "a?",
    .element "a" [⟨"x", "\"<\n&"⟩, ⟨"y", ""⟩]
      [.text " 1 < 2 ", .comment "--", .element "b" [] [], .text "]]>"]]

theorem topWritable_awkward : TopWritable awkward := by
  have hx : ProperTag "a" [⟨"x", "\"<\n&"⟩, ⟨"y", ""⟩] :=
    .of_names "a" ["x", "y"] rfl rfl (by decide)
  have hb : ProperTag "b" [] := .of_names "b" [] rfl rfl (by decide)
  have hc : ∀ content ∈ ["-> ", "--"], (Event.comment content).Readable := by
    simp only [Event.Readable]
    decide
  have hi : (Event.instruction "app" "a?").Readable := by
    simp only [Event.Readable]
    decide
  intro c hm
  simp only [awkward, List.mem_cons, List.not_mem_nil, or_false] at hm
  rcases hm with rfl | rfl | rfl
  · exact ⟨hc _ (by decide), rfl⟩
  · exact ⟨⟨hi, by decide⟩, rfl⟩
  · refine ⟨⟨hx, ?_⟩, rfl⟩
    simp [AllWritable, Node.Writable, Node.isText, hc, hb]

theorem exists_readDocument_write_awkward :
    TopWritable awkward ∧ AllSolid awkward ∧
    ∃ back, readDocument (Text.encode (write {} (.document awkward))) = .ok (.document back) ∧
      (({} : WriteOptions).indent = 0 → back = awkward) ∧ tidiedAll back = awkward ∧
      write {} (.document back) = write {} (.document awkward) := by
  have hs : AllSolid awkward := by
    simp only [awkward, AllSolid, Node.Solid]
    decide
  exact ⟨topWritable_awkward, hs, exists_readDocument_write topWritable_awkward hs {}⟩

end ChunkConfig.Xml
