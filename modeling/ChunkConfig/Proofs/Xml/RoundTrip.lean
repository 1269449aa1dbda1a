import ChunkConfig.Proofs.Xml.Assembly
import ChunkConfig.Xml.Document

namespace ChunkConfig.Xml

open Text (encode encode_append)

/-- Nodes that can stand outside of all elements of a document that is written and read back. -/
def TopWritable (cs : List Node) : Prop :=
  ∀ c ∈ cs, c.Writable ∧ c.isText = false

def headEvents (options : WriteOptions) : List Event :=
  if options.declaration then [.declaration] else []

theorem TopWritable.tail {c : Node} {cs : List Node} (h : TopWritable (c :: cs)) :
    TopWritable cs :=
  fun d hd => h d (.tail _ hd)

theorem TopWritable.nested {cs : List Node} (h : TopWritable cs) :
    Nested [] (allEvents cs) := by
  induction cs with
  | nil => trivial
  | cons c cs ih =>
    obtain ⟨hc, ht⟩ := h c (.head _)
    rw [allEvents]
    exact nested_events c hc ht (ih h.tail)

theorem nested_headEvents (options : WriteOptions) {es : List Event} (h : Nested [] es) :
    Nested [] (headEvents options ++ es) := by
  rw [headEvents]
  split
  · exact .markup trivial rfl (fun _ => Event.noConfusion) h
  · exact h

/-- Line breaks outside of all elements leave no trace. -/
theorem Assembly.foldl_breakEvents_top (indent depth : Nat) (fresh : Bool) (top : List Node) :
    (breakEvents indent depth fresh).foldl Assembly.step ⟨[], top⟩ = ⟨[], top⟩ := by
  rw [breakEvents]
  split
  · rfl
  · rw [List.foldl_cons, List.foldl_nil, Assembly.step, addText,
      if_pos ⟨rfl, allBlank_newLine indent depth⟩]

theorem foldl_laidEvents_top (indent : Nat) {cs : List Node} (h : TopWritable cs) (fresh : Bool)
    (top : List Node) :
    (laidEvents indent 0 fresh (allEvents cs)).foldl Assembly.step ⟨[], top⟩ =
      ⟨[], (cs.map fun c => c.laid indent 0).reverse ++ top⟩ := by
  induction cs generalizing fresh top with
  | nil => rfl
  | cons c cs ih =>
    obtain ⟨hc, ht⟩ := h c (.head _)
    rw [allEvents, foldl_laidEvents indent c hc ht, Assembly.foldl_breakEvents_top]
    change (laidEvents indent 0 true (allEvents cs)).foldl Assembly.step
      ⟨[], c.laid indent 0 :: top⟩ = _
    rw [ih h.tail, List.map_cons, List.reverse_cons, List.append_assoc, List.singleton_append]

theorem assemble_laidEvents (options : WriteOptions) {cs : List Node} (h : TopWritable cs) :
    assemble (laidEvents options.indent 0 false (headEvents options ++ allEvents cs) ++
      [.text "\n"]) = .ok (cs.map fun c => c.laid options.indent 0) := by
  have hh : (laidEvents options.indent 0 false (headEvents options ++ allEvents cs)).foldl
      Assembly.step ⟨[], []⟩ = ⟨[], (cs.map fun c => c.laid options.indent 0).reverse⟩ := by
    rw [headEvents]
    split
    · have hd : laidEvents options.indent 0 false (.declaration :: allEvents cs) =
          breakEvents options.indent 0 false ++
            .declaration :: laidEvents options.indent 0 true (allEvents cs) := rfl
      rw [List.singleton_append, hd, List.foldl_append, Assembly.foldl_breakEvents_top,
        List.foldl_cons, Assembly.step, foldl_laidEvents_top options.indent h, List.append_nil]
    · rw [List.nil_append, foldl_laidEvents_top options.indent h, List.append_nil]
  have hn : Text.allBlank "\n" = true := by decide
  rw [assemble, List.foldl_append, hh, List.foldl_cons, List.foldl_nil, Assembly.step,
    Assembly.addText, if_pos ⟨rfl, hn⟩]
  simp only [List.reverse_reverse]

theorem head?_encode_layOut (indent : Nat) {es : List Event} (he : ∀ e ∈ es.head?, e.Enclosed)
    (ht : ∀ e ∈ es.head?, e.isText = false) :
    ∀ b ∈ (encode (layOut indent 0 false es) ++ encode "\n").head?,
      b = ascii '<' ∨ b = ascii '\n' := by
  cases es with
  | nil =>
    have hn : encode (layOut indent 0 false []) ++ encode "\n" = [ascii '\n'] := rfl
    rw [hn]
    intro b hb
    exact .inr (Option.some.inj hb).symm
  | cons e es =>
    intro b hb
    exact .inl (head?_encode_layOut_cons indent 0 (he e rfl) (ht e rfl) es _ b hb)

theorem scan_eq_scanFrom {input : Bytes}
    (hb : ∀ b ∈ input.head?, b = ascii '<' ∨ b = ascii '\n') :
    scan input = scanFrom 0 [] input := by
  have hp : ¬ [0xEF, 0xBB, 0xBF].isPrefixOf input = true := by
    cases input with
    | nil => exact Bool.false_ne_true
    | cons b input =>
      rcases hb b rfl with rfl | rfl <;> exact Bool.false_ne_true
  rw [scan, if_neg hp]

theorem head_isText (options : WriteOptions) {cs : List Node}
    (h : ∀ c ∈ cs, ∃ f fs, c.events = f :: fs ∧ f.isText = false) :
    ∀ e ∈ (headEvents options ++ allEvents cs).head?, e.isText = false := by
  rw [headEvents]
  split
  · rintro e ⟨⟩
    rfl
  · cases cs with
    | nil => exact fun _ he => by cases he
    | cons c cs =>
      obtain ⟨f, fs, he, hf⟩ := h c (.head _)
      rw [List.nil_append, allEvents, he]
      rintro e ⟨⟩
      exact hf

theorem scans_lineEnd (opened : List String) : Scans opened (encode "\n") [.text "\n"] := by
  have he : Text.escapeText "\n" = "\n" := by decide
  have hn : "\n" ≠ "" := by decide
  have hs : Scans opened (encode (Text.escapeText "\n") ++ []) [.text "\n"] :=
    Scans.text hn (fun _ hb => by cases hb) (Scans.nil opened)
  rwa [he, List.append_nil] at hs

theorem encode_write (options : WriteOptions) (cs : List Node) :
    encode (write options (.document cs)) =
      encode (layOut options.indent 0 false (headEvents options ++ allEvents cs)) ++
        encode "\n" := by
  rw [← encode_append]
  unfold write headEvents
  split <;> rfl

/-- The text of a document reads back as the document, laid out. -/
theorem readDocument_write (options : WriteOptions) {cs : List Node} (h : TopWritable cs) :
    readDocument (encode (write options (.document cs))) =
      .ok (.document (cs.map fun c => c.laid options.indent 0)) := by
  obtain ⟨hw, hl⟩ := (nested_headEvents options h.nested).woven
  have hhead := head?_encode_layOut options.indent hw.head
    (head_isText options fun c hc => exists_events_eq_cons (h c hc).1 (h c hc).2)
  have hs := scans_layOut options.indent 0 false hw hl (scans_lineEnd _) 0
  rw [readDocument, parse, encode_write, scan_eq_scanFrom hhead, hs]
  simp only [assemble_laidEvents options h, Except.mapError]

end ChunkConfig.Xml
