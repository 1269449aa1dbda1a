import ChunkConfig.Proofs.Xml.Scan

namespace ChunkConfig.Xml

open Text (encode encode_append)

/-- A new line that is indented to a depth. -/
def newLine (indent depth : Nat) : String :=
  .ofList ('\n' :: List.replicate (indent * depth) ' ')

/-- The text events as which the line break before an event is read. -/
def breakEvents (indent depth : Nat) (fresh : Bool) : List Event :=
  if indent = 0 ∨ !fresh then [] else [.text (newLine indent depth)]

/-- The events as which laid out events are read. -/
def laidEvents (indent depth : Nat) (fresh : Bool) : List Event → List Event
  | [] => []
  | e :: es =>
    (if e.isText then [] else breakEvents indent (e.lineDepth depth) fresh) ++
      e.reread :: laidEvents indent (e.depthAfter depth) (!e.isText) es

/-- Events that can be read one after the other where the elements `opened` are open: ends belong
to their elements, and every text is followed by markup. -/
def Nested : List String → List Event → Prop
  | _, [] => True
  | opened, e :: es =>
    e.Readable ∧ (∀ name, e = .finish name → opened.head? = some name) ∧
      (e.isText = true → ∃ f fs, es = f :: fs ∧ f.isText = false) ∧ Nested (e.nest opened) es

/-- Events that can be cut apart where the elements `opened` are open, and that leave just the
elements `closed` open: ends belong to their elements, and every text is followed by markup. -/
def Woven (closed : List String) : List String → List Event → Prop
  | opened, [] => opened = closed
  | opened, e :: es =>
    e.Enclosed ∧ (∀ name, e = .finish name → opened.head? = some name) ∧
      (e.isText = true → ∃ f fs, es = f :: fs ∧ f.isText = false) ∧
      Woven closed (e.nest opened) es

theorem Nested.woven {opened : List String} {es : List Event} (h : Nested opened es) :
    Woven (es.foldl (fun names e => e.nest names) opened) opened es ∧ ∀ e ∈ es, e.Legible := by
  induction es generalizing opened with
  | nil => exact ⟨rfl, fun _ he => absurd he List.not_mem_nil⟩
  | cons e es ih =>
    obtain ⟨he, ho, ht, hes⟩ := h
    obtain ⟨hw, hl⟩ := ih hes
    exact ⟨⟨he.enclosed, ho, ht, hw⟩, List.forall_mem_cons.mpr ⟨he.legible, hl⟩⟩

theorem Woven.head {closed opened : List String} {es : List Event} (h : Woven closed opened es) :
    ∀ e ∈ es.head?, e.Enclosed := by
  cases es with
  | nil => exact nofun
  | cons e es =>
    rintro _ ⟨⟩
    exact h.1

theorem mem_newLine {indent depth : Nat} {c : Char} (h : c ∈ (newLine indent depth).toList) :
    c = '\n' ∨ c = ' ' := by
  rw [newLine, String.toList_ofList, List.mem_cons] at h
  exact h.imp_right List.eq_of_mem_replicate

theorem newLine_ne (indent depth : Nat) : newLine indent depth ≠ "" := by
  rw [newLine, Ne, ← String.toList_eq_nil_iff, String.toList_ofList]
  exact List.cons_ne_nil _ _

theorem allBlank_newLine (indent depth : Nat) : Text.allBlank (newLine indent depth) = true := by
  have hn : Text.isBlank '\n' = true := by decide
  have hb : Text.isBlank ' ' = true := by decide
  apply List.all_eq_true.mpr
  intro c hc
  rcases mem_newLine hc with rfl | rfl
  · exact hn
  · exact hb

theorem escapeText_newLine (indent depth : Nat) :
    Text.escapeText (newLine indent depth) = newLine indent depth := by
  rw [← String.toList_inj, Text.toList_escapeText, Text.flatMap_substitute_eq_self_iff]
  intro c hc
  rcases mem_newLine hc with rfl | rfl <;> rfl

theorem lineBreak_text (indent depth : Nat) (fresh : Bool) {e : Event} (h : e.isText = true) :
    lineBreak indent depth fresh e = "" := by
  rw [lineBreak, if_pos (.inr (.inr h))]

theorem lineBreak_markup (indent depth : Nat) (fresh : Bool) {e : Event} (h : e.isText = false) :
    lineBreak indent depth fresh e =
      if indent = 0 ∨ !fresh then "" else newLine indent (e.lineDepth depth) := by
  simp only [lineBreak, h, Bool.false_eq_true, or_false, newLine]

theorem head?_encode_markup {e : Event} (he : e.Enclosed) (ht : e.isText = false) (rest : Bytes) :
    ∀ b ∈ (encode e.markup ++ rest).head?, b = ascii '<' := by
  rw [Event.encode_markup he ht, List.cons_append, List.head?_cons]
  intro b hb
  exact (Option.some.inj hb).symm

theorem head?_encode_layOut_cons (indent depth : Nat) {e : Event} (he : e.Enclosed)
    (ht : e.isText = false) (es : List Event) (rest : Bytes) :
    ∀ b ∈ (encode (layOut indent depth false (e :: es)) ++ rest).head?, b = ascii '<' := by
  rw [layOut, lineBreak_markup _ _ _ ht, if_pos (.inr rfl), String.empty_append, encode_append,
    List.append_assoc]
  exact head?_encode_markup he ht _

section Scan

variable {e : Event} {opened : List String} {rest : Bytes} {es fs : List Event}

theorem Scans.line (indent depth : Nat) (fresh : Bool) (ht : e.isText = false)
    (hr : ∀ b ∈ rest.head?, b = ascii '<') (h : Scans opened rest es) :
    Scans opened (encode (lineBreak indent depth fresh e) ++ rest)
      (breakEvents indent (e.lineDepth depth) fresh ++ es) := by
  rw [lineBreak_markup indent depth fresh ht, breakEvents]
  split
  · exact h
  · have hb := congrArg encode (escapeText_newLine indent (e.lineDepth depth))
    rw [← hb]
    exact Scans.text (newLine_ne _ _) hr h

/-- The characters of laid out events are read as these events, with a blank text for every line
break. -/
theorem scans_layOut {closed : List String} (indent depth : Nat) (fresh : Bool)
    (h : Woven closed opened es) (hl : ∀ e ∈ es, e.Legible) (hr : Scans closed rest fs) :
    Scans opened (encode (layOut indent depth fresh es) ++ rest)
      (laidEvents indent depth fresh es ++ fs) := by
  induction es generalizing opened depth fresh with
  | nil =>
    obtain rfl : opened = closed := h
    exact hr
  | cons e es ih =>
    obtain ⟨he, ho, htext, hes⟩ := h
    obtain ⟨hle, hles⟩ := List.forall_mem_cons.mp hl
    have hrest := ih (e.depthAfter depth) (!e.isText) hes hles
    cases ht : e.isText with
    | false =>
      simp only [layOut, laidEvents, encode_append, List.append_assoc, List.cons_append]
      rw [ht] at hrest
      rw [ht, if_neg Bool.false_ne_true]
      exact Scans.line indent depth fresh ht (head?_encode_markup he ht _)
        (Scans.cons he hle ht ho hrest)
    | true =>
      obtain ⟨f, fs', rfl, hf⟩ := htext ht
      rw [ht] at hrest
      have hnext := head?_encode_layOut_cons indent (e.depthAfter depth) hes.1 hf fs' rest
      have hb : encode "" = [] := rfl
      rw [layOut, laidEvents, ht, if_pos rfl, lineBreak_text indent depth fresh ht,
        encode_append, encode_append, hb, List.nil_append, List.nil_append, List.append_assoc]
      cases e with
      | text content => exact Scans.text he hnext hrest
      | _ => cases ht

end Scan

end ChunkConfig.Xml
