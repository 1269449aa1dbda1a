import ChunkConfig.Proofs.Xml.Bytes

namespace ChunkConfig.Text

/-- What it means that a text is another one in which references stand for the characters that have
names: nothing of markup is left in it, and the reader makes the other one of it again. -/
structure Escapes (name? : Char → Option String) (s written : String) : Prop where
  substituted : written.toList = s.toList.flatMap (substitute name?)
  replaced : ∀ c, name? c ≠ none → c ≠ '&' → c ∉ written.toList
  begun : ∀ after, '&' :: after <:+ written.toList →
    ∃ c name, name? c = some name ∧ reference name <+: '&' :: after
  expanded : expand written.toList = .ok s.toList
  reread : Xml.decodeText (encode written) = .ok s
  eq_self_iff : written = s ↔ ∀ c ∈ s.toList, name? c = none

theorem Naming.escapes {name? : Char → Option String} (h : Naming name?) {s written : String}
    (hw : written.toList = s.toList.flatMap (substitute name?)) : Escapes name? s written := by
  have he : expand written.toList = .ok s.toList := by
    rw [hw]
    exact h.expandFrom_flatMap _ _ _
  refine ⟨hw, ?_, ?_, he, Xml.decodeText_encode he, ?_⟩
  · intro c hc ha
    rw [hw]
    exact h.not_mem_flatMap hc ha _
  · intro after hs
    rw [hw] at hs
    exact h.exists_reference hs
  · rw [← String.toList_inj, hw]
    exact flatMap_substitute_eq_self_iff

/-- Both forms of a text replace the characters that they have names for, each of them once. -/
theorem escapes_text_attribute (s : String) :
    Escapes textName? s (escapeText s) ∧ Escapes attributeName? s (escapeAttribute s) :=
  ⟨naming_textName?.escapes (toList_escapeText s),
    naming_attributeName?.escapes (toList_escapeAttribute s)⟩

/-- What looks like a reference is escaped like everything else. -/
example : escapeAttribute "&lt; <\"\n" = "&amp;lt; &lt;&quot;&#xA;" := by decide

end ChunkConfig.Text
