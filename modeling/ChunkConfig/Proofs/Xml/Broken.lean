import ChunkConfig.Proofs.Xml.Reading
import ChunkConfig.Proofs.Xml.Scan

namespace ChunkConfig.Xml

open Text (encode encode_append)

theorem dropWhile_append_cases {α : Type} (p : α → Bool) (xs ys : List α) :
    (∃ z zs, z :: zs <:+ xs ∧ (xs ++ ys).dropWhile p = z :: zs ++ ys) ∨
      (∀ x ∈ xs, p x = true) ∧ (xs ++ ys).dropWhile p = ys.dropWhile p := by
  rw [List.dropWhile_append]
  cases hz : xs.dropWhile p with
  | nil => exact .inr ⟨List.dropWhile_eq_nil_iff.mp hz, rfl⟩
  | cons z zs => exact .inl ⟨z, zs, hz ▸ List.dropWhile_suffix p, rfl⟩

theorem getLast?_of_suffix {α : Type} {z : α} {zs xs : List α} (h : z :: zs <:+ xs) :
    (z :: zs).getLast? = xs.getLast? := by
  obtain ⟨before, rfl⟩ := h
  exact (List.getLast?_append_of_ne_nil before (List.cons_ne_nil z zs)).symm

section Attributes

variable {size : Nat} {earlier : List (Bytes × Nat)} {as bs : List Attribute}

theorem quote_of_cutValue_eq {input value : Bytes} (h : (cutValue size input).1 = .ok value) :
    ∃ quote ∈ input.head?, quote = ascii '"' ∨ quote = ascii '\'' := by
  cases input with
  | nil => cases h
  | cons quote rest =>
    refine ⟨quote, rfl, ?_⟩
    by_contra hn
    rw [cutValue, if_neg hn] at h
    cases h

theorem quote_of_attributes_eq {b : UInt8} {rest : Bytes} (hb : isSpace b = false)
    (h : attributes size earlier (b :: rest) = .ok bs) :
    ((rest.dropWhile inKey).dropWhile isSpace).head? = some (ascii '=') ∧
      ∃ quote ∈ (((rest.dropWhile inKey).dropWhile isSpace).tail.dropWhile isSpace).head?,
        quote = ascii '"' ∨ quote = ascii '\'' := by
  rw [attributes, hb, if_neg Bool.false_ne_true] at h
  obtain ⟨u, he, h⟩ := exists_of_bind_eq_ok h
  obtain ⟨-, -, h⟩ := exists_of_bind_eq_ok h
  obtain ⟨value, hv, -⟩ := exists_of_bind_eq_ok h
  refine ⟨?_, quote_of_cutValue_eq hv⟩
  by_contra hn
  rw [checkEquals, if_neg hn] at he
  cases he

theorem attributes_start (hn : ∀ a ∈ as, isName a.name = true) :
    (as.flatMap fun a => encode a.markup).dropWhile inKey =
        as.flatMap (fun a => encode a.markup) ∧
      ∀ b ∈ ((as.flatMap fun a => encode a.markup).dropWhile isSpace).head?,
        b ≠ ascii '=' ∧ b ≠ ascii '"' ∧ b ≠ ascii '\'' := by
  cases as with
  | nil => exact ⟨rfl, nofun⟩
  | cons a as =>
    have ha := hn a (.head _)
    obtain ⟨c, cs, hc⟩ := encode_name_eq_cons ha
    have hs : isSpace c = false := isSpace_of_mem_encode_name ha (hc ▸ .head _)
    rw [List.flatMap_cons, encode_attribute, hc, List.cons_append, List.cons_append]
    -- A blank and then a name come first, so no equals sign and no quote does.
    refine ⟨rfl, ?_⟩
    rw [List.dropWhile_cons_of_pos (by decide), List.cons_append, List.dropWhile_cons_of_neg
      (Bool.eq_false_iff.mp hs)]
    rintro b ⟨⟩
    exact ⟨ne_of_mem_encode_name ha (by decide) c (hc ▸ .head _),
      ne_of_mem_encode_name ha (by decide) c (hc ▸ .head _),
      ne_of_mem_encode_name ha (by decide) c (hc ▸ .head _)⟩

theorem exists_equals_suffix {text rest : Bytes} (hlast : ∀ b ∈ text.getLast?, isSpace b = false)
    (hkey : rest.dropWhile inKey = rest)
    (hstart : ∀ b ∈ (rest.dropWhile isSpace).head?, b ≠ ascii '=')
    (h : (((text ++ rest).dropWhile inKey).dropWhile isSpace).head? = some (ascii '=')) :
    ∃ more, ascii '=' :: more <:+ text ∧
      ((text ++ rest).dropWhile inKey).dropWhile isSpace = ascii '=' :: more ++ rest := by
  rcases dropWhile_append_cases inKey text rest with ⟨c, cs, hc, hd⟩ | ⟨-, hd⟩
  · rw [hd] at h ⊢
    rcases dropWhile_append_cases isSpace (c :: cs) rest with ⟨z, zs, hz, hd⟩ | ⟨ha, -⟩
    · rw [hd] at h ⊢
      cases h
      exact ⟨zs, hz.trans hc, rfl⟩
    · have hl := List.getLast?_eq_some_getLast (List.cons_ne_nil c cs)
      have hs := hlast _ (getLast?_of_suffix hc ▸ hl)
      rw [ha _ (List.mem_of_getLast? hl)] at hs
      cases hs
  · rw [hd, hkey] at h
    exact absurd rfl (hstart _ h)

theorem attributes_ne_ok {text : Bytes} (ht : text ≠ [])
    (hlast : ∀ b ∈ text.getLast?, isSpace b = false)
    (hq : ∀ b ∈ text, b ≠ ascii '"' ∧ b ≠ ascii '\'') (hn : ∀ a ∈ as, isName a.name = true) :
    attributes size earlier (text ++ as.flatMap fun a => encode a.markup) ≠ .ok bs := by
  obtain ⟨hkey, hstart⟩ := attributes_start hn
  generalize as.flatMap (fun a => encode a.markup) = rest at *
  intro h
  induction text with
  | nil => exact ht rfl
  | cons b text ih =>
    have hlast' : ∀ d ∈ text.getLast?, isSpace d = false := by
      cases text with
      | nil => exact nofun
      | cons c text => exact hlast
    rw [List.cons_append] at h
    cases hb : isSpace b with
    | true =>
      rw [attributes, if_pos hb] at h
      have hne : text ≠ [] := by
        rintro rfl
        exact absurd hb (Bool.eq_false_iff.mp (hlast b rfl))
      exact ih hne hlast' (fun d hd => hq d (.tail _ hd)) h
    | false =>
      obtain ⟨he, quote, hquote, hor⟩ := quote_of_attributes_eq hb h
      obtain ⟨more, hs, hm⟩ := exists_equals_suffix hlast' hkey (fun d hd => (hstart d hd).1) he
      rw [hm, List.cons_append, List.tail_cons] at hquote
      have hnone : quote ≠ ascii '"' ∧ quote ≠ ascii '\'' := by
        rcases dropWhile_append_cases isSpace more rest with ⟨z, zs, hz, hd⟩ | ⟨-, hd⟩
        · rw [hd] at hquote
          rw [← (Option.some.inj hquote : z = quote)]
          exact hq z (.tail _ (hs.subset (.tail _ (hz.subset (.head _)))))
        · rw [hd] at hquote
          exact (hstart quote hquote).2
      exact hor.elim hnone.1 hnone.2

end Attributes

section Tag

variable {name : String} {as bs : List Attribute} {e : Event}

/-- What stands behind a blank inside of a name is not read as attributes. -/
theorem EnclosedTag.attributes_ne_ok (h : EnclosedTag name as)
    (hb : ¬ ∀ d ∈ spaces, d ∉ name.toList) (size : Nat) :
    attributes size [] ((encode (tagMarkup name as)).dropWhile (!isSpace ·)) ≠ .ok bs := by
  rw [encode_tagMarkup]
  rcases dropWhile_append_cases (!isSpace ·) (encode name)
    (as.flatMap fun a => encode a.markup) with ⟨z, zs, hz, hd⟩ | ⟨ha, -⟩
  · rw [hd]
    refine Xml.attributes_ne_ok (List.cons_ne_nil z zs) ?_ (fun b hb => ?_) h.names
    · rw [getLast?_of_suffix hz]
      exact h.name.isSpace_last
    · exact (h.name.of_mem (hz.subset hb)).2
  · refine absurd (unbroken_iff.mpr fun b hm => ?_) hb
    exact (Bool.not_eq_true' _).mp (ha b hm)

theorem EnclosedTag.tag_ne_ok (h : EnclosedTag name as) (hb : ¬ ∀ d ∈ spaces, d ∉ name.toList)
    (he : as = [] → name.toList.getLast? ≠ some '/') :
    tag (encode (tagMarkup name as)) ≠ .ok e := by
  intro ht
  obtain ⟨_, _, inner, has, ⟨hr, -⟩ | ⟨-, rfl, -⟩⟩ := exists_of_tag_eq ht
  · have hl := getLast?_tagMarkup he
    rw [hr, List.getLast?_concat] at hl
    exact hl rfl
  · exact h.attributes_ne_ok hb _ has

theorem EnclosedTag.tag_concat_ne_ok (h : EnclosedTag name as)
    (hb : ¬ ∀ d ∈ spaces, d ∉ name.toList) :
    tag (encode (tagMarkup name as) ++ [ascii '/']) ≠ .ok e := by
  intro ht
  obtain ⟨_, _, inner, has, ⟨hr, -⟩ | ⟨hl, -, -⟩⟩ := exists_of_tag_eq ht
  · obtain rfl := List.append_cancel_right hr
    exact h.attributes_ne_ok hb _ has
  · exact hl List.getLast?_concat

end Tag

section Markup

variable {position : Nat} {opened real : List String} {e f : Event} {b : UInt8} {bs : Bytes}

theorem Event.length_nest_le (f : Event) (opened : List String) :
    (f.nest opened).length ≤ opened.length + 1 := by
  cases f with
  | start => exact Nat.le_refl _
  | finish => exact Nat.le_succ_of_le (List.length_tail ▸ Nat.sub_le _ _)
  | _ => exact Nat.le_succ _

theorem length_nest_of_end (h : markup position opened (ascii '/' :: bs) = .ok f) :
    (f.nest opened).length < opened.length := by
  rw [markup_end] at h
  obtain ⟨name, rest, rfl, rfl⟩ := exists_of_endTag_eq h
  exact Nat.lt_succ_self _

theorem length_nest_of_slash (hx : b ≠ ascii '!') (hq : b ≠ ascii '?')
    (hl : (b :: bs).getLast? = some (ascii '/'))
    (h : markup position opened (b :: bs) = .ok f) : (f.nest opened).length ≤ opened.length := by
  by_cases hb : b = ascii '/'
  · subst hb
    exact (length_nest_of_end h).le
  · rw [markup_tag hx hq hb] at h
    obtain ⟨name, as, inner, -, ⟨-, rfl⟩ | ⟨hn, -, -⟩⟩ := exists_of_tag_eq h
    · exact Nat.le_refl _
    · exact absurd hl hn

/-- When as many elements are open behind an event as there should be, then so there were before
it. -/
theorem length_le_of_markup_eq (he : e.Enclosed) (ht : e.isText = false)
    (h : markup position real e.raw = .ok f)
    (hlen : (e.nest opened).length ≤ (f.nest real).length) : opened.length ≤ real.length := by
  have hread (hl : e.Legible) (hn : ∀ name, e ≠ .finish name) : f = e.reread :=
    Except.ok.inj (h.symm.trans (markup_raw he hl ht (fun name hf => absurd hf (hn name)) position))
  cases e with
  | start name as =>
    exact Nat.le_of_succ_le_succ (hlen.trans (f.length_nest_le real))
  | empty name as =>
    obtain ⟨b, bs, hb, hx, hq, -⟩ := EnclosedTag.exists_eq_cons he
    have hl : (b :: bs ++ [ascii '/']).getLast? = some (ascii '/') := List.getLast?_concat
    rw [Event.raw, hb] at h
    exact hlen.trans (length_nest_of_slash hx hq hl h)
  | finish name =>
    have hlt := length_nest_of_end h
    rw [Event.nest, List.length_tail] at hlen
    omega
  | declaration =>
    obtain rfl := hread trivial fun _ => Event.noConfusion
    exact hlen
  | comment content =>
    obtain rfl := hread trivial fun _ => Event.noConfusion
    exact hlen
  | instruction target data =>
    obtain rfl := hread trivial fun _ => Event.noConfusion
    exact hlen
  | text => cases ht
  | cdata | doctype => exact absurd he id

theorem legible_of_markup_eq (he : e.Enclosed) (h : markup position opened e.raw = .ok f)
    (hlen : (e.nest opened).length ≤ (f.nest opened).length) : e.Legible := by
  cases e with
  | start name as =>
    obtain ⟨b, bs, hb, hx, hq, hs⟩ := EnclosedTag.exists_eq_cons he
    rw [Event.raw, hb] at h
    have hfirst : b ≠ ascii '/' := by
      rintro rfl
      exact Nat.not_le_of_lt (Nat.lt_succ_of_lt (length_nest_of_end h)) hlen
    have hlast : as = [] → name.toList.getLast? ≠ some '/' := by
      rintro rfl hl
      rw [← Text.getLast?_encode_iff (by decide), ← tagMarkup_nil name, hb] at hl
      exact Nat.not_le_of_lt (Nat.lt_succ_of_le (length_nest_of_slash hx hq hl h)) hlen
    refine ⟨⟨?_, mt hs.mpr hfirst⟩, hlast⟩
    by_contra hbroken
    rw [markup_tag hx hq hfirst, ← hb] at h
    exact EnclosedTag.tag_ne_ok he hbroken hlast h
  | empty name as =>
    obtain ⟨b, bs, hb, hx, hq, hs⟩ := EnclosedTag.exists_eq_cons he
    rw [Event.raw, hb, List.cons_append] at h
    have hfirst : b ≠ ascii '/' := by
      rintro rfl
      exact Nat.not_le_of_lt (length_nest_of_end h) hlen
    refine ⟨?_, mt hs.mpr hfirst⟩
    by_contra hbroken
    rw [markup_tag hx hq hfirst, ← List.cons_append, ← hb] at h
    exact EnclosedTag.tag_concat_ne_ok he hbroken h
  | _ => trivial

end Markup

end ChunkConfig.Xml
