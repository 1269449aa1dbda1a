import ChunkConfig.Proofs.Outcome
import ChunkConfig.Proofs.Text.Decode
import ChunkConfig.Proofs.Xml.Cut

namespace ChunkConfig.Xml

open Text (encode)

/-- What holds of every event that is read. -/
def Event.Read : Event → Prop
  | start _ as | empty _ as => (as.map Attribute.name).Nodup
  | comment content => ¬ ['-', '-', '>'] <:+: content.toList
  | instruction target data => target ≠ "xml" ∧ ¬ ['?', '>'] <:+: data.toList
  | declaration | finish _ | text _ | cdata _ | doctype _ => True

theorem encode_of_decodeRaw_eq {raw : Bytes} {s : String} (h : decodeRaw raw = .ok s) :
    encode s = raw := by
  rw [decodeRaw] at h
  cases hd : Text.decode raw with
  | error e =>
    rw [hd] at h
    cases h
  | ok cs =>
    rw [hd] at h
    cases h
    have he := Text.encodeChars_of_decode_eq hd
    rwa [← String.toList_ofList (l := cs)] at he

theorem encode_of_decodeContent_eq {raw : Bytes} {s : String} (h : decodeContent raw = .ok s) :
    encode s = raw := by
  rw [decodeContent] at h
  cases hd : decodeRaw raw with
  | error e =>
    rw [hd] at h
    cases h
  | ok t =>
    rw [hd] at h
    cases h
    exact encode_of_decodeRaw_eq hd

theorem encode_name_of_decodeAttribute {key value : Bytes} {a : Attribute}
    (h : decodeAttribute key value = .ok a) : encode a.name = key := by
  rw [decodeAttribute] at h
  split at h
  · cases h
  · next name hn =>
    split at h
    · cases h
    · cases h
      exact encode_of_decodeRaw_eq hn

theorem lookup_of_checkNew {earlier : List (Bytes × Nat)} {key : Bytes} {position : Nat} {u : Unit}
    (h : checkNew earlier key position = .ok u) : earlier.lookup key = none := by
  rw [checkNew] at h
  split at h
  · cases h
  · next hl => exact hl

theorem nodup_of_attributes_eq {size : Nat} {earlier : List (Bytes × Nat)} {input : Bytes}
    {as : List Attribute} (h : attributes size earlier input = .ok as) :
    (as.map Attribute.name).Nodup ∧ ∀ a ∈ as, earlier.lookup (encode a.name) = none := by
  fun_induction attributes size earlier input generalizing as with
  | case1 =>
    cases h
    exact ⟨List.nodup_nil, fun _ ha => by cases ha⟩
  | case2 earlier b rest hb ih => exact ih h
  | case3 earlier b rest hb key position afterKey value =>
    rename_i ih
    obtain ⟨_, -, h⟩ := exists_of_bind_eq_ok h
    obtain ⟨_, hnew, h⟩ := exists_of_bind_eq_ok h
    obtain ⟨raw, -, h⟩ := exists_of_bind_eq_ok h
    obtain ⟨a, ha, h⟩ := exists_of_bind_eq_ok h
    obtain ⟨bs, hbs, h⟩ := exists_of_bind_eq_ok h
    cases h
    obtain ⟨hd, he⟩ := ih hbs
    have hk : encode a.name = key := encode_name_of_decodeAttribute ha
    have hne : ∀ c ∈ bs, encode c.name ≠ key ∧ earlier.lookup (encode c.name) = none := by
      intro c hc
      have hl := he c hc
      rw [List.lookup_cons] at hl
      split at hl
      · cases hl
      · next hq => exact ⟨ne_of_beq_false hq, hl⟩
    refine ⟨List.nodup_cons.mpr ⟨fun hm => ?_, hd⟩, fun c hc => ?_⟩
    · obtain ⟨c, hc, hn⟩ := List.mem_map.mp hm
      exact (hne c hc).1 (by rw [hn, hk])
    · rcases List.mem_cons.mp hc with rfl | hc
      · rw [hk]
        exact lookup_of_checkNew hnew
      · exact (hne c hc).2

/-- A tag that ends with a slash is an empty element, and the slash is no part of what it holds. -/
theorem exists_of_tag_eq {raw : Bytes} {e : Event} (h : tag raw = .ok e) :
    ∃ name as inner, attributes inner.length [] (inner.dropWhile (!isSpace ·)) = .ok as ∧
      (raw = inner ++ [ascii '/'] ∧ e = .empty name as ∨
        raw.getLast? ≠ some (ascii '/') ∧ raw = inner ∧ e = .start name as) := by
  rw [tag] at h
  simp only at h
  split at h
  · cases h
  · split at h
    · cases h
    · next name _ _ as has =>
      refine ⟨name, as, _, has, ?_⟩
      split at h
      · next hl =>
        obtain ⟨inner, rfl⟩ := List.getLast?_eq_some_iff.mp hl
        rw [if_pos hl, List.dropLast_concat]
        exact .inl ⟨rfl, (Except.ok.inj h).symm⟩
      · next hl =>
        rw [if_neg hl]
        exact .inr ⟨hl, rfl, (Except.ok.inj h).symm⟩

theorem read_of_tag_eq {raw : Bytes} {e : Event} (h : tag raw = .ok e) : e.Read := by
  obtain ⟨name, as, inner, has, ⟨-, rfl⟩ | ⟨-, -, rfl⟩⟩ := exists_of_tag_eq h
  · exact (nodup_of_attributes_eq has).1
  · exact (nodup_of_attributes_eq has).1

theorem cut_of_cutMarkup_comment {input raw rest : Bytes}
    (h : cutMarkup (ascii '!' :: ascii '-' :: input) = (.ok raw, rest)) :
    cut stepComment (0, 0) (ascii '!' :: ascii '-' :: input) = (some raw, rest) := by
  have hd : ascii '-' ≠ ascii '[' := by decide
  have hi : (ascii '!' :: ascii '-' :: input)[1]? = some (ascii '-') := rfl
  simp only [cutMarkup, List.head?_cons, hi, if_true, if_neg hd] at h
  generalize cut stepComment (0, 0) (ascii '!' :: ascii '-' :: input) = piece at h ⊢
  obtain ⟨_ | content, after⟩ := piece <;> cases h
  rfl

theorem cut_of_cutMarkup_instruction {input raw rest : Bytes}
    (h : cutMarkup (ascii '?' :: input) = (.ok raw, rest)) :
    cut stepInstruction false (ascii '?' :: input) = (some raw, rest) := by
  have hq : some (ascii '?') ≠ some (ascii '!') := by decide
  simp only [cutMarkup, List.head?_cons, if_neg hq, if_true] at h
  generalize cut stepInstruction false (ascii '?' :: input) = piece at h ⊢
  obtain ⟨_ | content, after⟩ := piece <;> cases h
  rfl

theorem prefix_of_cutMarkup {input raw rest : Bytes} (h : cutMarkup input = (.ok raw, rest)) :
    raw <+: input := by
  have hcut {σ : Type} {step : σ → UInt8 → Option σ} {s : σ}
      (hs : cut step s input = (some raw, rest)) : raw <+: input := by
    obtain ⟨t, b, hi, -⟩ := exists_of_cut_eq hs
    exact ⟨b :: rest, hi.symm⟩
  rw [cutMarkup] at h
  simp only at h
  repeat' split at h
  all_goals cases h
  all_goals exact hcut ‹_›

theorem eq_append_of_after?_eq {opening : List Char} {raw content : Bytes}
    (h : after? opening raw = some content) : raw = opening.map ascii ++ content := by
  rw [after?] at h
  split at h
  · next hp =>
    obtain ⟨rest, rfl⟩ := List.isPrefixOf_iff_prefix.mp hp
    cases h
    have hl : opening.length = (opening.map ascii).length := (List.length_map ascii).symm
    rw [hl, List.drop_left]
  · cases h

/-- A comment ends with two dashes that do not belong to its beginning. -/
theorem exists_of_stepComment_eq_none {content : Bytes} {t : Nat × Nat} {b : UInt8}
    (h : (commentStart ++ content).foldlM stepComment (0, 0) = some t)
    (hb : stepComment t b = none) : ∃ cs, content = cs ++ [ascii '-', ascii '-'] := by
  have hstop : 5 ≤ t.1 ∧ 2 ≤ t.2 ∧ b = ascii '>' := by
    by_contra hn
    have hs := stepComment_eq_some.mpr ⟨hn, rfl⟩
    rw [hb] at hs
    cases hs
  obtain ⟨hl, hd, -⟩ := hstop
  rw [foldlM_stepComment_eq h] at hl hd
  rw [List.length_append] at hl
  obtain ⟨cs, x, y, rfl⟩ : ∃ cs x y, content = cs ++ [x, y] :=
    exists_eq_append_pair (Nat.le_of_add_le_add_left hl)
  rw [← List.append_assoc] at hd
  obtain ⟨rfl, rfl⟩ := two_le_endDashes x y hd
  exact ⟨cs, rfl⟩

theorem read_of_declared_eq {position : Nat} {input raw rest : Bytes} {e : Event}
    (hc : cutMarkup input = (.ok (ascii '!' :: raw), rest)) (h : declared position raw = .ok e) :
    e.Read := by
  rw [declared] at h
  split at h
  · split at h
    · cases h
    · obtain ⟨s, -, rfl⟩ := exists_of_map_eq_ok h
      trivial
  · split at h
    · next hb =>
      obtain ⟨raw, rfl⟩ := List.head?_eq_some_iff.mp hb
      obtain ⟨after, rfl⟩ := prefix_of_cutMarkup hc
      obtain ⟨t, b, -, hf, hstop⟩ := exists_of_cut_eq (cut_of_cutMarkup_comment hc)
      split at h
      · cases h
      · next content hcontent =>
        have hraw : ascii '!' :: ascii '-' :: raw = commentStart ++ content :=
          congrArg (ascii '!' :: ·) (eq_append_of_after?_eq hcontent)
        rw [hraw] at hf
        obtain ⟨cs, rfl⟩ := exists_of_stepComment_eq_none hf hstop
        obtain ⟨s, hs, rfl⟩ := exists_of_map_eq_ok h
        rw [List.length_append] at hs
        intro hi
        -- An end of the comment inside of its text would have stopped the machine there.
        have hm := Text.map_toUInt8_infix (forall_mem_of_all (by decide)) hi
        have he : Text.encodeChars s.toList = cs := by
          apply (encode_of_decodeContent_eq hs).trans
          exact List.take_left
        rw [he] at hm
        exact not_infix_of_foldlM_stepComment hf (hm.trans (List.prefix_append _ _).isInfix)
    · split at h
      · cases h
      · simp only at h
        split at h
        · cases h
        · obtain ⟨s, -, rfl⟩ := exists_of_map_eq_ok h
          trivial

theorem read_of_instruction_eq {position : Nat} {input raw rest : Bytes} {e : Event}
    (hc : cutMarkup input = (.ok (ascii '?' :: raw), rest))
    (h : instruction position raw = .ok e) : e.Read := by
  obtain ⟨after, rfl⟩ := prefix_of_cutMarkup hc
  obtain ⟨t, b, -, hf, -⟩ := exists_of_cut_eq (cut_of_cutMarkup_instruction hc)
  rw [instruction] at h
  split at h
  · cases h
  · simp only at h
    split at h
    · cases h
      trivial
    · next ht =>
      obtain ⟨target, htarget, h⟩ := exists_of_bind_eq_ok h
      obtain ⟨data, hdata, h⟩ := exists_of_bind_eq_ok h
      cases h
      refine ⟨?_, fun hi => ?_⟩
      · rintro rfl
        exact ht (encode_of_decodeContent_eq htarget).symm
      · have hb := Text.map_toUInt8_infix (forall_mem_of_all (by decide)) hi
        have he : Text.encodeChars data.toList = _ := encode_of_decodeContent_eq hdata
        rw [he] at hb
        refine not_infix_of_foldlM_stepInstruction hf (hb.trans ?_)
        exact (List.dropWhile_suffix _).isInfix.trans
          ((List.dropLast_prefix raw).isInfix.trans (List.suffix_cons _ raw).isInfix)

theorem exists_of_endTag_eq {position : Nat} {opened : List String} {raw : Bytes} {e : Event}
    (h : endTag position opened raw = .ok e) :
    ∃ name rest, opened = name :: rest ∧ e = .finish name := by
  unfold endTag at h
  simp only at h
  generalize Except.toOption _ = found at h
  split at h
  · cases h
  · next name rest =>
    split at h
    · cases h
      exact ⟨name, rest, rfl, rfl⟩
    · cases h

theorem read_of_markup_eq {position : Nat} {opened : List String} {input raw rest : Bytes}
    {e : Event} (hc : cutMarkup input = (.ok raw, rest)) (h : markup position opened raw = .ok e) :
    e.Read := by
  rw [markup] at h
  split at h
  · next hb =>
    obtain ⟨raw, rfl⟩ := List.head?_eq_some_iff.mp hb
    exact read_of_declared_eq hc h
  · split at h
    · next hb =>
      obtain ⟨raw, rfl⟩ := List.head?_eq_some_iff.mp hb
      exact read_of_instruction_eq hc h
    · split at h
      · obtain ⟨name, rest, -, rfl⟩ := exists_of_endTag_eq h
        trivial
      · exact read_of_tag_eq h

theorem read_of_scanFrom_eq {position : Nat} {opened : List String} {input : Bytes}
    {es : List Event} (h : scanFrom position opened input = .ok es) : ∀ e ∈ es, e.Read := by
  fun_induction scanFrom position opened input generalizing es with
  | case1 =>
    cases h
    intro _ he
    cases he
  | case2 position opened rest piece =>
    rename_i ih
    obtain ⟨raw, hraw, h⟩ := exists_of_bind_eq_ok h
    obtain ⟨e, he, h⟩ := exists_of_bind_eq_ok h
    obtain ⟨fs, hfs, h⟩ := exists_of_bind_eq_ok h
    cases h
    have hc : cutMarkup rest = (.ok raw, piece.2) := Prod.ext (eq_ok_of_mapError hraw) rfl
    intro f hf
    rcases List.mem_cons.mp hf with rfl | hf
    · exact read_of_markup_eq hc he
    · exact ih raw e hfs f hf
  | case3 position opened b rest hb raw position' =>
    rename_i ih
    obtain ⟨content, -, h⟩ := exists_of_bind_eq_ok h
    obtain ⟨fs, hfs, h⟩ := exists_of_bind_eq_ok h
    cases h
    intro f hf
    rcases List.mem_cons.mp hf with rfl | hf
    · trivial
    · exact ih hfs f hf

end ChunkConfig.Xml
