import ChunkConfig.Text.Blank
import Mathlib.Data.List.DropRight

namespace ChunkConfig.Text

@[simp]
theorem toList_trim (s : String) : (trim s).toList = trimEnd (trimStart s.toList) := by
  simp only [trim, String.toList_ofList]

theorem trimStart_eq_self_of_prefix {cs ds : List Char} (h : cs <+: ds)
    (hd : trimStart ds = ds) : trimStart cs = cs := by
  cases cs with
  | nil => rfl
  | cons c cs =>
    obtain ⟨es, rfl⟩ := h
    have hc := List.dropWhile_eq_self_iff.mp hd (Nat.succ_pos _)
    exact List.dropWhile_eq_self_iff.mpr fun _ => hc

theorem trim_trim (s : String) : trim (trim s) = trim s := by
  have hs : trimStart (trimEnd (trimStart s.toList)) = trimEnd (trimStart s.toList) :=
    trimStart_eq_self_of_prefix (List.rdropWhile_prefix isBlank _)
      (List.dropWhile_idempotent isBlank _)
  have he : trimEnd (trimEnd (trimStart s.toList)) = trimEnd (trimStart s.toList) :=
    List.rdropWhile_idempotent isBlank _
  rw [trim, toList_trim, hs, he, trim]

theorem trim_eq_self {s : String} (h : ∀ c ∈ s.toList, isBlank c = false) : trim s = s := by
  have hs : trimStart s.toList = s.toList :=
    List.dropWhile_eq_self_iff.mpr fun hl => by simp [h _ (List.getElem_mem hl)]
  have he : trimEnd s.toList = s.toList :=
    List.rdropWhile_eq_self_iff.mpr fun hl => by simp [h _ (List.getLast_mem hl)]
  rw [trim, hs, he, String.ofList_toList]

theorem isBlank_getLast_of_trimmed {s : String} (h : trim s = s) :
    ∀ c ∈ s.toList.getLast?, isBlank c = false := by
  intro c hc
  have hl : trimEnd (trimStart s.toList) = s.toList := by rw [← toList_trim, h]
  have hidem : trimEnd s.toList = s.toList := by
    rw [← hl]
    exact List.rdropWhile_idempotent isBlank _
  have hne : s.toList ≠ [] := List.ne_nil_of_mem (List.mem_of_getLast? hc)
  rw [List.getLast?_eq_some_getLast hne] at hc
  rw [← Option.some.inj hc]
  exact Bool.eq_false_iff.mpr (List.rdropWhile_eq_self_iff.mp hidem hne)

theorem trim_eq_empty {s : String} (h : allBlank s = true) : trim s = "" := by
  have hs : trimStart s.toList = [] :=
    List.dropWhile_eq_nil_iff.mpr (List.all_eq_true.mp h)
  rw [trim, hs]
  rfl

theorem isEmpty_trim (s : String) : (trim s).isEmpty = allBlank s := by
  rw [Bool.eq_iff_iff, String.isEmpty_iff]
  constructor
  · intro h
    have hend : trimEnd (trimStart s.toList) = [] := by
      rw [← toList_trim, h]
      rfl
    have hstart : ∀ c ∈ trimStart s.toList, isBlank c = true := List.rdropWhile_eq_nil_iff.mp hend
    rw [allBlank, List.all_eq_true]
    intro c hc
    rw [← List.takeWhile_append_dropWhile (p := isBlank) (l := s.toList)] at hc
    exact (List.mem_append.mp hc).elim List.mem_takeWhile_imp (hstart c)
  · exact trim_eq_empty

theorem allBlank_eq_false_of_trimmed {s : String} (h : trim s = s) (hs : s ≠ "") :
    allBlank s = false := by
  by_contra hb
  rw [Bool.not_eq_false] at hb
  exact hs (h.symm.trans (trim_eq_empty hb))

end ChunkConfig.Text
