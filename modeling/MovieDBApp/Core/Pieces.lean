/-!
# Pieces of a list, and reading them one by one

`pieces sep l` cuts `l` at every `sep` and drops the empty parts. It turns
joining with a separator into appending (`pieces_append_sep`), and a nonempty
list without separators is its own only piece (`pieces_of_not_mem`).

`mapM` with a reader that can fail is all or nothing: it gives every result
(`mapM_eq_filterMap`), or none as soon as one piece has none (`mapM_eq_none`).
-/
namespace MovieDBApp.Core

universe u v w w'
variable {α : Type u} [BEq α] [LawfulBEq α]

def pieces {α : Type u} [BEq α] (sep : α) (l : List α) : List (List α) :=
  (l.splitOn sep).filter (fun p => !p.isEmpty)

theorem pieces_nil (sep : α) : pieces sep [] = [] := by
  simp [pieces, List.splitOn_eq_singleton]

theorem pieces_append_sep (sep : α) (xs ys : List α) :
    pieces sep (xs ++ sep :: ys) = pieces sep xs ++ pieces sep ys := by
  unfold pieces
  rw [List.splitOn_append_cons_self, List.filter_append]

theorem pieces_sep_cons (sep : α) (ys : List α) : pieces sep (sep :: ys) = pieces sep ys := by
  have := pieces_append_sep sep [] ys
  rwa [pieces_nil, List.nil_append, List.nil_append] at this

theorem pieces_of_not_mem {sep : α} {l : List α} (hne : l ≠ []) (h : sep ∉ l) :
    pieces sep l = [l] := by
  unfold pieces
  rw [List.splitOn_eq_singleton h]
  cases l with
  | nil => exact absurd rfl hne
  | cons a l => rfl

/-- A part is free of separators, and made of elements of the list. -/
theorem of_mem_splitOn {sep : α} {p : List α} (l : List α) (h : p ∈ l.splitOn sep) :
    sep ∉ p ∧ ∀ a ∈ p, a ∈ l := by
  induction l generalizing p with
  | nil => simp [List.splitOn_eq_singleton] at h; simp [h]
  | cons a l ih =>
    rw [List.splitOn_cons_eq_if_modifyHead] at h
    split at h
    · rcases List.mem_cons.1 h with rfl | h
      · simp
      · exact ⟨(ih h).1, fun b hb => List.mem_cons_of_mem a ((ih h).2 b hb)⟩
    · rename_i ha
      cases hl : l.splitOn sep with
      | nil => exact absurd hl (List.splitOn_ne_nil sep l)
      | cons q qs =>
        rw [hl, List.modifyHead_cons] at h
        rcases List.mem_cons.1 h with rfl | h
        · obtain ⟨h1, h2⟩ := ih (p := q) (hl ▸ List.mem_cons_self)
          refine ⟨?_, ?_⟩
          · simp only [List.mem_cons, not_or]
            exact ⟨fun e => ha (by simp [e]), h1⟩
          · intro b hb
            rcases List.mem_cons.1 hb with rfl | hb
            · exact List.mem_cons_self
            · exact List.mem_cons_of_mem a (h2 b hb)
        · obtain ⟨h1, h2⟩ := ih (hl ▸ List.mem_cons_of_mem q h)
          exact ⟨h1, fun b hb => List.mem_cons_of_mem a (h2 b hb)⟩

/-- A piece is nonempty, free of separators and made of elements of the list. -/
theorem of_mem_pieces {sep : α} {l p : List α} (h : p ∈ pieces sep l) :
    p ≠ [] ∧ sep ∉ p ∧ ∀ a ∈ p, a ∈ l := by
  obtain ⟨h1, h2⟩ := List.mem_filter.1 h
  refine ⟨fun e => ?_, of_mem_splitOn l h1⟩
  rw [e] at h2
  cases h2

theorem exists_mem_splitOn {sep a : α} {l : List α} (h : a ∈ l) (hne : a ≠ sep) :
    ∃ p ∈ l.splitOn sep, a ∈ p := by
  induction l with
  | nil => cases h
  | cons b l ih =>
    rw [List.splitOn_cons_eq_if_modifyHead]
    split
    · rename_i hb
      have ha : a ≠ b := fun e => hne (e.trans (LawfulBEq.eq_of_beq hb))
      obtain ⟨p, hp, hm⟩ := ih ((List.mem_cons.1 h).resolve_left ha)
      exact ⟨p, List.mem_cons_of_mem [] hp, hm⟩
    · cases hl : l.splitOn sep with
      | nil => exact absurd hl (List.splitOn_ne_nil sep l)
      | cons q qs =>
        rw [List.modifyHead_cons]
        rcases List.mem_cons.1 h with rfl | h
        · exact ⟨a :: q, List.mem_cons_self, List.mem_cons_self⟩
        · obtain ⟨p, hp, hm⟩ := ih h
          rcases List.mem_cons.1 (hl ▸ hp) with rfl | hp
          · exact ⟨b :: p, List.mem_cons_self, List.mem_cons_of_mem b hm⟩
          · exact ⟨p, List.mem_cons_of_mem _ hp, hm⟩

/-- Every element but the separator lies in some piece. -/
theorem exists_mem_pieces {sep a : α} {l : List α} (h : a ∈ l) (hne : a ≠ sep) :
    ∃ p ∈ pieces sep l, a ∈ p := by
  obtain ⟨p, hp, hm⟩ := exists_mem_splitOn h hne
  refine ⟨p, List.mem_filter.2 ⟨hp, ?_⟩, hm⟩
  cases p with
  | nil => cases hm
  | cons b p => rfl

/-! ## All or nothing -/

section MapM
variable {β : Type v} {γ : Type w} {δ : Type w'} {f : β → Option γ} {l : List β}

theorem mapM_eq_filterMap (h : ∀ x ∈ l, f x ≠ none) : l.mapM f = some (l.filterMap f) := by
  induction l with
  | nil => rfl
  | cons x l ih =>
    obtain ⟨y, hy⟩ := Option.ne_none_iff_exists'.1 (h x List.mem_cons_self)
    have hl := ih fun z hz => h z (List.mem_cons_of_mem x hz)
    simp [List.mapM_cons, hy, hl]

theorem mapM_eq_none {x : β} (hx : x ∈ l) (h : f x = none) : l.mapM f = none := by
  induction l with
  | nil => cases hx
  | cons y l ih =>
    rw [List.mapM_cons]
    rcases List.mem_cons.1 hx with rfl | hx
    · rw [h]; rfl
    · rw [ih hx]
      cases f y <;> rfl

theorem mapM_map_eq_some {g : δ → β} {k : δ → γ} {l : List δ} (h : ∀ x ∈ l, f (g x) = some (k x)) :
    (l.map g).mapM f = some (l.map k) := by
  induction l with
  | nil => rfl
  | cons x l ih =>
    have hx := h x List.mem_cons_self
    have hl := ih fun y hy => h y (List.mem_cons_of_mem x hy)
    simp [List.mapM_cons, hx, hl]

end MapM

end MovieDBApp.Core
