import Mathlib.Data.List.Induction

/-!
# Logs: lists that grow at the end and whose entries are updated in place

Entries are addressed by their index, which never changes. Everything is
stated through `getElem?`: what is at an index after one append or one update,
and what was there before.

* `Extends R l l'`: every entry of `l` is still at its index in `l'`, up to a
  change in `R`. Appends and updates within `R` extend.
* `lastAt key l k`: the last entry of `l` with key `k`; `lastAt_snoc` is what
  one more entry changes.
* `DistinctOn p key l`: no two `p`-entries of `l` have the same key;
  `DistinctOn.length_le` counts the entries by it.
* `since p w l`: how much the entries after the last `p`-entry weigh;
  `since_eq_zero_iff`: nothing when every entry with a weight has a `p`-entry
  after it.
-/
namespace MovieDBApp.Core

universe u v
variable {α : Type u}

theorem getElem?_snoc {l : List α} {a x : α} {i : Nat} :
    (l ++ [a])[i]? = some x ↔ l[i]? = some x ∨ (i = l.length ∧ x = a) := by
  rcases Nat.lt_trichotomy i l.length with h | h | h
  · rw [List.getElem?_append_left h]
    exact ⟨.inl, fun h' => h'.resolve_right fun e => by omega⟩
  · subst h
    simp [eq_comm]
  · rw [List.getElem?_append_right (by omega), List.getElem?_eq_none (by simp; omega),
      List.getElem?_eq_none (by omega)]
    simp
    omega

theorem getElem?_modify_iff {l : List α} {f : α → α} {i j : Nat} {y : α} :
    (l.modify i f)[j]? = some y ↔ ∃ x, l[j]? = some x ∧ y = if i = j then f x else x := by
  rw [List.getElem?_modify, Option.map_eq_map, Option.map_eq_some_iff]
  exact exists_congr fun x => and_congr_right fun _ => eq_comm

theorem getElem?_modify_self {l : List α} {f : α → α} {i : Nat} {x : α} (h : l[i]? = some x) :
    (l.modify i f)[i]? = some (f x) := getElem?_modify_iff.2 ⟨x, h, by rw [if_pos rfl]⟩

theorem getElem?_append_some {l k : List α} {i : Nat} {x : α} (h : l[i]? = some x) :
    (l ++ k)[i]? = some x := by
  obtain ⟨hi, -⟩ := List.getElem?_eq_some_iff.1 h
  rwa [List.getElem?_append_left hi]

theorem getElem?_grown {l l' : List α} (h : l <+: l') {i : Nat} {x : α}
    (hx : l[i]? = some x) : l'[i]? = some x := by
  obtain ⟨k, rfl⟩ := h
  exact getElem?_append_some hx

@[simp] theorem modify_snoc (l : List α) (a : α) (f : α → α) :
    (l ++ [a]).modify l.length f = l ++ [f a] := by
  apply List.ext_getElem?
  intro i
  rw [List.getElem?_modify]
  rcases Nat.lt_trichotomy i l.length with h | h | h
  · simp [List.getElem?_append_left h, Nat.ne_of_gt h]
  · subst h; simp
  · simp [List.getElem?_eq_none (show (l ++ [a]).length ≤ i by simp; omega),
      List.getElem?_eq_none (show (l ++ [f a]).length ≤ i by simp; omega)]

theorem lt_of_getElem?_eq_some {l : List α} {i : Nat} {x : α} (h : l[i]? = some x) :
    i < l.length := (List.getElem?_eq_some_iff.1 h).1

theorem forall_mem_snoc {Q : α → Prop} {l : List α} {a : α} (h : ∀ x ∈ l, Q x) (ha : Q a) :
    ∀ x ∈ l ++ [a], Q x := by
  intro x hx
  rcases List.mem_append.1 hx with hx | hx
  · exact h x hx
  · rw [List.mem_singleton.1 hx]; exact ha

theorem forall_mem_modify {Q : α → Prop} {l : List α} {i : Nat} {f : α → α} (h : ∀ x ∈ l, Q x)
    (hf : ∀ x, l[i]? = some x → Q (f x)) : ∀ x ∈ l.modify i f, Q x := by
  intro x hx
  obtain ⟨j, hj⟩ := List.getElem?_of_mem hx
  obtain ⟨a, ha, rfl⟩ := getElem?_modify_iff.1 hj
  split
  · subst i; exact hf a ha
  · exact h a (List.mem_of_getElem? ha)

theorem mem_modify_self {l : List α} {i : Nat} {f : α → α} {x : α} (h : l[i]? = some x) :
    f x ∈ l.modify i f := List.mem_of_getElem? (getElem?_modify_self h)

theorem of_mem_modify {l : List α} {i : Nat} {f : α → α} {x y : α} (hx : l[i]? = some x)
    (h : y ∈ l.modify i f) : y = f x ∨ y ∈ l := by
  obtain ⟨j, hj⟩ := List.getElem?_of_mem h
  obtain ⟨z, hz, rfl⟩ := getElem?_modify_iff.1 hj
  split
  · rename_i hij
    subst hij
    rw [hx, Option.some.injEq] at hz
    exact .inl (hz ▸ rfl)
  · exact .inr (List.mem_of_getElem? hz)

theorem mem_modify_of_mem {l : List α} {i : Nat} {f : α → α} {x y : α} (hx : l[i]? = some x)
    (h : y ∈ l) : y = x ∨ y ∈ l.modify i f := by
  obtain ⟨j, hj⟩ := List.getElem?_of_mem h
  by_cases hij : i = j
  · subst hij
    rw [hx, Option.some.injEq] at hj
    exact .inl hj.symm
  · exact .inr (List.mem_of_getElem? (getElem?_modify_iff.2 ⟨y, hj, by rw [if_neg hij]⟩))

/-! ## Extension -/

def Extends (R : α → α → Prop) (l l' : List α) : Prop :=
  ∀ (i : Nat) (x : α), l[i]? = some x → ∃ y, l'[i]? = some y ∧ R x y

namespace Extends
variable {R : α → α → Prop}

theorem refl (hR : ∀ x, R x x) (l : List α) : Extends R l l := fun _ x h => ⟨x, h, hR x⟩

theorem mem {l l' : List α} (h : Extends R l l') {x : α} (hx : x ∈ l) : ∃ y ∈ l', R x y := by
  obtain ⟨i, hi⟩ := List.getElem?_of_mem hx
  obtain ⟨y, hy, hxy⟩ := h i x hi
  exact ⟨y, List.mem_of_getElem? hy, hxy⟩

theorem trans (hR : ∀ x y z, R x y → R y z → R x z) {l l' l'' : List α} (h : Extends R l l')
    (h' : Extends R l' l'') : Extends R l l'' := by
  intro i x hx
  obtain ⟨y, hy, hxy⟩ := h i x hx
  obtain ⟨z, hz, hyz⟩ := h' i y hy
  exact ⟨z, hz, hR x y z hxy hyz⟩

theorem append (hR : ∀ x, R x x) (l k : List α) : Extends R l (l ++ k) :=
  fun _ x h => ⟨x, getElem?_append_some h, hR x⟩

theorem modify (hR : ∀ x, R x x) {l : List α} {i : Nat} {f : α → α}
    (hf : ∀ x, l[i]? = some x → R x (f x)) : Extends R l (l.modify i f) := by
  intro j x hx
  by_cases h : i = j
  · subst h
    exact ⟨f x, getElem?_modify_self hx, hf x hx⟩
  · exact ⟨x, getElem?_modify_iff.2 ⟨x, hx, by simp [h]⟩, hR x⟩

end Extends

/-! ## The last entry with a key -/

section LastAt
variable {κ : Type v} [DecidableEq κ]

def lastAt (key : α → κ) (l : List α) (k : κ) : Option α := (l.filter fun x => key x = k).getLast?

theorem lastAt_snoc (key : α → κ) (l : List α) (x : α) (k : κ) :
    lastAt key (l ++ [x]) k = if key x = k then some x else lastAt key l k := by
  unfold lastAt
  by_cases h : key x = k
  · simp [h]
  · simp [h]

end LastAt

/-! ## Distinct keys -/

section Distinct
variable {κ : Type v} {p : α → Bool} {key : α → κ} {l : List α}

def DistinctOn (p : α → Bool) (key : α → κ) (l : List α) : Prop := ((l.filter p).map key).Nodup

theorem DistinctOn.snoc (h : DistinctOn p key l) {a : α}
    (ha : ∀ x ∈ l, key x = key a → p x = false) : DistinctOn p key (l ++ [a]) := by
  unfold DistinctOn at h ⊢
  rw [List.filter_append, List.map_append]
  cases hpa : p a with
  | false => simpa [hpa] using h
  | true =>
    rw [List.filter_cons_of_pos hpa, List.filter_nil, List.map_singleton, List.nodup_append]
    refine ⟨h, by simp, fun k hk k' hk' => ?_⟩
    obtain ⟨x, hx, rfl⟩ := List.mem_map.1 hk
    obtain ⟨hm, hpx⟩ := List.mem_filter.1 hx
    rw [List.mem_singleton.1 hk']
    intro e
    rw [ha x hm e] at hpx
    cases hpx

/-- Updates of `p`-entries that keep their keys add no `p`-entry. -/
theorem filter_modify_sublist {i : Nat} {f : α → α} (hp : ∀ x, l[i]? = some x → p x = true)
    (hkey : ∀ x, key (f x) = key x) :
    (((l.modify i f).filter p).map key).Sublist ((l.filter p).map key) := by
  induction l generalizing i with
  | nil => simp
  | cons a l ih =>
    cases i with
    | zero =>
      have ha : p a = true := hp a rfl
      rw [List.modify_zero_cons, List.filter_cons_of_pos ha, List.filter_cons]
      split
      · simp only [List.map_cons, hkey, List.Sublist.refl]
      · rw [List.map_cons]
        exact List.sublist_cons_self _ _
    | succ i =>
      have hl := ih fun x hx => hp x (by rw [List.getElem?_cons_succ]; exact hx)
      rw [List.modify_succ_cons, List.filter_cons, List.filter_cons]
      split
      · rw [List.map_cons, List.map_cons]
        exact hl.cons_cons _
      · exact hl

theorem DistinctOn.modify (h : DistinctOn p key l) {i : Nat} {f : α → α}
    (hp : ∀ x, l[i]? = some x → p x = true) (hkey : ∀ x, key (f x) = key x) :
    DistinctOn p key (l.modify i f) := (filter_modify_sublist hp hkey).nodup h

/-- There are no more `p`-entries than keys. -/
theorem DistinctOn.length_le {key : α → Nat} (h : DistinctOn p key l) {n : Nat}
    (hn : ∀ x ∈ l, key x < n) : l.length ≤ n + l.countP (fun x => !p x) := by
  have hsub : (l.filter p).map key ⊆ List.range n := by
    intro k hk
    obtain ⟨x, hx, rfl⟩ := List.mem_map.1 hk
    exact List.mem_range.2 (hn x (List.mem_filter.1 hx).1)
  have hle := List.Nodup.length_le_of_subset h hsub
  rw [List.length_map, List.length_range, ← List.countP_eq_length_filter] at hle
  have hsplit := List.length_eq_countP_add_countP p (l := l)
  simp only [Bool.not_eq_true, Bool.decide_eq_false] at hsplit
  omega

end Distinct

/-! ## The weight after the last mark -/

section Since
variable (p : α → Bool) (w : α → Nat)

def since (l : List α) : Nat := l.foldl (fun n x => if p x then 0 else n + w x) 0

@[simp] theorem since_nil : since p w [] = 0 := rfl

theorem since_snoc (l : List α) (x : α) :
    since p w (l ++ [x]) = if p x then 0 else since p w l + w x := by
  simp [since, List.foldl_append]

theorem since_eq_zero_iff (l : List α) : since p w l = 0 ↔
    ∀ pre x post, l = pre ++ x :: post → 0 < w x → p x = true ∨ ∃ y ∈ post, p y = true := by
  induction l using List.reverseRecOn with
  | nil => simp
  | append_singleton l y ih =>
    rw [since_snoc]
    refine ⟨fun h pre x post he hw => ?_, fun h => ?_⟩
    · rcases List.eq_nil_or_concat post with rfl | ⟨post, z, rfl⟩
      · obtain ⟨rfl, e⟩ := List.append_inj' he rfl
        cases e
        split at h
        · exact .inl ‹_›
        · omega
      · rw [List.concat_eq_append, ← List.cons_append, ← List.append_assoc] at he
        obtain ⟨hl, e⟩ := List.append_inj' he rfl
        cases e
        split at h
        · exact .inr ⟨y, by simp, ‹_›⟩
        · obtain hx | ⟨u, hu, hp⟩ := ih.1 (by omega) pre x post hl hw
          · exact .inl hx
          · exact .inr ⟨u, by simp [hu], hp⟩
    · split
      · rfl
      · rename_i hy
        have h0 : since p w l = 0 := by
          refine ih.2 fun pre x post he hw => ?_
          obtain hx | ⟨u, hu, hp⟩ := h pre x (post ++ [y]) (by simp [he]) hw
          · exact .inl hx
          · rcases List.mem_append.1 hu with hu | hu
            · exact .inr ⟨u, hu, hp⟩
            · rw [List.mem_singleton.1 hu] at hp
              exact absurd hp hy
        have hw : ¬ 0 < w y := fun hw => by
          obtain hx | ⟨u, hu, -⟩ := h l y [] rfl hw
          · exact hy hx
          · cases hu
        omega

end Since
end MovieDBApp.Core
