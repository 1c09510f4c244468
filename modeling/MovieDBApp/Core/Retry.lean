import MovieDBApp.Core.Machine

/-!
# Writes retried until they are answered

A client issues writes; a server handles them in order and answers each. Where
the connection is dropped, unanswered writes are sent again, so that the server
may handle some of them many times.

`Replayable` says when this does no harm: making some of the writes before all of
them are made is the same as making all of them.

* `Settling.settles`: at every moment, handling what is pending turns what the server has
  into what it would have, had every write issued been handled just once.
-/
namespace MovieDBApp.Core.Retry

universe u v w

variable {ω : Type u} {δ : Type v}

/-- The writes, made in order. -/
def acts (act : ω → δ → δ) (ws : List ω) (d : δ) : δ := ws.foldl (fun d w => act w d) d

@[simp] theorem acts_nil (act : ω → δ → δ) (d : δ) : acts act [] d = d := rfl

@[simp] theorem acts_cons (act : ω → δ → δ) (w : ω) (ws : List ω) (d : δ) :
    acts act (w :: ws) d = acts act ws (act w d) := rfl

theorem acts_append (act : ω → δ → δ) (ws vs : List ω) (d : δ) :
    acts act (ws ++ vs) d = acts act vs (acts act ws d) := List.foldl_append

/-- Making some of the writes first makes no difference. -/
def Replayable (act : ω → δ → δ) : Prop :=
  ∀ (ws vs : List ω) (d : δ), (∀ v ∈ vs, v ∈ ws) → acts act ws (acts act vs d) = acts act ws d

/-- Pending writes are the ones without an answer, the oldest first; `handled` of
them have been handled on this connection, and their answers are on the way. -/
structure State (ω : Type u) (δ : Type v) where
  server : δ
  pending : List ω
  handled : Nat

inductive Event (ω : Type u) where
  | issue (w : ω)
  | handle
  | answer
  | drop

def step (act : ω → δ → δ) (s : State ω δ) : Event ω → Option (State ω δ)
  | .issue w => some { s with pending := s.pending ++ [w] }
  | .handle => s.pending[s.handled]?.map fun w =>
      { s with server := act w s.server, handled := s.handled + 1 }
  | .answer =>
    if s.handled = 0 then none
    else some { s with pending := s.pending.tail, handled := s.handled - 1 }
  | .drop => some { s with handled := 0 }

def machine (act : ω → δ → δ) (d : δ) : Machine (State ω δ) (Event ω) := ⟨⟨d, [], 0⟩, step act⟩

def issues : Event ω → List ω
  | .issue w => [w]
  | _ => []

/-- The server holds the effect of the pending writes it has handled, in order, on
some `base`, from which all pending ones lead to `goal`. -/
def Settling (act : ω → δ → δ) (goal : δ) (s : State ω δ) : Prop :=
  s.handled ≤ s.pending.length ∧
    ∃ base, s.server = acts act (s.pending.take s.handled) base ∧ acts act s.pending base = goal

theorem Settling.step {act : ω → δ → δ} (hact : Replayable act) {goal : δ} {s s' : State ω δ}
    {e : Event ω} (h : Settling act goal s) (hs : Retry.step act s e = some s') :
    Settling act (acts act (issues e) goal) s' := by
  obtain ⟨hle, base, hserver, hgoal⟩ := h
  cases e with
  | issue w =>
    cases hs
    refine ⟨?_, base, ?_, ?_⟩
    · show s.handled ≤ (s.pending ++ [w]).length
      rw [List.length_append]
      omega
    · show s.server = acts act ((s.pending ++ [w]).take s.handled) base
      rw [hserver, List.take_append_of_le_length hle]
    · show acts act (s.pending ++ [w]) base = _
      rw [acts_append, hgoal]
      rfl
  | handle =>
    obtain ⟨w, hw, rfl⟩ := Option.map_eq_some_iff.1 hs
    obtain ⟨hlt, hget⟩ := List.getElem?_eq_some_iff.1 hw
    refine ⟨hlt, base, ?_, hgoal⟩
    show act w s.server = acts act (s.pending.take (s.handled + 1)) base
    rw [List.take_succ_eq_append_getElem hlt, acts_append, ← hserver, hget]
    rfl
  | answer =>
    change (if s.handled = 0 then none else some _) = some s' at hs
    split at hs
    · cases hs
    · rename_i hpos
      cases hs
      cases hp : s.pending with
      | nil =>
        rw [hp, List.length_nil] at hle
        omega
      | cons w ws =>
        rw [hp] at hle hserver hgoal
        obtain ⟨n, hn⟩ := Nat.exists_eq_succ_of_ne_zero hpos
        rw [hn] at hle hserver ⊢
        exact ⟨Nat.le_of_succ_le_succ hle, act w base, hserver, hgoal⟩
  | drop =>
    cases hs
    refine ⟨Nat.zero_le _, s.server, rfl, ?_⟩
    show acts act s.pending s.server = goal
    -- what was handled is handled again
    rw [hserver, hact _ _ _ fun v hv => List.mem_of_mem_take hv, hgoal]

theorem Settling.exec {act : ω → δ → δ} (hact : Replayable act) {d goal : δ}
    {es : List (Event ω)} {s s' : State ω δ} (h : Settling act goal s)
    (hs : (machine act d).exec s es = some s') :
    Settling act (acts act (es.flatMap issues) goal) s' := by
  refine Machine.exec_induct (P := fun es s => Settling act (acts act (es.flatMap issues) goal) s)
    h ?_ hs
  intro es s e s' _ hi hs
  rw [List.flatMap_append, List.flatMap_singleton, acts_append]
  exact hi.step hact hs

/-- **Exactly once, in effect**: what is pending leads from what the server has to
the goal. -/
theorem Settling.settles {act : ω → δ → δ} (hact : Replayable act) {goal : δ} {s : State ω δ}
    (h : Settling act goal s) : acts act s.pending s.server = goal := by
  obtain ⟨-, base, hserver, hgoal⟩ := h
  rw [hserver, hact _ _ _ fun v hv => List.mem_of_mem_take hv, hgoal]

/-- Writes that are described in other terms. -/
theorem acts_comp {χ : Type w} (act : ω → δ → δ) (f : χ → ω) (xs : List χ) (d : δ) :
    acts (fun x => act (f x)) xs d = acts act (xs.map f) d := by
  induction xs generalizing d with
  | nil => rfl
  | cons x xs ih => exact ih (act (f x) d)

theorem Replayable.comp {χ : Type w} {act : ω → δ → δ} (h : Replayable act) (f : χ → ω) :
    Replayable fun x => act (f x) := by
  intro xs ys d hy
  rw [acts_comp act f, acts_comp act f, acts_comp act f]
  apply h
  intro v hv
  obtain ⟨y, hym, rfl⟩ := List.mem_map.1 hv
  exact List.mem_map_of_mem (hy y hym)

/-! ## A server that refuses some of the writes -/

/-- The writes that are not accepted change nothing. -/
def guarded (accepts : ω → Bool) (act : ω → δ → δ) (w : ω) (d : δ) : δ :=
  if accepts w then act w d else d

theorem acts_guarded (accepts : ω → Bool) (act : ω → δ → δ) (ws : List ω) (d : δ) :
    acts (guarded accepts act) ws d = acts act (ws.filter accepts) d := by
  induction ws generalizing d with
  | nil => rfl
  | cons w ws ih =>
    rw [acts_cons, ih, List.filter_cons, guarded]
    split <;> rfl

theorem Replayable.guarded {act : ω → δ → δ} (h : Replayable act) (accepts : ω → Bool) :
    Replayable (guarded accepts act) := by
  intro ws vs d hv
  rw [acts_guarded, acts_guarded, acts_guarded]
  apply h
  intro v hvf
  rw [List.mem_filter] at hvf ⊢
  exact ⟨hv v hvf.1, hvf.2⟩

end MovieDBApp.Core.Retry
