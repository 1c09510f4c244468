import Mathlib.Data.List.Induction

/-!
# Machines: runs, invariants, traces, simulations

A `Machine` is an initial state and a partial step on labels; a run is a list
of labels every one of which was enabled. Four rules are used over it:

* `Run.induct`: what holds of `(run, state)` pairs is proved at the end of the
  run, one step at a time; `Inductive.run` is its special case for a predicate
  on states.
* `trace`: what the steps of a run let be observed, in order.
* `Along`: every step of a run meets a condition on its pre-state and label.
* `Sim`: every run of one machine is, label by label, a run of another.
-/
namespace MovieDBApp.Core

universe u v w x

/-- `step s e = none`: the label `e` is not enabled in `s`. -/
structure Machine (σ : Type u) (ε : Type v) where
  init : σ
  step : σ → ε → Option σ

namespace Machine

section Runs
variable {σ : Type u} {ε : Type v} (M : Machine σ ε)

def exec (s : σ) : List ε → Option σ
  | [] => some s
  | e :: es => (M.step s e).bind fun s' => exec s' es

/-- The labels `es`, taken from the initial state, lead to `s`. -/
def Run (es : List ε) (s : σ) : Prop := M.exec M.init es = some s

@[simp] theorem exec_nil (s : σ) : M.exec s [] = some s := rfl

theorem exec_cons (s : σ) (e : ε) (es : List ε) :
    M.exec s (e :: es) = (M.step s e).bind fun s' => M.exec s' es := rfl

theorem exec_append (s : σ) (es fs : List ε) :
    M.exec s (es ++ fs) = (M.exec s es).bind fun s' => M.exec s' fs := by
  induction es generalizing s with
  | nil => rfl
  | cons e es ih =>
    simp only [List.cons_append, exec_cons]
    cases M.step s e with
    | none => rfl
    | some s' => exact ih s'

theorem exec_snoc {s s' s'' : σ} {es : List ε} {e : ε} (h : M.exec s es = some s')
    (hs : M.step s' e = some s'') : M.exec s (es ++ [e]) = some s'' := by
  rw [exec_append, h]
  simp [exec_cons, hs]

theorem exec_one {s s' : σ} {e : ε} (h : M.step s e = some s') : M.exec s [e] = some s' := by
  rw [exec_cons, h]; rfl

/-- The last step of a nonempty run. -/
theorem exec_snoc_inv {s s'' : σ} {es : List ε} {e : ε} (h : M.exec s (es ++ [e]) = some s'') :
    ∃ s', M.exec s es = some s' ∧ M.step s' e = some s'' := by
  rw [exec_append, Option.bind_eq_some_iff] at h
  obtain ⟨s', h1, h2⟩ := h
  rw [exec_cons, Option.bind_eq_some_iff] at h2
  obtain ⟨t, h3, h4⟩ := h2
  rw [exec_nil, Option.some.injEq] at h4
  exact ⟨s', h1, h4 ▸ h3⟩

variable {M}

theorem Run.snoc {es : List ε} {s s' : σ} {e : ε} (h : M.Run es s) (hs : M.step s e = some s') :
    M.Run (es ++ [e]) s' := M.exec_snoc h hs

theorem Run.append {es fs : List ε} {s s' : σ} (h : M.Run es s) (hs : M.exec s fs = some s') :
    M.Run (es ++ fs) s' := by
  unfold Run at h ⊢
  rw [exec_append, h]; exact hs

/-- **Run induction**, from the front of the run to its last step. -/
theorem exec_induct {P : List ε → σ → Prop} {s₀ : σ} (h0 : P [] s₀)
    (hstep : ∀ es s e s', M.exec s₀ es = some s → P es s → M.step s e = some s' → P (es ++ [e]) s')
    {es : List ε} : ∀ {s : σ}, M.exec s₀ es = some s → P es s := by
  induction es using List.reverseRecOn with
  | nil => intro s h; cases h; exact h0
  | append_singleton es e ih =>
    intro s'' h
    obtain ⟨s', h1, h2⟩ := M.exec_snoc_inv h
    exact hstep es s' e s'' h1 (ih h1) h2

theorem Run.induct {P : List ε → σ → Prop} (h0 : P [] M.init)
    (hstep : ∀ es s e s', M.Run es s → P es s → M.step s e = some s' → P (es ++ [e]) s')
    {es : List ε} {s : σ} (h : M.Run es s) : P es s :=
  exec_induct h0 hstep h

/-- Where the labels lead, if they are a run. -/
def reach (M : Machine σ ε) (es : List ε) : σ := (M.exec M.init es).getD M.init

theorem run_reach {es : List ε} (h : (M.exec M.init es).isSome = true) : M.Run es (M.reach es) := by
  obtain ⟨s, hs⟩ := Option.isSome_iff_exists.1 h
  unfold Run reach
  rw [hs, Option.getD_some]

theorem exec_reach {es fs : List ε} (h : (M.exec M.init (es ++ fs)).isSome = true) :
    M.exec (M.reach es) fs = some (M.reach (es ++ fs)) := by
  rw [← M.run_reach h, M.exec_append]
  rw [exec_append] at h
  unfold reach
  cases hs : M.exec M.init es with
  | none =>
    rw [hs] at h
    cases h
  | some s => rfl

/-- `I` holds initially and every step keeps it. -/
structure Inductive (M : Machine σ ε) (I : σ → Prop) : Prop where
  init : I M.init
  step : ∀ s e s', I s → M.step s e = some s' → I s'

theorem Inductive.run {I : σ → Prop} (h : M.Inductive I) {es : List ε} {s : σ}
    (hr : M.Run es s) : I s :=
  hr.induct (P := fun _ s => I s) h.init fun _ s e s' _ hi hs => h.step s e s' hi hs

/-- A relation that every step respects relates any state to all later ones. -/
theorem exec_rel {R : σ → σ → Prop} (hrefl : ∀ s, R s s)
    (htrans : ∀ a b c, R a b → R b c → R a c) (hstep : ∀ s e s', M.step s e = some s' → R s s')
    {es : List ε} {s s' : σ} (h : M.exec s es = some s') : R s s' :=
  exec_induct (P := fun _ t => R s t) (hrefl s)
    (fun _ t e t' _ ht hs => htrans s t t' ht (hstep t e t' hs)) h

end Runs

/-! ## Traces -/

section Traces
variable {σ : Type u} {ε : Type v} {ω : Type w} (M : Machine σ ε)

/-- The observations of a run from `s`: `obs s e` is what taking `e` in `s`
shows. -/
def trace (obs : σ → ε → List ω) (s : σ) : List ε → List ω
  | [] => []
  | e :: es => obs s e ++ (match M.step s e with
    | some s' => trace obs s' es
    | none => [])

theorem trace_append (obs : σ → ε → List ω) {s s' : σ} {es : List ε} (fs : List ε)
    (h : M.exec s es = some s') :
    M.trace obs s (es ++ fs) = M.trace obs s es ++ M.trace obs s' fs := by
  induction es generalizing s with
  | nil => cases h; rfl
  | cons e es ih =>
    rw [exec_cons, Option.bind_eq_some_iff] at h
    obtain ⟨t, ht, h⟩ := h
    simp only [List.cons_append, trace, ht, ih h, List.append_assoc]

theorem trace_snoc (obs : σ → ε → List ω) {s s' : σ} {es : List ε} (e : ε)
    (h : M.exec s es = some s') :
    M.trace obs s (es ++ [e]) = M.trace obs s es ++ obs s' e := by
  rw [M.trace_append obs [e] h]
  congr 1
  simp only [trace]
  cases M.step s' e <;> simp

/-- The observations of a run. -/
def observe (obs : σ → ε → List ω) (es : List ε) : List ω := M.trace obs M.init es

@[simp] theorem observe_nil (obs : σ → ε → List ω) : M.observe obs [] = [] := rfl

theorem observe_snoc (obs : σ → ε → List ω) {s : σ} {es : List ε} (e : ε) (h : M.Run es s) :
    M.observe obs (es ++ [e]) = M.observe obs es ++ obs s e := M.trace_snoc obs e h

/-- Every step of the labels `es` from `s` meets `C`. -/
def Along (C : σ → ε → Prop) (s : σ) : List ε → Prop
  | [] => True
  | e :: es => C s e ∧ ∀ s', M.step s e = some s' → Along C s' es

@[simp] theorem along_nil (C : σ → ε → Prop) (s : σ) : M.Along C s [] := trivial

/-- Along a given run, a decidable condition can be evaluated. -/
def decidableAlong (C : σ → ε → Prop) [∀ s e, Decidable (C s e)] :
    ∀ (es : List ε) (s : σ), Decidable (M.Along C s es)
  | [], _ => isTrue trivial
  | e :: es, s =>
    match h : M.step s e with
    | none =>
      decidable_of_iff (C s e) ⟨fun hc => ⟨hc, fun _ hs => by rw [h] at hs; cases hs⟩, And.left⟩
    | some s' =>
      have := decidableAlong C es s'
      decidable_of_iff (C s e ∧ M.Along C s' es)
        ⟨fun ⟨hc, ha⟩ => ⟨hc, fun t ht => by rw [h, Option.some.injEq] at ht; exact ht ▸ ha⟩,
          fun ⟨hc, ha⟩ => ⟨hc, ha s' h⟩⟩

instance (C : σ → ε → Prop) [∀ s e, Decidable (C s e)] (s : σ) (es : List ε) :
    Decidable (M.Along C s es) := M.decidableAlong C es s

theorem along_append {C : σ → ε → Prop} {s s' : σ} {es fs : List ε} (h : M.exec s es = some s') :
    M.Along C s (es ++ fs) ↔ M.Along C s es ∧ M.Along C s' fs := by
  induction es generalizing s with
  | nil => cases h; simp [Along]
  | cons e es ih =>
    rw [exec_cons, Option.bind_eq_some_iff] at h
    obtain ⟨t, ht, h⟩ := h
    simp only [List.cons_append, Along, ht, Option.some.injEq, forall_eq', ih h, and_assoc]

theorem along_snoc {C : σ → ε → Prop} {s s' : σ} {es : List ε} {e : ε}
    (h : M.exec s es = some s') : M.Along C s (es ++ [e]) ↔ M.Along C s es ∧ C s' e := by
  rw [M.along_append h]
  simp [Along]

theorem along_and {C D : σ → ε → Prop} {s : σ} (es : List ε) :
    M.Along (fun s e => C s e ∧ D s e) s es ↔ M.Along C s es ∧ M.Along D s es := by
  induction es generalizing s with
  | nil => simp
  | cons e es ih =>
    simp only [Along, ih]
    exact ⟨fun ⟨⟨hc, hd⟩, h⟩ => ⟨⟨hc, fun s' hs => (h s' hs).1⟩, hd, fun s' hs => (h s' hs).2⟩,
      fun ⟨⟨hc, h⟩, hd, h'⟩ => ⟨⟨hc, hd⟩, fun s' hs => ⟨h s' hs, h' s' hs⟩⟩⟩

variable {M}

/-- Run induction over the runs all of whose steps meet `C`. -/
theorem Run.induct_along {C : σ → ε → Prop} {P : List ε → σ → Prop} (h0 : P [] M.init)
    (hstep : ∀ es s e s', M.Run es s → P es s → C s e → M.step s e = some s' → P (es ++ [e]) s')
    {es : List ε} {s : σ} (h : M.Run es s) (hc : M.Along C M.init es) : P es s := by
  refine h.induct (P := fun es s => M.Along C M.init es → P es s) (fun _ => h0) ?_ hc
  intro es s e s' hr hP hs hc
  obtain ⟨hc1, hc2⟩ := (M.along_snoc hr).1 hc
  exact hstep es s e s' hr (hP hc1) hc2 hs

end Traces

/-! ## Simulations -/

section Sims
variable {σ : Type u} {ε : Type v} {τ : Type w} {δ : Type x}

/-- `M` seen through `abs` is `N`: taking `e` in `s` is, over there, the labels
`lab s e`; `start` are the labels `N` has already taken when `M` starts. -/
structure Sim (M : Machine σ ε) (N : Machine τ δ) where
  abs : σ → τ
  lab : σ → ε → List δ
  start : List δ
  init : N.Run start (abs M.init)
  step : ∀ s e s', M.step s e = some s' → N.exec (abs s) (lab s e) = some (abs s')

variable {M : Machine σ ε} {N : Machine τ δ}

theorem Sim.exec (S : Sim M N) {es : List ε} {s s' : σ} (h : M.exec s es = some s') :
    N.exec (S.abs s) (M.trace S.lab s es) = some (S.abs s') := by
  refine exec_induct (P := fun es t => N.exec (S.abs s) (M.trace S.lab s es) = some (S.abs t))
    rfl ?_ h
  intro es t e t' hr ih hs
  rw [M.trace_snoc S.lab e hr, exec_append, ih]
  exact S.step t e t' hs

/-- **Simulation.** A run of `M` is a run of `N`. -/
theorem Sim.run (S : Sim M N) {es : List ε} {s : σ} (h : M.Run es s) :
    N.Run (S.start ++ M.trace S.lab M.init es) (S.abs s) :=
  S.init.append (S.exec h)

/-- A condition on the steps of `N` holds along the run that a run of `M` is. -/
theorem Sim.along (S : Sim M N) {C : σ → ε → Prop} {D : τ → δ → Prop}
    (hstart : N.Along D N.init S.start)
    (hstep : ∀ s e s', C s e → M.step s e = some s' → N.Along D (S.abs s) (S.lab s e))
    {es : List ε} {s : σ} (h : M.Run es s) (hc : M.Along C M.init es) :
    N.Along D N.init (S.start ++ M.trace S.lab M.init es) := by
  refine h.induct_along (C := C) (P := fun es _ =>
    N.Along D N.init (S.start ++ M.trace S.lab M.init es)) ?_ ?_ hc
  · simpa [trace] using hstart
  · intro es s e s' hr ih hce hs
    rw [M.trace_snoc S.lab e hr, ← List.append_assoc, N.along_append (S.run hr)]
    exact ⟨ih, hstep s e s' hce hs⟩

/-- An inductive predicate of `N` holds of every state of `M`. -/
theorem Sim.inductive_run (S : Sim M N) {I : τ → Prop} (hI : N.Inductive I) {es : List ε} {s : σ}
    (h : M.Run es s) : I (S.abs s) := hI.run (S.run h)

end Sims

end Machine
end MovieDBApp.Core
