import MovieDBApp.L3Feed.Posters

/-!
# How many posters are looked up

The loop of a list handler runs over every row, not over the new ones: each page
looks up the posters of all earlier pages again, loaded or not. The traffic is
frugal only as long as there is nothing to repeat.

* `Traffic`, `Kept.traffic`: what a step does to lookups and posters.
* `Calm`: the rows ahead of a running loop have only lookups that failed.
* `calm`, `not_calm_step`: it holds as long as the run is `Settled`, and once it
  is lost, the running loop repeats a lookup before it ends.
* `frugal_iff_settled`: the two together, with the count of the lookups.
-/
namespace MovieDBApp.L3
open MovieDBApp.Core MovieDBApp.L1 MovieDBApp.L2

/-- The image a lookup ended with. -/
def LookupPhase.image : LookupPhase → Option UIImage
  | .ended image => image
  | _ => none

/-- The lookup has ended without an image. -/
def LookupPhase.failed : LookupPhase → Bool
  | .ended none => true
  | _ => false

theorem LookupPhase.isEnded_of_failed {phase : LookupPhase} (h : phase.failed = true) :
    phase.isEnded = true := by
  cases phase with
  | ended image => rfl
  | _ => cases h

theorem LookupPhase.failed_eq_false {phase : LookupPhase} (h : phase.isEnded = false) :
    phase.failed = false := by
  cases hf : phase.failed with
  | false => rfl
  | true =>
    rw [isEnded_of_failed hf] at h
    cases h

theorem LookupPhase.image_ne_none {phase : LookupPhase} (he : phase.isEnded = true)
    (hf : phase.failed = false) : phase.image ≠ none := by
  cases phase with
  | ended image =>
    cases image with
    | none => cases hf
    | some image => exact Option.some_ne_none image
  | _ => cases he

theorem LookupPhase.image_eq_none {phase : LookupPhase}
    (h : phase.isEnded = false ∨ phase.failed = true) : phase.image = none := by
  cases phase with
  | ended image =>
    cases image with
    | none => rfl
    | some image => rcases h with h | h <;> cases h
  | _ => rfl

namespace DataSource

variable {P : Platform} {s s' : DataSource} {e : Event}

/-! ## Frugal steps -/

/-- The lookup that a step starts. -/
def started (P : Platform) (s : DataSource) (e : Event) : Option Lookup :=
  (step P s e).bind fun s' => s'.lookups[s.lookups.length]?

/-- A lookup is started only for a movie without a poster, and only when no
earlier lookup or load for its row is outstanding. -/
def Frugal (P : Platform) (s : DataSource) (e : Event) : Prop :=
  ∀ l ∈ started P s e, s.poster l.movie.ref = none ∧
    ∀ k ∈ s.lookups, k.row = l.row → k.phase.isEnded = true

/-- A list response is delivered as success only when every lookup so far has
ended without an image. -/
def Settled (P : Platform) (s : DataSource) (e : Event) : Prop :=
  successes (delivered P s e) ≠ [] → ∀ l ∈ s.lookups, l.phase.failed = true

instance (P : Platform) (s : DataSource) (e : Event) : Decidable (Frugal P s e) :=
  inferInstanceAs (Decidable (∀ l ∈ started P s e, _))

instance (P : Platform) (s : DataSource) (e : Event) : Decidable (Settled P s e) :=
  inferInstanceAs (Decidable (_ → _))

/-! ## What a step does to lookups and posters -/

/-- The first row that the running handler is still going to look up. -/
def ahead : Handler → Option Nat
  | .append _ => some 0
  | handler => remaining handler

@[simp] theorem ahead_resume (back : Option (Nat × Nat)) :
    ahead (resume back) = back.map (·.1) := by
  cases back <;> rfl

@[simp] theorem ahead_image (j : Nat) (url : URL) (back : Option (Nat × Nat)) :
    ahead (.image j url back) = back.map (·.1) := by
  cases back <;> rfl

/-- A poster is there exactly when a lookup for its row has ended with one. -/
def Imaged (s : DataSource) : Prop :=
  ∀ row, s.poster row ≠ none ↔ ∃ l ∈ s.lookups, l.row = row ∧ l.phase.image ≠ none

/-- The image that the loop waits for is of a row it has passed. -/
def Passed (s : DataSource) : Prop :=
  ∀ j url index bound, s.handler = .image j url (some (index, bound)) →
    ∀ l, s.lookups[j]? = some l → l.row < index

/-- All that a step can do to the lookups, the posters and the rows ahead. -/
inductive Traffic (P : Platform) (s : DataSource) (e : Event) (s' : DataSource) : Prop where
  | same (hl : s'.lookups = s.lookups) (hp : s'.poster = s.poster)
      (ha : ahead s'.handler = ahead s.handler) (hd : successes (delivered P s e) = [])
  /-- a list response succeeds -/
  | page (hl : s'.lookups = s.lookups) (hp : s'.poster = s.poster)
      (ha : ahead s.handler = none) (ha' : ahead s'.handler = some 0)
      (hd : successes (delivered P s e) ≠ [])
  /-- the loop is past the last row -/
  | past (index : Nat) (hi : s.movies.length ≤ index) (hl : s'.lookups = s.lookups)
      (hp : s'.poster = s.poster) (ha : ahead s.handler = some index)
      (ha' : ∀ n ∈ ahead s'.handler, index ≤ n) (hd : successes (delivered P s e) = [])
  /-- the loop looks up the row it is at -/
  | lookup (l : Lookup) (hr : s.movies[l.row]? = some l.movie) (ho : l.phase.isEnded = false)
      (hl : s'.lookups = s.lookups ++ [l]) (hp : s'.poster = s.poster)
      (ha : ahead s.handler = some l.row) (ha' : ahead s'.handler = some (l.row + 1))
      (hd : successes (delivered P s e) = [])
  /-- a lookup that has not ended goes on, or ends -/
  | progress (j : Nat) (l : Lookup) (f : Lookup → Lookup) (hj : s.lookups[j]? = some l)
      (hl : s'.lookups = s.lookups.modify j f) (ho : l.phase.isEnded = false)
      (hf : ∀ k, (f k).row = k.row)
      (hp : ∀ row, s'.poster row ≠ none ↔
        s.poster row ≠ none ∨ l.row = row ∧ (f l).phase.image ≠ none)
      (ha : ahead s'.handler = ahead s.handler)
      (hn : ∀ n ∈ ahead s.handler, (f l).phase.failed = true → l.row < n)
      (hd : successes (delivered P s e) = [])

/-- What holds in every state of a run and is needed of it here. -/
structure Kept (P : Platform) (s : DataSource) : Prop where
  numbered : Numbered s
  looked : ∀ l ∈ s.lookups, Looked P s.movies l
  loading : Loading P s
  covered : Covered s
  passed : Passed s

theorem Kept.loading_phase (h : Kept P s) {j : Nat} {url : URL} {back : Option (Nat × Nat)}
    (hh : s.handler = .image j url back) {l : Lookup} (hl : s.lookups[j]? = some l) :
    l.phase = .loading := by
  obtain ⟨l', hl', hp, -⟩ := h.loading j url back hh
  rw [hl, Option.some.injEq] at hl'
  rw [hl', hp]

theorem Kept.passed_image (h : Kept P s) {j : Nat} {url : URL} {back : Option (Nat × Nat)}
    (hh : s.handler = .image j url back) {l : Lookup} (hl : s.lookups[j]? = some l) :
    ∀ n ∈ ahead s.handler, l.row < n := by
  intro n hn
  rw [hh, ahead_image] at hn
  obtain ⟨⟨index, bound⟩, rfl, rfl⟩ := Option.map_eq_some_iff.1 hn
  exact h.passed j url index bound hh l hl

theorem Kept.traffic (h : Kept P s) (hs : step P s e = some s') : Traffic P s e s' := by
  cases step_cases hs with
  | succeeded i transfer service newMovies hh hw hv ho =>
    exact .page rfl rfl (by rw [hh]; rfl) rfl (by simp [delivered, hh, hw, ho])
  | failed i transfer service error hh hw hv ho =>
    exact .same rfl rfl (by rw [hh]; rfl) (by simp [delivered, hh, hw, ho])
  | append newMovies hh => exact .same rfl rfl (by rw [hh]; rfl) (by simp [delivered, hh])
  | advance hh => exact .same rfl rfl (by rw [hh]; rfl) (by simp [delivered, hh])
  | loopEnd index bound hh hb =>
    have hbound := h.covered.bound bound (by rw [hh]; rfl)
    refine .past index (by omega) rfl rfl (by rw [hh]; rfl) ?_ (by simp [delivered, hh])
    simp [ahead, remaining]
  | loopSkip index bound hh hb hr =>
    refine .past index (List.getElem?_eq_none_iff.1 hr) rfl rfl (by rw [hh]; rfl) ?_
      (by simp [delivered, hh])
    simp [ahead, remaining]
  | loopRequest index bound movie id hh hb hr hp =>
    exact .lookup _ hr rfl rfl rfl (by rw [hh]; rfl) rfl (by simp [delivered, hh])
  | loopLoad index bound movie poster hh hb hr hp =>
    exact .lookup _ hr rfl rfl rfl (by rw [hh]; rfl) rfl (by simp [delivered, hh])
  | loadFailed j url back l read error hh hl hi =>
    refine .progress j l _ hl rfl ?_ (fun _ => rfl) (fun row => ?_) ?_
      (fun n hn _ => h.passed_image hh hl n hn) rfl
    · rw [h.loading_phase hh hl]; rfl
    · simp [LookupPhase.image]
    · rw [hh, ahead_image, ahead_resume]
  | loaded j url back l read image hh hl hi =>
    refine .progress j l _ hl rfl ?_ (fun _ => rfl) (fun row => ?_) ?_
      (fun n hn _ => h.passed_image hh hl n hn) rfl
    · rw [h.loading_phase hh hl]; rfl
    · have hrow := (h.looked l (List.mem_of_getElem? hl)).row
      show s.setPoster l.row image row ≠ none ↔ _
      rw [setPoster_eq h.numbered hrow]
      by_cases hr : l.row = row <;> simp [hr, LookupPhase.image]
    · rw [hh, ahead_image, ahead_resume]
  | posterTransferEnded j l transfer hl hp =>
    refine .progress j l _ hl rfl ?_ (fun _ => rfl) (fun row => ?_) rfl (fun n hn hf => ?_) rfl
    · rw [hp]; rfl
    · simp [LookupPhase.image]
    · cases hf
  | noPoster j l transfer hh hl ht hp ho =>
    refine .progress j l _ hl rfl ?_ (fun _ => rfl) (fun row => ?_) (by rw [hh])
      (fun n hn _ => ?_) rfl
    · rw [hp]; rfl
    · simp [LookupPhase.image]
    · rw [hh] at hn
      cases hn
  | firstPoster j l transfer poster posters hh hl ht hp ho =>
    refine .progress j l _ hl rfl ?_ (fun _ => rfl) (fun row => ?_) (by rw [hh]; rfl)
      (fun n hn _ => ?_) rfl
    · rw [hp]; rfl
    · simp [LookupPhase.image]
    · rw [hh] at hn
      cases hn
  | call request hm =>
    refine .same rfl rfl rfl ?_
    simp only [delivered, hm]
    split <;> rfl
  | run i transfer hh hw => exact .same rfl rfl (by rw [hh]; rfl) rfl
  | _ => exact .same rfl rfl rfl rfl

/-! ## In every state of a run -/

theorem Imaged.step (h : Imaged s) (ht : Traffic P s e s') : Imaged s' := by
  intro row
  cases ht with
  | same hl hp | page hl hp | past index hi hl hp =>
    rw [hp, hl]
    exact h row
  | lookup l hr ho hl hp =>
    rw [hp, hl, h row]
    constructor
    · rintro ⟨k, hk, hrow, hi⟩
      exact ⟨k, List.mem_append_left _ hk, hrow, hi⟩
    · rintro ⟨k, hk, hrow, hi⟩
      rcases List.mem_append.1 hk with hk | hk
      · exact ⟨k, hk, hrow, hi⟩
      · rw [List.mem_singleton.1 hk] at hi
        exact absurd (LookupPhase.image_eq_none (.inl ho)) hi
  | progress j l f hj hl ho hf hp =>
    rw [hp, hl, h row]
    constructor
    · rintro (⟨k, hk, hrow, hi⟩ | ⟨hrow, hi⟩)
      · rcases mem_modify_of_mem (f := f) hj hk with rfl | hk
        · exact absurd (LookupPhase.image_eq_none (.inl ho)) hi
        · exact ⟨k, hk, hrow, hi⟩
      · exact ⟨f l, mem_modify_self hj, (hf l).trans hrow, hi⟩
    · rintro ⟨k, hk, hrow, hi⟩
      rcases of_mem_modify hj hk with rfl | hk
      · exact .inr ⟨(hf l).symm.trans hrow, hi⟩
      · exact .inl ⟨k, hk, hrow, hi⟩

theorem Passed.step (h : Passed s) (hs : step P s e = some s') : Passed s' := by
  intro j url index bound hh' l' hl'
  cases step_cases hs with
  | loopLoad i b movie poster hh hb hr hp =>
    cases hh'
    rcases getElem?_snoc.1 hl' with hl' | ⟨-, rfl⟩
    · exact absurd (lt_of_getElem?_eq_some hl') (Nat.lt_irrefl _)
    · exact Nat.lt_succ_self i
  | posterTransferEnded k l transfer hl hp =>
    obtain ⟨l, hl, rfl⟩ := getElem?_modify_iff.1 hl'
    have hrow := h j url index bound hh' l hl
    split
    · exact hrow
    · exact hrow
  | loadFailed _ _ back | loaded _ _ back =>
    cases back <;> cases hh'
  | far | near | load | call | delegate | transferEnded | leaveRunning =>
    exact h j url index bound hh' l' hl'
  | _ => cases hh'

theorem kept {searchPhrase : Option String} {es : List Event}
    (h : (machine P searchPhrase).Run es s) : Kept P s := by
  have hinit : Passed (init P searchPhrase) := nofun
  exact ⟨numbered h, looked h, (posted h).1, covered h,
    h.induct (P := fun _ s => Passed s) hinit fun _ _ _ _ _ hi hs => hi.step hs⟩

theorem imaged {searchPhrase : Option String} {es : List Event}
    (h : (machine P searchPhrase).Run es s) : Imaged s := by
  have hinit : Imaged (init P searchPhrase) := by simp [Imaged, init]
  exact h.induct (P := fun _ s => Imaged s) hinit
    fun _ _ _ _ hr hi hs => hi.step ((kept hr).traffic hs)

/-! ## Nothing to repeat -/

/-- Every lookup of a row that is still ahead has failed. -/
def Calm (s : DataSource) : Prop :=
  ∀ n ∈ ahead s.handler, ∀ l ∈ s.lookups, n ≤ l.row → l.phase.failed = true

/-- The lookups that have not failed are for distinct rows. -/
def Single (s : DataSource) : Prop := DistinctOn (fun l => !l.phase.failed) Lookup.row s.lookups

theorem not_calm_iff : ¬ Calm s ↔
    ∃ n l, ahead s.handler = some n ∧ l ∈ s.lookups ∧ n ≤ l.row ∧ l.phase.failed = false := by
  simp only [Calm, Option.mem_def, not_forall, Bool.not_eq_true, exists_prop]
  constructor
  · rintro ⟨n, ha, l, hl, hn, hf⟩
    exact ⟨n, l, ha, hl, hn, hf⟩
  · rintro ⟨n, l, ha, hl, hn, hf⟩
    exact ⟨n, ha, l, hl, hn, hf⟩

theorem calm_of_quiet (hq : quiet s.handler) : Calm s := by
  intro n hn
  have hr := quiet_remaining hq
  cases hh : s.handler with
  | append => rw [hh] at hq; exact hq.elim
  | _ =>
    rw [hh] at hn hr
    rw [ahead, hr] at hn
    · cases hn
    · nofun

theorem Calm.step (h : Calm s) (ht : Traffic P s e s') (hset : Settled P s e) : Calm s' := by
  intro n hn k hk hle
  cases ht with
  | same hl hp ha =>
    rw [ha] at hn
    exact h n hn k (hl ▸ hk) hle
  | page hl hp ha ha' hd => exact hset hd k (hl ▸ hk)
  | past index hi hl hp ha ha' =>
    exact h index ha k (hl ▸ hk) (Nat.le_trans (ha' n hn) hle)
  | lookup l hr ho hl hp ha ha' =>
    rw [ha', Option.mem_some_iff] at hn
    rw [hl] at hk
    rcases List.mem_append.1 hk with hk | hk
    · exact h l.row ha k hk (by omega)
    · rw [List.mem_singleton.1 hk] at hle
      omega
  | progress j l f hj hl ho hf hp ha =>
    rw [ha] at hn
    rcases of_mem_modify hj (hl ▸ hk) with rfl | hk
    · -- the lookup that goes on has not ended, so its row is not ahead
      rw [hf] at hle
      have hfail := h n hn l (List.mem_of_getElem? hj) hle
      rw [LookupPhase.failed_eq_false ho] at hfail
      cases hfail
    · exact h n hn k hk hle

theorem Single.step (h : Single s) (hc : Calm s) (ht : Traffic P s e s') : Single s' := by
  unfold Single at h ⊢
  cases ht with
  | same hl | page hl | past _ _ hl => exact hl ▸ h
  | lookup l hr ho hl hp ha =>
    rw [hl]
    refine h.snoc fun k hk hrow => ?_
    rw [hc l.row ha k hk (Nat.le_of_eq hrow.symm)]
    rfl
  | progress j l f hj hl ho hf =>
    rw [hl]
    refine h.modify (fun k hk => ?_) hf
    rw [hj, Option.some.injEq] at hk
    rw [← hk, LookupPhase.failed_eq_false ho]
    rfl

/-- A started lookup is for the row the loop is at. -/
theorem Kept.started (h : Kept P s) {l : Lookup} (hl : l ∈ started P s e) :
    s.movies[l.row]? = some l.movie ∧ ahead s.handler = some l.row := by
  obtain ⟨s', hs, hl⟩ := Option.bind_eq_some_iff.1 hl
  have hnone : s.lookups[s.lookups.length]? = none := List.getElem?_eq_none (Nat.le_refl _)
  cases h.traffic hs with
  | same hl' | page hl' | past _ _ hl' =>
    rw [hl', hnone] at hl
    cases hl
  | lookup l' hr ho hl' hp ha =>
    rw [hl'] at hl
    rcases getElem?_snoc.1 hl with hl | ⟨-, rfl⟩
    · rw [hnone] at hl
      cases hl
    · exact ⟨hr, ha⟩
  | progress j l' f hj hl' =>
    rw [hl'] at hl
    obtain ⟨k, hk, -⟩ := getElem?_modify_iff.1 hl
    rw [hnone] at hk
    cases hk

theorem Calm.frugal (h : Calm s) (hk : Kept P s) (hi : Imaged s) : Frugal P s e := by
  intro l hl
  obtain ⟨hr, ha⟩ := hk.started hl
  have hfailed : ∀ k ∈ s.lookups, k.row = l.row → k.phase.failed = true :=
    fun k hk hrow => h l.row ha k hk (Nat.le_of_eq hrow.symm)
  refine ⟨?_, fun k hk hrow => LookupPhase.isEnded_of_failed (hfailed k hk hrow)⟩
  rw [hk.numbered.ref l.row l.movie (getElem?_append_some hr)]
  refine Classical.byContradiction fun hne => ?_
  obtain ⟨k, hk, hrow, himage⟩ := (hi l.row).1 hne
  exact himage (LookupPhase.image_eq_none (.inr (hfailed k hk hrow)))

/-! ## Something to repeat -/

theorem not_calm_of_not_settled (ht : Traffic P s e s') (h : ¬ Settled P s e) : ¬ Calm s' := by
  simp only [Settled, not_forall, exists_prop, Bool.not_eq_true] at h
  obtain ⟨hne, l, hm, hf⟩ := h
  cases ht with
  | page hl hp ha ha' => exact not_calm_iff.2 ⟨0, l, ha', hl ▸ hm, Nat.zero_le _, hf⟩
  | same _ _ _ hd | past _ _ _ _ _ _ hd | lookup _ _ _ _ _ _ _ hd
  | progress _ _ _ _ _ _ _ _ _ _ hd => exact absurd hd hne

/-- A lookup to repeat stays one until the loop repeats it. -/
theorem not_calm_step (h : ¬ Calm s) (hk : Kept P s) (hi : Imaged s) (hf : Frugal P s e)
    (hs : step P s e = some s') : ¬ Calm s' := by
  obtain ⟨n, k, ha, hm, hle, hfail⟩ := not_calm_iff.1 h
  have hlisted := lt_of_getElem?_eq_some (hk.looked k hm).row
  refine not_calm_iff.2 ?_
  cases hk.traffic hs with
  | same hl hp ha' => exact ⟨n, k, ha'.trans ha, hl ▸ hm, hle, hfail⟩
  | page hl hp hnone =>
    rw [hnone] at ha
    cases ha
  | past index hindex hl hp hahead =>
    rw [hahead, Option.some.injEq] at ha
    omega
  | lookup l hr ho hl hp hahead ha' =>
    rw [hahead, Option.some.injEq] at ha
    have hstarted : l ∈ started P s e := by
      rw [started, hs, Option.bind_some, hl]
      exact getElem?_snoc.2 (.inr ⟨rfl, rfl⟩)
    obtain ⟨hposter, hended⟩ := hf l hstarted
    rcases Nat.lt_or_ge l.row k.row with hlt | hge
    · exact ⟨l.row + 1, k, ha', hl ▸ List.mem_append_left _ hm, hlt, hfail⟩
    · -- the loop is at the row of `k`, which is loaded or not over yet
      have hrow : k.row = l.row := by omega
      have himage := LookupPhase.image_ne_none (hended k hm hrow) hfail
      rw [hk.numbered.ref l.row l.movie (getElem?_append_some hr)] at hposter
      exact absurd hposter ((hi l.row).2 ⟨k, hm, hrow, himage⟩)
  | progress j l f hj hl ho hrow hp ha' hn =>
    rcases mem_modify_of_mem (f := f) hj hm with rfl | hm
    · refine ⟨n, f k, ha'.trans ha, hl ▸ mem_modify_self hj, by rw [hrow]; exact hle, ?_⟩
      cases hfk : (f k).phase.failed with
      | false => rfl
      | true =>
        have hlt := hn n ha hfk
        omega
    · exact ⟨n, k, ha'.trans ha, hl ▸ hm, hle, hfail⟩

/-! ## Whole runs -/

variable {searchPhrase : Option String} {es : List Event}

theorem calm (h : (machine P searchPhrase).Run es s)
    (hset : (machine P searchPhrase).Along (Settled P) (init P searchPhrase) es) :
    Calm s ∧ Single s := by
  have hinit : Calm (init P searchPhrase) ∧ Single (init P searchPhrase) :=
    ⟨calm_of_quiet trivial, List.nodup_nil⟩
  refine h.induct_along (P := fun _ s => Calm s ∧ Single s) hinit ?_ hset
  intro es s e s' hr ⟨hc, hd⟩ hset hs
  have ht := (kept hr).traffic hs
  exact ⟨hc.step ht hset, hd.step hc ht⟩

theorem frugal_of_settled (h : (machine P searchPhrase).Run es s)
    (hset : (machine P searchPhrase).Along (Settled P) (init P searchPhrase) es) :
    (machine P searchPhrase).Along (Frugal P) (init P searchPhrase) es := by
  refine h.induct (P := fun es _ =>
    (machine P searchPhrase).Along (Settled P) (init P searchPhrase) es →
      (machine P searchPhrase).Along (Frugal P) (init P searchPhrase) es) (fun _ => trivial) ?_ hset
  intro es s e s' hr ih hs hset
  obtain ⟨hbefore, -⟩ := (Machine.along_snoc _ hr).1 hset
  exact (Machine.along_snoc _ hr).2
    ⟨ih hbefore, (calm hr hbefore).1.frugal (kept hr) (imaged hr)⟩

theorem settled_of_frugal (h : (machine P searchPhrase).Run es s)
    (hf : (machine P searchPhrase).Along (Frugal P) (init P searchPhrase) es) :
    (machine P searchPhrase).Along (Settled P) (init P searchPhrase) es ∨ ¬ Calm s := by
  refine h.induct (P := fun es s =>
    (machine P searchPhrase).Along (Frugal P) (init P searchPhrase) es →
      (machine P searchPhrase).Along (Settled P) (init P searchPhrase) es ∨ ¬ Calm s)
    (fun _ => .inl trivial) ?_ hf
  intro es s e s' hr ih hs hf
  obtain ⟨hbefore, hnow⟩ := (Machine.along_snoc _ hr).1 hf
  rcases ih hbefore with hset | hc
  · by_cases hse : Settled P s e
    · exact .inl ((Machine.along_snoc _ hr).2 ⟨hset, hse⟩)
    · exact .inr (not_calm_of_not_settled ((kept hr).traffic hs) hse)
  · exact .inr (not_calm_step hc (kept hr) (imaged hr) hnow hs)

/-- **No redundant poster traffic**, as long as every list response that succeeds
finds all earlier lookups ended without an image: then each lookup is started
only for a movie without a poster and with no lookup for its row outstanding, and
there are at most as many lookups as movies and failed lookups. Between two list
responses there is no other way to stay frugal. -/
theorem frugal_iff_settled (P : Platform) (searchPhrase : Option String) {es : List Event}
    {s : DataSource} (h : (machine P searchPhrase).Run es s) :
    ((machine P searchPhrase).Along (Settled P) (init P searchPhrase) es →
      (machine P searchPhrase).Along (Frugal P) (init P searchPhrase) es ∧
      s.lookups.length ≤ s.movies.length + s.lookups.countP (·.phase.failed)) ∧
    (quiet s.handler → (machine P searchPhrase).Along (Frugal P) (init P searchPhrase) es →
      (machine P searchPhrase).Along (Settled P) (init P searchPhrase) es) := by
  refine ⟨fun hset => ⟨frugal_of_settled h hset, ?_⟩, fun hq hf => ?_⟩
  · have hlisted : ∀ l ∈ s.lookups, l.row < s.movies.length :=
      fun l hl => lt_of_getElem?_eq_some (looked h l hl).row
    have hle := (calm h hset).2.length_le hlisted
    simpa only [Bool.not_not] using hle
  · exact (settled_of_frugal h hf).resolve_right fun hc => hc (calm_of_quiet hq)

/-- A page, a prefetch of row 0 that loads the next one, and that page; between
the two pages comes `between`. -/
def twoPagesRun (between : List Event) : List Event :=
  [.transferEnded 0 (upTransfer 2), .runHandler 0] ++ handledAll 2 ++ [.leaveRunning 0] ++
    between ++ prefetchFirst ++ [.transferEnded 1 (upTransfer 2), .runHandler 1] ++ handledAll 3

/-- The images request of the first movie fails before the second page comes. -/
theorem frugal_iff_settled_offline :
    ∃ s, (machine (upPlatform 2) none).Run (twoPagesRun
        [.posterTransferEnded 0 ⟨none, some ⟨-1009⟩⟩, .runPosterHandler 0]) s ∧
      s.lookups.map (·.row) = [0, 0, 1] ∧
      (machine (upPlatform 2) none).Along (Frugal (upPlatform 2)) (init (upPlatform 2) none)
        (twoPagesRun [.posterTransferEnded 0 ⟨none, some ⟨-1009⟩⟩, .runPosterHandler 0]) ∧
      s.lookups.length ≤ s.movies.length + s.lookups.countP (·.phase.failed) := by
  have hx : ((machine (upPlatform 2) none).exec (init (upPlatform 2) none) (twoPagesRun
      [.posterTransferEnded 0 ⟨none, some ⟨-1009⟩⟩, .runPosterHandler 0])).map
      (fun s => s.lookups.map (·.row)) = some [0, 0, 1] := by
    decide +kernel
  obtain ⟨s, hs, hl⟩ := Option.map_eq_some_iff.1 hx
  exact ⟨s, hs, hl, (frugal_iff_settled (upPlatform 2) none hs).1 (by decide +kernel)⟩

/-- **Row 0 is looked up again** while its first lookup is still under way. -/
theorem lookup_repeated :
    ∃ s, (machine (upPlatform 2) none).Run (twoPagesRun []) s ∧
      s.lookups.map (fun l => (l.row, l.phase)) =
        [(0, .requested), (0, .requested), (1, .requested)] ∧
      s.movies.length = 2 ∧
      ¬ s.lookups.length ≤ s.movies.length + s.lookups.countP (·.phase.failed) ∧
      ¬ (machine (upPlatform 2) none).Along (Frugal (upPlatform 2)) (init (upPlatform 2) none)
        (twoPagesRun []) := by
  have hx : ((machine (upPlatform 2) none).exec (init (upPlatform 2) none) (twoPagesRun [])).map
      (fun s => (s.lookups.map fun l => (l.row, l.phase), s.movies.length, s.lookups.length,
        s.lookups.countP (·.phase.failed))) =
        some ([(0, .requested), (0, .requested), (1, .requested)], 2, 3, 0) := by
    decide +kernel
  obtain ⟨s, hs, hx⟩ := Option.map_eq_some_iff.1 hx
  simp only [Prod.mk.injEq] at hx
  obtain ⟨hl, hm, hlen, hfailed⟩ := hx
  exact ⟨s, hs, hl, hm, by omega, by decide +kernel⟩

end DataSource
end MovieDBApp.L3
