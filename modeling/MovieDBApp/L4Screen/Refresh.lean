import MovieDBApp.L4Screen.Rows

/-!
# What the table knows: announcements and prefetches

`dataSourceChanged()` is called where an image has been loaded, not where the
list grows. A page none of whose posters loads is appended without a word, and
the table keeps the row count it had.

* `Mark`, `marks`: the appends, the image loads and the reads of a run.
* `Tallied`: row count, announced count and the list's length, from the marks.
* `caught_up_iff`: when a quiet table shows the whole list; `caught_up_not`: a
  quiet table that does not.
* `loadable_iff`: when a quiet table can still ask for a page; `loadable_not`: a
  quiet table that cannot.
-/
namespace MovieDBApp.L4.Screen
open MovieDBApp.Core MovieDBApp.L1 MovieDBApp.L2 MovieDBApp.L3

variable {P : Platform} {s s' : Screen} {e : Event}

/-! ## Marks -/

inductive Mark where
  /-- so many movies were appended -/
  | appended (count : Nat)
  /-- an image load succeeded while the delegate was set -/
  | loaded
  /-- the table read its row count -/
  | read
  deriving DecidableEq, Repr

namespace Mark

def count : Mark → Nat
  | .appended count => count
  | _ => 0

def isLoaded : Mark → Bool
  | .loaded => true
  | _ => false

def isRead : Mark → Bool
  | .read => true
  | _ => false

end Mark

def marks (P : Platform) (s : Screen) : Event → List Mark
  | .dataSource .handlerStep =>
    match s.dataSource.handler with
    | .append newMovies => [.appended newMovies.length]
    | _ => []
  | .dataSource (.imageRead read) =>
    match s.dataSource.handler, UIImage.image P read with
    | .image _ _ _, .ok _ => if s.dataSource.delegate then [.loaded] else []
    | _, _ => []
  | .layout => [.read]
  | .reloadData => [.read]
  | _ => []

/-- The movies appended so far. -/
def appended (ms : List Mark) : Nat := ms.foldl (fun n m => n + m.count) 0

/-- The movies appended since the last image load that found the delegate. -/
def unannounced (ms : List Mark) : Nat := since Mark.isLoaded Mark.count ms

/-- The movies appended since the table last read its row count. -/
def unread (ms : List Mark) : Nat := since Mark.isRead Mark.count ms

theorem appended_snoc (ms : List Mark) (m : Mark) :
    appended (ms ++ [m]) = appended ms + m.count := by
  simp [appended, List.foldl_append]

theorem unannounced_snoc (ms : List Mark) (m : Mark) :
    unannounced (ms ++ [m]) = if m.isLoaded then 0 else unannounced ms + m.count :=
  since_snoc ..

theorem unread_snoc (ms : List Mark) (m : Mark) :
    unread (ms ++ [m]) = if m.isRead then 0 else unread ms + m.count := since_snoc ..

/-- What a step of the data source is for the screen. -/
theorem dataSource_marks {e : DataSource.Event} {d : DataSource}
    (h : s.dataSource.step P e = some d) :
    (∃ n, marks P s (.dataSource e) = [.appended n] ∧
      d.movies.length = s.dataSource.movies.length + n ∧ d.changed = s.dataSource.changed) ∨
    (marks P s (.dataSource e) = [.loaded] ∧
      d.movies.length = s.dataSource.movies.length ∧ d.changed ≠ s.dataSource.changed) ∨
    (marks P s (.dataSource e) = [] ∧
      d.movies.length = s.dataSource.movies.length ∧ d.changed = s.dataSource.changed) := by
  cases DataSource.step_cases h with
  | append newMovies hh => exact .inl ⟨newMovies.length, by simp [marks, hh], by simp, rfl⟩
  | loaded j url back l read image hh hl hi =>
    cases hd : s.dataSource.delegate with
    | true => exact .inr (.inl ⟨by simp [marks, hh, hi, hd], rfl, by simp⟩)
    | false => exact .inr (.inr ⟨by simp [marks, hh, hi, hd], rfl, by simp⟩)
  | loadFailed j url back l read error hh hl hi =>
    exact .inr (.inr ⟨by simp [marks, hh, hi], rfl, rfl⟩)
  | failed _ _ _ _ hh | succeeded _ _ _ _ hh | advance hh | loopEnd _ _ hh | loopSkip _ _ hh
  | loopRequest _ _ _ _ hh | loopLoad _ _ _ _ hh =>
    exact .inr (.inr ⟨by simp [marks, hh], rfl, rfl⟩)
  | _ => exact .inr (.inr ⟨rfl, rfl, rfl⟩)

/-! ## Counts from marks -/

structure Tallied (ms : List Mark) (s : Screen) : Prop where
  movies : s.dataSource.movies.length = appended ms
  read : s.rowCount + unread ms = s.dataSource.movies.length
  announced : s.announced + unannounced ms = s.dataSource.movies.length
  queue : s.queued = 0 → s.announced ≤ s.rowCount

theorem Tallied.silent {ms : List Mark} (h : Tallied ms s) {e : DataSource.Event} {d : DataSource}
    (hd : s.dataSource.step P e = some d) (hc : d.changed = s.dataSource.changed) :
    Tallied (ms ++ marks P s (.dataSource e)) { s with dataSource := d } := by
  obtain ⟨h1, h2, h3, h4⟩ := h
  obtain ⟨n, hm, hn, -⟩ | ⟨-, -, hne⟩ | ⟨hm, hn, -⟩ := dataSource_marks hd
  · rw [hm]
    refine ⟨?_, ?_, ?_, h4⟩
    · rw [appended_snoc, ← h1]; exact hn
    · simp only [unread_snoc, Mark.isRead, Mark.count, Bool.false_eq_true, if_false]
      omega
    · simp only [unannounced_snoc, Mark.isLoaded, Mark.count, Bool.false_eq_true, if_false]
      omega
  · exact absurd hc hne
  · rw [hm, List.append_nil]
    exact ⟨hn.trans h1, h2.trans hn.symm, h3.trans hn.symm, h4⟩

theorem Tallied.announce {ms : List Mark} (h : Tallied ms s) {e : DataSource.Event} {d : DataSource}
    (hd : s.dataSource.step P e = some d) (hc : d.changed ≠ s.dataSource.changed) :
    Tallied (ms ++ marks P s (.dataSource e))
      { s with dataSource := d, queued := s.queued + 1, announced := d.movies.length } := by
  obtain ⟨h1, h2, h3, h4⟩ := h
  obtain ⟨n, -, -, he⟩ | ⟨hm, hn, -⟩ | ⟨-, -, he⟩ := dataSource_marks hd
  · exact absurd he hc
  · rw [hm]
    refine ⟨?_, ?_, ?_, nofun⟩
    · rw [appended_snoc, ← h1]; exact hn
    · simp only [unread_snoc, Mark.isRead, Mark.count, Bool.false_eq_true, if_false]
      omega
    · simp only [unannounced_snoc, Mark.isLoaded, if_true]
      rfl
  · exact absurd he hc

theorem Tallied.readRows {ms : List Mark} (h : Tallied ms s) :
    Tallied (ms ++ [.read]) s.readRows := by
  obtain ⟨h1, h2, h3, h4⟩ := h
  refine ⟨?_, ?_, ?_, fun _ => ?_⟩
  · rw [appended_snoc]; exact h1
  · simp only [unread_snoc, Mark.isRead, if_true]; rfl
  · simp only [unannounced_snoc, Mark.isLoaded, Mark.count, Bool.false_eq_true, if_false]
    exact h3
  · show s.announced ≤ s.dataSource.movies.length
    omega

theorem Tallied.step {ms : List Mark} (h : Tallied ms s) (hs : step P s e = some s') :
    Tallied (ms ++ marks P s e) s' := by
  cases step_cases hs with
  | silent e d ha hd hc => exact h.silent hd hc
  | announced e d ha hd hc => exact h.announce hd hc
  | viewDidLoad d hv hd =>
    have hc : d.changed = s.dataSource.changed ∧ d.movies = s.dataSource.movies := by
      cases DataSource.step_cases hd with
      | delegate => exact ⟨rfl, rfl⟩
    obtain ⟨h1, h2, h3, h4⟩ := h
    rw [← hc.2] at h1 h2 h3
    simp only [marks, List.append_nil]
    exact ⟨h1, h2, h3, h4⟩
  | layout hm =>
    have h' := h.readRows
    exact ⟨h'.movies, h'.read, h'.announced, h'.queue⟩
  | reloadData hq hm =>
    obtain ⟨h1, h2, h3, h4⟩ := h.readRows
    refine ⟨h1, h2, h3, fun _ => ?_⟩
    show s.announced ≤ s.dataSource.movies.length
    have := h.announced
    omega
  | cell row hr =>
    simp only [marks, List.append_nil]
    exact ⟨h.movies, h.read, h.announced, h.queue⟩
  | select row hr =>
    simp only [marks, List.append_nil]
    exact ⟨h.movies, h.read, h.announced, h.queue⟩
  | deinit k rating details hk =>
    simp only [marks, List.append_nil]
    unfold detailsDeinit
    split <;> exact ⟨h.movies, h.read, h.announced, h.queue⟩

theorem tallied {searchPhrase : Option String} {es : List Event}
    (h : (machine P searchPhrase).Run es s) :
    Tallied ((machine P searchPhrase).observe (marks P) es) s := by
  refine h.induct (P := fun es s => Tallied ((machine P searchPhrase).observe (marks P) es) s)
    ⟨rfl, rfl, rfl, fun _ => Nat.le_refl _⟩ ?_
  intro es s e s' hr ih hs
  rw [Machine.observe_snoc _ _ _ hr]
  exact ih.step hs

/-! ## Quiet tables -/

/-- The table has been laid out, and nothing is pending. -/
structure Quiet (s : Screen) : Prop where
  laidOut : s.laidOut = true
  tasks : ∀ task ∈ s.dataSource.service.tasks,
    task.state = .completed ∧ task.phase.isHandled = true
  handler : s.dataSource.handler = .idle
  lookups : ∀ l ∈ s.dataSource.lookups, l.phase.isEnded = true
  main : s.dataSource.main = .idle
  queued : s.queued = 0

instance (s : Screen) : Decidable (Quiet s) :=
  decidable_of_iff (s.laidOut = true ∧
      (∀ task ∈ s.dataSource.service.tasks,
        task.state = .completed ∧ task.phase.isHandled = true) ∧
      s.dataSource.handler = .idle ∧ (∀ l ∈ s.dataSource.lookups, l.phase.isEnded = true) ∧
      s.dataSource.main = .idle ∧ s.queued = 0)
    ⟨fun ⟨h1, h2, h3, h4, h5, h6⟩ => ⟨h1, h2, h3, h4, h5, h6⟩,
      fun ⟨h1, h2, h3, h4, h5, h6⟩ => ⟨h1, h2, h3, h4, h5, h6⟩⟩

theorem unannounced_eq_zero_iff (ms : List Mark) : unannounced ms = 0 ↔
    ∀ pre n post, ms = pre ++ .appended n :: post → 0 < n → .loaded ∈ post := by
  unfold unannounced
  rw [since_eq_zero_iff]
  refine ⟨fun h pre n post he hn => ?_, fun h pre x post he hx => ?_⟩
  · obtain h' | ⟨y, hy, hl⟩ := h pre (.appended n) post he hn
    · cases h'
    · cases y with
      | loaded => exact hy
      | _ => cases hl
  · cases x with
    | appended n => exact .inr ⟨.loaded, h pre n post he hx, rfl⟩
    | _ => exact absurd hx (Nat.lt_irrefl 0)

/-- **A quiet table has caught up with the list**, and every movie of it has
been announced, if and only if every append of at least one movie was followed
by an image load that succeeded while the delegate was set. -/
theorem caught_up_iff (P : Platform) (searchPhrase : Option String) {es : List Event} {s : Screen}
    (h : (machine P searchPhrase).Run es s) (hq : Quiet s) :
    (s.rowCount = s.dataSource.movies.length ∧ s.announced = s.dataSource.movies.length) ↔
      ∀ pre n post, (machine P searchPhrase).observe (marks P) es = pre ++ .appended n :: post →
        0 < n → .loaded ∈ post := by
  obtain ⟨-, hr, ha, hle⟩ := tallied h
  have := hle hq.queued
  rw [← unannounced_eq_zero_iff]
  refine ⟨fun ⟨_, h2⟩ => by omega, fun h0 => ⟨by omega, by omega⟩⟩

/-- A page whose one poster loads, and the reload it queues. -/
def shownRun : List Event :=
  [.viewDidLoad, .layout] ++ DataSource.posterRun.map .dataSource ++
    [.dataSource (.leaveRunning 0), .reloadData]

theorem caught_up_iff_up :
    ∃ s, (machine DataSource.posterPlatform none).Run shownRun s ∧ Quiet s ∧
      s.rowCount = s.dataSource.movies.length ∧ s.announced = s.dataSource.movies.length ∧
      s.rowCount = 1 := by
  have hx : ((machine DataSource.posterPlatform none).exec (init DataSource.posterPlatform none)
      shownRun).map (fun s => (decide (Quiet s), s.rowCount)) = some (true, 1) := by
    decide +kernel
  obtain ⟨s, hs, hx⟩ := Option.map_eq_some_iff.1 hx
  obtain ⟨hq, hr⟩ := Prod.mk.inj hx
  have hm : (machine DataSource.posterPlatform none).observe (marks DataSource.posterPlatform)
      shownRun = [.read, .appended 1, .loaded, .read] := by
    decide +kernel
  have hq := of_decide_eq_true hq
  have h0 : unannounced [.read, .appended 1, .loaded, .read] = 0 := by decide
  obtain ⟨h1, h2⟩ := (caught_up_iff DataSource.posterPlatform none hs hq).2
    (by rw [hm]; exact (unannounced_eq_zero_iff _).1 h0)
  exact ⟨s, hs, hq, h1, h2, hr⟩

/-- A page whose one movie has no poster path, and whose images request fails. -/
def unseenRun : List Event :=
  [.viewDidLoad, .layout] ++ DataSource.lastPageRun.map .dataSource ++
    [.dataSource (.posterTransferEnded 0 ⟨none, some ⟨-1009⟩⟩), .dataSource (.runPosterHandler 0)]

/-- **A movie that is never shown.** -/
theorem caught_up_not :
    ∃ s, (machine (DataSource.upPlatform 1) none).Run unseenRun s ∧ Quiet s ∧
      s.dataSource.delegate = true ∧ s.dataSource.movies.length = 1 ∧ s.rowCount = 0 ∧
      s.announced = 0 := by
  have hx : ((machine (DataSource.upPlatform 1) none).exec (init (DataSource.upPlatform 1) none)
      unseenRun).map (fun s => (decide (Quiet s), s.dataSource.delegate,
        s.dataSource.movies.length, s.rowCount, s.announced)) = some (true, true, 1, 0, 0) := by
    decide +kernel
  obtain ⟨s, hs, hx⟩ := Option.map_eq_some_iff.1 hx
  simp only [Prod.mk.injEq, decide_eq_true_eq] at hx
  exact ⟨s, hs, hx⟩

/-! ## Asking for a page -/

/-- The three steps of a prefetch that loads. -/
def prefetchSteps (rows : List Nat) : List Event :=
  [.dataSource (.prefetchRowsAt rows), .dataSource .loadDataSource, .dataSource .callService]

/-- A prefetch of `rows`, made now, starts a list task. -/
def StartsRequest (P : Platform) (searchPhrase : Option String) (s : Screen) (rows : List Nat) :
    Prop :=
  ∃ s', (machine P searchPhrase).exec s (prefetchSteps rows) = some s' ∧
    s'.dataSource.service.tasks.length = s.dataSource.service.tasks.length + 1

theorem startsRequest_iff {searchPhrase : Option String} (hm : s.dataSource.main = .idle)
    (hf : s.dataSource.service.isFetching = false) {rows : List Nat}
    (hrows : ∀ row ∈ rows, row < s.rowCount) :
    StartsRequest P searchPhrase s rows ↔ s.dataSource.wantsMore rows = true := by
  have ha : s.allows (.prefetchRowsAt rows) = true := by simpa [allows] using hrows
  have hl : ∀ t : Screen, t.allows .loadDataSource = true := fun _ => rfl
  have hc : ∀ t : Screen, t.allows .callService = true := fun _ => rfl
  unfold StartsRequest prefetchSteps
  cases hw : s.dataSource.wantsMore rows with
  | true =>
    refine iff_of_true ?_ rfl
    simp [Machine.exec_cons, machine, step, ha, hl, hc, dataSourceStep, DataSource.step, hm, hw,
      Service.call_eq_fetch, Service.fetch, hf]
  | false =>
    refine iff_of_false ?_ (by simp)
    rintro ⟨s', hx, -⟩
    simp [Machine.exec_cons, machine, step, ha, hl, dataSourceStep, DataSource.step, hm, hw] at hx

/-- **A quiet table can ask for a page** if and only if some movie had been
appended when it last read its row count, and at most three have been since. -/
theorem loadable_iff (P : Platform) (searchPhrase : Option String) {es : List Event} {s : Screen}
    (h : (machine P searchPhrase).Run es s) (hq : Quiet s) :
    (∃ rows, rows ≠ [] ∧ (∀ row ∈ rows, row < s.rowCount) ∧ StartsRequest P searchPhrase s rows) ↔
      unread ((machine P searchPhrase).observe (marks P) es) <
        appended ((machine P searchPhrase).observe (marks P) es) ∧
      unread ((machine P searchPhrase).observe (marks P) es) ≤ 3 := by
  obtain ⟨hl, hr, -, -⟩ := tallied h
  obtain ⟨fs, hd⟩ := run_dataSource h
  have hf : s.dataSource.service.isFetching = false := by
    rw [← Bool.not_eq_true, (DataSource.service_wf hd).isFetching_iff]
    rintro ⟨task, ht, hs⟩
    rw [(hq.tasks task ht).1] at hs
    cases hs
  refine ⟨fun ⟨rows, _, hlt, hs⟩ => ?_, fun ⟨h1, h2⟩ => ?_⟩
  · have hw := (startsRequest_iff hq.main hf hlt).1 hs
    unfold DataSource.wantsMore at hw
    split at hw
    · rename_i row hmax
      have := hlt row (List.max?_mem hmax)
      simp only [gt_iff_lt, decide_eq_true_eq] at hw
      omega
    · cases hw
  · have hlt : ∀ row ∈ [s.rowCount - 1], row < s.rowCount := by
      intro row hm
      rw [List.mem_singleton.1 hm]
      omega
    refine ⟨[s.rowCount - 1], by simp, hlt, (startsRequest_iff hq.main hf hlt).2 ?_⟩
    simp only [DataSource.wantsMore, List.max?_singleton, gt_iff_lt, decide_eq_true_eq]
    omega

theorem loadable_iff_up :
    ∃ s, (machine DataSource.posterPlatform none).Run shownRun s ∧ Quiet s ∧
      ∃ rows, rows ≠ [] ∧ (∀ row ∈ rows, row < s.rowCount) ∧
        StartsRequest DataSource.posterPlatform none s rows := by
  have hx : ((machine DataSource.posterPlatform none).exec (init DataSource.posterPlatform none)
      shownRun).map (fun s => decide (Quiet s)) = some true := by
    decide +kernel
  obtain ⟨s, hs, hq⟩ := Option.map_eq_some_iff.1 hx
  have hm : (machine DataSource.posterPlatform none).observe (marks DataSource.posterPlatform)
      shownRun = [.read, .appended 1, .loaded, .read] := by
    decide +kernel
  have hq := of_decide_eq_true hq
  exact ⟨s, hs, hq, (loadable_iff DataSource.posterPlatform none hs hq).2 (by rw [hm]; decide)⟩

/-- The first request fails. -/
def stuckRun : List Event :=
  [.viewDidLoad, .layout] ++ ([.transferEnded 0 ⟨none, some ⟨-1009⟩⟩, .leaveRunning 0,
    .runHandler 0, .handlerStep] : List DataSource.Event).map .dataSource

/-- **A table that can never ask again**: page 1 of a server with one page has
not been loaded, nothing is pending, and no prefetch is possible. -/
theorem loadable_not :
    ∃ s, (machine (DataSource.upPlatform 1) none).Run stuckRun s ∧ Quiet s ∧
      s.dataSource.page = 1 ∧ s.dataSource.movies = [] ∧
      ¬ ∃ rows, rows ≠ [] ∧ (∀ row ∈ rows, row < s.rowCount) ∧
        StartsRequest (DataSource.upPlatform 1) none s rows := by
  have hx : ((machine (DataSource.upPlatform 1) none).exec (init (DataSource.upPlatform 1) none)
      stuckRun).map (fun s => (decide (Quiet s), s.dataSource.page, s.dataSource.movies,
        s.rowCount)) = some (true, 1, [], 0) := by
    decide +kernel
  obtain ⟨s, hs, hx⟩ := Option.map_eq_some_iff.1 hx
  simp only [Prod.mk.injEq, decide_eq_true_eq] at hx
  obtain ⟨hq, hp, hm, hr⟩ := hx
  refine ⟨s, hs, hq, hp, hm, fun ⟨rows, hne, hlt, _⟩ => ?_⟩
  obtain ⟨row, hrow⟩ := List.exists_mem_of_ne_nil rows hne
  have := hlt row hrow
  omega

end MovieDBApp.L4.Screen
