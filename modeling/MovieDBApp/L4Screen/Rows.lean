import MovieDBApp.L3Feed.LastPage
import MovieDBApp.L4Screen.MoviesViewController

/-!
# What a row means

A row count the table works with may be older than the list, but never longer:
the list only grows, and every count was its length when it was read. So a row
below any count ever read keeps its movie.

* `Rows`: the invariant over counts, cells and details screens.
* `rows_keep_movie`: what it says of the later states of a run.
-/
namespace MovieDBApp.L4.Screen
open MovieDBApp.Core MovieDBApp.L1 MovieDBApp.L2 MovieDBApp.L3

variable {P : Platform} {s s' : Screen} {e : Event} {row : Nat}

/-- `model` was read from `row` when the row was there already. -/
def Meant (movies : List Movie) (row : Nat) (model : Option Movie) : Prop :=
  model ≠ none ∧ movies[row]? = model

theorem Meant.mono {movies movies' : List Movie} (h : movies <+: movies') {row : Nat}
    {model : Option Movie} (hm : Meant movies row model) : Meant movies' row model := by
  obtain ⟨hne, he⟩ := hm
  obtain ⟨m, rfl⟩ := Option.ne_none_iff_exists'.1 hne
  exact ⟨hne, getElem?_grown h he⟩

structure Rows (s : Screen) : Prop where
  count : s.rowCount ≤ s.dataSource.movies.length
  reported : ∀ n ∈ s.reported, n ≤ s.dataSource.movies.length
  shown : ∀ c ∈ s.shown, Meant s.dataSource.movies c.row c.model ∧
    c.title = c.model.map (·.originalTitle)
  opened : ∀ d ∈ s.opened, Meant s.dataSource.movies d.row d.movie
  crashed : s.crashed = false

/-- A step of the data source. -/
theorem Rows.grow (h : Rows s) {d : DataSource} (hd : s.dataSource.movies <+: d.movies)
    (hs' : s'.dataSource = d ∧ s'.rowCount = s.rowCount ∧ s'.reported = s.reported ∧
      s'.shown = s.shown ∧ s'.opened = s.opened ∧ s'.crashed = s.crashed) : Rows s' := by
  obtain ⟨h1, h2, h3, h4, h5, h6⟩ := hs'
  have hlen := hd.length_le
  refine ⟨?_, ?_, ?_, ?_, h6.trans h.crashed⟩
  · rw [h1, h2]; exact Nat.le_trans h.count hlen
  · rw [h1, h3]; exact fun n hn => Nat.le_trans (h.reported n hn) hlen
  · rw [h1, h4]; exact fun c hc => ⟨(h.shown c hc).1.mono hd, (h.shown c hc).2⟩
  · rw [h1, h5]; exact fun x hx => (h.opened x hx).mono hd

theorem Rows.readRows (h : Rows s) : Rows s.readRows where
  count := Nat.le_refl _
  reported n hn := by
    rcases List.mem_append.1 hn with hn | hn
    · exact h.reported n hn
    · rw [List.mem_singleton.1 hn]
      exact Nat.le_refl _
  shown := h.shown
  opened := h.opened
  crashed := h.crashed

/-- A row below the count the table has is a row of the list. -/
theorem Rows.meant (h : Rows s) {row : Nat} (hr : row < s.rowCount) :
    Meant s.dataSource.movies row (s.dataSource.movieAt row) := by
  refine ⟨?_, rfl⟩
  have := h.count
  simp only [DataSource.movieAt, ne_eq, List.getElem?_eq_none_iff]
  omega

theorem Rows.step (h : Rows s) (hs : step P s e = some s') : Rows s' := by
  cases step_cases hs with
  | silent e d ha hd hc =>
    exact h.grow (DataSource.step_movies_grow hd) ⟨rfl, rfl, rfl, rfl, rfl, rfl⟩
  | announced e d ha hd hc =>
    exact h.grow (DataSource.step_movies_grow hd) ⟨rfl, rfl, rfl, rfl, rfl, rfl⟩
  | viewDidLoad d hv hd =>
    exact h.grow (DataSource.step_movies_grow hd) ⟨rfl, rfl, rfl, rfl, rfl, rfl⟩
  | layout hm =>
    have h' := h.readRows
    exact ⟨h'.count, h'.reported, h'.shown, h'.opened, h'.crashed⟩
  | reloadData hq hm =>
    have h' := h.readRows
    exact ⟨h'.count, h'.reported, h'.shown, h'.opened, h'.crashed⟩
  | cell row hr =>
    refine ⟨h.count, h.reported, fun c hc => ?_, h.opened, h.crashed⟩
    rcases List.mem_append.1 hc with hc | hc
    · exact h.shown c hc
    · rw [List.mem_singleton.1 hc]
      exact ⟨h.meant hr, rfl⟩
  | select row hr =>
    refine ⟨h.count, h.reported, h.shown, fun d hd => ?_, h.crashed⟩
    rcases List.mem_append.1 hd with hd | hd
    · exact h.opened d hd
    · rw [List.mem_singleton.1 hd]
      exact h.meant hr
  | deinit k rating details hk =>
    obtain ⟨hne, -⟩ := h.opened details (List.mem_of_getElem? hk)
    unfold detailsDeinit
    split
    · exact h
    · exact ⟨h.count, h.reported, h.shown, h.opened, h.crashed⟩
    · -- `movie!` of a screen opened from a row is never nil
      rename_i ht
      unfold Details.deinit at ht
      split at ht
      · split at ht
        · cases ht
        · exact absurd ‹_› hne
      · cases ht

theorem rows {searchPhrase : Option String} {es : List Event}
    (h : (machine P searchPhrase).Run es s) : Rows s := by
  have hinit : Rows (init P searchPhrase) :=
    ⟨Nat.zero_le _, by simp [init], by simp [init], by simp [init], rfl⟩
  exact h.induct (P := fun _ s => Rows s) hinit fun _ _ _ _ _ hi hs => hi.step hs

/-- The cell that is filled for a row with a movie. -/
theorem cell_step (hs : step P s (.cellForRowAt row) = some s') {m : Movie}
    (hm : s.dataSource.movieAt row = some m) :
    ∃ cell, s'.shown = s.shown ++ [cell] ∧ cell.title = some m.originalTitle ∧
      cell.image = s.dataSource.poster m.ref := by
  cases step_cases hs with
  | cell _ hr => exact ⟨_, rfl, by simp [cellForRowAt, hm], by simp [cellForRowAt, hm]⟩

/-- The details screen that is opened from a row with a movie. -/
theorem select_step (hs : step P s (.didSelectRowAt row) = some s') {m : Movie}
    (hm : s.dataSource.movieAt row = some m) :
    ∃ details, s'.opened = s.opened ++ [details] ∧ details.movie = some m ∧
      (∀ rating, details.deinit rating = if rating ≠ 0 then .rate m rating else .unrated) := by
  cases step_cases hs with
  | select _ hr =>
    refine ⟨_, rfl, hm, fun rating => ?_⟩
    simp only [Details.deinit, didSelectRowAt, hm]

/-- **What a row means never changes.** For every row below a count that the
table has ever read there is one movie such that, in every later state:
`movieAt` returns it; a cell filled for that row has its title and its poster, and
the cells filled before have its title; a details screen opened from that row has
it, as have those opened before, and hands it over with the stars it is left with;
and no details screen has ever found its movie missing. -/
theorem rows_keep_movie (P : Platform) (searchPhrase : Option String) {es : List Event} {s : Screen}
    (h : (machine P searchPhrase).Run es s) {n row : Nat} (hn : n ∈ s.reported) (hrow : row < n) :
    ∃ m, ∀ fs s', (machine P searchPhrase).exec s fs = some s' →
      s'.dataSource.movieAt row = some m ∧
      (∀ s'', step P s' (.cellForRowAt row) = some s'' →
        ∃ cell, s''.shown = s'.shown ++ [cell] ∧ cell.title = some m.originalTitle ∧
          cell.image = s'.dataSource.poster m.ref) ∧
      (∀ c ∈ s'.shown, c.row = row → c.model = some m ∧ c.title = some m.originalTitle) ∧
      (∀ s'', step P s' (.didSelectRowAt row) = some s'' →
        ∃ details, s''.opened = s'.opened ++ [details] ∧ details.movie = some m ∧
          (∀ rating, details.deinit rating = if rating ≠ 0 then .rate m rating else .unrated)) ∧
      (∀ d ∈ s'.opened, d.row = row → d.movie = some m) ∧
      s'.crashed = false := by
  have hlt : row < s.dataSource.movies.length := Nat.lt_of_lt_of_le hrow ((rows h).reported n hn)
  refine ⟨s.dataSource.movies[row], fun fs s' hx => ?_⟩
  have hr' : Rows s' := rows (h.append hx)
  have hm : s'.dataSource.movies[row]? = some s.dataSource.movies[row] :=
    getElem?_grown (exec_movies hx) (List.getElem?_eq_getElem hlt)
  refine ⟨hm, fun _ hs => cell_step hs hm, fun c hc he => ?_, fun _ hs => select_step hs hm,
    fun d hd he => ?_, hr'.crashed⟩
  · obtain ⟨hmeant, htitle⟩ := hr'.shown c hc
    have hmodel : c.model = some s.dataSource.movies[row] := by rw [← hmeant.2, he, hm]
    exact ⟨hmodel, by rw [htitle, hmodel]; rfl⟩
  · rw [← (hr'.opened d hd).2, he, hm]

/-- One page of one movie, read by the table and opened. -/
def openRun : List Event :=
  (DataSource.lastPageRun.map .dataSource) ++
    [.viewDidLoad, .layout, .cellForRowAt 0, .didSelectRowAt 0]

theorem rows_keep_movie_up :
    ∃ s m, (machine (DataSource.upPlatform 1) none).Run openRun s ∧ m.title = "Up" ∧
      s.shown.map (·.title) = [some "Up"] ∧
      ∀ fs s', (machine (DataSource.upPlatform 1) none).exec s fs = some s' →
        s'.dataSource.movieAt 0 = some m ∧ s'.crashed = false ∧
        ∀ s'', step (DataSource.upPlatform 1) s' (.cellForRowAt 0) = some s'' →
          ∃ cell, s''.shown = s'.shown ++ [cell] ∧ cell.title = some "Up" ∧
            cell.image = s'.dataSource.poster m.ref := by
  have hx : ((machine (DataSource.upPlatform 1) none).exec (init (DataSource.upPlatform 1) none)
      openRun).map (fun s => (s.reported, s.shown.map (·.title), s.dataSource.movieAt 0)) =
        some ([1], [some "Up"], some ⟨.fromNetworkResponse up, 0⟩) := by
    decide +kernel
  obtain ⟨s, hs, hx⟩ := Option.map_eq_some_iff.1 hx
  obtain ⟨hr, hx⟩ := Prod.mk.inj hx
  obtain ⟨hc, hm⟩ := Prod.mk.inj hx
  obtain ⟨m, h⟩ := rows_keep_movie (DataSource.upPlatform 1) none hs
    (show 1 ∈ s.reported by rw [hr]; decide) (show 0 < 1 by decide)
  have h0 := (h [] s rfl).1
  rw [hm, Option.some.injEq] at h0
  subst h0
  refine ⟨s, ⟨.fromNetworkResponse up, 0⟩, hs, rfl, hc, fun fs s' hx => ?_⟩
  obtain ⟨hmovie, hcell, -, -, -, hcrashed⟩ := h fs s' hx
  exact ⟨hmovie, hcrashed, hcell⟩

end MovieDBApp.L4.Screen
