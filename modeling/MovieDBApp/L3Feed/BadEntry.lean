import MovieDBApp.L3Feed.Accounting

/-!
# One entry of a page that does not decode

`results` decodes when every element of it does. A page with one bad entry is
delivered as a `decodingError`: none of its movies is listed, and the data source
stays where it is.

* `outcome_whole`, `outcome_bad`: what the handler makes of a list body.
* `one_bad_entry`: what becomes of the call, the list and the page.
-/
namespace MovieDBApp.L3.DataSource
open MovieDBApp.Core MovieDBApp.L1 MovieDBApp.L1.Json MovieDBApp.L2

/-! ## List bodies -/

/-- The body is an object with the three integers of a page and the array
`elements` as its results, whatever they are. -/
def ListBody (P : Platform) (transfer : Transfer) (elements : List Json) : Prop :=
  ∃ data c page totalResults totalPages,
    transfer.result = .ok data ∧ P.json data = some (.object c) ∧
    Json.decode c "page" decodeInt = some page ∧
    Json.decode c "total_results" decodeInt = some totalResults ∧
    Json.decode c "total_pages" decodeInt = some totalPages ∧
    lookup c "results" = some (.array elements)

/-- The movies of the elements that decode by themselves. -/
def decodable (elements : List Json) : List MovieFields :=
  (elements.filterMap MovieNetworkResponse.decode).map MovieFields.fromNetworkResponse

variable {P : Platform} {transfer : Transfer} {elements : List Json}

/-- A list body decodes when its elements do. -/
theorem ListBody.decodeMovies (h : ListBody P transfer elements) :
    ∃ data page totalResults totalPages, transfer.result = .ok data ∧
      L2.decodeMovies P data = (elements.mapM MovieNetworkResponse.decode).map fun results =>
        ⟨page, totalResults, totalPages, results⟩ := by
  obtain ⟨data, c, page, totalResults, totalPages, hr, hj, h1, h2, h3, h4⟩ := h
  refine ⟨data, page, totalResults, totalPages, hr, ?_⟩
  have hresults : Json.decode c "results" (decodeArray MovieNetworkResponse.decode) =
      elements.mapM MovieNetworkResponse.decode := by
    rw [Json.decode, h4]
    rfl
  simp only [L2.decodeMovies, hj, Option.bind_some, MoviesNetworkResponse.decode, h1, h2, h3,
    hresults, bind, pure]
  cases elements.mapM MovieNetworkResponse.decode <;> rfl

theorem outcome_whole (h : ListBody P transfer elements)
    (hd : ∀ x ∈ elements, MovieNetworkResponse.decode x ≠ none) :
    outcome P transfer = .ok (decodable elements) := by
  obtain ⟨data, page, totalResults, totalPages, hr, he⟩ := h.decodeMovies
  rw [mapM_eq_filterMap hd] at he
  simp only [outcome, hr, he, Option.map_some, decodable]

theorem outcome_bad (h : ListBody P transfer elements) {x : Json} (hx : x ∈ elements)
    (hd : MovieNetworkResponse.decode x = none) : outcome P transfer = .error .decodingError := by
  obtain ⟨data, page, totalResults, totalPages, hr, he⟩ := h.decodeMovies
  rw [mapM_eq_none hx hd] at he
  simp only [outcome, hr, he, Option.map_none]

/-! ## The call, the list and the page -/

variable {s s' : DataSource}

/-- The call that task `i` was started for has been answered, with `result` only. -/
def ReportedBy (s : DataSource) (i : Nat) (result : MoviesResult) : Prop :=
  ∃ task call, s.service.tasks[i]? = some task ∧ s.service.calls[task.call]? = some call ∧
    call.request = task.request ∧ call.invoked = [result]

/-- A handler that runs answers the call of its task. -/
theorem reportedBy_handle (h : s.service.WF P) {i : Nat} {service : Service}
    (hs : s.service.handle P i = some service) (hw : s.service.waiting i = some transfer)
    (he : s'.service = service) : ReportedBy s' i (outcome P transfer) := by
  have hwf := h.handle hs
  obtain ⟨task, transfer', ht, hp, rfl⟩ := Service.handle_cases hs
  obtain ⟨task', ht', hp'⟩ := Service.waiting_eq_some.1 hw
  rw [ht, Option.some.injEq] at ht'
  rw [← ht', hp, Phase.arrived.injEq] at hp'
  subst hp'
  have hi : (s.service.tasks.modify i fun k => { k with phase := .handled transfer' })[i]? =
      some { task with phase := .handled transfer' } := getElem?_modify_self ht
  obtain ⟨call, hc, hreq, hinv⟩ := hwf.invoked hi rfl
  rw [ReportedBy, he]
  exact ⟨_, call, hi, hc, hreq, hinv⟩

/-- **One bad entry costs the page, and only that does.** In every run, when the
handler of a list task meets a list body: if every element decodes by itself, the
call is answered with all their movies, in order, and two steps later they are at
the end of the list and `page` is one more; if one does not, the call is answered
with `decodingError`, and `movies` and `page` stay as they are. -/
theorem one_bad_entry (P : Platform) (searchPhrase : Option String) {es : List Event}
    {s : DataSource} (h : (machine P searchPhrase).Run es s) {i : Nat} {transfer : Transfer}
    {elements : List Json} (hh : s.handler = .response i)
    (hw : s.service.waiting i = some transfer) (hb : ListBody P transfer elements) :
    ∃ s', step P s .handlerStep = some s' ∧
      ((∀ x ∈ elements, MovieNetworkResponse.decode x ≠ none) →
        ReportedBy s' i (.ok (decodable elements)) ∧
        ∃ s'', (machine P searchPhrase).exec s' [.handlerStep, .handlerStep] = some s'' ∧
          s''.movies.map Movie.toMovieFields =
            s.movies.map Movie.toMovieFields ++ decodable elements ∧
          s''.page = s.page + 1) ∧
      ((∃ x ∈ elements, MovieNetworkResponse.decode x = none) →
        ReportedBy s' i (.error .decodingError) ∧
        s'.movies = s.movies ∧ s'.page = s.page ∧ s'.handler = .idle) := by
  obtain ⟨task, ht, hp⟩ := Service.waiting_eq_some.1 hw
  obtain ⟨service, hs⟩ : ∃ service, s.service.handle P i = some service := by
    simp only [Service.handle, ht, hw]
    exact ⟨_, rfl⟩
  have hwf := service_wf h
  have hstep : step P s .handlerStep =
      some ({ s with service := service }.moviesCompletion (outcome P transfer)) := by
    simp only [step, handlerStep, hh, hw, hs]
  have hreport : ∀ s' : DataSource, s'.service = service → ReportedBy s' i (outcome P transfer) :=
    fun s' he => reportedBy_handle hwf hs hw he
  refine ⟨_, hstep, fun hd => ?_, ?_⟩
  · rw [outcome_whole hb hd] at hreport ⊢
    exact ⟨hreport _ rfl, _, rfl, by simp [moviesCompletion], rfl⟩
  · rintro ⟨x, hx, hd⟩
    rw [outcome_bad hb hx hd] at hreport ⊢
    exact ⟨hreport _ rfl, rfl, rfl, rfl⟩

/-! ## A page with a bad entry -/

theorem listBody_serving {page : MoviesNetworkResponse} (h : page.Fits) (files : List Data) :
    ListBody (.serving page files) ⟨some (ascii page.text), none⟩
      (page.results.map MovieNetworkResponse.json) := by
  refine ⟨_, _, page.page, page.totalResults, page.totalPages, rfl, rfl, ?_, ?_, ?_, rfl⟩
  · exact decodeInt_number h.page
  · exact decodeInt_number h.totalResults
  · exact decodeInt_number h.totalPages

theorem one_bad_entry_up :
    ∃ s s' s'', (machine (upPlatform 1) none).Run
        [.transferEnded 0 (upTransfer 1), .runHandler 0] s ∧
      step (upPlatform 1) s .handlerStep = some s' ∧
      ReportedBy s' 0 (.ok (decodable [up.json])) ∧
      (machine (upPlatform 1) none).exec s' [.handlerStep, .handlerStep] = some s'' ∧
      s''.page = s.page + 1 := by
  have hr : (machine (upPlatform 1) none).Run
      [.transferEnded 0 (upTransfer 1), .runHandler 0] _ := rfl
  have hfits : (upPage 1).Fits := ⟨by decide, by decide, by decide, by decide⟩
  obtain ⟨s', hs, hwhole, -⟩ :=
    one_bad_entry (upPlatform 1) none hr rfl rfl (listBody_serving hfits [])
  obtain ⟨hreport, s'', hx, -, hpage⟩ := hwhole (by
    rintro x hx
    rw [List.mem_singleton.1 hx, MovieNetworkResponse.decode_json (by decide)]
    exact Option.some_ne_none _)
  exact ⟨_, s', s'', hr, hs, hreport, hx, hpage⟩

/-- A movie without a release date, as the server may send it. -/
def undated : Json :=
  .object [("poster_path", .null), ("adult", .bool false), ("overview", .string ""),
    ("id", .number 48843 0), ("original_title", .string "Up"), ("title", .string "Up")]

def undatedPage : Json :=
  .object [("page", .number 1 0), ("total_results", .number 2 0), ("total_pages", .number 1 0),
    ("results", .array [up.json, undated])]

def undatedText : List Char :=
  '\x7b' :: ("\"page\":1,\"total_results\":2,\"total_pages\":1,\"results\":[" ++ up.text ++
    ",\x7b\"poster_path\":null,\"adult\":false,\"overview\":\"\",\"id\":48843," ++
    "\"original_title\":\"Up\",\"title\":\"Up\"\x7d]\x7d").toList

def undatedPlatform : Platform :=
  { Platform.serving (upPage 1) [] with
    json := fun data => if data.isEmpty then none else some undatedPage }

def undatedTransfer : Transfer := ⟨some (ascii undatedText), none⟩

/-- One movie of the page decodes; the page is lost. -/
theorem undated_costs_page :
    ListBody undatedPlatform undatedTransfer [up.json, undated] ∧
    decodable [up.json, undated] = [.fromNetworkResponse up] ∧
    ∃ s, (machine undatedPlatform none).Run
        [.transferEnded 0 undatedTransfer, .runHandler 0, .handlerStep] s ∧
      s.service.calls.map (·.invoked) = [[.error .decodingError]] ∧ s.movies = [] ∧ s.page = 1 ∧
      s.handler = .idle := by
  refine ⟨⟨_, _, 1, 2, 1, rfl, rfl, by decide, by decide, by decide, rfl⟩, ?_, ?_⟩
  · have hup : MovieNetworkResponse.decode up.json = some up :=
      MovieNetworkResponse.decode_json (by decide)
    have hundated : MovieNetworkResponse.decode undated = none := by decide
    simp [decodable, hup, hundated]
  · have hx : ((machine undatedPlatform none).exec (init undatedPlatform none)
        [.transferEnded 0 undatedTransfer, .runHandler 0, .handlerStep]).map
        (fun s => (s.service.calls.map (·.invoked), s.movies, s.page, s.handler)) =
          some ([[.error .decodingError]], [], 1, .idle) := by
      decide +kernel
    obtain ⟨s, hs, hx⟩ := Option.map_eq_some_iff.1 hx
    simp only [Prod.mk.injEq] at hx
    exact ⟨s, hs, hx⟩

end MovieDBApp.L3.DataSource
