import MovieDBApp.L3Feed.Paging

/-!
# Past the last page

`totalPages` is decoded and not used: near the end of the list a prefetch asks
for the current page, whether the server has it or not.

* `step_tasks`: how to keep a property of all the list tasks.
* `beyond_last_page`: which requests can be made, and that one past the last
  page adds nothing.
* `beyond_last_page_requested`: there are such requests.
-/
namespace MovieDBApp.L3.DataSource
open MovieDBApp.Core MovieDBApp.L1 MovieDBApp.L2

variable {P : Platform} {s s' : DataSource} {e : Event}

/-- The body of a transfer, when it is a page. -/
def decodedPage (P : Platform) (transfer : Transfer) : Option MoviesNetworkResponse :=
  transfer.result.toOption.bind (decodeMovies P)

theorem outcome_eq_ok {P : Platform} {transfer : Transfer} {newMovies : List MovieFields}
    (h : outcome P transfer = .ok newMovies) : ∃ body, decodedPage P transfer = some body ∧
      newMovies = body.results.map MovieFields.fromNetworkResponse := by
  unfold outcome at h
  unfold decodedPage
  cases hr : transfer.result with
  | error error => rw [hr] at h; cases h
  | ok data =>
    rw [hr] at h
    simp only at h
    cases hd : decodeMovies P data with
    | none => rw [hd] at h; cases h
    | some body =>
      rw [hd] at h
      exact ⟨body, by simpa [Except.toOption] using hd, (Except.ok.inj h).symm⟩

/-- Every page the server sends reports `T` pages, and is empty beyond them. -/
def Reports (P : Platform) (T : Nat) (s : DataSource) (e : Event) : Prop :=
  ∀ ended ∈ e.ended, ∀ task ∈ s.service.tasks[ended.1]?, ∀ body ∈ decodedPage P ended.2,
    body.totalPages = T ∧ (T < task.request.page → body.results = [])

instance (P : Platform) (T : Nat) (s : DataSource) (e : Event) : Decidable (Reports P T s e) :=
  inferInstanceAs (Decidable (∀ ended ∈ e.ended, ∀ task ∈ s.service.tasks[ended.1]?,
    ∀ body ∈ decodedPage P ended.2,
      body.totalPages = T ∧ (T < task.request.page → body.results = [])))

/-- What holds of every task is kept by a step that keeps it of a new task, of
an ended, a completed and a handled one. -/
theorem step_tasks {Q : ListTask → Prop} (hs : step P s e = some s')
    (h : ∀ task ∈ s.service.tasks, Q task)
    (hnew : ∀ (c : Nat) (request : ListCall), s.main = .call request →
      Q ⟨c, request, request.urlComponents P, .running, .transferring⟩)
    (hended : ∀ i transfer (task : ListTask), e.ended = some (i, transfer) →
      s.service.tasks[i]? = some task → Q task → Q { task with phase := .arrived transfer })
    (hleft : ∀ task, Q task → Q { task with state := .completed })
    (hhandled : ∀ task transfer, task.phase = .arrived transfer → Q task →
      Q { task with phase := .handled transfer }) :
    ∀ task ∈ s'.service.tasks, Q task := by
  have hhandle : ∀ i service, s.service.handle P i = some service →
      ∀ task ∈ service.tasks, Q task := by
    intro i service hv
    obtain ⟨task, transfer, ht, hp, rfl⟩ := Service.handle_cases hv
    refine forall_mem_modify h fun a ha => ?_
    rw [ht, Option.some.injEq] at ha
    subst ha
    exact hhandled task transfer hp (h task (List.mem_of_getElem? ht))
  cases step_cases hs with
  | call request hm =>
    rw [Service.call_eq_fetch]
    unfold Service.fetch
    split
    · exact h
    · exact forall_mem_snoc h (hnew _ request hm)
  | transferEnded i transfer service hv =>
    obtain ⟨task, ht, hp, rfl⟩ := Service.transferEnded_cases hv
    exact forall_mem_modify h fun a ha => hended i transfer a rfl ha (h a (List.mem_of_getElem? ha))
  | leaveRunning i service hv =>
    obtain ⟨task, ht, hp, rfl⟩ := Service.leaveRunning_cases hv
    exact forall_mem_modify h fun a ha => hleft a (h a (List.mem_of_getElem? ha))
  | failed i transfer service error hh hw hv ho => exact hhandle i service hv
  | succeeded i transfer service newMovies hh hw hv ho => exact hhandle i service hv
  | _ => exact h

/-- The response of a task. -/
def received : Phase → Option Transfer
  | .transferring => none
  | .arrived transfer => some transfer
  | .handled transfer => some transfer

/-- A request past the last page gets nothing. -/
theorem nothing_beyond {T : Nat} {searchPhrase : Option String} {es : List Event}
    (h : (machine P searchPhrase).Run es s)
    (hreports : (machine P searchPhrase).Along (Reports P T) (init P searchPhrase) es) :
    ∀ task ∈ s.service.tasks, T < task.request.page → ∀ transfer ∈ received task.phase,
      ∀ newMovies, outcome P transfer = .ok newMovies → newMovies = [] := by
  refine h.induct_along (P := fun _ s => ∀ task ∈ s.service.tasks, T < task.request.page →
    ∀ transfer ∈ received task.phase, ∀ newMovies, outcome P transfer = .ok newMovies →
      newMovies = []) ?_ ?_ hreports
  · intro task ht
    have : task.phase = .transferring := by
      have hm : task ∈ (init P searchPhrase).service.tasks := ht
      cases searchPhrase <;> simp [init, loadCall, Service.call, Service.getMovies, Service.search,
        Service.fetch, Service.new, Service.isFetching] at hm <;> simp [hm]
    simp [this, received]
  · intro es s e s' _ ih hr hs
    refine step_tasks hs ih ?_ ?_ (fun _ hq => hq) ?_
    · intro c request _ _ transfer ht; cases ht
    · intro i transfer task he ht _ hT t ht' newMovies ho
      cases ht'
      obtain ⟨body, hb, rfl⟩ := outcome_eq_ok ho
      rw [(hr (i, transfer) he task ht body hb).2 hT, List.map_nil]
    · intro task transfer hp hq hT t ht
      exact hq hT t (by rw [hp]; exact ht)

@[simp] theorem loadCall_page (searchPhrase : Option String) (page : Nat) :
    (loadCall searchPhrase page).page = page := by cases searchPhrase <;> rfl

theorem pagesRead_le {searchPhrase : Option String} {es : List Event}
    (h : (machine P searchPhrase).Run es s) :
    ∀ n ∈ 1 :: (machine P searchPhrase).observe pagesRead es,
      n ≤ 1 + (successes ((machine P searchPhrase).observe (delivered P) es)).length := by
  refine h.induct (P := fun es _ => ∀ n ∈ 1 :: (machine P searchPhrase).observe pagesRead es,
    n ≤ 1 + (successes ((machine P searchPhrase).observe (delivered P) es)).length) (by simp) ?_
  intro es s e s' hr ih hs n hn
  rw [Machine.observe_snoc _ _ _ hr, ← List.cons_append] at hn
  rw [Machine.observe_snoc _ _ _ hr, successes_append, List.length_append]
  rcases List.mem_append.1 hn with hn | hn
  · have := ih n hn
    omega
  · cases e with
    | loadDataSource =>
      rw [List.mem_singleton.1 hn]
      have := (accounted hr).page
      omega
    | _ => cases hn

/-- `loadDataSource` is entered only near the end of the list. -/
theorem enter_step (hs : step P s e = some s') (hi : s.main = .idle) (hm : s'.main ≠ .idle) :
    ∃ rows row, e = .prefetchRowsAt rows ∧ rows.max? = some row ∧
      (row : Int) > (s.movies.length : Int) - 5 := by
  cases step_cases hs with
  | near rows _ hw =>
    unfold wantsMore at hw
    split at hw
    · rename_i row hr
      exact ⟨rows, row, rfl, hr, by simpa using hw⟩
    · cases hw
  | call request hm' => exact absurd hi (by simp [hm'])
  | load hm' => exact absurd hi (by simp [hm'])
  | _ => exact absurd hi hm

/-- A task is started only by a call, and while no other one is running. -/
theorem start_step (hwf : s.service.WF P) (hs : step P s e = some s')
    (hn : s'.service.tasks.length ≠ s.service.tasks.length) :
    e = .callService ∧ (∀ task ∈ s.service.tasks, task.state ≠ .running) ∧
      ∃ request, s.main = .call request ∧ ∃ task, s'.service.tasks = s.service.tasks ++ [task] ∧
        task.request = request := by
  cases step_cases hs with
  | call request hm =>
    rw [Service.call_eq_fetch] at hn ⊢
    unfold Service.fetch at hn ⊢
    split at hn
    · exact absurd rfl hn
    · rename_i hf
      rw [if_neg hf]
      exact ⟨rfl, fun task ht hr => hf (hwf.isFetching_iff.2 ⟨task, ht, hr⟩), request, hm, _, rfl,
        rfl⟩
  | transferEnded i transfer service hv =>
    obtain ⟨_, _, _, rfl⟩ := Service.transferEnded_cases hv
    simp at hn
  | leaveRunning i service hv =>
    obtain ⟨_, _, _, rfl⟩ := Service.leaveRunning_cases hv
    simp at hn
  | failed i transfer service error hh hw hv =>
    obtain ⟨_, _, _, _, rfl⟩ := Service.handle_cases hv
    simp at hn
  | succeeded i transfer service newMovies hh hw hv =>
    obtain ⟨_, _, _, _, rfl⟩ := Service.handle_cases hv
    simp at hn
  | _ => exact absurd rfl hn

/-- **Requests past the last page.** On a server that reports `T` pages and
sends nothing beyond them, in every state of every run:

* a task's page is at most one more than the number of successful responses so
  far, so a page past `T` is asked for only after `T` of them;
* the page read next is one more than that number, less what the running
  handler still owes;
* after `init`, a request is made only by a prefetch near the end of the list
  and accepted only while no list task runs;
* the handler of a response to a request past the last page appends nothing. -/
theorem beyond_last_page (P : Platform) (T : Nat) (searchPhrase : Option String) {es : List Event}
    {s : DataSource} (h : (machine P searchPhrase).Run es s)
    (hreports : (machine P searchPhrase).Along (Reports P T) (init P searchPhrase) es) :
    (∀ task ∈ s.service.tasks, task.request.page ≤
      1 + (successes ((machine P searchPhrase).observe (delivered P) es)).length) ∧
    s.page + owed s.handler =
      1 + (successes ((machine P searchPhrase).observe (delivered P) es)).length ∧
    (∀ e s', step P s e = some s' → s.main = .idle → s'.main ≠ .idle →
      ∃ rows row, e = .prefetchRowsAt rows ∧ rows.max? = some row ∧
        (row : Int) > (s.movies.length : Int) - 5) ∧
    (∀ e s', step P s e = some s' → s'.service.tasks.length ≠ s.service.tasks.length →
      e = .callService ∧ (∀ task ∈ s.service.tasks, task.state ≠ .running) ∧
        ∃ request, s.main = .call request ∧ ∃ task, s'.service.tasks = s.service.tasks ++ [task] ∧
          task.request = request) ∧
    (∀ (i : Nat) (task : ListTask), s.handler = .response i → s.service.tasks[i]? = some task →
      T < task.request.page → ∀ s', step P s .handlerStep = some s' →
        s'.handler = .idle ∨ s'.handler = .append []) := by
  have hwf := service_wf h
  refine ⟨fun task ht => ?_, (accounted h).page, fun _ _ hs hi hm => enter_step hs hi hm,
    fun _ _ hs hn => start_step hwf hs hn, fun i task hh ht hT s' hs => ?_⟩
  · obtain ⟨i, hi⟩ := List.getElem?_of_mem ht
    obtain ⟨page, hp, he⟩ := task_request h hi
    rw [he, loadCall_page]
    exact pagesRead_le h page (List.mem_of_getElem? hp)
  · cases step_cases hs with
    | failed => exact .inl rfl
    | succeeded j transfer service newMovies hh' hw hv ho =>
      rw [hh, Handler.response.injEq] at hh'
      subst hh'
      obtain ⟨task', ht', hp⟩ := Service.waiting_eq_some.1 hw
      rw [ht, Option.some.injEq] at ht'
      subst ht'
      have := nothing_beyond h hreports task (List.mem_of_getElem? ht) hT transfer
        (by rw [hp]; rfl) newMovies ho
      subst this
      exact .inr rfl
    | append _ hh' | advance hh' | loopEnd _ _ hh' | loopSkip _ _ hh' | loopRequest _ _ _ _ hh'
    | loopLoad _ _ _ _ hh' => rw [hh] at hh'; cases hh'

/-! ## One page, and a request for the second -/

def lastPageRun : List Event :=
  [.transferEnded 0 (upTransfer 1), .leaveRunning 0, .runHandler 0] ++
    handledAll 2

/-- `T = 1`: page 1 has been delivered, and page 2 is requested. -/
theorem beyond_last_page_requested :
    ∃ s s', (machine (upPlatform 1) none).Run lastPageRun s ∧
      (machine (upPlatform 1) none).exec s prefetchFirst = some s' ∧
      (machine (upPlatform 1) none).Along (Reports (upPlatform 1) 1) (init (upPlatform 1) none)
        (lastPageRun ++ prefetchFirst) ∧
      (machine (upPlatform 1) none).observe (delivered (upPlatform 1)) lastPageRun =
        [.ok [.fromNetworkResponse up]] ∧
      s'.service.tasks.map (·.request) = s.service.tasks.map (·.request) ++ [.getMovies 2] := by
  have hx : (((machine (upPlatform 1) none).exec (init (upPlatform 1) none) lastPageRun).bind
      fun s => ((machine (upPlatform 1) none).exec s prefetchFirst).map fun s' =>
        (s.service.tasks.map (·.request), s'.service.tasks.map (·.request))) =
      some ([.getMovies 1], [.getMovies 1, .getMovies 2]) := by
    decide +kernel
  obtain ⟨s, hs, hx⟩ := Option.bind_eq_some_iff.1 hx
  obtain ⟨s', hs', hx⟩ := Option.map_eq_some_iff.1 hx
  obtain ⟨h1, h2⟩ := Prod.mk.inj hx
  exact ⟨s, s', hs, hs', by decide +kernel, by decide +kernel, by rw [h1, h2]; rfl⟩

theorem beyond_last_page_up :
    ∃ s, (machine (upPlatform 1) none).Run (lastPageRun ++ prefetchFirst) s ∧
      s.service.tasks.map (·.request.page) = [1, 2] ∧ owed s.handler = 0 ∧ s.page = 1 + 1 ∧
      ∀ task ∈ s.service.tasks, task.request.page ≤ 1 + 1 := by
  have hx : ((machine (upPlatform 1) none).exec (init (upPlatform 1) none)
      (lastPageRun ++ prefetchFirst)).map
      (fun s => (s.service.tasks.map (·.request.page), s.handler)) = some ([1, 2], .idle) := by
    decide +kernel
  obtain ⟨s, hs, hx⟩ := Option.map_eq_some_iff.1 hx
  obtain ⟨h1, h2⟩ := Prod.mk.inj hx
  have ho : (successes ((machine (upPlatform 1) none).observe (delivered (upPlatform 1))
      (lastPageRun ++ prefetchFirst))).length = 1 := by
    decide +kernel
  obtain ⟨hp, hpage, -⟩ := beyond_last_page (upPlatform 1) 1 none hs (by decide +kernel)
  rw [ho] at hp hpage
  exact ⟨s, hs, h1, by rw [h2]; rfl, by rw [h2] at hpage; exact hpage, hp⟩

end MovieDBApp.L3.DataSource
