import MovieDBApp.L3Feed.Accounting

/-!
# Pages, one after the other

The main thread reads `page` and passes the service's guard at moments when the
delegate queue may still owe `page` an advance: a task can leave `.running`
before its handler has run. A request accepted then asks for a page again, and
its response advances `page` past the one after it.

* `InOrder`: what holds, also inside a handler, if every accepted request carries
  the current `page` while nothing is owed (`OnTime`).
* `pages_in_order`: then `movies` is the server's pages in order.
-/
namespace MovieDBApp.L3.DataSource
open MovieDBApp.Core MovieDBApp.L1 MovieDBApp.L2

variable {P : Platform} {s s' : DataSource} {e : Event}

/-! ## A server that answers by page -/

/-- The transfer that ends with an event. -/
def Event.ended : Event → Option (Nat × Transfer)
  | .transferEnded i transfer => some (i, transfer)
  | _ => none

/-- A transfer that ends with a decodable body delivers the list of its
request's page. -/
def Serves (P : Platform) (R : Nat → List MovieFields) (s : DataSource) (e : Event) : Prop :=
  ∀ ended ∈ e.ended, ∀ task ∈ s.service.tasks[ended.1]?,
    ∀ newMovies ∈ (outcome P ended.2).toOption, newMovies = R task.request.page

instance (P : Platform) (R : Nat → List MovieFields) (s : DataSource) (e : Event) :
    Decidable (Serves P R s e) :=
  inferInstanceAs (Decidable (∀ ended ∈ e.ended, ∀ task ∈ s.service.tasks[ended.1]?,
    ∀ newMovies ∈ (outcome P ended.2).toOption, newMovies = R task.request.page))

/-- `R(1) ++ … ++ R(n)` -/
def firstPages (R : Nat → List MovieFields) (n : Nat) : List MovieFields :=
  (List.range n).flatMap fun k => R (k + 1)

theorem firstPages_succ (R : Nat → List MovieFields) (n : Nat) :
    firstPages R (n + 1) = firstPages R n ++ R (n + 1) := by
  simp [firstPages, List.range_succ]

/-! ## Requests made on time -/

/-- A response that has arrived, not been handled, and will be a success. -/
def success (P : Platform) : Phase → Option (List MovieFields)
  | .arrived transfer => (outcome P transfer).toOption
  | _ => none

/-- No successful response still has to be appended or to advance `page`. -/
def NothingDue (P : Platform) (s : DataSource) : Prop :=
  owed s.handler = 0 ∧ ∀ task ∈ s.service.tasks, success P task.phase = none

instance (P : Platform) (s : DataSource) : Decidable (NothingDue P s) :=
  inferInstanceAs (Decidable (_ ∧ _))

/-- A request that the service is about to accept carries the current page, and
nothing is due. -/
def OnTime (P : Platform) (s : DataSource) (e : Event) : Prop :=
  e = .callService → s.service.isFetching = false →
    ∀ request ∈ entered s.main, request.page = s.page ∧ NothingDue P s

instance (P : Platform) (s : DataSource) (e : Event) : Decidable (OnTime P s e) :=
  inferInstanceAs (Decidable (e = .callService → s.service.isFetching = false →
    ∀ request ∈ entered s.main, request.page = s.page ∧ NothingDue P s))

/-- A task whose response may still be delivered as success. -/
def Live (P : Platform) (task : ListTask) : Prop :=
  task.phase = .transferring ∨ success P task.phase ≠ none

/-- At most one task is live, it is for `page`, and responses are the
server's. -/
structure Due (P : Platform) (R : Nat → List MovieFields) (page : Nat) (tasks : List ListTask) :
    Prop where
  unique : ∀ (i j : Nat) (a b : ListTask), tasks[i]? = some a → tasks[j]? = some b → Live P a →
    Live P b → i = j
  page : ∀ a ∈ tasks, Live P a → a.request.page = page
  served : ∀ a ∈ tasks, ∀ newMovies, success P a.phase = some newMovies →
    newMovies = R a.request.page

variable {R : Nat → List MovieFields} {page : Nat} {tasks : List ListTask}

theorem Due.snoc (h : Due P R page tasks) (hn : ∀ a ∈ tasks, ¬ Live P a) {task : ListTask}
    (hp : task.request.page = page) (ht : task.phase = .transferring) :
    Due P R page (tasks ++ [task]) where
  unique i j a b hi hj ha hb := by
    rcases getElem?_snoc.1 hi with hi | ⟨rfl, -⟩
    · exact absurd ha (hn a (List.mem_of_getElem? hi))
    · rcases getElem?_snoc.1 hj with hj | ⟨rfl, -⟩
      · exact absurd hb (hn b (List.mem_of_getElem? hj))
      · rfl
  page := forall_mem_snoc (fun a ha hl => absurd hl (hn a ha)) fun _ => hp
  served := forall_mem_snoc h.served fun newMovies hs => by rw [ht] at hs; cases hs

/-- An update of task `i` that makes nothing live. -/
theorem Due.modify (h : Due P R page tasks) {i : Nat} {f : ListTask → ListTask}
    (hreq : ∀ a, (f a).request = a.request)
    (hlive : ∀ a, tasks[i]? = some a → Live P (f a) → Live P a)
    (hserved : ∀ a, tasks[i]? = some a → ∀ newMovies, success P (f a).phase = some newMovies →
      newMovies = R a.request.page) :
    Due P R page (tasks.modify i f) := by
  have hback : ∀ (j : Nat) (b : ListTask), (tasks.modify i f)[j]? = some b → Live P b →
      ∃ a, tasks[j]? = some a ∧ Live P a := by
    intro j b hb hl
    obtain ⟨a, ha, rfl⟩ := getElem?_modify_iff.1 hb
    by_cases hij : i = j
    · subst hij
      rw [if_pos rfl] at hl
      exact ⟨a, ha, hlive a ha hl⟩
    · rw [if_neg hij] at hl
      exact ⟨a, ha, hl⟩
  refine ⟨fun j k a b hj hk ha hb => ?_, ?_, ?_⟩
  · obtain ⟨a', hj, ha⟩ := hback j a hj ha
    obtain ⟨b', hk, hb⟩ := hback k b hk hb
    exact h.unique j k a' b' hj hk ha hb
  · refine forall_mem_modify h.page fun a ha hl => ?_
    rw [hreq]
    exact h.page a (List.mem_of_getElem? ha) (hlive a ha hl)
  · refine forall_mem_modify h.served fun a ha newMovies hs => ?_
    rw [hreq]
    exact hserved a ha newMovies hs

theorem not_live_modify {i : Nat} {f : ListTask → ListTask} (hn : ∀ a ∈ tasks, ¬ Live P a)
    (hlive : ∀ a, tasks[i]? = some a → Live P (f a) → Live P a) :
    ∀ b ∈ tasks.modify i f, ¬ Live P b :=
  forall_mem_modify hn fun a ha hl => hn a (List.mem_of_getElem? ha) (hlive a ha hl)

theorem not_live_handled (task : ListTask) (transfer : Transfer) :
    ¬ Live P { task with phase := .handled transfer } := by
  rintro (h | h)
  · cases h
  · exact h rfl

/-- The invariant of the runs with requests on time. -/
structure InOrder (P : Platform) (R : Nat → List MovieFields) (s : DataSource) : Prop where
  due : Due P R s.page s.service.tasks
  clear : owed s.handler ≠ 0 → ∀ a ∈ s.service.tasks, ¬ Live P a
  listed : ∃ n, s.page = n + 1 ∧
    (s.movies ++ unlisted s.handler).map Movie.toMovieFields = firstPages R (n + owed s.handler)

/-- A step that concerns neither the list nor the tasks. -/
theorem InOrder.congr (h : InOrder P R s) (ht : s'.service.tasks = s.service.tasks)
    (hm : s'.movies = s.movies) (hp : s'.page = s.page)
    (hu : unlisted s'.handler = unlisted s.handler) (ho : owed s'.handler = owed s.handler) :
    InOrder P R s' where
  due := by rw [ht, hp]; exact h.due
  clear := by rw [ht, ho]; exact h.clear
  listed := by rw [hm, hp, hu, ho]; exact h.listed

/-- Only one live task, and it is answered: nothing else is live. -/
theorem InOrder.answered (h : InOrder P R s) {i : Nat} {task : ListTask} {transfer : Transfer}
    (ht : s.service.tasks[i]? = some task) (hl : Live P task) :
    ∀ b ∈ s.service.tasks.modify i fun k => { k with phase := .handled transfer }, ¬ Live P b := by
  intro b hb hb'
  obtain ⟨j, hj⟩ := List.getElem?_of_mem hb
  obtain ⟨a, ha, rfl⟩ := getElem?_modify_iff.1 hj
  by_cases hij : i = j
  · rw [if_pos hij] at hb'
    exact not_live_handled a transfer hb'
  · rw [if_neg hij] at hb'
    exact hij (h.due.unique i j task a ht ha hl hb')

theorem InOrder.fetch (h : InOrder P R s) (hwf : s.service.WF P) {request : ListCall}
    (hm : s.main = .call request) (hon : OnTime P s .callService) :
    InOrder P R { s with service := s.service.call P request, main := .idle } := by
  rw [Service.call_eq_fetch]
  unfold Service.fetch
  cases hf : s.service.isFetching with
  | true => exact h.congr rfl rfl rfl rfl rfl
  | false =>
    obtain ⟨hpage, hdue, harr⟩ := hon rfl hf request (by simp [entered, hm])
    have hidle : ∀ a ∈ s.service.tasks, ¬ Live P a := by
      rintro a ha (hp | hp)
      · obtain ⟨i, hi⟩ := List.getElem?_of_mem ha
        have := hwf.isFetching_iff.2 ⟨a, ha, hwf.transferring i a hi hp⟩
        rw [hf] at this
        cases this
      · exact hp (harr a ha)
    exact ⟨h.due.snoc hidle hpage rfl, fun ho => absurd hdue ho, h.listed⟩

theorem InOrder.step (h : InOrder P R s) (hwf : s.service.WF P) (hs : step P s e = some s')
    (hserves : Serves P R s e) (hon : OnTime P s e) : InOrder P R s' := by
  cases step_cases hs with
  | call request hm => exact h.fetch hwf hm hon
  | transferEnded i transfer service hv =>
    obtain ⟨task, ht, hp, rfl⟩ := Service.transferEnded_cases hv
    have hlive : ∀ a, s.service.tasks[i]? = some a → Live P { a with phase := .arrived transfer } →
        Live P a := by
      intro a ha _
      rw [ht, Option.some.injEq] at ha
      exact .inl (ha ▸ hp)
    refine ⟨h.due.modify (fun _ => rfl) hlive fun a ha newMovies hn => ?_,
      fun ho => not_live_modify (h.clear ho) hlive, h.listed⟩
    exact hserves (i, transfer) rfl a ha newMovies hn
  | leaveRunning i service hv =>
    obtain ⟨task, ht, hp, rfl⟩ := Service.leaveRunning_cases hv
    refine ⟨h.due.modify (fun _ => rfl) (fun _ _ hl => hl) fun a ha => ?_,
      fun ho => not_live_modify (h.clear ho) fun _ _ hl => hl, h.listed⟩
    exact h.due.served a (List.mem_of_getElem? ha)
  | failed i transfer service error hh hw hv ho =>
    obtain ⟨task, t, ht, hp, rfl⟩ := Service.handle_cases hv
    refine ⟨h.due.modify (fun _ => rfl) (fun a _ hl => absurd hl (not_live_handled a t))
      fun a _ newMovies hn => ?_, fun ho => absurd rfl ho, ?_⟩
    · cases hn
    · simpa [hh, unlisted, owed] using h.listed
  | succeeded i transfer service newMovies hh hw hv ho =>
    obtain ⟨task, t, ht, hp, rfl⟩ := Service.handle_cases hv
    obtain ⟨task', ht', hp'⟩ := Service.waiting_eq_some.1 hw
    rw [ht, Option.some.injEq] at ht'
    subst ht'
    have hsucc : success P task.phase = some newMovies := by
      rw [hp']; simp [success, ho, Except.toOption]
    have hl : Live P task := .inr (by simp [hsucc])
    have hm := List.mem_of_getElem? ht
    have hR : newMovies = R s.page := h.due.page task hm hl ▸ h.due.served task hm newMovies hsucc
    refine ⟨h.due.modify (fun _ => rfl) (fun a _ hl => absurd hl (not_live_handled a t))
      fun a _ newMovies hn => ?_, fun _ => h.answered ht hl, ?_⟩
    · cases hn
    · obtain ⟨n, hn, hlist⟩ := h.listed
      refine ⟨n, hn, ?_⟩
      simp only [hh, unlisted, owed, List.append_nil, Nat.add_zero] at hlist
      simp [unlisted, owed, firstPages_succ, hlist, hR, hn]
  | append newMovies hh =>
    refine ⟨h.due, fun _ => h.clear (by simp [hh, owed]), ?_⟩
    simpa [hh, unlisted, owed] using h.listed
  | advance hh =>
    have hclear := h.clear (by simp [hh, owed])
    refine ⟨⟨h.due.unique, fun a ha hl => absurd hl (hclear a ha), h.due.served⟩,
      fun ho => absurd rfl ho, ?_⟩
    obtain ⟨n, hn, hlist⟩ := h.listed
    refine ⟨n + 1, by simp [hn], ?_⟩
    simpa [hh, unlisted, owed] using hlist
  | loopEnd _ _ hh | loopSkip _ _ hh | loopRequest _ _ _ _ hh | loopLoad _ _ _ _ hh
  | run _ _ hh | noPoster _ _ _ hh | firstPoster _ _ _ _ _ hh =>
    exact h.congr rfl rfl rfl (by simp [unlisted, hh]) (by simp [owed, hh])
  | loadFailed _ _ back _ _ _ hh | loaded _ _ back _ _ _ hh =>
    exact h.congr rfl rfl rfl (by rw [hh]; exact unlisted_resume back)
      (by rw [hh]; exact owed_resume back)
  | _ => exact h.congr rfl rfl rfl rfl rfl

theorem inOrder_init (P : Platform) (R : Nat → List MovieFields) (searchPhrase : Option String) :
    InOrder P R (init P searchPhrase) := by
  have ht : (init P searchPhrase).service.tasks =
      [⟨0, loadCall searchPhrase 1, (loadCall searchPhrase 1).urlComponents P, .running,
        .transferring⟩] := by cases searchPhrase <;> rfl
  have hp : (loadCall searchPhrase 1).page = 1 := by cases searchPhrase <;> rfl
  refine ⟨?_, fun ho => absurd rfl ho, 0, rfl, rfl⟩
  rw [ht]
  have h0 : Due P R 1 [] := ⟨by simp, by simp, by simp⟩
  exact h0.snoc (by simp) hp rfl

theorem inOrder {searchPhrase : Option String} {es : List Event}
    (h : (machine P searchPhrase).Run es s)
    (hserves : (machine P searchPhrase).Along (Serves P R) (init P searchPhrase) es)
    (hon : (machine P searchPhrase).Along (OnTime P) (init P searchPhrase) es) :
    InOrder P R s := by
  refine h.induct_along (P := fun _ s => InOrder P R s) (inOrder_init P R searchPhrase) ?_
    ((Machine.along_and _ es).2 ⟨hserves, hon⟩)
  intro es s e s' hr ih hc hs
  exact ih.step (service_wf hr) hs hc.1 hc.2

/-- **Paging neither repeats nor skips a page** in a run on a server that
answers page `p` with `R p`, when every accepted request is made on time. -/
theorem pages_in_order (P : Platform) (R : Nat → List MovieFields) (searchPhrase : Option String)
    {es : List Event} {s : DataSource} (h : (machine P searchPhrase).Run es s)
    (hserves : (machine P searchPhrase).Along (Serves P R) (init P searchPhrase) es)
    (hon : (machine P searchPhrase).Along (OnTime P) (init P searchPhrase) es)
    (hq : quiet s.handler) :
    s.movies.map Movie.toMovieFields = firstPages R (s.page - 1) := by
  obtain ⟨n, hn, hlist⟩ := (inOrder h hserves hon).listed
  obtain ⟨hu, ho⟩ := quiet_nothing_due hq
  rw [hu, ho, List.append_nil, Nat.add_zero] at hlist
  rw [hlist, hn, Nat.add_sub_cancel]

/-! ## Two pages of one movie each -/

def upFields : MovieFields := .fromNetworkResponse up

def twoPages : Nat → List MovieFields
  | 1 => [upFields]
  | 2 => [{ upFields with id := 1124, title := "Down", originalTitle := "Down" }]
  | _ => []

theorem pages_in_order_up :
    ∃ s, (machine (upPlatform 2) none).Run ([.transferEnded 0 (upTransfer 2), .runHandler 0] ++
        handledAll 2 ++ [.leaveRunning 0] ++ prefetchFirst) s ∧
      s.service.isFetching = true ∧ s.movies.map Movie.toMovieFields = firstPages twoPages 1 := by
  have hx : ((machine (upPlatform 2) none).exec (init (upPlatform 2) none)
      ([.transferEnded 0 (upTransfer 2), .runHandler 0] ++ handledAll 2 ++
        [.leaveRunning 0] ++ prefetchFirst)).map
      (fun s => (s.service.isFetching, s.handler, s.page)) = some (true, .idle, 2) := by
    decide +kernel
  obtain ⟨s, hs, he⟩ := Option.map_eq_some_iff.1 hx
  obtain ⟨hf, hh, hp⟩ : s.service.isFetching = true ∧ s.handler = .idle ∧ s.page = 2 := by
    simpa using he
  have hl := pages_in_order (upPlatform 2) twoPages none hs (by decide +kernel) (by decide +kernel)
    (by rw [hh]; trivial)
  exact ⟨s, hs, hf, by rw [hl, hp]⟩

end MovieDBApp.L3.DataSource
