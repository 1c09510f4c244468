import MovieDBApp.L3Feed.Accounting

/-!
# Posters: every row gets its own

A callback of a poster lookup carries a row, and the row is looked up again
when the image arrives. The list is append-only, so that row still means the
movie the lookup was started for.

* `refs_eq`: the movie at a row is the object with that number, so posters can
  be compared row by row.
* `Looked`: what every lookup keeps, whatever happens to the list meanwhile.
* `lastImage_eq`: the poster of a row is the image of the last load for it.
* `covered`: the rows of a handler that has finished have been looked up.
* `own_posters`: the three of them together.
-/
namespace MovieDBApp.L3.DataSource
open MovieDBApp.Core MovieDBApp.L1 MovieDBApp.L2

variable {P : Platform} {s s' : DataSource} {e : Event}

/-! ## Objects and rows -/

/-- The movie at a row, listed or about to be, is the object with that number. -/
structure Numbered (s : DataSource) : Prop where
  refs : s.refs = (s.movies ++ unlisted s.handler).length
  ref : ∀ (i : Nat) (m : Movie), (s.movies ++ unlisted s.handler)[i]? = some m → m.ref = i

theorem numbered_step (h : Numbered s) (hs : step P s e = some s') : Numbered s' := by
  obtain ⟨hn, hr⟩ := h
  cases step_cases hs with
  | succeeded i transfer service newMovies hh =>
    simp only [hh, unlisted, List.append_nil] at hn hr
    refine ⟨by simp [unlisted, hn], fun j m hj => ?_⟩
    simp only [unlisted] at hj
    rcases Nat.lt_or_ge j s.movies.length with hlt | hge
    · rw [List.getElem?_append_left hlt] at hj
      exact hr j m hj
    · rw [List.getElem?_append_right hge] at hj
      have := Movie.allocate_ref _ _ hj
      omega
  | append newMovies hh =>
    simp only [hh, unlisted] at hn hr
    exact ⟨by simpa [unlisted] using hn, by simpa [unlisted] using hr⟩
  | failed _ _ _ _ hh | advance hh | loopEnd _ _ hh | loopSkip _ _ hh | loopRequest _ _ _ _ hh
  | loopLoad _ _ _ _ hh | run _ _ hh | noPoster _ _ _ hh | firstPoster _ _ _ _ _ hh =>
    simp only [hh, unlisted] at hn hr
    exact ⟨by simpa [unlisted] using hn, by simpa [unlisted] using hr⟩
  | loadFailed _ _ back _ _ _ hh | loaded _ _ back _ _ _ hh =>
    simp only [hh, unlisted, List.append_nil] at hn hr
    exact ⟨by simpa using hn, by simpa using hr⟩
  | _ => exact ⟨hn, hr⟩

theorem numbered {searchPhrase : Option String} {es : List Event}
    (h : (machine P searchPhrase).Run es s) : Numbered s := by
  have hinit : Numbered (init P searchPhrase) := ⟨rfl, by simp [init, unlisted]⟩
  exact h.induct (P := fun _ s => Numbered s) hinit fun _ _ _ _ _ hi hs => numbered_step hi hs

/-- The list is append-only. -/
theorem step_movies_grow (hs : step P s e = some s') : s.movies <+: s'.movies := by
  cases step_list hs with
  | same hm => exact hm ▸ List.prefix_rfl
  | success _ _ _ _ _ _ _ hm => exact hm ▸ List.prefix_rfl
  | append newMovies _ _ hm => rw [hm]; exact List.prefix_append ..
  | advance _ _ hm => exact hm ▸ List.prefix_rfl

theorem exec_movies_grow {searchPhrase : Option String} {fs : List Event}
    (h : (machine P searchPhrase).exec s fs = some s') : s.movies <+: s'.movies :=
  Machine.exec_rel (R := fun a b : DataSource => a.movies <+: b.movies) (fun _ => List.prefix_rfl)
    (fun _ _ _ => List.IsPrefix.trans) (fun _ _ _ hs => step_movies_grow hs) h

/-! ## Lookups -/

/-- The phase a lookup starts in. -/
def startPhase : PostersCall → LookupPhase
  | .completed _ => .loading
  | .getMoviePoster _ => .requested

/-- What holds of every lookup is kept by a step that keeps it of a started one,
of one whose response arrives and of one that goes on. -/
theorem step_lookups {Q : Lookup → Prop} (hs : step P s e = some s') (h : ∀ l ∈ s.lookups, Q l)
    (hnew : ∀ index (movie : Movie), s.movies[index]? = some movie →
      Q ⟨index, movie, movie.posters P, none, startPhase (movie.posters P)⟩)
    (hresponse : ∀ l transfer, l.phase = .requested → Q l →
      Q { l with response := some transfer, phase := .arrived })
    (hphase : ∀ l phase, phase ≠ .requested → Q l → Q { l with phase := phase }) :
    ∀ l ∈ s'.lookups, Q l := by
  have hgoes : ∀ (j : Nat) (phase : LookupPhase), phase ≠ .requested →
      ∀ l ∈ s.lookups.modify j fun l => { l with phase := phase }, Q l :=
    fun j phase hne => forall_mem_modify h fun l hl =>
      hphase l phase hne (h l (List.mem_of_getElem? hl))
  cases step_cases hs with
  | loopRequest index bound movie id hh hb hr hp =>
    have := hnew index movie hr
    rw [hp] at this
    exact forall_mem_snoc h this
  | loopLoad index bound movie poster hh hb hr hp =>
    have := hnew index movie hr
    rw [hp] at this
    exact forall_mem_snoc h this
  | loadFailed j => exact hgoes j _ (by simp)
  | loaded j => exact hgoes j _ (by simp)
  | noPoster j => exact hgoes j _ (by simp)
  | firstPoster j => exact hgoes j _ (by simp)
  | posterTransferEnded j l transfer hl hp =>
    refine forall_mem_modify h fun l' hl' => ?_
    rw [hl, Option.some.injEq] at hl'
    subst hl'
    exact hresponse l transfer hp (h l (List.mem_of_getElem? hl))
  | _ => exact h

/-- A lookup's row holds its movie; it asks for that movie's posters, and has no
response before one arrives. -/
structure Looked (P : Platform) (movies : List Movie) (l : Lookup) : Prop where
  row : movies[l.row]? = some l.movie
  call : l.call = l.movie.posters P
  fresh : l.phase = .requested → l.response = none
  direct : ∀ posters, l.call = .completed posters → l.phase ≠ .requested
  unasked : ∀ posters, l.call = .completed posters → l.response = none

theorem Looked.mono {movies movies' : List Movie} (h : movies <+: movies') {l : Lookup}
    (hl : Looked P movies l) : Looked P movies' l :=
  ⟨getElem?_grown h hl.row, hl.call, hl.fresh, hl.direct, hl.unasked⟩

theorem looked {searchPhrase : Option String} {es : List Event}
    (h : (machine P searchPhrase).Run es s) : ∀ l ∈ s.lookups, Looked P s.movies l := by
  refine h.induct (P := fun _ s => ∀ l ∈ s.lookups, Looked P s.movies l)
    (by simp [machine, init]) ?_
  intro es s e s' hr ih hs
  have hpre := step_movies_grow hs
  refine step_lookups hs (fun l hl => (ih l hl).mono hpre) ?_ ?_ ?_
  · intro index movie hm
    refine ⟨getElem?_grown hpre hm, rfl, fun _ => rfl, fun posters hp => ?_, fun _ _ => rfl⟩
    have hp : movie.posters P = .completed posters := hp
    simp [hp, startPhase]
  · intro l transfer hp hl
    exact ⟨hl.row, hl.call, nofun, nofun, fun posters hc => absurd hp (hl.direct posters hc)⟩
  · intro l phase hne hl
    exact ⟨hl.row, hl.call, fun hp => absurd hp hne, fun _ _ => hne, hl.unasked⟩

/-- What later steps leave of a lookup. -/
def Lookup.Later (l l' : Lookup) : Prop :=
  l'.row = l.row ∧ l'.movie = l.movie ∧ l'.call = l.call ∧
    (l.phase ≠ .requested → l'.response = l.response ∧ l'.phase ≠ .requested)

theorem Lookup.Later.refl (l : Lookup) : Lookup.Later l l := ⟨rfl, rfl, rfl, fun h => ⟨rfl, h⟩⟩

theorem Lookup.Later.trans (a b c : Lookup) (h : Lookup.Later a b) (h' : Lookup.Later b c) :
    Lookup.Later a c := by
  obtain ⟨h1, h2, h3, h4⟩ := h
  obtain ⟨h1', h2', h3', h4'⟩ := h'
  refine ⟨h1'.trans h1, h2'.trans h2, h3'.trans h3, fun hp => ?_⟩
  obtain ⟨hr, hb⟩ := h4 hp
  exact ⟨(h4' hb).1.trans hr, (h4' hb).2⟩

theorem step_later (hs : step P s e = some s') : Extends Lookup.Later s.lookups s'.lookups := by
  have hgoes : ∀ (j : Nat) (phase : LookupPhase), phase ≠ .requested →
      Extends Lookup.Later s.lookups (s.lookups.modify j fun l => { l with phase := phase }) :=
    fun j phase hne => Extends.modify Lookup.Later.refl fun _ _ =>
      ⟨rfl, rfl, rfl, fun _ => ⟨rfl, hne⟩⟩
  cases step_cases hs with
  | loopRequest | loopLoad => exact Extends.append Lookup.Later.refl _ _
  | loadFailed j => exact hgoes j _ (by simp)
  | loaded j => exact hgoes j _ (by simp)
  | noPoster j => exact hgoes j _ (by simp)
  | firstPoster j => exact hgoes j _ (by simp)
  | posterTransferEnded j l transfer hl hp =>
    refine Extends.modify Lookup.Later.refl fun l' hl' => ?_
    rw [hl, Option.some.injEq] at hl'
    exact ⟨rfl, rfl, rfl, fun hne => absurd (hl' ▸ hp) hne⟩
  | _ => exact Extends.refl Lookup.Later.refl _

theorem exec_later {searchPhrase : Option String} {fs : List Event}
    (h : (machine P searchPhrase).exec s fs = some s') :
    Extends Lookup.Later s.lookups s'.lookups :=
  Machine.exec_rel (R := fun a b : DataSource => Extends Lookup.Later a.lookups b.lookups)
    (fun _ => .refl Lookup.Later.refl _) (fun _ _ _ => .trans Lookup.Later.trans)
    (fun _ _ _ hs => step_later hs) h

/-! ## Where an image comes from -/

theorem Looked.url_later {movies : List Movie} {l l' : Lookup} {url : URL} (h : Looked P movies l)
    (hu : l.url P = some url) (hl : Lookup.Later l l') : l'.url P = some url := by
  obtain ⟨-, -, hc, hr⟩ := hl
  have hne : l.phase ≠ .requested := by
    intro hp
    unfold Lookup.url Lookup.posters at hu
    cases hcall : l.call with
    | completed posters => exact h.direct posters hcall hp
    | getMoviePoster id => simp [hcall, h.fresh hp] at hu
  unfold Lookup.url Lookup.posters at hu ⊢
  rwa [hc, (hr hne).1]

/-- The response is JSON with an array `posters`, and this is the `file_path` of the
first element. -/
def FirstPoster (P : Platform) (transfer : Transfer) (filePath : String) : Prop :=
  transfer.error = none ∧ ∃ body first rest,
    P.json (transfer.data.getD []) = some (.object body) ∧
    Json.lookup body "posters" = some (.array (.object first :: rest)) ∧
    Json.lookup first "file_path" = some (.string filePath)

theorem firstPoster_of_decode {first : Json} {response : PosterNetworkResponse}
    (h : PosterNetworkResponse.decode first = some response) :
    ∃ members, first = .object members ∧
      Json.lookup members "file_path" = some (.string response.filePath) := by
  cases first with
  | object members =>
    obtain ⟨filePath, hf, h⟩ := Option.bind_eq_some_iff.1 h
    obtain ⟨v, hv, hf⟩ := Option.bind_eq_some_iff.1 hf
    cases h
    cases v with
    | string => cases hf; exact ⟨members, rfl, hv⟩
    | _ => cases hf
  | _ => cases h

/-- The posters of a response begin with the one at that path. -/
theorem firstPoster_of_outcome {transfer : Transfer} {poster : Poster} {posters : List Poster}
    (h : posterOutcome P transfer = .ok (poster :: posters)) :
    ∃ filePath, FirstPoster P transfer filePath ∧
      poster.url = P.appendingPathComponent "https://image.tmdb.org/t/p/w500/" filePath := by
  unfold posterOutcome Transfer.result at h
  cases he : transfer.error with
  | some error => rw [he] at h; cases h
  | none =>
    rw [he] at h
    dsimp only at h
    split at h
    case h_2 => cases h
    rename_i responseBody hdecode
    obtain ⟨json, hjson, hdecode⟩ := Option.bind_eq_some_iff.1 hdecode
    cases json with
    | object body =>
      obtain ⟨id, -, hdecode⟩ := Option.bind_eq_some_iff.1 hdecode
      obtain ⟨responses, hposters, hdecode⟩ := Option.bind_eq_some_iff.1 hdecode
      cases hdecode
      obtain ⟨v, hv, hposters⟩ := Option.bind_eq_some_iff.1 hposters
      cases v with
      | array elements =>
        cases elements with
        | nil => cases hposters; cases h
        | cons first rest =>
          rw [Json.decodeArray, List.mapM_cons] at hposters
          obtain ⟨response, hfirst, hposters⟩ := Option.bind_eq_some_iff.1 hposters
          obtain ⟨others, -, hposters⟩ := Option.bind_eq_some_iff.1 hposters
          cases hposters
          cases h
          obtain ⟨members, rfl, hpath⟩ := firstPoster_of_decode hfirst
          exact ⟨response.filePath, ⟨he, body, members, rest, hjson, hv, hpath⟩, rfl⟩
      | _ => cases hposters
    | _ => cases hdecode

/-- The lookup is for the posters of `m`: it has the poster at its path, or sends a
request for the images of its id. -/
def LooksUp (P : Platform) (m : Movie) (l : Lookup) : Prop :=
  match m.posterFilePath with
  | some path =>
    l.call = .completed [⟨P.appendingPathComponent "https://image.tmdb.org/t/p/w500/" path⟩]
  | none => l.request P =
      some (⟨P.appendingPathComponent "https://api.themoviedb.org/3" "/movie",
        [("api_key", "256e06322b4e9c0d53b7267faac1b33d")]⟩, toString m.id ++ "/images")

theorem Looked.looksUp {movies : List Movie} {l : Lookup} (h : Looked P movies l) :
    LooksUp P l.movie l := by
  have hc := h.call
  unfold MovieFields.posters at hc
  unfold LooksUp
  cases hp : l.movie.posterFilePath with
  | some path =>
    simp only [hp] at hc
    exact hc
  | none =>
    simp only [hp] at hc
    simp only [Lookup.request, hc]
    rfl

/-- `url` was built from the movie `m`: from its poster path, or from the first
poster of an images response to a request with its id. -/
def BuiltFrom (P : Platform) (lookups : List Lookup) (m : Movie) (url : URL) : Prop :=
  match m.posterFilePath with
  | some path => url = P.appendingPathComponent "https://image.tmdb.org/t/p/w500/" path
  | none => ∃ l ∈ lookups, LooksUp P m l ∧ ∃ transfer, l.response = some transfer ∧
      ∃ filePath, FirstPoster P transfer filePath ∧
        url = P.appendingPathComponent "https://image.tmdb.org/t/p/w500/" filePath

theorem Looked.builtFrom {movies : List Movie} {lookups : List Lookup} {l : Lookup} {url : URL}
    (h : Looked P movies l) (hm : l ∈ lookups) (hu : l.url P = some url) :
    BuiltFrom P lookups l.movie url := by
  have hc := h.call
  unfold MovieFields.posters at hc
  unfold BuiltFrom
  unfold Lookup.url Lookup.posters at hu
  cases hp : l.movie.posterFilePath with
  | some path =>
    simp only [hp] at hc
    simp only [hc, Option.bind_some, List.head?_cons, Option.map_some, Option.some.injEq] at hu
    exact hu.symm
  | none =>
    simp only [hp] at hc
    refine ⟨l, hm, h.looksUp, ?_⟩
    cases hr : l.response with
    | none => simp [hc, hr] at hu
    | some transfer =>
      refine ⟨transfer, rfl, ?_⟩
      cases ho : posterOutcome P transfer with
      | error error => simp [hc, hr, ho, Except.toOption] at hu
      | ok posters =>
        cases posters with
        | nil => simp [hc, hr, ho, Except.toOption] at hu
        | cons poster posters =>
          simp only [hc, hr, ho, Except.toOption, Option.bind_some, List.head?_cons,
            Option.map_some, Option.some.injEq] at hu
          rw [← hu]
          exact firstPoster_of_outcome ho

/-- The image being read is that of a lookup in progress. -/
def Loading (P : Platform) (s : DataSource) : Prop :=
  ∀ j url back, s.handler = .image j url back →
    ∃ l, s.lookups[j]? = some l ∧ l.phase = .loading ∧ l.url P = some url

theorem loading_step (h : Loading P s) (hl : ∀ l ∈ s.lookups, Looked P s.movies l)
    (hs : step P s e = some s') : Loading P s' := by
  intro j url back hh'
  cases step_cases hs with
  | loopLoad index bound movie poster hh hb hr hp =>
    cases hh'
    exact ⟨_, getElem?_snoc.2 (.inr ⟨rfl, rfl⟩), rfl, rfl⟩
  | firstPoster k l transfer poster posters hh hk ht hp ho =>
    cases hh'
    refine ⟨_, getElem?_modify_self hk, rfl, ?_⟩
    have hc : ∃ id, l.call = .getMoviePoster id := by
      cases hc : l.call with
      | getMoviePoster id => exact ⟨id, rfl⟩
      | completed posters =>
        exact absurd ht (by simp [(hl l (List.mem_of_getElem? hk)).unasked posters hc])
    obtain ⟨id, hc⟩ := hc
    simp [Lookup.url, Lookup.posters, hc, ht, ho, Except.toOption]
  | posterTransferEnded k l transfer hk hp =>
    obtain ⟨l', hj, hph, hu⟩ := h j url back hh'
    refine ⟨l', getElem?_modify_iff.2 ⟨l', hj, ?_⟩, hph, hu⟩
    rw [if_neg]
    rintro rfl
    rw [hk, Option.some.injEq] at hj
    rw [hj, hph] at hp
    cases hp
  | loadFailed k url' back' | loaded k url' back' =>
    cases back' <;> cases hh'
  | far | near | load | call | delegate | transferEnded | leaveRunning => exact h j url back hh'
  | _ => cases hh'

/-! ## Loads -/

/-- An image load that succeeded. -/
structure Load where
  row : Nat
  url : URL
  image : UIImage
  deriving DecidableEq, Repr

def loads (P : Platform) (s : DataSource) : Event → List Load
  | .imageRead read =>
    match s.handler with
    | .image j url _ =>
      match s.lookups[j]?, UIImage.image P read with
      | some l, .ok image => [⟨l.row, url, image⟩]
      | _, _ => []
    | _ => []
  | _ => []

theorem step_poster (hs : step P s e = some s') :
    (s'.poster = s.poster ∧ loads P s e = []) ∨
    ∃ j url back l image, s.handler = .image j url back ∧ s.lookups[j]? = some l ∧
      s'.poster = s.setPoster l.row image ∧ loads P s e = [⟨l.row, url, image⟩] := by
  cases step_cases hs with
  | loaded j url back l read image hh hl hi =>
    exact .inr ⟨j, url, back, l, image, hh, hl, rfl, by simp [loads, hh, hl, hi]⟩
  | loadFailed j url back l read error hh hl hi => exact .inl ⟨rfl, by simp [loads, hh, hl, hi]⟩
  | _ => exact .inl ⟨rfl, rfl⟩

/-- The image of the last load for a row. -/
def lastImage (ls : List Load) (row : Nat) : Option UIImage :=
  (lastAt Load.row ls row).map Load.image

theorem lastImage_snoc (ls : List Load) (x : Load) (row : Nat) :
    lastImage (ls ++ [x]) row = if x.row = row then some x.image else lastImage ls row := by
  unfold lastImage
  rw [lastAt_snoc]
  split <;> rfl

theorem setPoster_eq (hn : Numbered s) {row : Nat} {movie : Movie}
    (hr : s.movies[row]? = some movie) (image : UIImage) (ref : Nat) :
    s.setPoster row image ref = if row = ref then some image else s.poster ref := by
  have hm : movie.ref = row := hn.ref row movie (getElem?_append_some hr)
  simp only [setPoster, movieAt, hr, hm, eq_comm]

/-- What is known of the loads of a run. -/
structure Posted (P : Platform) (ls : List Load) (s : DataSource) : Prop where
  poster : ∀ row, s.poster row = lastImage ls row
  source : ∀ x ∈ ls, ∃ l ∈ s.lookups, l.row = x.row ∧ l.url P = some x.url

theorem Posted.step {ls : List Load} (h : Posted P ls s) (hn : Numbered s)
    (hl : ∀ l ∈ s.lookups, Looked P s.movies l) (hload : Loading P s)
    (hs : step P s e = some s') : Posted P (ls ++ loads P s e) s' := by
  have hkept : ∀ row url, (∃ l ∈ s.lookups, l.row = row ∧ l.url P = some url) →
      ∃ l ∈ s'.lookups, l.row = row ∧ l.url P = some url := by
    rintro row url ⟨l, hm, hr, hu⟩
    obtain ⟨l', hm', hlater⟩ := (step_later hs).mem hm
    exact ⟨l', hm', hlater.1.trans hr, (hl l hm).url_later hu hlater⟩
  obtain ⟨hp, he⟩ | ⟨j, url, back, l, image, hh, hj, hp, he⟩ := step_poster hs
  · rw [he, List.append_nil]
    exact ⟨fun row => hp ▸ h.poster row, fun x hx => hkept _ _ (h.source x hx)⟩
  · obtain ⟨l', hj', -, hu⟩ := hload j url back hh
    rw [hj, Option.some.injEq] at hj'
    subst hj'
    have hm := List.mem_of_getElem? hj
    rw [he]
    refine ⟨fun row => ?_, fun x hx => ?_⟩
    · rw [hp, setPoster_eq hn (hl l hm).row, lastImage_snoc, h.poster]
    · rcases List.mem_append.1 hx with hx | hx
      · exact hkept _ _ (h.source x hx)
      · rw [List.mem_singleton.1 hx]
        exact hkept _ _ ⟨l, hm, rfl, hu⟩

theorem posted {searchPhrase : Option String} {es : List Event}
    (h : (machine P searchPhrase).Run es s) :
    Loading P s ∧ Posted P ((machine P searchPhrase).observe (loads P) es) s := by
  refine h.induct (P := fun es s => Loading P s ∧
    Posted P ((machine P searchPhrase).observe (loads P) es) s)
    ⟨by simp [Loading, machine, init], fun _ => rfl, by simp⟩ ?_
  intro es s e s' hr ⟨hload, hp⟩ hs
  rw [Machine.observe_snoc _ _ _ hr]
  exact ⟨loading_step hload (looked hr) hs, hp.step (numbered hr) (looked hr) hload hs⟩

/-! ## No row is missed -/

/-- The first row that a running loop has not looked up yet. -/
def remaining : Handler → Option Nat
  | .advance => some 0
  | .loop index _ => some index
  | .image _ _ (some (index, _)) => some index
  | _ => none

def loopBound : Handler → Option Nat
  | .loop _ bound => some bound
  | .image _ _ (some (_, bound)) => some bound
  | _ => none

structure Covered (s : DataSource) : Prop where
  started : ∀ i < s.movies.length, (∀ n ∈ remaining s.handler, i < n) → ∃ l ∈ s.lookups, l.row = i
  bound : ∀ b ∈ loopBound s.handler, b = s.movies.length

/-- A round that looks up the row it is at. -/
theorem Covered.round (h : Covered s) {index bound : Nat} (hh : s.handler = .loop index bound)
    {l : Lookup} (hrow : l.row = index) (hm : s'.movies = s.movies)
    (hl : s'.lookups = s.lookups ++ [l]) (hr : remaining s'.handler = some (index + 1))
    (hb : loopBound s'.handler = some bound) : Covered s' where
  started i hi hn := by
    have hlt := hn (index + 1) hr
    rw [hm] at hi
    rw [hl]
    rcases Nat.lt_or_ge i index with hlt' | hge
    · have hbefore : ∀ n ∈ remaining s.handler, i < n := by
        intro n hn'
        simp only [hh, remaining, Option.mem_some_iff] at hn'
        omega
      obtain ⟨k, hk, e⟩ := h.started i hi hbefore
      exact ⟨k, List.mem_append_left _ hk, e⟩
    · exact ⟨l, List.mem_append_right _ (List.mem_singleton_self _), by omega⟩
  bound b hb' := by
    rw [hb] at hb'
    rw [hm]
    exact h.bound b (by simpa [hh, loopBound] using hb')

theorem Covered.step (h : Covered s) (hs : step P s e = some s') : Covered s' := by
  obtain ⟨hst, hb⟩ := h
  have hkept : ∀ i, (∃ l ∈ s.lookups, l.row = i) → ∃ l ∈ s'.lookups, l.row = i := by
    rintro i ⟨l, hm, hr⟩
    obtain ⟨l', hm', hlater⟩ := (step_later hs).mem hm
    exact ⟨l', hm', hlater.1.trans hr⟩
  cases step_cases hs with
  | append newMovies hh => exact ⟨fun i _ hn => absurd (hn 0 rfl) (by omega), nofun⟩
  | advance hh =>
    exact ⟨fun i _ hn => absurd (hn 0 rfl) (by omega), fun b hb' => by cases hb'; rfl⟩
  | loopEnd index bound hh hlt =>
    have := hb bound (by simp [hh, loopBound])
    refine ⟨fun i hi _ => hst i hi fun n hn => ?_, nofun⟩
    simp only [hh, remaining, Option.mem_some_iff] at hn
    have : i < s.movies.length := hi
    omega
  | loopSkip index bound hh hle hr =>
    refine ⟨fun i hi hn => hst i hi fun n hn' => ?_,
      fun b hb' => hb b (by simpa [hh, loopBound] using hb')⟩
    simp only [hh, remaining, Option.mem_some_iff] at hn'
    have := List.getElem?_eq_none_iff.1 hr
    have : i < s.movies.length := hi
    omega
  | loopRequest index bound movie id hh => exact Covered.round ⟨hst, hb⟩ hh rfl rfl rfl rfl rfl
  | loopLoad index bound movie poster hh => exact Covered.round ⟨hst, hb⟩ hh rfl rfl rfl rfl rfl
  | loadFailed j url back l read error hh | loaded j url back l read image hh =>
    refine ⟨fun i hi hn => hkept i (hst i hi fun n hn' => hn n ?_), fun b hb' => hb b ?_⟩
    · rw [hh] at hn'
      rcases back with _ | ⟨index, bound⟩
      · cases hn'
      · exact hn'
    · rw [hh]
      rcases back with _ | ⟨index, bound⟩
      · cases hb'
      · exact hb'
  | failed _ _ _ _ hh | succeeded _ _ _ _ hh | run _ _ hh | noPoster _ _ _ hh
  | firstPoster _ _ _ _ _ hh =>
    exact ⟨fun i hi _ => hkept i (hst i hi (by simp [hh, remaining])), nofun⟩
  | posterTransferEnded => exact ⟨fun i hi hn => hkept i (hst i hi hn), hb⟩
  | _ => exact ⟨hst, hb⟩

theorem covered {searchPhrase : Option String} {es : List Event}
    (h : (machine P searchPhrase).Run es s) : Covered s := by
  have hinit : Covered (init P searchPhrase) := ⟨by simp [init], nofun⟩
  exact h.induct (P := fun _ s => Covered s) hinit fun _ _ _ _ _ hi hs => hi.step hs

theorem quiet_remaining {h : Handler} (hq : quiet h) : remaining h = none := by
  cases h with
  | image j url back =>
    cases back with
    | none => rfl
    | some => exact hq.elim
  | idle => rfl
  | _ => exact hq.elim

/-- **Each movie gets its own poster, and no row is missed.** In every state of
every run, for every row `i` with its movie `m`: an image loaded for row `i`
came from a URL built from `m`; the poster of `m` is the image of the last load
for row `i`, if there was one; and if the row was there at an earlier moment
between two list responses, then a lookup of `m`'s posters for row `i` has been
started. -/
theorem own_posters (P : Platform) (searchPhrase : Option String) {es : List Event} {s : DataSource}
    (h : (machine P searchPhrase).Run es s) {i : Nat} {m : Movie} (hi : s.movies[i]? = some m) :
    (∀ x ∈ (machine P searchPhrase).observe (loads P) es, x.row = i →
      BuiltFrom P s.lookups m x.url) ∧
    s.poster m.ref = lastImage ((machine P searchPhrase).observe (loads P) es) i ∧
    (∀ es₀ fs s₀, (machine P searchPhrase).Run es₀ s₀ →
      (machine P searchPhrase).exec s₀ fs = some s → quiet s₀.handler → s₀.movies[i]? = some m →
      ∃ l ∈ s.lookups, l.row = i ∧ l.movie = m ∧ LooksUp P m l) := by
  have hl := looked h
  obtain ⟨-, hp⟩ := posted h
  refine ⟨fun x hx hr => ?_, ?_, ?_⟩
  · obtain ⟨l, hm, hrow, hu⟩ := hp.source x hx
    have hmovie := (hl l hm).row
    rw [hrow, hr, hi, Option.some.injEq] at hmovie
    rw [hmovie]
    exact (hl l hm).builtFrom hm hu
  · rw [(numbered h).ref i m (getElem?_append_some hi)]
    exact hp.poster i
  · intro es₀ fs s₀ h₀ hx hq hi₀
    obtain ⟨l₀, hm₀, hr₀⟩ := (covered h₀).started i (lt_of_getElem?_eq_some hi₀)
      (by simp [quiet_remaining hq])
    obtain ⟨l, hm, hr, -⟩ := (exec_later hx).mem hm₀
    have hrow := hr.trans hr₀
    have hmovie := (hl l hm).row
    rw [hrow, hi, Option.some.injEq] at hmovie
    exact ⟨l, hm, hrow, hmovie.symm, hmovie ▸ (hl l hm).looksUp⟩

def posterPlatform : Platform :=
  .serving ⟨1, 1, 1, [{ up with posterFilePath := some "/up.jpg" }]⟩ [[255, 216]]

/-- A page of one movie with a poster path, and its image. -/
def posterRun : List Event :=
  [.transferEnded 0 ⟨some (ascii
      (MoviesNetworkResponse.text ⟨1, 1, 1, [{ up with posterFilePath := some "/up.jpg" }]⟩)),
      none⟩,
    .runHandler 0] ++ List.replicate 4 .handlerStep ++ [.imageRead (some [255, 216])] ++
    List.replicate 2 .handlerStep

theorem own_posters_up :
    ∃ s m, (machine posterPlatform none).Run posterRun s ∧ s.movies[0]? = some m ∧
      BuiltFrom posterPlatform s.lookups m "https://image.tmdb.org/t/p/w500/up.jpg" ∧
      s.poster m.ref = some ⟨[255, 216]⟩ ∧ ∃ l ∈ s.lookups, l.row = 0 ∧ l.movie = m := by
  have hx : ((machine posterPlatform none).exec (init posterPlatform none) posterRun).map
      (fun s => (s.handler, s.movies[0]?)) = some (.idle, some
        ⟨⟨14160, some "/up.jpg", "Up", "", "Up", "2009-05-13"⟩, 0⟩) := by
    decide +kernel
  obtain ⟨s, hs, hx⟩ := Option.map_eq_some_iff.1 hx
  obtain ⟨hh, hm⟩ := Prod.mk.inj hx
  have ho : (machine posterPlatform none).observe (loads posterPlatform) posterRun =
      [⟨0, "https://image.tmdb.org/t/p/w500/up.jpg", ⟨[255, 216]⟩⟩] := by
    decide +kernel
  obtain ⟨h1, h2, h3⟩ := own_posters posterPlatform none hs hm
  rw [ho] at h1 h2
  obtain ⟨l, hl, hr, hm', -⟩ := h3 posterRun [] s hs rfl (by rw [hh]; trivial) hm
  exact ⟨s, _, hs, hm, h1 _ (List.mem_singleton_self _) rfl, h2, l, hl, hr, hm'⟩

end MovieDBApp.L3.DataSource
