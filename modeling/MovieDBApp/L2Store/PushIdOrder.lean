import MovieDBApp.Core.Machine
import MovieDBApp.L2Store.KeyOrder
import MovieDBApp.L2Store.NextPushId
import MovieDBApp.L2Store.RatingIndexes

/-!
# Auto ids come in order

While the clock does not go back, every id that `FNextPushId` makes up comes after
all earlier ones in the order of the database's keys: a later millisecond by its
first eight characters, another id of the same millisecond by the other twelve.

* `pushIds_sorted`: over any such run the ids are strictly increasing.
* `freshKeys_of_made`: so the keys of ratings that use them are distinct.

The clock here is the server's as the client knows it; where its offset is
corrected downwards, the hypothesis on the clock fails. So it does where a
millisecond asks for an id after twelve digits 63: that one sorts first (`get_full`).
-/
namespace MovieDBApp.L2.Firebase
open MovieDBApp.Core Std

/-! ## Lists of one length, by their first difference -/

theorem compareLex_append_of_lt {l l' m m' : List Nat} (hlen : l.length = l'.length)
    (h : List.compareLex compare l l' = .lt) :
    List.compareLex compare (l ++ m) (l' ++ m') = .lt := by
  induction l generalizing l' with
  | nil =>
    rw [List.length_eq_zero_iff.1 hlen.symm] at h
    cases h
  | cons x l ih =>
    cases l' with
    | nil => cases hlen
    | cons y l' =>
      rw [List.compareLex_cons_cons] at h
      rw [List.cons_append, List.cons_append, List.compareLex_cons_cons]
      cases hc : compare x y with
      | lt => rfl
      | gt => rw [hc] at h; cases h
      | eq =>
        rw [hc] at h
        exact ih (Nat.succ.inj hlen) h

theorem compareLex_append_left (l m m' : List Nat) :
    List.compareLex compare (l ++ m) (l ++ m') = List.compareLex compare m m' := by
  induction l with
  | nil => rfl
  | cons x l ih =>
    rw [List.cons_append, List.cons_append, List.compareLex_cons_cons, ReflOrd.compare_self]
    exact ih

theorem compareLex_ofFn {n : Nat} {f g : Fin n → Nat} {i : Fin n} (heq : ∀ j, j < i → f j = g j)
    (hlt : f i < g i) : List.compareLex compare (List.ofFn f) (List.ofFn g) = .lt := by
  induction n with
  | zero => exact i.elim0
  | succ n ih =>
    rw [List.ofFn_succ, List.ofFn_succ, List.compareLex_cons_cons]
    cases i using Fin.cases with
    | zero => rw [Nat.compare_eq_lt.2 hlt]; rfl
    | succ i =>
      rw [heq 0 (Fin.succ_pos i), ReflOrd.compare_self]
      exact ih (fun j hj => heq j.succ (Fin.succ_lt_succ_iff.2 hj)) hlt

namespace FNextPushId

/-! ## The characters of an id -/

/-- The code unit of a digit. -/
def unit (digit : Fin 64) : Nat := (pushChar digit).toNat

theorem unit_lt {d e : Fin 64} (h : d < e) : unit d < unit e := by
  have hp : (PUSH_CHARS.map Char.toNat).Pairwise (· < ·) := by decide
  have := List.pairwise_iff_getElem.1 hp d.val e.val (by simp [PUSH_CHARS_length])
    (by simp [PUSH_CHARS_length]) h
  simpa [unit, pushChar] using this

theorem unit_small (d : Fin 64) : unit d < 0x10000 := by
  have hp : PUSH_CHARS.all (fun c => c.toNat < 0x10000) = true := by decide
  have := List.all_eq_true.1 hp _ (List.get_mem PUSH_CHARS (d.cast PUSH_CHARS_length.symm))
  simpa [unit, pushChar] using this

theorem lastDigit_lt (now : Nat) : now % 64 < 64 := Nat.mod_lt now (Nat.succ_pos 63)

/-- The last digit of a time. -/
def lastDigit (now : Nat) : Fin 64 := ⟨now % 64, lastDigit_lt now⟩

/-- The last `n` digits of `now`, as code units. -/
def timeUnits : Nat → Nat → List Nat
  | 0, _ => []
  | n + 1, now => timeUnits n (now / 64) ++ [unit (lastDigit now)]

@[simp] theorem timeUnits_length (n now : Nat) : (timeUnits n now).length = n := by
  induction n generalizing now with
  | zero => rfl
  | succ n ih => rw [timeUnits, List.length_append, ih]; rfl

theorem utf16_timeStampChars (n now : Nat) :
    (timeStampChars n now).flatMap utf16Char = timeUnits n now := by
  induction n generalizing now with
  | zero => rfl
  | succ n ih =>
    have hone : ∀ d : Fin 64, [pushChar d].flatMap utf16Char = [unit d] := by
      intro d
      simp [utf16Char, unit, show (pushChar _).toNat < 0x10000 from unit_small _]
    rw [timeStampChars, List.flatMap_append, ih, timeUnits, hone]
    rfl

theorem utf16_nextId (now : Nat) (digits : Fin 12 → Fin 64) :
    utf16 (nextId now digits) = timeUnits 8 now ++ List.ofFn fun i => unit (digits i) := by
  unfold utf16 nextId
  rw [String.toList_ofList, List.flatMap_append, utf16_timeStampChars, List.flatMap_map]
  congr 1
  rw [List.ofFn_eq_map]
  have : ∀ l : List (Fin 12), (l.flatMap fun i => utf16Char (pushChar (digits i))) =
      l.map fun i => unit (digits i) := by
    intro l
    induction l with
    | nil => rfl
    | cons i l ih =>
      rw [List.flatMap_cons, ih, List.map_cons]
      simp [utf16Char, unit, show (pushChar _).toNat < 0x10000 from unit_small _]
  exact this _

/-- Ids are too long to read as integers. -/
theorem compareKey_nextId (now now' : Nat) (digits digits' : Fin 12 → Fin 64) :
    compareKey (nextId now digits) (nextId now' digits') =
      List.compareLex compare (utf16 (nextId now digits)) (utf16 (nextId now' digits')) := by
  have hlong : ∀ now digits, tryParseStringToInt (utf16 (nextId now digits)) = none := by
    intro now digits
    refine if_pos (.inl ?_)
    rw [utf16_nextId]
    simp
  unfold compareKey
  rw [hlong, hlong, ← List.compare_eq_compareLex]
  rfl

/-! ## One id after another -/

/-- The first number with more than `n` digits. -/
def capacity : Nat → Nat
  | 0 => 1
  | n + 1 => 64 * capacity n

theorem timeUnits_lt {n a b : Nat} (h : a < b) (hb : b < capacity n) :
    List.compareLex compare (timeUnits n a) (timeUnits n b) = .lt := by
  induction n generalizing a b with
  | zero =>
    rw [capacity] at hb
    omega
  | succ n ih =>
    rw [capacity] at hb
    rw [timeUnits, timeUnits]
    by_cases hd : a / 64 = b / 64
    · have hu : unit (lastDigit a) < unit (lastDigit b) := by
        apply unit_lt
        show a % 64 < b % 64
        omega
      rw [hd, compareLex_append_left, List.compareLex_cons_cons, Nat.compare_eq_lt.2 hu]
      rfl
    · apply compareLex_append_of_lt
      · rw [timeUnits_length, timeUnits_length]
      · apply ih <;> omega

theorem countUp_lt {digits : Fin 12 → Fin 64} (h : ∃ i, (digits i).val < 63) :
    List.compareLex compare (List.ofFn fun i => unit (digits i))
      (List.ofFn fun i => unit (countUp digits i)) = .lt := by
  unfold countUp
  cases hf : (List.finRange 12).reverse.find? fun i => digits i ≠ 63 with
  | none =>
    obtain ⟨i, hi⟩ := h
    rw [List.find?_eq_none] at hf
    have hlast : digits i = 63 := by simpa using hf i (by simp)
    rw [hlast] at hi
    exact absurd hi (by decide)
  | some i =>
    have hne : digits i ≠ 63 := by simpa using List.find?_some hf
    have hup : ∀ d : Fin 64, d ≠ 63 → d < d + 1 := by decide
    apply compareLex_ofFn (i := i)
    · intro j hj
      show unit (digits j) = unit (if j < i then _ else _)
      rw [if_pos hj]
    · show unit (digits i) < unit (if i < i then _ else if i = i then _ else _)
      rw [if_neg (lt_irrefl i), if_pos rfl]
      exact unit_lt (hup _ hne)

/-- The digits start again where they are used up. -/
theorem countUp_full {digits : Fin 12 → Fin 64} (h : ∀ i, digits i = 63) :
    countUp digits = fun _ => 0 := by
  have hf : ((List.finRange 12).reverse.find? fun i => digits i ≠ 63) = none := by
    rw [List.find?_eq_none]
    intro i _
    simp [h i]
  unfold countUp
  rw [hf]

/-- The clock has not gone back, eight digits hold it, and for a second id of one
millisecond there is a digit to count up. -/
def ClockOk (state : FNextPushId) (call : Nat × (Fin 12 → Fin 64)) : Prop :=
  state.lastPushTime ≤ call.1 ∧ call.1 < capacity 8 ∧
    (call.1 = state.lastPushTime → ∃ i, (state.lastRandChars i).val < 63)

instance (state : FNextPushId) (call : Nat × (Fin 12 → Fin 64)) : Decidable (ClockOk state call) :=
  inferInstanceAs (Decidable (_ ∧ _ ∧ (_ → _)))

/-- **The next id** comes after the last one. -/
theorem get_lt {state : FNextPushId} {call : Nat × (Fin 12 → Fin 64)} (h : ClockOk state call) :
    compareKey (nextId state.lastPushTime state.lastRandChars) (state.get call.1 call.2).1 =
      .lt := by
  obtain ⟨hle, hcap, hspare⟩ := h
  unfold get
  rw [compareKey_nextId, utf16_nextId, utf16_nextId]
  by_cases hnow : call.1 = state.lastPushTime
  · rw [if_pos hnow, hnow, compareLex_append_left]
    exact countUp_lt (hspare hnow)
  · rw [if_neg hnow]
    apply compareLex_append_of_lt
    · rw [timeUnits_length, timeUnits_length]
    · exact timeUnits_lt (by omega) hcap

/-- The id after twelve digits 63, in the same millisecond, comes before the last one. -/
theorem get_full {state : FNextPushId} (h : ∀ i, state.lastRandChars i = 63)
    (random : Fin 12 → Fin 64) :
    compareKey (state.get state.lastPushTime random).1
      (nextId state.lastPushTime state.lastRandChars) = .lt := by
  have hlt : unit 0 < unit 63 := unit_lt (by decide)
  unfold get
  rw [if_pos rfl, countUp_full h, compareKey_nextId, utf16_nextId, utf16_nextId,
    compareLex_append_left]
  refine compareLex_ofFn (i := 0) (fun j hj => absurd hj (Nat.not_lt_zero _)) ?_
  rw [h 0]
  exact hlt

/-! ## Runs -/

/-- One call each, with the clock and the random digits it finds. -/
def machine : Machine FNextPushId (Nat × (Fin 12 → Fin 64)) :=
  ⟨start, fun state call => some (state.get call.1 call.2).2⟩

/-- The id a call makes up. -/
def made (state : FNextPushId) (call : Nat × (Fin 12 → Fin 64)) : List String :=
  [(state.get call.1 call.2).1]

/-- The ids made so far are increasing, and the last one is the state's. -/
structure Sorted (ids : List String) (state : FNextPushId) : Prop where
  increasing : ids.Pairwise fun a b => compareKey a b = .lt
  last : ∀ id ∈ ids, (compareKey id (nextId state.lastPushTime state.lastRandChars)).isLE = true

theorem Sorted.step {ids : List String} {state state' : FNextPushId}
    {call : Nat × (Fin 12 → Fin 64)} (hi : Sorted ids state) (hclock : ClockOk state call)
    (hs : machine.step state call = some state') : Sorted (ids ++ made state call) state' := by
  cases hs
  have hnew : ∀ a ∈ ids, compareKey a (state.get call.1 call.2).1 = .lt := fun a ha =>
    TransCmp.lt_of_isLE_of_lt (hi.last a ha) (get_lt hclock)
  constructor
  · refine List.pairwise_append.2 ⟨hi.increasing, List.pairwise_singleton _ _, fun a ha b hb => ?_⟩
    rw [List.mem_singleton.1 hb]
    exact hnew a ha
  · intro a ha
    show (compareKey a (state.get call.1 call.2).1).isLE = true
    rcases List.mem_append.1 ha with ha | ha
    · rw [hnew a ha]
      rfl
    · rw [List.mem_singleton.1 ha]
      exact ReflCmp.isLE_rfl

theorem sorted_observe {calls : List (Nat × (Fin 12 → Fin 64))} {state : FNextPushId}
    (h : machine.Run calls state) (hc : machine.Along ClockOk machine.init calls) :
    Sorted (machine.observe made calls) state := by
  refine h.induct_along (C := ClockOk) (P := fun calls => Sorted (machine.observe made calls))
    ⟨List.Pairwise.nil, fun id hid => absurd hid List.not_mem_nil⟩ ?_ hc
  intro calls state call state' hr hi hclock hs
  rw [machine.observe_snoc made call hr]
  exact hi.step hclock hs

/-- **Ids come in order**: while the clock does not go back, and no millisecond uses
up the digits, they are strictly increasing as keys. -/
theorem pushIds_sorted {calls : List (Nat × (Fin 12 → Fin 64))} {state : FNextPushId}
    (h : machine.Run calls state) (hc : machine.Along ClockOk machine.init calls) :
    (machine.observe made calls).Pairwise fun a b => compareKey a b = .lt :=
  (sorted_observe h hc).increasing

/-- Three ids, two of which are of one millisecond. -/
def threeCalls : List (Nat × (Fin 12 → Fin 64)) :=
  [(1580000000000, fun _ => lastDigit 62), (1580000000000, fun _ => lastDigit 0),
    (1580000000001, fun _ => lastDigit 5)]

theorem pushIds_sorted_three :
    (machine.observe made threeCalls).Pairwise fun a b => compareKey a b = .lt :=
  pushIds_sorted (machine.run_reach (by decide +kernel)) (by decide +kernel)

/-- Each id the generator made has the characters of `nextId`. -/
theorem made_nextId (calls : List (Nat × (Fin 12 → Fin 64))) :
    ∀ id ∈ machine.observe made calls, ∃ now digits, id = nextId now digits := by
  have key : ∀ (state : FNextPushId), ∀ id ∈ machine.trace made state calls,
      ∃ now digits, id = nextId now digits := by
    induction calls with
    | nil => intro state id hid; cases hid
    | cons call calls ih =>
      intro state id hid
      rcases List.mem_append.1 hid with hid | hid
      · rw [List.mem_singleton.1 hid]
        exact ⟨_, _, rfl⟩
      · exact ih _ id hid
  exact key start

/-- An id is one piece of a path. -/
theorem piecesOf_nextId (now : Nat) (digits : Fin 12 → Fin 64) :
    piecesOf (nextId now digits) = [nextId now digits] := by
  have hpush : ∀ d, pushChar d ≠ '/' := by
    intro d e
    have hall : PUSH_CHARS.all (fun c => c != '/') = true := by decide
    have := List.all_eq_true.1 hall _ (List.get_mem PUSH_CHARS (d.cast PUSH_CHARS_length.symm))
    exact absurd e (by simpa [pushChar] using this)
  have htime : ∀ n now, '/' ∉ timeStampChars n now := by
    intro n
    induction n with
    | zero => intro now h; cases h
    | succ n ih =>
      intro now h
      rw [timeStampChars] at h
      rcases List.mem_append.1 h with h | h
      · exact ih _ h
      · exact hpush _ (List.mem_singleton.1 h).symm
  apply RatingSystem.piecesOf_self
  · exact ofList_ne_empty (by simp [timeStampChars])
  · unfold nextId
    rw [String.toList_ofList]
    intro h
    rcases List.mem_append.1 h with h | h
    · exact htime _ _ h
    · obtain ⟨i, -, hi⟩ := List.mem_map.1 h
      exact hpush _ hi

open RatingSystem in
/-- **Ratings that use such ids have fresh keys**, unless an id is a piece of one
of the titles. -/
theorem freshKeys_of_made {calls : List (Nat × (Fin 12 → Fin 64))} {state : FNextPushId}
    (h : machine.Run calls state) (hc : machine.Along ClockOk machine.init calls)
    {rates : List RateCall} (hids : rates.map RateCall.autoId = machine.observe made calls)
    {ts : List String} (ht : ∀ t ∈ ts, ∀ id ∈ machine.observe made calls, id ∉ piecesOf t) :
    FreshKeys ts rates := by
  have hkey : ∀ c ∈ rates, ∀ key, c.key? = some key → key = c.autoId := by
    intro c hcm key hk
    obtain ⟨now, digits, hid⟩ := made_nextId calls c.autoId (hids ▸ List.mem_map_of_mem hcm)
    have ha := key?_autoKey hk
    rw [autoKey_eq, hid, piecesOf_nextId] at ha
    cases hv : validPathString "child:" (nextId now digits) with
    | error e => rw [hv] at ha; cases ha
    | ok u =>
      rw [hv] at ha
      cases ha
      exact hid.symm
  constructor
  · have hs := (sorted_observe h hc).increasing
    rw [← hids, List.pairwise_map] at hs
    refine List.pairwise_filterMap.2 (hs.imp_of_mem ?_)
    intro c d hcm hdm hlt k hk l hl e
    rw [← hkey c hcm k hk, ← hkey d hdm l hl, e,
      (ReflCmp.compare_self : compareKey l l = .eq)] at hlt
    cases hlt
  · intro c hcm key hk t htm
    rw [hkey c hcm key hk]
    exact ht t htm _ (hids ▸ List.mem_map_of_mem hcm)

open RatingSystem in
theorem freshKeys_of_made_three : FreshKeys ["Up"]
    ((machine.observe made threeCalls).map fun id => ⟨upPixar.movie, 4, id⟩) := by
  have h : machine.Run threeCalls (machine.reach threeCalls) :=
    machine.run_reach (by decide +kernel)
  refine freshKeys_of_made h (by decide +kernel) ?_ (by decide +kernel)
  rw [List.map_map]
  exact List.map_id _

end FNextPushId
end MovieDBApp.L2.Firebase
