import MovieDBApp.L2Store.Firebase

/-!
# `FNextPushId`: the ids `childByAutoId` makes up

Eight characters for the time in milliseconds, twelve for random digits; a
second id of one millisecond counts the digits of the first one up.

* `FNextPushId.isValidPathString_get`: `child` takes every one of them.
-/
namespace MovieDBApp.L2.Firebase

def PUSH_CHARS : List Char :=
  "-0123456789ABCDEFGHIJKLMNOPQRSTUVWXYZ_abcdefghijklmnopqrstuvwxyz".toList

theorem PUSH_CHARS_length : PUSH_CHARS.length = 64 := by decide

def pushChar (digit : Fin 64) : Char := PUSH_CHARS.get (digit.cast PUSH_CHARS_length.symm)

/-- The two static variables; `lastRandChars 0` is the first digit. -/
structure FNextPushId where
  lastPushTime : Nat
  lastRandChars : Fin 12 → Fin 64

namespace FNextPushId

def start : FNextPushId := ⟨0, fun _ => 0⟩

/-- The last `n` digits of `now`.
mirrors MovieDBApp/Pods/FirebaseDatabase/Firebase/Database/Utilities/FNextPushId.m:34-38 -/
def timeStampChars : Nat → Nat → List Char
  | 0, _ => []
  | n + 1, now => timeStampChars n (now / 64) ++ [pushChar ⟨now % 64, Nat.mod_lt now (by decide)⟩]

/-- The digits from the last one that is not 63 count one up. Where all are 63 they
become 0, and the source also counts up what is in memory before them.
mirrors MovieDBApp/Pods/FirebaseDatabase/Firebase/Database/Utilities/FNextPushId.m:48-52 -/
def countUp (digits : Fin 12 → Fin 64) : Fin 12 → Fin 64 :=
  match (List.finRange 12).reverse.find? fun i => digits i ≠ 63 with
  | some i => fun j => if j < i then digits j else if j = i then digits i + 1 else 0
  | none => fun _ => 0

def nextId (now : Nat) (digits : Fin 12 → Fin 64) : String :=
  String.ofList (timeStampChars 8 now ++ (List.finRange 12).map fun i => pushChar (digits i))

/-- mirrors MovieDBApp/Pods/FirebaseDatabase/Firebase/Database/Utilities/FNextPushId.m:25-60 -/
def get (state : FNextPushId) (now : Nat) (random : Fin 12 → Fin 64) : String × FNextPushId :=
  let digits := if now = state.lastPushTime then countUp state.lastRandChars else random
  (nextId now digits, ⟨now, digits⟩)

end FNextPushId

theorem pushChar_valid (digit : Fin 64) :
    kInvalidPathCharacters.contains (pushChar digit) = false := by
  have hall : PUSH_CHARS.all (fun c => !kInvalidPathCharacters.contains c) = true := by decide
  have hc := List.all_eq_true.1 hall _ (List.get_mem PUSH_CHARS (digit.cast PUSH_CHARS_length.symm))
  rwa [Bool.not_eq_true'] at hc

theorem FNextPushId.timeStampChars_valid (n now : Nat) :
    ∀ c ∈ timeStampChars n now, kInvalidPathCharacters.contains c = false := by
  induction n generalizing now with
  | zero => simp [timeStampChars]
  | succ n ih =>
    rw [timeStampChars]
    intro c hc
    rcases List.mem_append.1 hc with hc | hc
    · exact ih (now / 64) c hc
    · rw [List.mem_singleton.1 hc]
      exact pushChar_valid _

/-- **Auto ids can stand in a path**, whatever the clock and the random digits. -/
theorem FNextPushId.isValidPathString_get (state : FNextPushId) (now : Nat)
    (random : Fin 12 → Fin 64) : isValidPathString (state.get now random).1 = true := by
  unfold get
  generalize (if now = state.lastPushTime then _ else _ : Fin 12 → Fin 64) = digits
  simp only [isValidPathString, nextId, Bool.and_eq_true, bne_iff_ne, List.all_eq_true,
    String.toList_ofList, List.mem_append, Bool.not_eq_true']
  refine ⟨ofList_ne_empty (by simp [timeStampChars]), fun c hc => ?_⟩
  rcases hc with hc | hc
  · exact timeStampChars_valid 8 now c hc
  · obtain ⟨i, -, rfl⟩ := List.mem_map.1 hc
    exact pushChar_valid (digits i)

end MovieDBApp.L2.Firebase
