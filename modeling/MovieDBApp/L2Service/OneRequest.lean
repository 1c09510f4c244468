import MovieDBApp.L1Data.Server
import MovieDBApp.L2Service.MovieService

/-!
# One list request at a time, each answered once

* `WF`: only the slot's task can be running, and a call has been answered
  exactly when its task's handler has run.
* `inductive_wf`: it holds in every run.
* `inductive_asking`: a task's URL is the one its request makes.
* `one_request_at_a_time`: what this says of the calls of a run.
-/
namespace MovieDBApp.L2.Service
open MovieDBApp.Core MovieDBApp.L1

/-! ## The invariant -/

/-- The call at index `c` was rejected at once, or it started a task and has
been answered by that task's handler only. -/
def Answered (P : Platform) (s : Service) (c : Nat) (call : Call) : Prop :=
  (call.task = none ∧ call.invoked = [.error .alreadyActive]) ∨
    ∃ i task, call.task = some i ∧ s.tasks[i]? = some task ∧ task.call = c ∧
      call.invoked = task.phase.delivered P

structure WF (P : Platform) (s : Service) : Prop where
  slot : ∀ (i : Nat) (task : ListTask), s.tasks[i]? = some task → task.state = .running →
    s.fetchingMoviesTask = some i
  transferring : ∀ (i : Nat) (task : ListTask), s.tasks[i]? = some task →
    task.phase = .transferring → task.state = .running
  owner : ∀ (i : Nat) (task : ListTask), s.tasks[i]? = some task →
    ∃ call : Call, s.calls[task.call]? = some call ∧ call.task = some i ∧
      call.request = task.request
  answered : ∀ (c : Nat) (call : Call), s.calls[c]? = some call → Answered P s c call

variable {P : Platform} {s s' : Service}

theorem wf_new : WF P new where
  slot := by simp [new]
  transferring := by simp [new]
  owner := by simp [new]
  answered := by simp [new]

/-- The slot's task is the one that runs, if any does. -/
theorem WF.isFetching_iff (h : s.WF P) :
    s.isFetching = true ↔ ∃ task ∈ s.tasks, task.state = .running := by
  rw [Service.isFetching_iff]
  refine ⟨fun ⟨i, task, _, ht, hr⟩ => ⟨task, List.mem_of_getElem? ht, hr⟩, fun ⟨task, hm, hr⟩ => ?_⟩
  obtain ⟨i, ht⟩ := List.getElem?_of_mem hm
  exact ⟨i, task, h.slot i task ht hr, ht, hr⟩

theorem WF.fetch (h : s.WF P) (request : ListCall) : (s.fetch P request).WF P := by
  unfold Service.fetch
  split
  · refine ⟨h.slot, h.transferring, fun i task ht => ?_, fun c call hc => ?_⟩
    · obtain ⟨call, hc, hr⟩ := h.owner i task ht
      exact ⟨call, getElem?_append_some hc, hr⟩
    · rcases getElem?_snoc.1 hc with hc | ⟨rfl, rfl⟩
      · exact h.answered c call hc
      · exact .inl ⟨rfl, rfl⟩
  · rename_i hf
    have hidle : ∀ (i : Nat) (task : ListTask), s.tasks[i]? = some task → task.state ≠ .running :=
      fun i task ht hr => hf (h.isFetching_iff.2 ⟨task, List.mem_of_getElem? ht, hr⟩)
    refine ⟨fun i task ht hr => ?_, fun i task ht hp => ?_, fun i task ht => ?_,
      fun c call hc => ?_⟩
    · rcases getElem?_snoc.1 ht with ht | ⟨rfl, -⟩
      · exact absurd hr (hidle i task ht)
      · rfl
    · rcases getElem?_snoc.1 ht with ht | ⟨-, rfl⟩
      · exact h.transferring i task ht hp
      · rfl
    · rcases getElem?_snoc.1 ht with ht | ⟨rfl, rfl⟩
      · obtain ⟨call, hc, hr⟩ := h.owner i task ht
        exact ⟨call, getElem?_append_some hc, hr⟩
      · exact ⟨_, getElem?_snoc.2 (.inr ⟨rfl, rfl⟩), rfl, rfl⟩
    · rcases getElem?_snoc.1 hc with hc | ⟨rfl, rfl⟩
      · obtain h1 | ⟨i, task, h1, h2, h3⟩ := h.answered c call hc
        · exact .inl h1
        · exact .inr ⟨i, task, h1, getElem?_append_some h2, h3⟩
      · exact .inr ⟨_, _, rfl, getElem?_snoc.2 (.inr ⟨rfl, rfl⟩), rfl, rfl⟩

/-- An update of one task that keeps what its call has got, and does not make
it run again, keeps the invariant. -/
theorem WF.modify_task (h : s.WF P) {i : Nat} {f : ListTask → ListTask}
    (hcall : ∀ task, (f task).call = task.call ∧ (f task).request = task.request)
    (hdel : ∀ task, s.tasks[i]? = some task → (f task).phase.delivered P = task.phase.delivered P)
    (hrun : ∀ task, (f task).state = .running → task.state = .running)
    (htr : ∀ task, s.tasks[i]? = some task → (f task).phase ≠ .transferring) :
    WF P { s with tasks := s.tasks.modify i f } where
  slot j task hj hr := by
    obtain ⟨task', hj', rfl⟩ := getElem?_modify_iff.1 hj
    refine h.slot j task' hj' ?_
    split at hr
    · exact hrun task' hr
    · exact hr
  transferring j task hj hp := by
    obtain ⟨task', hj', rfl⟩ := getElem?_modify_iff.1 hj
    split at hp
    · subst i; exact absurd hp (htr task' hj')
    · rw [if_neg ‹_›]; exact h.transferring j task' hj' hp
  owner j task hj := by
    obtain ⟨task', hj', rfl⟩ := getElem?_modify_iff.1 hj
    obtain ⟨call, hc, h1, h2⟩ := h.owner j task' hj'
    split
    · exact ⟨call, (hcall task').1 ▸ hc, h1, h2.trans (hcall task').2.symm⟩
    · exact ⟨call, hc, h1, h2⟩
  answered c call hc := by
    obtain h1 | ⟨j, task, h1, h2, h3, h4⟩ := h.answered c call hc
    · exact .inl h1
    · refine .inr ⟨j, _, h1, getElem?_modify_iff.2 ⟨task, h2, rfl⟩, ?_, ?_⟩
      · split
        · exact (hcall task).1.trans h3
        · exact h3
      · split
        · subst i; exact h4.trans (hdel task h2).symm
        · exact h4

theorem WF.transferEnded (h : s.WF P) {i : Nat} {transfer : Transfer}
    (hs : s.transferEnded i transfer = some s') : s'.WF P := by
  obtain ⟨task, ht, hp, rfl⟩ := transferEnded_cases hs
  refine h.modify_task (fun _ => ⟨rfl, rfl⟩) (fun k hk => ?_) (fun _ hr => hr) (by simp)
  rw [ht, Option.some.injEq] at hk
  simp [← hk, hp, Phase.delivered]

theorem WF.leaveRunning (h : s.WF P) {i : Nat} (hs : s.leaveRunning i = some s') : s'.WF P := by
  obtain ⟨task, ht, hp, rfl⟩ := leaveRunning_cases hs
  refine h.modify_task (fun _ => ⟨rfl, rfl⟩) (fun _ _ => rfl) (by simp) (fun k hk => ?_)
  rw [ht, Option.some.injEq] at hk
  exact hk ▸ hp

theorem WF.handle (h : s.WF P) {i : Nat} (hs : s.handle P i = some s') : s'.WF P := by
  obtain ⟨task, transfer, ht, hp, rfl⟩ := handle_cases hs
  obtain ⟨call, hc, hci, hreq⟩ := h.owner i task ht
  have hinv : call.invoked = [] := by
    obtain ⟨h1, -⟩ | ⟨j, task', h1, h2, -, h4⟩ := h.answered task.call call hc
    · rw [hci] at h1; cases h1
    · rw [hci, Option.some.injEq] at h1
      subst h1
      rw [ht, Option.some.injEq] at h2
      rw [h4, ← h2, hp]; rfl
  refine ⟨fun j k hj hr => ?_, fun j k hj hph => ?_, fun j k hj => ?_, fun c k hk => ?_⟩
  · obtain ⟨k', hj', rfl⟩ := getElem?_modify_iff.1 hj
    refine h.slot j k' hj' ?_
    split at hr <;> exact hr
  · obtain ⟨k', hj', rfl⟩ := getElem?_modify_iff.1 hj
    split at hph
    · cases hph
    · rw [if_neg ‹_›]; exact h.transferring j k' hj' hph
  · obtain ⟨k', hj', rfl⟩ := getElem?_modify_iff.1 hj
    obtain ⟨call', hc', h1, h2⟩ := h.owner j k' hj'
    simp only [apply_ite ListTask.call, apply_ite ListTask.request, ite_self]
    refine ⟨_, getElem?_modify_iff.2 ⟨call', hc', rfl⟩, ?_, ?_⟩ <;> split <;> assumption
  · obtain ⟨k', hk', rfl⟩ := getElem?_modify_iff.1 hk
    by_cases hcc : task.call = c
    · -- the call that is answered now
      subst hcc
      rw [hc, Option.some.injEq] at hk'
      subst hk'
      rw [if_pos rfl]
      refine .inr ⟨i, _, hci, getElem?_modify_iff.2 ⟨task, ht, rfl⟩, ?_, ?_⟩
      · rw [if_pos rfl]
      · rw [if_pos rfl]
        simp [hinv, Phase.delivered]
    · rw [if_neg hcc]
      obtain h1 | ⟨j, task', h1, h2, h3, h4⟩ := h.answered c k' hk'
      · exact .inl h1
      · refine .inr ⟨j, _, h1, getElem?_modify_iff.2 ⟨task', h2, rfl⟩, ?_, ?_⟩
        · split <;> exact h3
        · rw [if_neg (fun e => hcc ?_)]
          · exact h4
          · subst e
            rw [ht, Option.some.injEq] at h2
            rw [h2, h3]

theorem WF.step (h : s.WF P) {e : Event} (hs : step P s e = some s') : s'.WF P := by
  cases e with
  | call request =>
    cases hs
    exact call_eq_fetch P s request ▸ h.fetch request
  | transferEnded i transfer => exact h.transferEnded hs
  | leaveRunning i => exact h.leaveRunning hs
  | handle i => exact h.handle hs

theorem inductive_wf (P : Platform) : (machine P).Inductive (WF P) :=
  ⟨wf_new, fun _ _ _ h hs => h.step hs⟩

/-- The call of a task whose handler has run has been answered, by that handler. -/
theorem WF.invoked (h : s.WF P) {i : Nat} {task : ListTask} {transfer : Transfer}
    (ht : s.tasks[i]? = some task) (hp : task.phase = .handled transfer) :
    ∃ call, s.calls[task.call]? = some call ∧ call.request = task.request ∧
      call.invoked = [outcome P transfer] := by
  obtain ⟨call, hc, htask, hreq⟩ := h.owner i task ht
  refine ⟨call, hc, hreq, ?_⟩
  obtain ⟨hnone, -⟩ | ⟨j, task', hj, ht', -, hinv⟩ := h.answered task.call call hc
  · rw [htask] at hnone
    cases hnone
  · rw [htask, Option.some.injEq] at hj
    subst hj
    rw [ht, Option.some.injEq] at ht'
    rw [hinv, ← ht', hp]
    rfl

/-- The URL of every task is that of its request. -/
def Asking (P : Platform) (s : Service) : Prop :=
  ∀ task ∈ s.tasks, task.components = task.request.urlComponents P

theorem Asking.modify (h : Asking P s) (i : Nat) {f : ListTask → ListTask}
    (hf : ∀ task, (f task).components = task.components ∧ (f task).request = task.request) :
    Asking P { s with tasks := s.tasks.modify i f } :=
  forall_mem_modify h fun task ht => by
    rw [(hf task).1, (hf task).2]
    exact h task (List.mem_of_getElem? ht)

/-- What a later moment may have added to a call. -/
def Call.Later (call call' : Call) : Prop :=
  call'.request = call.request ∧ call'.task = call.task ∧ call.invoked <+: call'.invoked

theorem Call.Later.refl (call : Call) : Call.Later call call :=
  ⟨rfl, rfl, List.prefix_rfl⟩

theorem Call.Later.trans (a b c : Call) (h : Call.Later a b) (h' : Call.Later b c) :
    Call.Later a c :=
  ⟨h'.1.trans h.1, h'.2.1.trans h.2.1, h.2.2.trans h'.2.2⟩

theorem step_calls {e : Event} (hs : step P s e = some s') :
    Extends Call.Later s.calls s'.calls := by
  cases e with
  | call request =>
    cases hs
    rw [call_eq_fetch]
    unfold fetch
    split <;> exact Extends.append Call.Later.refl _ _
  | transferEnded i transfer =>
    obtain ⟨_, _, _, rfl⟩ := transferEnded_cases hs
    exact Extends.refl Call.Later.refl _
  | leaveRunning i =>
    obtain ⟨_, _, _, rfl⟩ := leaveRunning_cases hs
    exact Extends.refl Call.Later.refl _
  | handle i =>
    obtain ⟨task, transfer, _, _, rfl⟩ := handle_cases hs
    exact Extends.modify Call.Later.refl fun _ _ => ⟨rfl, rfl, List.prefix_append ..⟩

theorem exec_calls {es : List Event} (h : (machine P).exec s es = some s') :
    Extends Call.Later s.calls s'.calls :=
  Machine.exec_rel (R := fun a b : Service => Extends Call.Later a.calls b.calls)
    (fun _ => .refl Call.Later.refl _) (fun _ _ _ => .trans Call.Later.trans)
    (fun _ _ _ hs => step_calls hs) h

theorem outcome_ne_alreadyActive (P : Platform) (transfer : Transfer) :
    outcome P transfer ≠ .error .alreadyActive := by
  unfold outcome
  split
  · split <;> simp
  · simp

theorem Answered.length_le_one {c : Nat} {call : Call} (h : Answered P s c call) :
    call.invoked.length ≤ 1 := by
  obtain ⟨-, h⟩ | ⟨_, task, -, -, -, h⟩ := h
  · simp [h]
  · rw [h]
    cases task.phase <;> simp [Phase.delivered]

/-- A call that started a task is never answered with `alreadyActive`. -/
theorem Answered.not_alreadyActive {c : Nat} {call : Call} (h : Answered P s c call)
    (hne : call.task ≠ none) : .error .alreadyActive ∉ call.invoked := by
  intro hm
  obtain ⟨h1, -⟩ | ⟨_, task, -, -, -, h4⟩ := h
  · exact hne h1
  · rw [h4] at hm
    cases hp : task.phase with
    | transferring => simp [hp, Phase.delivered] at hm
    | arrived transfer => simp [hp, Phase.delivered] at hm
    | handled transfer =>
      simp only [hp, Phase.delivered, List.mem_singleton] at hm
      exact outcome_ne_alreadyActive P transfer hm.symm

/-- Nothing is added to a call that has been answered. -/
theorem Call.Later.eq {call call' : Call} (h : Call.Later call call') (hne : call.invoked ≠ [])
    (hlen : call'.invoked.length ≤ 1) : call' = call := by
  obtain ⟨hreq, htask, hinv⟩ := h
  have hpos := List.length_pos_iff.2 hne
  have hle := hinv.length_le
  have he : call.invoked = call'.invoked := hinv.eq_of_length (by omega)
  cases call; cases call'
  simp_all

/-- **One list request at a time, each answered exactly once.** In every state
of every run: only the task in `fetchingMoviesTask` can be running; a call made
while a task runs is answered with `alreadyActive` and changes nothing else,
any other call starts one task; every call made so far is `Answered`, a started
one never with `alreadyActive`; and a call that has been answered is never
invoked again. -/
theorem one_request_at_a_time (P : Platform) {es : List Event} {s : Service}
    (h : (machine P).Run es s) :
    (∀ (i : Nat) (task : ListTask), s.tasks[i]? = some task → task.state = .running →
      s.fetchingMoviesTask = some i) ∧
    (∀ request, (∃ task ∈ s.tasks, task.state = .running) →
      step P s (.call request) =
        some { s with calls := s.calls ++ [⟨request, none, [.error .alreadyActive]⟩] }) ∧
    (∀ request, (∀ task ∈ s.tasks, task.state ≠ .running) →
      step P s (.call request) = some
        { fetchingMoviesTask := some s.tasks.length
          tasks := s.tasks ++
            [⟨s.calls.length, request, request.urlComponents P, .running, .transferring⟩]
          calls := s.calls ++ [⟨request, some s.tasks.length, []⟩] }) ∧
    (∀ (c : Nat) (call : Call), s.calls[c]? = some call → Answered P s c call ∧
      (call.task ≠ none → .error .alreadyActive ∉ call.invoked)) ∧
    (∀ (c : Nat) (call : Call), s.calls[c]? = some call → call.invoked ≠ [] →
      ∀ fs s', (machine P).exec s fs = some s' → s'.calls[c]? = some call) := by
  have hwf : s.WF P := (inductive_wf P).run h
  refine ⟨hwf.slot, fun request hr => ?_, fun request hr => ?_, fun c call hc => ?_, ?_⟩
  · simp only [step, call_eq_fetch, fetch, if_pos (hwf.isFetching_iff.2 hr)]
  · have hf : ¬ s.isFetching = true := fun hf => by
      obtain ⟨task, hm, ht⟩ := hwf.isFetching_iff.1 hf
      exact hr task hm ht
    simp only [step, call_eq_fetch, fetch, if_neg hf]
  · exact ⟨hwf.answered c call hc, fun hne => (hwf.answered c call hc).not_alreadyActive hne⟩
  · intro c call hc hne fs s' hx
    obtain ⟨call', hc', hlater⟩ := exec_calls hx c call hc
    have hwf' : s'.WF P := (inductive_wf P).run (h.append hx)
    rw [hc', hlater.eq hne (hwf'.answered c call' hc').length_le_one]

/-- A request of page 1 and a search made while it runs; then the transfer
fails and the handler runs. The two answers are final. -/
theorem one_request_at_a_time_offline :
    ∃ s, (machine (Platform.serving ⟨1, 0, 0, []⟩ [])).Run
        [.call (.getMovies 1), .call (.search "Up" 1),
         .transferEnded 0 ⟨none, some ⟨-1009⟩⟩, .handle 0] s ∧
      ∀ fs s', (machine (Platform.serving ⟨1, 0, 0, []⟩ [])).exec s fs = some s' →
        s'.calls[0]? = some ⟨.getMovies 1, some 0, [.error .networkError]⟩ ∧
        s'.calls[1]? = some ⟨.search "Up" 1, none, [.error .alreadyActive]⟩ := by
  have hr : (machine (Platform.serving ⟨1, 0, 0, []⟩ [])).Run
      [.call (.getMovies 1), .call (.search "Up" 1),
       .transferEnded 0 ⟨none, some ⟨-1009⟩⟩, .handle 0] _ := rfl
  refine ⟨_, hr, fun fs s' hx => ?_⟩
  obtain ⟨-, -, -, -, h⟩ := one_request_at_a_time _ hr
  exact ⟨h 0 _ rfl (by simp) fs s' hx, h 1 _ rfl (by simp) fs s' hx⟩

end MovieDBApp.L2.Service
