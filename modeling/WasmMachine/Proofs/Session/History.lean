import WasmMachine.Proofs.Session.Results

/-!
# The start function in the history of a session

The driver calls the start function in the first invocation that gets past its argument check, and
in no other, whether that call returns or not. So a requested function is entered only after the
start function has returned or its one call was given up; a later invocation does not try again.

* `Session.history`: what the driver did in a sequence of requests.
* `Session.isStart_iff_first_accepted`: the start function is done with in the first request that
  gets past its argument check.
* `Session.start_precedes_requests`: what can come before a requested function is entered.
* `Session.start_not_completed`: a start function that traps is not run again.
-/

namespace WasmMachine

open Stack

/-- What the driver of a session does. -/
inductive DriverEvent where
  /-- The driver's call of the start function has returned. -/
  | startReturned
  /-- The invocation that was to call the start function has ended with this answer before that
  call returned. -/
  | startAborted (answer : Answer)
  /-- The driver's call of the requested function has taken effect. -/
  | requestEntered (index : UInt32)
  deriving DecidableEq

/-- The event is about the start function. -/
def DriverEvent.isStart : DriverEvent → Bool
  | .startReturned | .startAborted _ => true
  | .requestEntered _ => false

namespace Session

instance (s : Session) (m : Machine) : Decidable (s.AtRequest m) :=
  inferInstanceAs (Decidable (m.depth = 1 ∧ m.pc = ⟨.driver, callsLength s.due.toList⟩))

/-- What a step from one machine to the next was for the driver. -/
def event? (s : Session) (index : UInt32) (m m' : Machine) : Option DriverEvent :=
  if s.AtRequest m then some (.requestEntered index)
  else if s.due.isSome ∧ s.AtRequest m' ∧ m'.depth < m.depth then some .startReturned
  else none

/-- What the driver does in a run, from a machine on. -/
def runEvents (s : Session) (index : UInt32) : (fuel : Nat) → Machine → List DriverEvent
  | 0, _ => []
  | fuel + 1, m =>
    if m.halted then []
    else
      match step (s.environment index) m with
      | .ok _ m' => (s.event? index m m').toList ++ s.runEvents index fuel m'
      | .error _ _ => []

/-- What the driver does in an invocation. -/
def invokeEvents (s : Session) (fuel : Nat) (index : UInt32) (arguments : List Value) :
    List DriverEvent :=
  match s.checkArguments index arguments with
  | .error _ => []
  | .ok signature =>
    let events := s.runEvents index fuel (s.opening signature arguments)
    if s.due.isSome ∧ .startReturned ∉ events then
      events ++ [.startAborted (s.invoke fuel index arguments).1]
    else events

/-- What the driver does for a request. -/
def answerEvents (s : Session) (fuel : Nat) : Request → List DriverEvent
  | .invoke index arguments => s.invokeEvents fuel index arguments
  | .execute index =>
    match index.or s.program.entry with
    | some index => s.invokeEvents fuel index []
    | none => []

/-- The request gets past its argument check: there is such a function, and the arguments have the
types of its parameters. -/
def Accepts (s : Session) : Request → Prop
  | .invoke index arguments => ∃ signature, s.checkArguments index arguments = .ok signature
  | .execute index => ∃ entry signature, index.or s.program.entry = some entry ∧
    s.checkArguments entry [] = .ok signature

/-- What the driver does for requests, one after the other. -/
def history (s : Session) : List (Nat × Request) → List DriverEvent
  | [] => []
  | (fuel, request) :: rest =>
    s.answerEvents fuel request ++ (s.answer fuel request).2.history rest

/-! ## Events of a run -/

variable {s : Session} {index next : UInt32} {signature : FunctionType} {arguments : List Value}
  {done rest : List UInt32} {m m' : Machine}

theorem runEvents_halted (h : m.halted = true) (fuel : Nat) : s.runEvents index fuel m = [] := by
  cases fuel with
  | zero => rfl
  | succ fuel => rw [runEvents, if_pos h]

theorem runEvents_step (h : m.halted = false) (hStep : step (s.environment index) m = .ok () m')
    (fuel : Nat) :
    s.runEvents index (fuel + 1) m =
      (s.event? index m m').toList ++ s.runEvents index fuel m' := by
  rw [runEvents, if_neg (by rw [h]; exact Bool.false_ne_true), hStep]

theorem runEvents_error (h : m.halted = false) {f : Fault}
    (hStep : step (s.environment index) m = .error f m') (fuel : Nat) :
    s.runEvents index (fuel + 1) m = [] := by
  rw [runEvents, if_neg (by rw [h]; exact Bool.false_ne_true), hStep]

theorem Between.atRequest (h : s.Between index signature arguments s.due.toList rest m) :
    s.AtRequest m := ⟨h.depth_eq, h.pc_eq⟩

theorem Within.not_atRequest (h : s.Within index signature arguments done next rest m) :
    ¬ s.AtRequest m := by
  intro hRequest
  have hDeep := h.lt_depth
  have hDepth := hRequest.1
  omega

/-- The driver is not at the request when fewer or more calls have returned. -/
theorem Between.not_atRequest (h : s.Between index signature arguments done rest m)
    (hDone : done ≠ s.due.toList) : ¬ s.AtRequest m := by
  intro hRequest
  have hOffset : callsLength done = callsLength s.due.toList :=
    congrArg CodePoint.offset (h.pc_eq.symm.trans hRequest.2)
  exact hDone (eq_of_callsLength_eq h.calls.symm hOffset)

theorem event?_eq_none (h : ¬ s.AtRequest m) (h' : ¬ s.AtRequest m') :
    s.event? index m m' = none := by
  rw [event?, if_neg h, if_neg fun hReturned => h' hReturned.2.1]

/-- Once the request is entered, nothing more happens. -/
theorem runEvents_of_entered
    (h : s.Within index signature arguments s.due.toList index [] m ∨
      s.Between index signature arguments (s.calls index) [] m) (fuel : Nat) :
    s.runEvents index fuel m = [] := by
  have hCalls : s.calls index ≠ s.due.toList := by
    intro hEq
    have hLength := congrArg List.length hEq
    rw [calls, List.length_append] at hLength
    simp at hLength
  induction fuel generalizing m with
  | zero => rfl
  | succ fuel ih =>
    have hRunning : m.halted = false := h.elim Within.running Between.running
    have hHere : ¬ s.AtRequest m := h.elim Within.not_atRequest (·.not_atRequest hCalls)
    cases hStep : step (s.environment index) m with
    | error f m' => exact runEvents_error hRunning hStep fuel
    | ok u m' =>
      rw [runEvents_step hRunning hStep]
      rcases h with hWithin | hBetween
      · have hNext : s.Within index signature arguments s.due.toList index [] m' ∨
            s.Between index signature arguments (s.calls index) [] m' := hWithin.step hStep
        have hThere : ¬ s.AtRequest m' := hNext.elim Within.not_atRequest (·.not_atRequest hCalls)
        rw [event?_eq_none hHere hThere, ih hNext]
        rfl
      · obtain ⟨hHalted, hDepth, -⟩ := hBetween.step_end hStep
        have hThere : ¬ s.AtRequest m' := by
          intro hRequest
          have hDriver := hRequest.1
          omega
        rw [event?_eq_none hHere hThere, runEvents_halted hHalted]
        rfl

/-- From the request on, all that can happen is that it is entered, and a run that halts has
entered it. -/
theorem runEvents_of_request (h : s.Between index signature arguments s.due.toList [index] m)
    (fuel : Nat) (j : Journal) :
    (s.runEvents index fuel m = [] ∧ (run (s.environment index) fuel m j).outcome ≠ .halted) ∨
      s.runEvents index fuel m = [.requestEntered index] := by
  cases fuel with
  | zero =>
    refine .inl ⟨rfl, ?_⟩
    rw [run, h.running]
    exact Outcome.noConfusion
  | succ fuel =>
    rw [run_step h.running]
    cases hStep : step (s.environment index) m with
    | error f m' => exact .inl ⟨runEvents_error h.running hStep fuel, Outcome.noConfusion⟩
    | ok u m' =>
      right
      have hEntered := (h.step_call hStep).1
      rw [runEvents_step h.running hStep, event?, if_pos h.atRequest,
        runEvents_of_entered (.inl hEntered)]
      rfl

/-- While the start function is due or running: its return comes before everything else, and a run
that halts has entered the request after it. -/
theorem runEvents_of_start {start : UInt32} (hDue : s.due = some start)
    (h : s.Between index signature arguments [] [start, index] m ∨
      s.Within index signature arguments [] start [index] m) (fuel : Nat) (j : Journal) :
    ((s.runEvents index fuel m = [] ∨ s.runEvents index fuel m = [.startReturned]) ∧
        (run (s.environment index) fuel m j).outcome ≠ .halted) ∨
      s.runEvents index fuel m = [.startReturned, .requestEntered index] := by
  have hNotYet : [] ≠ s.due.toList := by
    rw [hDue]
    exact (List.cons_ne_nil start []).symm
  -- The call stays open from step to step until it returns, and then the request is next.
  induction fuel generalizing m j with
  | zero =>
    have hRunning : m.halted = false := h.elim Between.running Within.running
    refine .inl ⟨.inl rfl, ?_⟩
    rw [run, hRunning]
    exact Outcome.noConfusion
  | succ fuel ih =>
    have hRunning : m.halted = false := h.elim Between.running Within.running
    have hHere : ¬ s.AtRequest m := h.elim (·.not_atRequest hNotYet) Within.not_atRequest
    rw [run_step hRunning]
    cases hStep : step (s.environment index) m with
    | error f m' => exact .inl ⟨.inl (runEvents_error hRunning hStep fuel), Outcome.noConfusion⟩
    | ok u m' =>
      rw [runEvents_step hRunning hStep]
      rcases h with hBetween | hWithin
      · have hNext := (hBetween.step_call hStep).1
        rw [event?_eq_none hHere hNext.not_atRequest]
        exact ih (.inr hNext) _
      · rcases hWithin.step hStep with hNext | hReturned
        · rw [event?_eq_none hHere hNext.not_atRequest]
          exact ih (.inr hNext) _
        · have hRequest : s.Between index signature arguments s.due.toList [index] m' := by
            rw [hDue]
            exact hReturned
          have hBack : s.due.isSome ∧ s.AtRequest m' ∧ m'.depth < m.depth := by
            refine ⟨by rw [hDue]; rfl, hRequest.atRequest, ?_⟩
            rw [hReturned.depth_eq]
            exact hWithin.lt_depth
          rw [event?, if_neg hHere, if_pos hBack]
          rcases runEvents_of_request hRequest fuel (stepRecorded (s.environment index) m j).2 with
            ⟨hNone, hOutcome⟩ | hEntered
          · rw [hNone]
            exact .inl ⟨.inr rfl, hOutcome⟩
          · rw [hEntered]
            exact .inr rfl

/-- Without a start function that is due, an invocation starts at the request. -/
theorem Consistent.runEvents_started (h : s.Consistent) (hDue : s.due = none) (fuel : Nat) :
    (s.runEvents index fuel (s.opening signature arguments) = [] ∧
        (s.result fuel index signature arguments).outcome ≠ .halted) ∨
      s.runEvents index fuel (s.opening signature arguments) = [.requestEntered index] := by
  have hOpening := h.between_opening index signature arguments
  have hRequest : s.Between index signature arguments s.due.toList [index]
      (s.opening signature arguments) := by
    rw [calls, hDue] at hOpening
    rw [hDue]
    exact hOpening
  exact runEvents_of_request hRequest fuel _

theorem Consistent.runEvents_due (h : s.Consistent) {start : UInt32} (hDue : s.due = some start)
    (fuel : Nat) :
    ((s.runEvents index fuel (s.opening signature arguments) = [] ∨
          s.runEvents index fuel (s.opening signature arguments) = [.startReturned]) ∧
        (s.result fuel index signature arguments).outcome ≠ .halted) ∨
      s.runEvents index fuel (s.opening signature arguments) =
        [.startReturned, .requestEntered index] := by
  have hOpening := h.between_opening index signature arguments
  rw [calls, hDue] at hOpening
  exact runEvents_of_start hDue (.inl hOpening) fuel _

/-! ## Events of a session -/

/-- The start function is done with: its call has returned, or the invocation that was to call it
has ended without giving values. -/
def Settles (e : DriverEvent) : Prop :=
  e = .startReturned ∨ ∃ answer, e = .startAborted answer ∧ ∀ values, answer ≠ .values values

/-- Requests are entered, and nothing else happens. -/
def OnlyRequests (events : List DriverEvent) : Prop :=
  ∀ e ∈ events, ∃ index, e = .requestEntered index

/-- What happens in a session where the start function is due or not. -/
def Orderly (due : Option UInt32) (events : List DriverEvent) : Prop :=
  match due with
  | none => OnlyRequests events
  | some _ => ∃ e later, events = e :: later ∧ Settles e ∧ OnlyRequests later

theorem onlyRequests_nil : OnlyRequests [] := fun _ h => nomatch h

theorem onlyRequests_singleton (index : UInt32) : OnlyRequests [.requestEntered index] := by
  intro e hMem
  exact ⟨index, List.mem_singleton.1 hMem⟩

theorem OnlyRequests.append {events more : List DriverEvent} (h : OnlyRequests events)
    (hMore : OnlyRequests more) : OnlyRequests (events ++ more) := by
  intro e hMem
  exact (List.mem_append.1 hMem).elim (h e) (hMore e)

/-- An invocation whose run has not halted gives no values. -/
theorem invoke_ne_values {fuel : Nat} (hCheck : s.checkArguments index arguments = .ok signature)
    (h : (s.result fuel index signature arguments).outcome ≠ .halted) (values : Array Value) :
    (s.invoke fuel index arguments).1 ≠ .values values := by
  unfold invoke
  rw [hCheck]
  simp only [runChecked_eq, close]
  cases hOutcome : (s.result fuel index signature arguments).outcome with
  | halted => exact absurd hOutcome h
  | failed f => exact Answer.noConfusion
  | outOfFuel => exact Answer.noConfusion

theorem invokeEvents_orderly (h : s.Consistent) (fuel : Nat)
    (hCheck : s.checkArguments index arguments = .ok signature) :
    Orderly s.due (s.invokeEvents fuel index arguments) := by
  unfold invokeEvents Orderly
  rw [hCheck]
  simp only
  cases hDue : s.due with
  | none =>
    rw [if_neg fun hSome => Bool.false_ne_true hSome.1]
    rcases h.runEvents_started hDue fuel with ⟨hNone, -⟩ | hEntered
    · rw [hNone]
      exact onlyRequests_nil
    · rw [hEntered]
      exact onlyRequests_singleton index
  | some start =>
    rcases h.runEvents_due hDue fuel with ⟨hNone | hReturned, hOutcome⟩ | hEntered
    · rw [hNone, if_pos ⟨rfl, List.not_mem_nil⟩]
      exact ⟨_, [], rfl, .inr ⟨_, rfl, invoke_ne_values hCheck hOutcome⟩, onlyRequests_nil⟩
    · rw [hReturned, if_neg fun hAborted => hAborted.2 List.mem_cons_self]
      exact ⟨_, [], rfl, .inl rfl, onlyRequests_nil⟩
    · rw [hEntered, if_neg fun hAborted => hAborted.2 List.mem_cons_self]
      exact ⟨_, _, rfl, .inl rfl, onlyRequests_singleton index⟩

/-- An invocation that gives values has entered the request, and before it, if the start function
was due, this has returned. -/
theorem invokeEvents_of_values (h : s.Consistent) {fuel : Nat} {values : Array Value}
    (hValues : (s.invoke fuel index arguments).1 = .values values) :
    s.invokeEvents fuel index arguments =
      (s.due.map fun _ => .startReturned).toList ++ [.requestEntered index] := by
  cases hCheck : s.checkArguments index arguments with
  | error trap =>
    unfold invoke at hValues
    rw [hCheck] at hValues
    cases hValues
  | ok signature =>
    have hHalted : (s.result fuel index signature arguments).outcome = .halted := by
      by_contra hOutcome
      exact invoke_ne_values hCheck hOutcome values hValues
    unfold invokeEvents
    rw [hCheck]
    simp only
    cases hDue : s.due with
    | none =>
      rw [if_neg fun hSome => Bool.false_ne_true hSome.1]
      rcases h.runEvents_started hDue fuel with ⟨-, hOutcome⟩ | hEntered
      · exact absurd hHalted hOutcome
      · rw [hEntered]
        rfl
    | some start =>
      rcases h.runEvents_due hDue fuel with ⟨-, hOutcome⟩ | hEntered
      · exact absurd hHalted hOutcome
      · rw [hEntered, if_neg fun hAborted => hAborted.2 List.mem_cons_self]
        rfl

/-- An invocation that gets past its argument check leaves no start function due. -/
theorem due_invoke (fuel : Nat) (hCheck : s.checkArguments index arguments = .ok signature) :
    (s.invoke fuel index arguments).2.due = none := by
  unfold invoke
  rw [hCheck]
  simp only [runChecked_eq, close]
  cases (s.result fuel index signature arguments).outcome <;> rfl

/-- A request that gets past its check leaves no start function due. -/
theorem answer_of_accepts (h : s.Consistent) {request : Request} (hAccepts : s.Accepts request)
    (fuel : Nat) :
    (s.answer fuel request).2.due = none ∧ Orderly s.due (s.answerEvents fuel request) := by
  cases request with
  | invoke index arguments =>
    obtain ⟨signature, hCheck⟩ := hAccepts
    exact ⟨due_invoke fuel hCheck, invokeEvents_orderly h fuel hCheck⟩
  | execute index =>
    obtain ⟨entry, signature, hEntry, hCheck⟩ := hAccepts
    simp only [answer, execute, answerEvents, hEntry]
    exact ⟨due_invoke fuel hCheck, invokeEvents_orderly h fuel hCheck⟩

theorem invoke_of_not_accepts (h : ¬ s.Accepts (.invoke index arguments)) (fuel : Nat) :
    (s.invoke fuel index arguments).2 = s ∧ s.invokeEvents fuel index arguments = [] := by
  cases hCheck : s.checkArguments index arguments with
  | error trap =>
    unfold invoke invokeEvents
    rw [hCheck]
    exact ⟨rfl, rfl⟩
  | ok signature => exact absurd ⟨signature, hCheck⟩ h

/-- A request that does not get past its check changes nothing, and nothing happens. -/
theorem answer_of_not_accepts {request : Request} (h : ¬ s.Accepts request) (fuel : Nat) :
    (s.answer fuel request).2 = s ∧ s.answerEvents fuel request = [] := by
  cases request with
  | invoke index arguments => exact invoke_of_not_accepts h fuel
  | execute index =>
    simp only [answer, execute, answerEvents]
    cases hEntry : index.or s.program.entry with
    | none => exact ⟨rfl, rfl⟩
    | some entry =>
      refine invoke_of_not_accepts (mt ?_ h) fuel
      rintro ⟨signature, hCheck⟩
      exact ⟨entry, signature, hEntry, hCheck⟩

/-- The start function is done with first, if it is due, and then only requests are entered. -/
theorem history_orderly (h : s.Consistent) (requests : List (Nat × Request)) :
    s.history requests = [] ∨ Orderly s.due (s.history requests) := by
  induction requests generalizing s with
  | nil => exact .inl rfl
  | cons first rest ih =>
    obtain ⟨fuel, request⟩ := first
    have hRest := ih (h.answer fuel request)
    change s.answerEvents fuel request ++ (s.answer fuel request).2.history rest = [] ∨
      Orderly s.due (s.answerEvents fuel request ++ (s.answer fuel request).2.history rest)
    by_cases hAccepts : s.Accepts request
    · right
      obtain ⟨hDue, hFirst⟩ := answer_of_accepts h hAccepts fuel
      have hLater : OnlyRequests ((s.answer fuel request).2.history rest) := by
        rcases hRest with hNil | hOrderly
        · rw [hNil]
          exact onlyRequests_nil
        · rw [hDue] at hOrderly
          exact hOrderly
      unfold Orderly at hFirst ⊢
      cases hStart : s.due with
      | none =>
        rw [hStart] at hFirst
        exact OnlyRequests.append hFirst hLater
      | some start =>
        rw [hStart] at hFirst
        obtain ⟨e, later, hEvents, hSettles, hOnly⟩ := hFirst
        exact ⟨e, later ++ _, by rw [hEvents, List.cons_append], hSettles, hOnly.append hLater⟩
    · obtain ⟨hSame, hNone⟩ := answer_of_not_accepts hAccepts fuel
      rw [hSame] at hRest
      rw [hNone, hSame]
      exact hRest

/-! ## The first request past its check -/

theorem accepts_serve (s : Session) (requests : List (Nat × Request)) (request : Request) :
    (s.serve requests).2.Accepts request ↔ s.Accepts request := by
  cases request <;> simp only [Accepts, checkArguments, (s.serve_program requests).1]

theorem serve_of_not_accepts {requests : List (Nat × Request)}
    (h : ∀ r ∈ requests, ¬ s.Accepts r.2) : (s.serve requests).2 = s := by
  induction requests with
  | nil => rfl
  | cons first rest ih =>
    obtain ⟨fuel, request⟩ := first
    change ((s.answer fuel request).2.serve rest).2 = s
    rw [(answer_of_not_accepts (h _ List.mem_cons_self) fuel).1]
    exact ih fun r hMem => h r (List.mem_cons_of_mem _ hMem)

/-- No start function is due after a request that gets past its check, and it does not become due
again. -/
theorem due_serve (h : s.Consistent) {requests : List (Nat × Request)}
    (hDone : s.due = none ∨ ∃ r ∈ requests, s.Accepts r.2) : (s.serve requests).2.due = none := by
  induction requests generalizing s with
  | nil => exact hDone.resolve_right fun ⟨_, hMem, _⟩ => absurd hMem List.not_mem_nil
  | cons first rest ih =>
    obtain ⟨fuel, request⟩ := first
    change ((s.answer fuel request).2.serve rest).2.due = none
    refine ih (h.answer fuel request) ?_
    by_cases hAccepts : s.Accepts request
    · exact .inl (answer_of_accepts h hAccepts fuel).1
    · rw [(answer_of_not_accepts hAccepts fuel).1]
      refine hDone.imp_right ?_
      rintro ⟨r, hMem, hLater⟩
      rcases List.mem_cons.1 hMem with rfl | hRest
      · exact absurd hLater hAccepts
      · exact ⟨r, hRest, hLater⟩

namespace Orderly

variable {start : UInt32} {events : List DriverEvent}

/-- A request is entered only when the start function is done with. -/
theorem precedes (h : Orderly (some start) events) {before after : List DriverEvent}
    {index : UInt32} (hSplit : events = before ++ .requestEntered index :: after) :
    .startReturned ∈ before ∨
      ∃ answer, .startAborted answer ∈ before ∧ ∀ values, answer ≠ .values values := by
  obtain ⟨e, later, rfl, hSettles, -⟩ := h
  cases before with
  | nil =>
    obtain ⟨rfl, -⟩ := List.cons.inj hSplit
    rcases hSettles with hReturned | ⟨answer, hAborted, -⟩
    · cases hReturned
    · cases hAborted
  | cons first before =>
    obtain ⟨rfl, -⟩ := List.cons.inj hSplit
    rcases hSettles with rfl | ⟨answer, rfl, hValues⟩
    · exact .inl List.mem_cons_self
    · exact .inr ⟨answer, List.mem_cons_self, hValues⟩

/-- An event of the start function is the first event. -/
theorem first_of_isStart (h : Orderly (some start) events) {e : DriverEvent} (hMem : e ∈ events)
    (hStart : e.isStart) : events.head? = some e ∧ Settles e := by
  obtain ⟨first, later, rfl, hSettles, hOnly⟩ := h
  rcases List.mem_cons.1 hMem with rfl | hLater
  · exact ⟨rfl, hSettles⟩
  · obtain ⟨index, rfl⟩ := hOnly e hLater
    exact absurd hStart Bool.false_ne_true

theorem countP_isStart_le (h : Orderly (some start) events) :
    events.countP DriverEvent.isStart ≤ 1 := by
  obtain ⟨e, later, rfl, -, hOnly⟩ := h
  have hLater : later.countP DriverEvent.isStart = 0 := by
    refine List.countP_eq_zero.2 fun found hMem => ?_
    obtain ⟨index, rfl⟩ := hOnly found hMem
    exact Bool.false_ne_true
  rw [List.countP_cons, hLater]
  split <;> omega

theorem count_startReturned_le (h : Orderly (some start) events) :
    events.count .startReturned ≤ 1 := by
  refine Nat.le_trans (List.countP_mono_left fun e _ hReturned => ?_) h.countP_isStart_le
  rw [eq_of_beq hReturned]
  rfl

theorem not_aborted (h : Orderly (some start) events) (hReturned : .startReturned ∈ events)
    (answer : Answer) : .startAborted answer ∉ events := by
  intro hAborted
  have hFirst := (h.first_of_isStart hReturned rfl).1
  rw [(h.first_of_isStart hAborted rfl).1] at hFirst
  cases hFirst

theorem not_values (h : Orderly (some start) events) {answer : Answer}
    (hAborted : .startAborted answer ∈ events) (values : Array Value) :
    answer ≠ .values values := by
  rcases (h.first_of_isStart hAborted rfl).2 with hReturned | ⟨found, hFound, hValues⟩
  · cases hReturned
  · cases hFound
    exact hValues values

/-- There is an event of the start function if it is due. -/
theorem exists_isStart_iff {due : Option UInt32} (h : Orderly due events) :
    (∃ e ∈ events, e.isStart) ↔ due.isSome := by
  cases due with
  | none =>
    refine ⟨fun ⟨e, hMem, hStart⟩ => ?_, fun hSome => absurd hSome Bool.false_ne_true⟩
    obtain ⟨index, rfl⟩ := h e hMem
    exact absurd hStart Bool.false_ne_true
  | some start =>
    obtain ⟨e, later, rfl, hSettles, -⟩ := h
    refine ⟨fun _ => rfl, fun _ => ⟨e, List.mem_cons_self, ?_⟩⟩
    rcases hSettles with rfl | ⟨answer, rfl, -⟩
    · rfl
    · rfl

end Orderly

/-- The start function is done with in the first request that gets past its check. -/
theorem isStart_iff_first_accepted (h : s.Consistent) {start : UInt32} (hDue : s.due = some start)
    (earlier : List (Nat × Request)) (fuel : Nat) (request : Request) :
    (∃ e ∈ (s.serve earlier).2.answerEvents fuel request, e.isStart) ↔
      s.Accepts request ∧ ∀ r ∈ earlier, ¬ s.Accepts r.2 := by
  by_cases hAccepts : s.Accepts request
  · rw [(answer_of_accepts (h.serve earlier) ((s.accepts_serve earlier request).2 hAccepts)
      fuel).2.exists_isStart_iff]
    by_cases hEarlier : ∃ r ∈ earlier, s.Accepts r.2
    · rw [due_serve h (.inr hEarlier)]
      obtain ⟨r, hMem, hFirst⟩ := hEarlier
      exact ⟨fun hSome => absurd hSome Bool.false_ne_true,
        fun hNone => absurd hFirst (hNone.2 r hMem)⟩
    · have hNone : ∀ r ∈ earlier, ¬ s.Accepts r.2 := fun r hMem hFirst =>
        hEarlier ⟨r, hMem, hFirst⟩
      rw [serve_of_not_accepts hNone, hDue]
      exact ⟨fun _ => ⟨hAccepts, hNone⟩, fun _ => rfl⟩
  · rw [(answer_of_not_accepts (mt (s.accepts_serve earlier request).1 hAccepts) fuel).2]
    exact ⟨fun ⟨_, hMem, _⟩ => absurd hMem List.not_mem_nil, fun hBoth => absurd hBoth.1 hAccepts⟩

/-- In every sequence of requests to a session with a start function, whatever their outcome: a
requested function is entered only after the driver's call of the start function has returned or
the invocation that was to make it has ended before that, without values. Of all these events there
is at most one, so at most one call of the start function by the driver ever returns, and at most
one is given up. It belongs to the first request that gets past its argument check. -/
theorem start_precedes_requests (i : Instance) (config : Config) (journal : Journal)
    (requests : List (Nat × Request)) (start : UInt32) (hStart : i.program.start = some start) :
    let s := ofInstance i config journal
    let history := s.history requests
    (∀ before index after, history = before ++ .requestEntered index :: after →
      .startReturned ∈ before ∨
        ∃ answer, .startAborted answer ∈ before ∧ ∀ values, answer ≠ .values values) ∧
      history.count .startReturned ≤ 1 ∧
      (.startReturned ∈ history → ∀ answer, .startAborted answer ∉ history) ∧
      history.countP DriverEvent.isStart ≤ 1 ∧
      (∀ answer values, .startAborted answer ∈ history → answer ≠ .values values) ∧
      ∀ earlier fuel request later, requests = earlier ++ (fuel, request) :: later →
        ((∃ e ∈ (s.serve earlier).2.answerEvents fuel request, e.isStart) ↔
          s.Accepts request ∧ ∀ r ∈ earlier, ¬ s.Accepts r.2) := by
  intro s history
  have hDue : s.due = some start := hStart
  have hConsistent := consistent_ofInstance i config journal
  have hHistory : history = [] ∨ Orderly (some start) history := by
    rw [← hDue]
    exact history_orderly hConsistent requests
  have hRequest : ∀ earlier fuel request later, requests = earlier ++ (fuel, request) :: later →
      ((∃ e ∈ (s.serve earlier).2.answerEvents fuel request, e.isStart) ↔
        s.Accepts request ∧ ∀ r ∈ earlier, ¬ s.Accepts r.2) :=
    fun earlier fuel request _ _ =>
      isStart_iff_first_accepted hConsistent hDue earlier fuel request
  rcases hHistory with hNil | hOrderly
  · rw [hNil]
    refine ⟨?_, Nat.zero_le 1, fun hMem => absurd hMem List.not_mem_nil, Nat.zero_le 1,
      fun _ _ hMem => absurd hMem List.not_mem_nil, hRequest⟩
    intro before index after hSplit
    exact absurd hSplit.symm (List.append_ne_nil_of_right_ne_nil _ (List.cons_ne_nil _ _))
  · exact ⟨fun _ _ _ hSplit => hOrderly.precedes hSplit, hOrderly.count_startReturned_le,
      hOrderly.not_aborted, hOrderly.countP_isStart_le,
      fun _ values hMem => hOrderly.not_values hMem values, hRequest⟩

/-- A request without the argument does nothing. In the next one the start function of the echo
returns, and then the echo is entered. -/
theorem start_precedes_requests_echo :
    let s := ofInstance (echoInstance [.i32] localCode) {} {}
    let history := s.history [(7, .invoke 1 []), (7, .invoke 1 [.i32 5])]
    history = [.startReturned, .requestEntered 1] ∧ history.countP DriverEvent.isStart ≤ 1 ∧
      s.Accepts (.invoke 1 [.i32 5]) ∧ ¬ s.Accepts (.invoke 1 []) := by
  intro s history
  have hSecond : s.invokeEvents 7 1 [.i32 5] = [.startReturned, .requestEntered 1] :=
    invokeEvents_of_values (consistent_ofInstance _ _ _) invoke_echo
  have hHistory : history = [] ++ (s.invokeEvents 7 1 [.i32 5] ++ []) := rfl
  rw [hSecond] at hHistory
  obtain ⟨-, -, -, hCount, -, hFirst⟩ := start_precedes_requests (echoInstance [.i32] localCode) {}
    {} [(7, .invoke 1 []), (7, .invoke 1 [.i32 5])] 0 rfl
  have hReturned : .startReturned ∈ s.invokeEvents 7 1 [.i32 5] := by
    rw [hSecond]
    exact List.mem_cons_self
  obtain ⟨hAccepts, hEarlier⟩ := (hFirst [(7, .invoke 1 [])] 7 (.invoke 1 [.i32 5]) [] rfl).1
    ⟨.startReturned, hReturned, rfl⟩
  exact ⟨hHistory, hCount, hAccepts, hEarlier _ List.mem_cons_self⟩

/-! ## A start function that traps -/

/-- A module whose start function is unreachable code, with another function that returns at
once. -/
def trappingModule : Module where
  name := "trapping"
  types := #[⟨[], []⟩]
  functions := #[0, 0]
  start := some 0
  code := #[{ locals := #[], code := #[0x00, endByte], position := 0 },
    { locals := #[], code := #[endByte], position := 0 }]

def trappingInstance : Instance where
  program :=
    { types := #[⟨[], []⟩]
      imported := #[]
      functions := #[
        { index := 0
          typeIndex := 0
          signature := ⟨[], []⟩
          code := #[0x00, endByte]
          position := 0
          locals := #[] },
        { index := 1
          typeIndex := 0
          signature := ⟨[], []⟩
          code := #[endByte]
          position := 0
          locals := #[] }]
      start := some 0
      entry := none }
  store := { globals := #[], memories := #[], tables := #[], callCounts := #[0, 0] }

theorem instantiate_trappingModule :
    instantiate trappingModule {} = .ok trappingInstance := by
  with_unfolding_all rfl

/-- What the instance runs in, with the given driver sequence. -/
def trappingEnv (driver : Bytes) (memo : Bool) : Env := ⟨trappingInstance.program, {}, driver, memo⟩

/-- A function of the instance, called by the driver's first instruction. -/
def trappingEntered (index : UInt32) (place : Nat) (store : Store) : Thread where
  activity := ⟨[], [],
    { function := some index, locals := #[], returnTo := some ⟨.driver, 2⟩, signature := ⟨[], []⟩ }⟩
  callers := [⟨[], [], driverActivation ⟨[], []⟩⟩]
  store := { store with callCounts := store.callCounts.modify place (· + 1) }
  pc := ⟨.function place, 0⟩

/-- The first invocation gives up the start function. -/
theorem trapping_first :
    (ofInstance trappingInstance {} {}).runEvents 1 2
      ((ofInstance trappingInstance {} {}).opening ⟨[], []⟩ []) = [] := by
  have hEnv : (ofInstance trappingInstance {} {}).environment 1 =
      trappingEnv #[callByte, 0, callByte, 1, endByte] true := by
    simp [environment, ofInstance, driverCode, callCode, encodeU32_zero, encodeU32_one,
      trappingInstance, trappingEnv]
  have hCall : (Thread.start ⟨[], []⟩ [] trappingInstance.store).step
      (trappingEnv #[callByte, 0, callByte, 1, endByte] true) =
        .ok (.running (trappingEntered 0 0 trappingInstance.store)) := rfl
  have hTrap : ((trappingEntered 0 0 trappingInstance.store).tick
      (trappingEnv #[callByte, 0, callByte, 1, endByte] true) 1).1 =
        .error ⟨.unreachable, some 0⟩ := rfl
  rw [← hEnv] at hCall hTrap
  have hConsistent := consistent_ofInstance trappingInstance {} {}
  have hOpening := hConsistent.between_opening 1 ⟨[], []⟩ []
  have hRuns := hConsistent.opening_runs 1 ⟨[], []⟩ []
  have hPlaced := Thread.start_wellPlaced ((ofInstance trappingInstance {} {}).environment 1)
    ⟨[], []⟩ [] trappingInstance.store
  obtain ⟨m, hStep, hRuns'⟩ := hRuns.step_running hPlaced rfl hCall
  obtain ⟨m', hError⟩ := (hRuns'.step_error_iff (hPlaced.step hCall) _).2 hTrap
  have hWithin := (Between.step_call hOpening hStep).1
  rw [runEvents_step hOpening.running hStep,
    event?_eq_none (hOpening.not_atRequest (List.cons_ne_nil 0 []).symm) hWithin.not_atRequest,
    runEvents_error hWithin.running hError]
  rfl

/-- A session that does not call the start function any more returns from the other one. -/
theorem trapping_second (h : s.Consistent) (hProgram : s.program = trappingInstance.program)
    (hConfig : s.config = {}) (hDue : s.due = none) : (s.invoke 3 1 []).1 = .values #[] := by
  have hEnv : s.environment 1 = trappingEnv #[callByte, 1, endByte] s.memo := by
    change Env.mk s.program s.config (driverCode s.due 1) s.memo = _
    rw [hProgram, hConfig, hDue]
    simp [driverCode, callCode, encodeU32_one, trappingEnv]
  have hCheck : s.checkArguments 1 [] = .ok ⟨[], []⟩ := by
    unfold checkArguments
    rw [hProgram]
    rfl
  have hCall : (Thread.start ⟨[], []⟩ [] s.machine.store).step
      (trappingEnv #[callByte, 1, endByte] s.memo) =
        .ok (.running (trappingEntered 1 1 s.machine.store)) := rfl
  have hReturn : (trappingEntered 1 1 s.machine.store).step
      (trappingEnv #[callByte, 1, endByte] s.memo) =
        .ok (.running ((Thread.start ⟨[], []⟩ []
          (trappingEntered 1 1 s.machine.store).store).jump 2)) := rfl
  have hEnd : ((Thread.start ⟨[], []⟩ [] (trappingEntered 1 1 s.machine.store).store).jump 2).step
      (trappingEnv #[callByte, 1, endByte] s.memo) =
        .ok (.halted [] (trappingEntered 1 1 s.machine.store).store) := rfl
  have hGoes := Thread.Goes.step hCall (.step hReturn (.halt hEnd))
  rw [← hEnv] at hGoes
  have hLimit : (s.environment 1).config.maxSteps = none := by
    rw [hEnv]
    rfl
  have hRun := (h.invoke_eq hCheck 3).trans
    (congrArg endOf (hGoes.run_halted hLimit (Nat.le_refl 3) s.machine.steps))
  exact congrArg Prod.fst hRun

/-- Requested functions are entered only after a call of the start function by the driver has
returned, and at most one such call returns. -/
def StartCompletesFirst (i : Instance) : Prop :=
  ∀ (config : Config) (journal : Journal) (requests : List (Nat × Request)),
    let history := (ofInstance i config journal).history requests
    (∀ before index after, history = before ++ .requestEntered index :: after →
      .startReturned ∈ before) ∧
      history.count .startReturned ≤ 1

/-- Not so where the start function traps: the next invocation goes to the requested function at
once. -/
theorem start_not_completed :
    instantiate trappingModule {} = .ok trappingInstance ∧
      ¬ StartCompletesFirst trappingInstance := by
  refine ⟨instantiate_trappingModule, fun hCompletes => ?_⟩
  have hConsistent := consistent_ofInstance trappingInstance {} {}
  have hCheck : (ofInstance trappingInstance {} {}).checkArguments 1 [] = .ok ⟨[], []⟩ := rfl
  have hFirst : (ofInstance trappingInstance {} {}).invokeEvents 2 1 [] =
      [.startAborted ((ofInstance trappingInstance {} {}).invoke 2 1 []).1] := by
    unfold invokeEvents
    rw [hCheck]
    simp only
    rw [trapping_first, if_pos ⟨rfl, List.not_mem_nil⟩]
    rfl
  have hAfter := (ofInstance trappingInstance {} {}).serve_program [(2, .invoke 1 [])]
  have hDue : ((ofInstance trappingInstance {} {}).invoke 2 1 []).2.due = none :=
    due_invoke 2 hCheck
  have hSecond := invokeEvents_of_values (hConsistent.invoke 2 1 [])
    (trapping_second (hConsistent.invoke 2 1 []) hAfter.1 hAfter.2 hDue)
  rw [hDue] at hSecond
  have hHistory : (ofInstance trappingInstance {} {}).history
      [(2, .invoke 1 []), (3, .invoke 1 [])] =
        [.startAborted ((ofInstance trappingInstance {} {}).invoke 2 1 []).1,
          .requestEntered 1] := by
    change (ofInstance trappingInstance {} {}).invokeEvents 2 1 [] ++
      (((ofInstance trappingInstance {} {}).invoke 2 1 []).2.invokeEvents 3 1 [] ++ []) = _
    rw [hFirst, hSecond]
    rfl
  have hReturned := (hCompletes {} {} [(2, .invoke 1 []), (3, .invoke 1 [])]).1 [_] 1 [] hHistory
  cases List.mem_singleton.1 hReturned

end Session

end WasmMachine
