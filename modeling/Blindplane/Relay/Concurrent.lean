import Blindplane.Relay.Sequential

/-! # Many clients at one relay

Clients take their requests apart in steps of their own: decoding and validation before
the lock, one critical section under it, encoding after it. A schedule is any list of such
steps, and an action that is not enabled changes nothing. Every schedule is the sequential
history of its critical sections, each of which lies between the call of its request and the
answer to it, so the laws of that history hold under any interleaving.
-/

namespace Blindplane.Relay

open Lib Lib.Checked Lib.Machine Crypto Wire Std

/-- What a read brings out of its critical section, before it is encoded. -/
inductive Snapshot where
  | one (result : Except RelayError SealedRecord)
  | many (records : List SealedRecord)

def Snapshot.encode : Snapshot → Response
  | .one result => .fetched (result.map SealedRecord.encode)
  | .many records => .found (records.map SealedRecord.encode)

/-- Where a client is in its request. -/
inductive Phase where
  | idle
  | called (request : Request)
  | prepared (request : Request) (record : SealedRecord)
  | holding (request : Request) (snapshot : Snapshot)
  | returned (request : Request) (response : Response)

namespace Phase

/-- The request that a client is at, or was at last. -/
def request? : Phase → Option Request
  | .idle => none
  | .called request => some request
  | .prepared request _ => some request
  | .holding request _ => some request
  | .returned request _ => some request

/-- What a client gets back, once that is settled. -/
def response? : Phase → Option Response
  | .holding _ snapshot => some snapshot.encode
  | .returned _ response => some response
  | _ => none

/-- A client that may call. -/
def Free : Phase → Prop
  | .idle => True
  | .returned _ _ => True
  | _ => False

/-- The request that has been called and has not taken effect. -/
def waiting : Phase → List Request
  | .called request => [request]
  | .prepared request _ => [request]
  | _ => []

/-- The answer that is settled and has not been returned. -/
def held : Phase → List (Request × Response)
  | .holding request snapshot => [(request, snapshot.encode)]
  | _ => []

/-- What was prepared is what preparing the request gives. -/
def Ready [Primitives] (policy : ValidationPolicy) (phase : Phase) : Prop :=
  ∀ request record, phase = .prepared request record →
    ∃ key encoded, request = .put key encoded ∧ prepare policy key encoded = .ok record

end Phase

/-- What a client may do next. -/
inductive Action where
  | call (request : Request)
  | prepare
  | enter
  | encode

/-- The store, the clients, and the requests in the order they took effect. -/
structure System (C : Type) where
  store : StoreInner
  phase : C → Phase
  served : List (C × Request)

namespace System

variable {C : Type} [DecidableEq C]

def initial : System C where
  store := .empty
  phase _ := .idle
  served := []

/-- A client moves on without touching the store. -/
def move (system : System C) (client : C) (phase : Phase) : System C :=
  { system with phase := Function.update system.phase client phase }

/-- A client's request takes effect. -/
def serve (system : System C) (client : C) (request : Request) (store : StoreInner) (phase : Phase) :
    System C where
  store
  phase := Function.update system.phase client phase
  served := system.served ++ [(client, request)]

variable [Primitives]

/-- One step of one client. -/
def act (policy : ValidationPolicy) (system : System C) (input : C × Action) : Unit × System C :=
  ((), match input.2, system.phase input.1 with
    | .call request, .idle => system.move input.1 (.called request)
    | .call request, .returned _ _ => system.move input.1 (.called request)
    | .prepare, .called (.put key encoded) =>
        match Relay.prepare policy key encoded with
        | .error e =>
            system.serve input.1 (.put key encoded) system.store
              (.returned (.put key encoded) (.written (.error e)))
        | .ok record => system.move input.1 (.prepared (.put key encoded) record)
    | .enter, .prepared request record =>
        let (result, store) := system.store.commit record
        system.serve input.1 request store
          (.returned request (.written (result.mapError Fault.error)))
    | .enter, .called (.get key) =>
        system.serve input.1 (.get key) system.store
          (.holding (.get key) (.one (system.store.get key)))
    | .enter, .called (.search tenant label keyEpoch token) =>
        system.serve input.1 (.search tenant label keyEpoch token) system.store
          (.holding (.search tenant label keyEpoch token)
            (.many (system.store.search tenant label keyEpoch token)))
    | .encode, .holding request snapshot => system.move input.1 (.returned request snapshot.encode)
    | _, _ => system)

/-- The sequential history of what took effect. -/
def events (policy : ValidationPolicy) (system : System C) : List (ServeEvent C) :=
  trace (serveFor policy) StoreInner.empty system.served

/-- The last thing a client did took effect as this request with this answer. -/
def Answered (policy : ValidationPolicy) (system : System C) (client : C) (request : Request)
    (response : Response) : Prop :=
  ∃ event, ((system.events policy).filter (·.input.1 = client)).getLast? = some event ∧
    event.input.2 = request ∧ event.output = response

/-- A client's requests in the order they took effect, with what each was answered there. -/
def booked (policy : ValidationPolicy) (system : System C) (client : C) : List (Request × Response) :=
  ((system.events policy).filter (·.input.1 = client)).map fun event => (event.input.2, event.output)

section Steps

variable {policy : ValidationPolicy} {system : System C} {client : C} {action : Action}

/-- All that a step of a client can do: nothing, or one of the moves of its request, in one of
    which the request takes effect. -/
inductive Acted (policy : ValidationPolicy) (system : System C) (client : C) (action : Action) : System C → Prop where
  | still : Acted policy system client action system
  | called (request : Request) (asked : action = .call request) (free : (system.phase client).Free) :
      Acted policy system client action (system.move client (.called request))
  | prepared (key : RecordKey) (encoded : Bytes) (record : SealedRecord)
      (before : system.phase client = .called (.put key encoded)) (ready : prepare policy key encoded = .ok record) :
      Acted policy system client action (system.move client (.prepared (.put key encoded) record))
  | written (request : Request) (response : Response) (before : (system.phase client).waiting = [request])
      (done : response = (Relay.serve policy system.store request).1) :
      Acted policy system client action
        (system.serve client request (Relay.serve policy system.store request).2 (.returned request response))
  | read (request : Request) (snapshot : Snapshot) (before : system.phase client = .called request)
      (done : snapshot.encode = (Relay.serve policy system.store request).1) :
      Acted policy system client action
        (system.serve client request (Relay.serve policy system.store request).2 (.holding request snapshot))
  | encoded (request : Request) (snapshot : Snapshot) (before : system.phase client = .holding request snapshot) :
      Acted policy system client action (system.move client (.returned request snapshot.encode))

theorem acted (ready : (system.phase client).Ready policy) :
    Acted policy system client action (system.act policy (client, action)).2 := by
  simp only [System.act]
  split
  · next request phase => exact .called request rfl (by rw [phase]; trivial)
  · next request _ _ phase => exact .called request rfl (by rw [phase]; trivial)
  · next key encoded phase =>
    cases prepared : Relay.prepare policy key encoded with
    | error e =>
        have whole : Relay.serve policy system.store (.put key encoded) = (.written (.error e), system.store) := by
          simp only [Relay.serve, putEncoded_eq, prepared]
        have done := @Acted.written C _ _ policy system client .prepare (.put key encoded) (.written (.error e))
          (by rw [phase]; rfl) (by rw [whole])
        rwa [whole] at done
    | ok record => exact .prepared key encoded record phase prepared
  · next request record phase =>
    obtain ⟨key, encoded, rfl, prepared⟩ := ready _ _ phase
    have whole : Relay.serve policy system.store (.put key encoded) =
        (.written ((system.store.commit record).1.mapError Fault.error), (system.store.commit record).2) := by
      simp only [Relay.serve, putEncoded_eq, prepared]
    have done := @Acted.written C _ _ policy system client .enter (.put key encoded)
      (.written ((system.store.commit record).1.mapError Fault.error)) (by rw [phase]; rfl) (by rw [whole])
    rwa [whole] at done
  · next key phase => exact .read (.get key) _ phase rfl
  · next tenant label keyEpoch token phase => exact .read (.search tenant label keyEpoch token) _ phase rfl
  · next request snapshot phase => exact .encoded request snapshot phase
  · exact .still

/-- A free client's call is accepted. -/
theorem act_call (free : (system.phase client).Free) (request : Request) :
    (system.act policy (client, .call request)).2.phase client = .called request := by
  cases phase : system.phase client with
  | idle => simp only [System.act, phase, move, Function.update_self]
  | returned _ _ => simp only [System.act, phase, move, Function.update_self]
  | called _ =>
      rw [phase] at free
      cases free
  | prepared _ _ =>
      rw [phase] at free
      cases free
  | holding _ _ =>
      rw [phase] at free
      cases free

/-- Its own steps bring a client to the answer of the request it is at. -/
theorem finishes {request : Request} (busy : (system.phase client).request? = some request) :
    ∃ response, (final (act policy) system [(client, .prepare), (client, .enter), (client, .encode)]).phase client =
      .returned request response := by
  cases phase : system.phase client with
  | idle =>
      rw [phase] at busy
      cases busy
  | called request =>
      rw [phase] at busy
      cases busy
      cases request with
      | put key encoded =>
          cases prepared : Relay.prepare policy key encoded <;>
            simp [System.act, System.move, System.serve, phase, prepared]
      | get key => simp [System.act, System.move, System.serve, phase]
      | search tenant label keyEpoch token => simp [System.act, System.move, System.serve, phase]
  | prepared request record =>
      rw [phase] at busy
      cases busy
      simp [System.act, System.serve, phase]
  | holding request snapshot =>
      rw [phase] at busy
      cases busy
      simp [System.act, System.move, phase]
  | returned request response =>
      rw [phase] at busy
      cases busy
      simp [System.act, phase]

end Steps

section Linear

variable {policy : ValidationPolicy} {system : System C} {client : C}

/-- Under any interleaving, the store is that of the sequential history, and writes are
    committed as they were prepared. -/
structure Linearized (policy : ValidationPolicy) (system : System C) : Prop where
  store : system.store = final (serveFor policy) StoreInner.empty system.served
  ready : ∀ client, (system.phase client).Ready policy

omit [DecidableEq C] in
theorem linearized_initial (policy : ValidationPolicy) : (initial : System C).Linearized policy where
  store := rfl
  ready _ _ _ other := by cases other

/-- A phase in which nothing is prepared. -/
theorem ready_of_ne {phase : Phase} (other : ∀ request record, phase ≠ .prepared request record) : phase.Ready policy :=
  fun request record same => absurd same (other request record)

theorem ready_update {phase : Phase} (ready : ∀ client, (system.phase client).Ready policy) (own : phase.Ready policy)
    (other : C) : (Function.update system.phase client phase other).Ready policy := by
  by_cases same : other = client
  · subst same
    rwa [Function.update_self]
  · rw [Function.update_of_ne same]
    exact ready other

theorem Acted.ready {action : Action} {next : System C} (acted : Acted policy system client action next)
    (ready : ∀ client, (system.phase client).Ready policy) (other : C) : (next.phase other).Ready policy := by
  cases acted with
  | still => exact ready other
  | called request => exact ready_update ready (ready_of_ne fun _ _ same => by cases same) other
  | prepared key encoded record _ prepared =>
      refine ready_update ready ?_ other
      rintro request record' same
      cases same
      exact ⟨key, encoded, rfl, prepared⟩
  | written request response => exact ready_update ready (ready_of_ne fun _ _ same => by cases same) other
  | read request snapshot => exact ready_update ready (ready_of_ne fun _ _ same => by cases same) other
  | encoded request snapshot => exact ready_update ready (ready_of_ne fun _ _ same => by cases same) other

theorem Linearized.acted {action : Action} {next : System C} (linearized : system.Linearized policy)
    (acted : Acted policy system client action next) : next.Linearized policy where
  store := by
    have served : ∀ request phase, (system.serve client request (Relay.serve policy system.store request).2 phase).store =
        final (serveFor policy) StoreInner.empty
          (system.serve client request (Relay.serve policy system.store request).2 phase).served := by
      intro request phase
      simp only [System.serve, final_append, ← linearized.store, final_cons, final_nil, serveFor]
    cases acted with
    | written request response => exact served request _
    | read request snapshot => exact served request _
    | _ => exact linearized.store
  ready := acted.ready linearized.ready

theorem Linearized.act (linearized : system.Linearized policy) (input : C × Action) :
    (system.act policy input).2.Linearized policy :=
  linearized.acted (System.acted (linearized.ready input.1))

theorem linearized_run (policy : ValidationPolicy) (schedule : List (C × Action)) :
    (final (act policy) (initial : System C) schedule).Linearized policy :=
  final_invariant (linearized_initial policy) fun _ linearized input _ => linearized.act input

theorem events_serve (linearized : system.Linearized policy) (client : C) (request : Request) (store : StoreInner)
    (phase : Phase) :
    (system.serve client request store phase).events policy = system.events policy ++
      [⟨system.store, (client, request), (Relay.serve policy system.store request).1,
        (Relay.serve policy system.store request).2⟩] := by
  simp only [events, serve, trace_append, trace_cons, trace_nil, linearized.store, serveFor]

theorem booked_serve (linearized : system.Linearized policy) (client other : C) (request : Request) (store : StoreInner)
    (phase : Phase) :
    (system.serve client request store phase).booked policy other =
      system.booked policy other ++
        if client = other then [(request, (Relay.serve policy system.store request).1)] else [] := by
  rw [booked, events_serve linearized, List.filter_append, List.map_append, List.filter_cons]
  split <;> rename_i same <;> simp only [decide_eq_true_eq] at same <;> simp [booked, same]

omit [DecidableEq C] [Primitives] in
theorem served_suffix_self (system : System C) : ∃ more, system.served = system.served ++ more :=
  ⟨[], (List.append_nil _).symm⟩

/-- What has taken effect stays as it is, and what takes effect later comes behind it. -/
theorem Linearized.served_run (linearized : system.Linearized policy) (later : List (C × Action)) :
    ∃ more, (final (System.act policy) system later).served = system.served ++ more := by
  induction later generalizing system with
  | nil => exact served_suffix_self system
  | cons input rest ih =>
      obtain ⟨more, later⟩ := ih (linearized.act input)
      rw [final_cons, later]
      have acted := @System.acted C _ _ policy system input.1 input.2 (linearized.ready input.1)
      generalize (system.act policy (input.1, input.2)).2 = next at acted ⊢
      cases acted with
      | written request response => exact ⟨(input.1, request) :: more, List.append_assoc _ _ _⟩
      | read request snapshot => exact ⟨(input.1, request) :: more, List.append_assoc _ _ _⟩
      | _ => exact ⟨more, rfl⟩

end Linear

/-- One step of a run of clients. -/
abbrev ActEvent (C : Type) := Event (System C) (C × Action) Unit

section History

omit [DecidableEq C] [Primitives] in
/-- The request that a client calls in this step. -/
def calling (client : C) (event : ActEvent C) : Option Request :=
  match event.before.phase client, event.after.phase client with
  | .called _, _ => none
  | _, .called request => some request
  | _, _ => none

/-- The request that a client gets its answer to in this step, with the answer. -/
def returning (client : C) (event : ActEvent C) : Option (Request × Response) :=
  match event.before.phase client, event.after.phase client with
  | .returned _ _, _ => none
  | _, .returned request response => some (request, response)
  | _, _ => none

/-- A client's calls, in the order in which they are made. -/
def calls (policy : ValidationPolicy) (schedule : List (C × Action)) (client : C) : List Request :=
  (trace (act policy) (initial : System C) schedule).filterMap (calling client)

/-- A client's answers, in the order in which they are returned. -/
def answers (policy : ValidationPolicy) (schedule : List (C × Action)) (client : C) : List (Request × Response) :=
  (trace (act policy) (initial : System C) schedule).filterMap (returning client)

/-- How a client's calls and answers stand to its requests that took effect. -/
structure Timed (policy : ValidationPolicy) (past : List (ActEvent C)) (system : System C) (client : C) : Prop where
  calls : past.filterMap (calling client) = (system.booked policy client).map Prod.fst ++ (system.phase client).waiting
  answers : system.booked policy client = past.filterMap (returning client) ++ (system.phase client).held
  last : ∀ request response, (system.phase client).request? = some request → (system.phase client).response? = some response →
    (system.booked policy client).getLast? = some (request, response)

variable {policy : ValidationPolicy} {system : System C} {past : List (ActEvent C)} {client : C}

/-- A step by which some more of a client's requests take effect. -/
theorem Timed.step (timed : Timed policy past system client) {event : ActEvent C} (more : List (Request × Response))
    (booked : event.after.booked policy client = system.booked policy client ++ more)
    (calls : (system.phase client).waiting ++ (calling client event).toList =
      more.map Prod.fst ++ (event.after.phase client).waiting)
    (answers : (system.phase client).held ++ more = (returning client event).toList ++ (event.after.phase client).held)
    (last : ∀ request response, (event.after.phase client).request? = some request →
      (event.after.phase client).response? = some response →
        (system.booked policy client ++ more).getLast? = some (request, response)) :
    Timed policy (past ++ [event]) event.after client where
  calls := by
    have one : [event].filterMap (calling client) = (calling client event).toList := by
      cases here : calling client event <;> simp [here]
    rw [List.filterMap_append, one, timed.calls, List.append_assoc, calls, booked, List.map_append, List.append_assoc]
  answers := by
    have one : [event].filterMap (returning client) = (returning client event).toList := by
      cases here : returning client event <;> simp [here]
    rw [List.filterMap_append, one, booked, timed.answers, List.append_assoc, answers, List.append_assoc]
  last := by
    rw [booked]
    exact last

/-- A step that leaves a client where it is. -/
theorem Timed.still (timed : Timed policy past system client) {event : ActEvent C}
    (before : event.before.phase client = system.phase client) (phase : event.after.phase client = system.phase client)
    (booked : event.after.booked policy client = system.booked policy client) :
    Timed policy (past ++ [event]) event.after client := by
  have uncalled : calling client event = none := by
    rw [calling, before, phase]
    cases system.phase client <;> rfl
  have unanswered : returning client event = none := by
    rw [returning, before, phase]
    cases system.phase client <;> rfl
  refine timed.step [] (by rw [booked, List.append_nil]) ?_ ?_ ?_
  · rw [uncalled, phase, Option.toList_none, List.append_nil, List.map_nil, List.nil_append]
  · rw [unanswered, phase, Option.toList_none, List.append_nil, List.nil_append]
  · rw [phase, List.append_nil]
    exact timed.last

theorem Timed.acted (linearized : system.Linearized policy) (timed : Timed policy past system client)
    {action : Action} {next : System C} (acted : Acted policy system client action next) :
    Timed policy (past ++ [⟨system, (client, action), (), next⟩]) next client := by
  have updated : ∀ phase, Function.update system.phase client phase client = phase :=
    fun phase => Function.update_self _ _ _
  cases acted with
  | still => exact timed.still rfl rfl rfl
  | called request asked free =>
      refine timed.step [] (List.append_nil _).symm ?_ ?_ ?_ <;>
        cases phase : system.phase client <;> simp only [phase, Phase.Free] at free <;>
        simp [calling, returning, move, phase, Phase.waiting, Phase.held, Phase.response?]
  | prepared key encoded record before ready =>
      refine timed.step [] (List.append_nil _).symm ?_ ?_ ?_ <;>
        simp [calling, returning, move, before, Phase.waiting, Phase.held, Phase.response?]
  | written request response before done =>
      refine timed.step [(request, response)] ?_ ?_ ?_ ?_
      · rw [booked_serve linearized, if_pos rfl, done]
      · cases phase : system.phase client <;> simp only [phase, Phase.waiting, List.cons.injEq, reduceCtorEq, and_true] at before <;>
          simp [calling, serve, phase, Phase.waiting, before]
      · cases phase : system.phase client <;> simp only [phase, Phase.waiting, List.cons.injEq, reduceCtorEq, and_true] at before <;>
          simp [returning, serve, phase, Phase.held]
      · intro request' response' asked answered
        simp only [serve, updated, Phase.request?, Phase.response?, Option.some.injEq] at asked answered
        rw [List.getLast?_concat, asked, answered]
  | read request snapshot before done =>
      refine timed.step [(request, snapshot.encode)] ?_ ?_ ?_ ?_
      · rw [booked_serve linearized, if_pos rfl, done]
      · simp [calling, serve, before, Phase.waiting]
      · simp [returning, serve, before, Phase.held]
      · intro request' response' asked answered
        simp only [serve, updated, Phase.request?, Phase.response?, Option.some.injEq] at asked answered
        rw [List.getLast?_concat, asked, answered]
  | encoded request snapshot before =>
      refine timed.step [] (List.append_nil _).symm ?_ ?_ ?_
      · simp [calling, move, before, Phase.waiting]
      · simp [returning, move, before, Phase.held]
      · intro request' response' asked answered
        simp only [move, updated, Phase.request?, Phase.response?, Option.some.injEq] at asked answered
        rw [List.append_nil, ← asked, ← answered]
        exact timed.last request snapshot.encode (by rw [before]; rfl) (by rw [before]; rfl)

/-- A step of one client is not seen by another. -/
theorem Acted.elsewhere (linearized : system.Linearized policy) {action : Action} {next : System C}
    (acted : Acted policy system client action next) {other : C} (apart : other ≠ client) :
    next.phase other = system.phase other ∧ next.booked policy other = system.booked policy other := by
  have unmoved : ∀ phase, Function.update system.phase client phase other = system.phase other :=
    fun phase => Function.update_of_ne apart _ _
  have unbooked : ∀ request store phase,
      (system.serve client request store phase).booked policy other = system.booked policy other := by
    intro request store phase
    rw [booked_serve linearized, if_neg (Ne.symm apart), List.append_nil]
  cases acted with
  | still => exact ⟨rfl, rfl⟩
  | called => exact ⟨unmoved _, rfl⟩
  | prepared => exact ⟨unmoved _, rfl⟩
  | written => exact ⟨unmoved _, unbooked _ _ _⟩
  | read => exact ⟨unmoved _, unbooked _ _ _⟩
  | encoded => exact ⟨unmoved _, rfl⟩

theorem timed_act (linearized : system.Linearized policy) (timed : ∀ client, Timed policy past system client)
    (step : C × Action) (client : C) :
    Timed policy (past ++ [⟨system, step, (act policy system step).1, (act policy system step).2⟩])
      (act policy system step).2 client := by
  have acted := @System.acted C _ _ policy system step.1 step.2 (linearized.ready step.1)
  by_cases same : client = step.1
  · rw [same]
    exact (timed step.1).acted linearized acted
  · obtain ⟨phase, booked⟩ := acted.elsewhere linearized same
    exact (timed client).still rfl phase booked

theorem timed_run (policy : ValidationPolicy) (schedule : List (C × Action)) (client : C) :
    Timed policy (trace (act policy) (initial : System C) schedule) (final (act policy) initial schedule) client := by
  have started (client : C) : Timed policy [] (initial : System C) client :=
    { calls := rfl
      answers := rfl
      last := fun request response asked => by cases asked }
  have all := @trace_history (System C) (C × Action) Unit (act policy)
    (fun past system => system.Linearized policy ∧ ∀ client, Timed policy past system client) initial []
    ⟨linearized_initial policy, started⟩
    (fun past system holds step => ⟨holds.1.act step, timed_act holds.1 holds.2 step⟩) schedule
  exact all.2 client

/-- The last that is booked is the last event of the sequential history. -/
theorem answered_of_last {request : Request} {response : Response}
    (last : (system.booked policy client).getLast? = some (request, response)) :
    system.Answered policy client request response := by
  rw [booked, List.getLast?_map] at last
  obtain ⟨event, found, same⟩ := Option.map_eq_some_iff.mp last
  obtain ⟨rfl, rfl⟩ := Prod.mk.inj same
  exact ⟨event, found, rfl, rfl⟩

/-- What a client got back is the answer its request had in the sequential history. -/
theorem answered_run {policy : ValidationPolicy} {schedule : List (C × Action)} {client : C} {request : Request}
    {response : Response} (phase : (final (act policy) (initial : System C) schedule).phase client = .returned request response) :
    (final (act policy) initial schedule).Answered policy client request response :=
  answered_of_last ((timed_run policy schedule client).last request response (by rw [phase]; rfl) (by rw [phase]; rfl))

end History

section Linearization

/-- Whatever the interleaving, the relay behaves as if it had answered its requests one
    after the other: the order in which they take effect only ever grows at its end, each
    request takes effect once, between its call and the answer to it, and what a client gets
    back is the answer its request had there. A free client's call is accepted, and its own
    steps bring a client to its answer. The accepted writes of a key grow strictly in rank,
    and every answer is lawful. -/
theorem relay_linearizes (policy : ValidationPolicy) (schedule later : List (C × Action)) :
    let system := final (act policy) (initial : System C) schedule
    (system.store = final (serveFor policy) StoreInner.empty system.served ∧
      ∃ more, (final (act policy) initial (schedule ++ later)).served = system.served ++ more) ∧
      (∀ client,
        calls policy schedule client = (system.booked policy client).map Prod.fst ++ (system.phase client).waiting ∧
        system.booked policy client = answers policy schedule client ++ (system.phase client).held) ∧
      (∀ client request, (system.phase client).Free →
        (system.act policy (client, .call request)).2.phase client = .called request) ∧
      (∀ client request, (system.phase client).request? = some request →
        ∃ response, (final (act policy) system [(client, .prepare), (client, .enter), (client, .encode)]).phase client =
          .returned request response) ∧
      (∀ client request response, system.phase client = .returned request response →
        system.Answered policy client request response) ∧
      (∀ key, ((system.events policy).filterMap (accepted key)).Pairwise (Supersedes policy)) ∧
      ∀ past event rest, system.events policy = past ++ event :: rest →
        LawfulAfter policy past event := by
  intro system
  have linearized : system.Linearized policy := linearized_run policy schedule
  have timed : ∀ client, Timed policy (trace (act policy) initial schedule) system client := timed_run policy schedule
  refine ⟨⟨linearized.store, ?_⟩, fun client => ⟨(timed client).calls, (timed client).answers⟩,
    fun client request free => act_call free request, fun client request busy => finishes busy,
    fun client request response phase => answered_run phase, fun key => ?_,
    fun past event rest split => lawful_run split⟩
  · rw [final_append]
    exact linearized.served_run later
  · exact (mirrors_run policy system.served).increasing key

end Linearization

/-- All that a step within a request can do: nothing, move its client on, or let the request
    take effect. -/
inductive Worked (policy : ValidationPolicy) (system : System C) (client : C) : System C → Prop where
  | still : Worked policy system client system
  | moved (phase : Phase) (request : phase.request? = (system.phase client).request?)
      (response : phase.response? = (system.phase client).response?) :
      Worked policy system client (system.move client phase)
  | served (request : Request) (phase : Phase) (asked : (system.phase client).request? = some request)
      (waiting : (system.phase client).response? = none) (same : phase.request? = some request)
      (response : phase.response? = some (Relay.serve policy system.store request).1) :
      Worked policy system client (system.serve client request (Relay.serve policy system.store request).2 phase)

theorem Acted.worked {policy : ValidationPolicy} {system next : System C} {client : C} {action : Action}
    (within : ∀ request, action ≠ .call request) (acted : Acted policy system client action next) :
    Worked policy system client next := by
  cases acted with
  | still => exact .still
  | called request asked => exact absurd asked (within request)
  | prepared key encoded record before => exact .moved _ (by rw [before]; rfl) (by rw [before]; rfl)
  | written request response before done =>
      refine .served request _ ?_ ?_ rfl (by rw [done]; rfl) <;>
        cases phase : system.phase client <;> rw [phase] at before <;> cases before <;> rfl
  | read request snapshot before done =>
      exact .served request _ (by rw [before]; rfl) (by rw [before]; rfl) rfl (congrArg some done)
  | encoded request snapshot before => exact .moved _ (by rw [before]; rfl) (by rw [before]; rfl)

end System

end Blindplane.Relay
