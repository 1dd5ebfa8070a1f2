import Blindplane.Axum.Adapter

/-! # Many handlers at one relay

The relay needs no more sharing than a counted pointer, so that a runtime may keep many
handlers under way at once. A handler that needs the relay goes through the steps of its
request among the steps of all the others; one that does not replies at once. Every schedule
of such steps is explained by calls answered one after the other, and what has been explained
stays so.
-/

namespace Blindplane.Axum

open Lib Lib.Checked Lib.Machine Crypto Wire Relay

/-- What a handler may do next. -/
inductive Step where
  | arrive (call : Call)
  | prepare
  | enter
  | encode
  | reply

/-- The relay with its clients, the call that each one's handler is at, and the replies so far. -/
structure Server (C : Type) where
  relay : System C
  handling : C → Option Call
  replies : List (C × Call × Option Reply)

namespace Server

variable {C : Type} [DecidableEq C]

def initial : Server C where
  relay := .initial
  handling _ := none
  replies := []

variable [Primitives]

/-- One step of one handler at the relay. -/
def work (policy : ValidationPolicy) (server : Server C) (client : C) (action : Action) : Server C :=
  { server with relay := (server.relay.act policy (client, action)).2 }

/-- One step of one handler. -/
def act (policy : ValidationPolicy) (server : Server C) (input : C × Step) : Unit × Server C :=
  ((), match input.2, server.handling input.1 with
    | .arrive call, none =>
        match forward call with
        | .inl reply => { server with replies := server.replies ++ [(input.1, call, reply)] }
        | .inr (_, request) =>
            { server.work policy input.1 (.call request) with
              handling := Function.update server.handling input.1 (some call) }
    | .prepare, some _ => server.work policy input.1 .prepare
    | .enter, some _ => server.work policy input.1 .enter
    | .encode, some _ => server.work policy input.1 .encode
    | .reply, some call =>
        match server.relay.phase input.1 with
        | .returned _ response =>
            { server with
              handling := Function.update server.handling input.1 none
              replies := server.replies ++ [(input.1, call, answer response)] }
        | _ => server
    | _, _ => server)

/-- What a client has been replied, call by call. -/
def replied (server : Server C) (client : C) : List (Call × Option Reply) :=
  (server.replies.filter (·.1 = client)).map Prod.snd

end Server

section Order

variable {C : Type} [DecidableEq C] [Primitives]

/-- Answer a call, whoever made it. -/
def handleFor (policy : ValidationPolicy) (store : StoreInner) (input : C × Call) : Option Reply × StoreInner :=
  handle policy store input.2

/-- What a client is answered, call by call, where the calls are made one after the other. -/
def answered (policy : ValidationPolicy) (order : List (C × Call)) (client : C) : List (Call × Option Reply) :=
  ((trace (handleFor policy) StoreInner.empty order).filter (·.input.1 = client)).map fun event =>
    (event.input.2, event.output)

theorem answered_concat (policy : ValidationPolicy) (order : List (C × Call)) (input : C × Call) (client : C) :
    answered policy (order ++ [input]) client = answered policy order client ++
      if input.1 = client then
        [(input.2, (handle policy (final (handleFor policy) StoreInner.empty order) input.2).1)]
      else [] := by
  rw [answered, trace_append, List.filter_append, List.map_append, trace_cons, trace_nil, List.filter_cons]
  split <;> rename_i same <;> simp only [decide_eq_true_eq] at same <;> simp [answered, handleFor, same]

end Order

section Invariant

variable {C : Type} [DecidableEq C]

/-- What a client's handler will reply, once that is settled. -/
def Server.settled (server : Server C) (client : C) : List (Call × Option Reply) :=
  match server.handling client, (server.relay.phase client).response? with
  | some call, some response => [(call, answer response)]
  | _, _ => []

variable [Primitives]

/-- Where a client's handler stands. -/
structure Stands (policy : ValidationPolicy) (order : List (C × Call)) (server : Server C) (client : C) : Prop where
  replies : answered policy order client = server.replied client ++ server.settled client
  asked : ∀ call, server.handling client = some call →
    ∃ request, forward call = .inr ((), request) ∧ (server.relay.phase client).request? = some request
  free : server.handling client = none →
    server.relay.phase client = .idle ∨ ∃ request response, server.relay.phase client = .returned request response
  ready : (server.relay.phase client).Ready policy

structure Sound (policy : ValidationPolicy) (order : List (C × Call)) (server : Server C) : Prop where
  store : server.relay.store = final (handleFor policy) StoreInner.empty order
  stands : ∀ client, Stands policy order server client

variable {policy : ValidationPolicy} {order : List (C × Call)} {server : Server C}

/-- A step of one client is not seen by another. -/
theorem Stands.congr {client : C} (stands : Stands policy order server client) {next : Server C}
    {order' : List (C × Call)} (phase : next.relay.phase client = server.relay.phase client)
    (handling : next.handling client = server.handling client) (replied : next.replied client = server.replied client)
    (same : answered policy order' client = answered policy order client) : Stands policy order' next client where
  replies := by
    rw [same, stands.replies, replied]
    simp only [Server.settled, phase, handling]
  asked := by
    rw [handling, phase]
    exact stands.asked
  free := by
    rw [handling, phase]
    exact stands.free
  ready := by
    rw [phase]
    exact stands.ready

theorem handle_alone {store : StoreInner} {call : Call} {reply : Option Reply} (alone : forward call = .inl reply) :
    handle policy store call = (reply, store) := by
  rw [handle_eq, Front.serve]
  simp only [router, alone]

theorem handle_forwarded {store : StoreInner} {call : Call} {request : Request}
    (forwarded : forward call = .inr ((), request)) :
    handle policy store call = (answer (serve policy store request).1, (serve policy store request).2) := by
  rw [handle_eq, Front.serve]
  simp only [router, forwarded, serveFor]

omit [Primitives] in
theorem replied_concat (server : Server C) (client other : C) (call : Call) (reply : Option Reply) :
    Server.replied { server with replies := server.replies ++ [(client, call, reply)] } other =
      server.replied other ++ if client = other then [(call, reply)] else [] := by
  simp only [Server.replied, List.filter_append, List.map_append, List.filter_cons, List.filter_nil]
  split <;> rename_i same <;> simp only [decide_eq_true_eq] at same <;> simp [same]

/-- A call that needs no relay is answered where it arrives. -/
theorem Sound.alone (sound : Sound policy order server) {client : C} {call : Call} {reply : Option Reply}
    (idle : server.handling client = none) (alone : forward call = .inl reply) :
    Sound policy (order ++ [(client, call)])
      { server with replies := server.replies ++ [(client, call, reply)] } where
  store := by
    rw [final_append, ← sound.store, final_cons, final_nil, handleFor, handle_alone alone]
  stands other := by
    have stands := sound.stands other
    by_cases same : client = other
    · subst same
      exact
        { replies := by
            rw [answered_concat, stands.replies, replied_concat, handle_alone alone, if_pos rfl]
            simp only [Server.settled, idle, List.append_nil]
          asked := stands.asked
          free := stands.free
          ready := stands.ready }
    · refine stands.congr rfl rfl ?_ ?_
      · rw [replied_concat, if_neg same, List.append_nil]
      · rw [answered_concat, if_neg same, List.append_nil]

/-- A call that needs the relay becomes a request. -/
theorem Sound.forwarded (sound : Sound policy order server) {client : C} {call : Call} {request : Request}
    (idle : server.handling client = none) (forwarded : forward call = .inr ((), request)) :
    Sound policy order { server.work policy client (.call request) with
      handling := Function.update server.handling client (some call) } := by
  have stands := sound.stands client
  have called : (server.relay.act policy (client, .call request)).2 = server.relay.move client (.called request) := by
    rcases stands.free idle with phase | ⟨_, _, phase⟩ <;> simp only [System.act, phase]
  simp only [Server.work, called]
  refine { store := sound.store, stands := fun other => ?_ }
  by_cases same : other = client
  · subst same
    have replies := stands.replies
    simp only [Server.settled, idle, List.append_nil] at replies
    exact
      { replies := by
          simpa [Server.settled, Server.replied, System.move, Phase.response?] using replies
        asked := by
          rintro asked here
          obtain rfl : call = asked := by simpa using here
          exact ⟨request, forwarded, by simp [System.move, Phase.request?]⟩
        free := fun none => by simp at none
        ready := fun _ _ other => by simp [System.move] at other }
  · exact (sound.stands other).congr (Function.update_of_ne same _ _) (Function.update_of_ne same _ _) rfl rfl

/-- A step at the relay leaves everything as it is explained, or its request takes effect. -/
theorem Sound.work (sound : Sound policy order server) {client : C} {call : Call} {action : Action}
    (busy : server.handling client = some call) (within : ∀ request, action ≠ .call request) :
    ∃ more, Sound policy (order ++ more) (server.work policy client action) := by
  have stands := sound.stands client
  obtain ⟨request, forwarded, asked⟩ := stands.asked call busy
  have acted := @System.acted C _ _ policy server.relay client action stands.ready
  have ready := acted.ready fun other => (sound.stands other).ready
  have worked := acted.worked within
  simp only [Server.work]
  generalize (server.relay.act policy (client, action)).2 = next at worked ready ⊢
  cases worked with
  | still => exact ⟨[], by rwa [List.append_nil]⟩
  | moved phase sameRequest sameResponse =>
      refine ⟨[], { store := by rw [List.append_nil]; exact sound.store, stands := fun other => ?_ }⟩
      rw [List.append_nil]
      by_cases same : other = client
      · subst same
        exact
          { replies := by
              have replies := stands.replies
              simpa [Server.settled, Server.replied, System.move, sameResponse] using replies
            asked := fun call here => by
              obtain ⟨request, forwarded, asked⟩ := stands.asked call here
              exact ⟨request, forwarded, by simp [System.move, sameRequest, asked]⟩
            free := fun idle => by
              rw [busy] at idle
              cases idle
            ready := ready other }
      · exact (sound.stands other).congr (Function.update_of_ne same _ _) rfl rfl rfl
  | served request' phase asked' waiting same response =>
      obtain rfl : request = request' := Option.some.inj (asked.symm.trans asked')
      refine ⟨[(client, call)], { store := ?_, stands := fun other => ?_ }⟩
      · rw [final_append, ← sound.store, final_cons, final_nil, handleFor, handle_forwarded forwarded]
        rfl
      · by_cases here : other = client
        · subst here
          have replies := stands.replies
          simp only [Server.settled, busy, waiting, List.append_nil] at replies
          exact
            { replies := by
                rw [answered_concat, if_pos rfl, replies, ← sound.store, handle_forwarded forwarded]
                simp [Server.settled, Server.replied, System.serve, busy, response]
              asked := fun call' here => by
                obtain rfl : call = call' := Option.some.inj (busy.symm.trans here)
                exact ⟨request, forwarded, by simp [System.serve, same]⟩
              free := fun idle => by
                rw [busy] at idle
                cases idle
              ready := ready other }
        · refine (sound.stands other).congr (Function.update_of_ne here _ _) rfl rfl ?_
          rw [answered_concat, if_neg (Ne.symm here), List.append_nil]

/-- A settled answer is replied. -/
theorem Sound.reply (sound : Sound policy order server) {client : C} {call : Call} {request : Request}
    {response : Response} (busy : server.handling client = some call)
    (returned : server.relay.phase client = .returned request response) :
    Sound policy order { server with
      handling := Function.update server.handling client none
      replies := server.replies ++ [(client, call, answer response)] } where
  store := sound.store
  stands other := by
    have stands := sound.stands other
    by_cases same : client = other
    · subst same
      have replies := stands.replies
      simp only [Server.settled, busy, returned, Phase.response?] at replies
      exact
        { replies := by
            rw [replies]
            simp [Server.settled, Server.replied]
          asked := fun call here => by simp at here
          free := fun _ => .inr ⟨request, response, returned⟩
          ready := stands.ready }
    · refine stands.congr rfl (Function.update_of_ne (Ne.symm same) _ _) ?_ rfl
      simp [Server.replied, same]

theorem Sound.act (sound : Sound policy order server) (input : C × Step) :
    ∃ more, Sound policy (order ++ more) (server.act policy input).2 := by
  have unchanged : ∃ more, Sound policy (order ++ more) server := ⟨[], by rwa [List.append_nil]⟩
  obtain ⟨client, step⟩ := input
  simp only [Server.act]
  split
  · next call idle =>
    split
    · next reply alone => exact ⟨_, sound.alone idle alone⟩
    · next request forwarded => exact ⟨[], by rw [List.append_nil]; exact sound.forwarded idle forwarded⟩
  · next call busy => exact sound.work busy fun _ other => by cases other
  · next call busy => exact sound.work busy fun _ other => by cases other
  · next call busy => exact sound.work busy fun _ other => by cases other
  · next call busy =>
    split
    · next request response returned => exact ⟨[], by rw [List.append_nil]; exact sound.reply busy returned⟩
    · exact unchanged
  · exact unchanged

theorem Sound.run (sound : Sound policy order server) (schedule : List (C × Step)) :
    ∃ more, Sound policy (order ++ more) (final (Server.act policy) server schedule) := by
  induction schedule generalizing order server with
  | nil => exact ⟨[], by rwa [List.append_nil]⟩
  | cons input rest ih =>
      obtain ⟨first, stepped⟩ := sound.act input
      obtain ⟨later, reached⟩ := ih stepped
      exact ⟨first ++ later, by rwa [← List.append_assoc]⟩

/-- Where a handler is busy, its own steps bring it to its reply, whatever the others are at. -/
theorem Stands.finishes {client : C} {call : Call} (stands : Stands policy order server client)
    (busy : server.handling client = some call) :
    (final (Server.act policy) server [(client, .prepare), (client, .enter), (client, .encode), (client, .reply)]).handling
      client = none := by
  obtain ⟨request, -, asked⟩ := stands.asked call busy
  cases phase : server.relay.phase client with
  | idle =>
      rw [phase] at asked
      cases asked
  | called request =>
      cases request with
      | put key encoded =>
          cases prepared : Relay.prepare policy key encoded <;>
            simp [Server.act, Server.work, System.act, System.move, System.serve, busy, phase, prepared]
      | get key => simp [Server.act, Server.work, System.act, System.move, System.serve, busy, phase]
      | search tenant label keyEpoch token =>
          simp [Server.act, Server.work, System.act, System.move, System.serve, busy, phase]
  | prepared request record => simp [Server.act, Server.work, System.act, System.serve, busy, phase]
  | holding request snapshot => simp [Server.act, Server.work, System.act, System.move, busy, phase]
  | returned request response => simp [Server.act, Server.work, System.act, busy, phase]

end Invariant

end Blindplane.Axum
