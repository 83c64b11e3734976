import Zed.Rpc.Peer

namespace zed.rpc

variable {Body : Type}

def Holds (channels : Option Channels) (id call : Nat) : Prop :=
  ∃ entries ∈ channels, (id, call) ∈ entries

@[simp] theorem holds_none {id call : Nat} : ¬ Holds none id call := by
  simp [Holds]

@[simp] theorem holds_some {channels : Channels} {id call : Nat} :
    Holds (some channels) id call ↔ (id, call) ∈ channels := by
  simp [Holds]

@[simp] theorem Channels.mem_remove {channels : Channels} {id id' call : Nat} :
    (id', call) ∈ channels.remove id ↔ (id', call) ∈ channels ∧ id' ≠ id := by
  simp [Channels.remove]

@[simp] theorem Channels.mem_insert {channels : Channels} {id id' call call' : Nat} :
    (id', call') ∈ channels.insert id call ↔
      (id' = id ∧ call' = call) ∨ ((id', call') ∈ channels ∧ id' ≠ id) := by
  simp [Channels.insert]

theorem Channels.mem_of_get {channels : Channels} {id call : Nat} (hget : channels.get id = some call) :
    (id, call) ∈ channels := by
  obtain ⟨entry, hfind, rfl⟩ := Option.map_eq_some_iff.mp hget
  have hid : entry.1 = id := by simpa using List.find?_some hfind
  exact hid ▸ List.mem_of_find?_eq_some hfind

theorem Channels.not_mem_of_get {channels : Channels} {id call : Nat} (hget : channels.get id = none) :
    (id, call) ∉ channels := by
  intro hmem
  have hfind : channels.find? (fun entry => entry.1 == id) = none := Option.map_eq_none_iff.mp hget
  simpa using List.find?_eq_none.mp hfind _ hmem

theorem holds_of_map_remove {channels : Option Channels} {id id' call : Nat} :
    Holds (channels.map (·.remove id)) id' call ↔ Holds channels id' call ∧ id' ≠ id := by
  cases channels <;> simp

namespace ConnectionState

section

variable (s : ConnectionState Body) (call : Nat)

@[simp] theorem set_request_self (request : Request Body) :
    (s.set_request call request).requests call = request := by
  simp [set_request]

@[simp] theorem set_stream_self (stream : Stream Body) : (s.set_stream call stream).streams call = stream := by
  simp [set_stream]

theorem set_stream_of_ne {call other : Nat} (stream : Stream Body) (hne : other ≠ call) :
    (s.set_stream call stream).streams other = s.streams other := by
  simp [set_stream, hne]

end

/-- The streams when the end guard has told the ones in the map. -/
def told (s : ConnectionState Body) (call : Nat) : Stream Body :=
  if (s.stream_response_channels.getD []).any (·.2 == call) && (s.streams call).phase.receives then
    { s.streams call with queue := (s.streams call).queue ++ [.closed] }
  else s.streams call

/-- The steps of a connection: what each found, and what it leaves. -/
inductive Moves (s : ConnectionState Body) : ConnectionState Body → Prop
  | read (incoming : Envelope Body) (hio : s.io = .running) (hthere : gone s.handler = false) :
    Moves s { s with incoming := s.incoming ++ [incoming], arrived := s.arrived ++ [incoming] }
  | write (outgoing : List (Envelope Body)) : Moves s { s with outgoing := outgoing }
  | close_requests (hio : s.io = .running) : Moves s { s with io := .taking_streams, response_channels := none }
  | close_streams (hio : s.io = .taking_streams) :
    Moves s { s with io := .removing, stream_response_channels := none, streams := s.told }
  | end_io (hio : s.io = .removing) : Moves s { s with io := .ended, connected := false }
  | disconnect : Moves s { s with connected := false }
  | send (outgoing : List (Envelope Body)) :
    Moves s { s with next_message_id := s.next_message_id + 1, outgoing := outgoing }
  | identify_request (call : Nat) (hphase : (s.requests call).phase = .idle) :
    Moves s
      { s.set_request call { s.requests call with id := some (s.next_message_id % 2 ^ 32), phase := .inserting } with
        next_message_id := s.next_message_id + 1 }
  | refuse_request (call : Nat)
    (hphase : (s.requests call).phase = .idle ∨
      (s.requests call).phase = .inserting ∨ (s.requests call).phase = .sending) :
    Moves s (s.set_request call { s.requests call with phase := .refused })
  | insert_request (call id : Nat) (channels : Channels) (hphase : (s.requests call).phase = .inserting)
    (hid : (s.requests call).id = some id) (hchannels : s.response_channels = some channels) :
    Moves s
      { s.set_request call { s.requests call with phase := .sending } with
        response_channels := some (channels.insert id call) }
  | send_request (call : Nat) (outgoing : List (Envelope Body)) (hphase : (s.requests call).phase = .sending) :
    Moves s { s.set_request call { s.requests call with phase := .waiting } with outgoing := outgoing }
  | resolve (call : Nat) (response : Envelope Body) (barrier : Nat) (hphase : (s.requests call).phase = .waiting)
    (hvalue : (s.requests call).value = some (response, barrier)) :
    Moves s
      { s.set_request call { s.requests call with phase := .resolved, value := none } with
        resolved := s.resolved ++ [(call, response)] }
  | fail (call : Nat) (hphase : (s.requests call).phase = .waiting) (hvalue : (s.requests call).value = none) :
    Moves s (s.set_request call { s.requests call with phase := .failed })
  | let_go (call : Nat) (phase : RequestPhase) (hend : phase = .failed ∨ phase = .dropped)
    (hphase : (s.requests call).phase = .waiting ∨ (s.requests call).phase = .refused) :
    Moves s (s.set_request call { s.requests call with phase := phase, value := none })
  | identify_stream (call : Nat) (hphase : (s.streams call).phase = .idle) :
    Moves s
      { s.set_stream call { s.streams call with id := some (s.next_message_id % 2 ^ 32), phase := .inserting } with
        next_message_id := s.next_message_id + 1 }
  | refuse_stream (call : Nat) (hphase : (s.streams call).phase = .idle ∨ (s.streams call).phase = .inserting) :
    Moves s (s.set_stream call { s.streams call with phase := .refused })
  | insert_stream (call id : Nat) (channels : Channels) (hphase : (s.streams call).phase = .inserting)
    (hid : (s.streams call).id = some id) (hchannels : s.stream_response_channels = some channels) :
    Moves s
      { s.set_stream call { s.streams call with phase := .sending, since := s.looked_up.length } with
        stream_response_channels := some (channels.insert id call) }
  | send_stream (call : Nat) (outgoing : List (Envelope Body)) (hphase : (s.streams call).phase = .sending) :
    Moves s { s.set_stream call { s.streams call with phase := .opened } with outgoing := outgoing }
  | unsend_stream (call : Nat) (hphase : (s.streams call).phase = .sending) :
    Moves s (s.set_stream call { s.streams call with phase := .unregistering })
  | unregister (call : Nat) (hphase : (s.streams call).phase = .unregistering) :
    Moves s
      ((s.remove_stream_channel (s.streams call).id).set_stream call { s.streams call with phase := .refused })
  | start (call : Nat) (hphase : (s.streams call).phase = .opened) :
    Moves s (s.set_stream call { s.streams call with phase := .streaming })
  | poll_closed (call : Nat) (queue : List (Item Body)) (hphase : (s.streams call).phase = .streaming)
    (hqueue : (s.streams call).queue = .closed :: queue) :
    Moves s
      (s.set_stream call
        { s.streams call with queue := queue, polled := (s.streams call).polled ++ [.closed] })
  | poll_frame (call : Nat) (response : Envelope Body) (barrier : Nat) (queue : List (Item Body))
    (hphase : (s.streams call).phase = .streaming)
    (hqueue : (s.streams call).queue = .frame response barrier :: queue)
    (hterminal : response.terminal_stream_response = false) :
    Moves s
      (s.set_stream call
        { s.streams call with queue := queue, polled := (s.streams call).polled ++ [.frame response barrier] })
  | poll_terminal (call : Nat) (response : Envelope Body) (barrier : Nat) (queue : List (Item Body))
    (hphase : (s.streams call).phase = .streaming)
    (hqueue : (s.streams call).queue = .frame response barrier :: queue)
    (hterminal : response.terminal_stream_response = true) :
    Moves s
      ((s.set_stream call
        { s.streams call with
          queue := queue
          polled := (s.streams call).polled ++ [.frame response barrier] }).remove_stream_channel
        (s.streams call).id)
  | finish (call : Nat) (hphase : (s.streams call).phase = .streaming) (hqueue : (s.streams call).queue = []) :
    Moves s (s.set_stream call { s.streams call with phase := .finished })
  | drop_stream (call : Nat) (phase : StreamPhase) (hend : phase = .gone ∨ phase = .cleaning)
    (hphase : (s.streams call).phase.receives = true) :
    Moves s (s.set_stream call { s.streams call with phase := phase, queue := [] })
  | clean_up (call : Nat) (hphase : (s.streams call).phase = .cleaning) :
    Moves s ((s.remove_stream_channel (s.streams call).id).set_stream call { s.streams call with phase := .gone })
  | hand_on (incoming : Envelope Body) (rest : List (Envelope Body)) (hhandler : s.handler = .idle)
    (hincoming : s.incoming = incoming :: rest) (hresponse : incoming.responding_to = none) :
    Moves s (ConnectionState.hand { s with incoming := rest, taken := s.taken ++ [incoming] } incoming)
  | take_response (incoming : Envelope Body) (rest : List (Envelope Body)) (id : Nat) (hhandler : s.handler = .idle)
    (hincoming : s.incoming = incoming :: rest) (hresponse : incoming.responding_to = some id) :
    Moves s
      { s with
        incoming := rest
        taken := s.taken ++ [incoming]
        handler := .looking_up_request incoming id }
  | look_up_request (incoming : Envelope Body) (id : Nat) (channels : Channels)
    (hhandler : s.handler = .looking_up_request incoming id) (hchannels : s.response_channels = some channels) :
    Moves s
      { s with
        response_channels := some (channels.remove id)
        handler := .looking_up_stream incoming id (channels.get id) }
  | look_up_stream (incoming : Envelope Body) (id : Nat) (response_channel : Option Nat) (channels : Channels)
    (hhandler : s.handler = .looking_up_stream incoming id response_channel)
    (hchannels : s.stream_response_channels = some channels) :
    Moves s
      { s with
        stream_response_channels :=
          some (if incoming.terminal_stream_response then channels.remove id else channels)
        handler := .delivering incoming id response_channel (channels.get id)
        looked_up := s.looked_up ++ [incoming] }
  | answer (incoming : Envelope Body) (id call : Nat) (stream_response_channel : Option Nat)
    (hhandler : s.handler = .delivering incoming id (some call) stream_response_channel)
    (hthere : (s.requests call).phase.receives = true) :
    Moves s
      { s.set_request call { s.requests call with value := some (incoming, s.taken.length) } with
        handler := .awaiting_requester call s.taken.length }
  | find_requester_gone (incoming : Envelope Body) (id call : Nat) (stream_response_channel : Option Nat)
    (hhandler : s.handler = .delivering incoming id (some call) stream_response_channel)
    (hgone : (s.requests call).phase.receives = false) :
    Moves s { s with handler := .awaiting_requester call s.taken.length }
  | feed (incoming : Envelope Body) (id call : Nat)
    (hhandler : s.handler = .delivering incoming id none (some call))
    (hthere : (s.streams call).phase.receives = true) :
    Moves s
      { s.set_stream call
          { s.streams call with queue := (s.streams call).queue ++ [.frame incoming s.taken.length] } with
        handler := .awaiting_consumer call s.taken.length }
  | find_consumer_gone (incoming : Envelope Body) (id call : Nat)
    (hhandler : s.handler = .delivering incoming id none (some call))
    (hgone : (s.streams call).phase.receives = false) :
    Moves s { s with handler := .forgetting id }
  | forget (id : Nat) (hhandler : s.handler = .forgetting id) :
    Moves s { s.remove_stream_channel (some id) with handler := .idle }
  | give_up (hhandler : (∃ incoming id, s.handler = .looking_up_request incoming id ∧ s.response_channels = none) ∨
      (∃ incoming id channel, s.handler = .looking_up_stream incoming id channel ∧
        s.stream_response_channels = none) ∨
      ∃ incoming id, s.handler = .delivering incoming id none none) :
    Moves s { s with handler := .idle }
  | resume (hhandler : (∃ call barrier, s.handler = .awaiting_requester call barrier ∧
        (s.requests call).value.any (·.2 == barrier) = false) ∨
      ∃ call barrier, s.handler = .awaiting_consumer call barrier ∧
        ∀ response, .frame response barrier ∉ (s.streams call).queue) :
    Moves s { s with handler := .idle }
  | drop_incoming (hhandler : s.handler = .idle ∨ (∃ call barrier, s.handler = .awaiting_requester call barrier) ∨
      ∃ call barrier, s.handler = .awaiting_consumer call barrier) :
    Moves s { s with handler := .gone, incoming := [] }

@[simp] theorem remove_stream_channel_response_channels (s : ConnectionState Body) (id : Option Nat) :
    (s.remove_stream_channel id).response_channels = s.response_channels := by
  cases id <;> rfl

@[simp] theorem remove_stream_channel_handler (s : ConnectionState Body) (id : Option Nat) :
    (s.remove_stream_channel id).handler = s.handler := by
  cases id <;> rfl

@[simp] theorem remove_stream_channel_taken (s : ConnectionState Body) (id : Option Nat) :
    (s.remove_stream_channel id).taken = s.taken := by
  cases id <;> rfl

@[simp] theorem remove_stream_channel_requests (s : ConnectionState Body) (id : Option Nat) :
    (s.remove_stream_channel id).requests = s.requests := by
  cases id <;> rfl

theorem hand_eq (s : ConnectionState Body) (incoming : Envelope Body) :
    s.hand incoming = { s with handed := (s.hand incoming).handed } := by
  unfold hand
  split <;> rfl

variable {s t : ConnectionState Body} {call : Nat} {envelope : Envelope Body}

theorem moves_of_request_dynamic (hstep : s.request_dynamic call envelope = some t) : Moves s t := by
  dsimp only [request_dynamic] at hstep
  split at hstep
  case h_1 hphase =>
    split at hstep
    · exact Option.some.inj hstep ▸ .identify_request call hphase
    · exact Option.some.inj hstep ▸ .refuse_request call (.inl hphase)
  case h_2 id hphase hid =>
    split at hstep
    · exact Option.some.inj hstep ▸ .refuse_request call (.inr (.inl hphase))
    · next channels hchannels => exact Option.some.inj hstep ▸ .insert_request call id channels hphase hid hchannels
  case h_3 id hphase hid =>
    split at hstep
    · exact Option.some.inj hstep ▸ .refuse_request call (.inr (.inr hphase))
    · exact Option.some.inj hstep ▸ .send_request call _ hphase
  case h_4 => simp at hstep

theorem moves_of_poll_request (hstep : s.poll_request call = some t) : Moves s t := by
  dsimp only [poll_request] at hstep
  split at hstep
  case h_1 hphase =>
    split at hstep
    · next response barrier hvalue => exact Option.some.inj hstep ▸ .resolve call response barrier hphase hvalue
    · next hvalue =>
      split at hstep
      · simp at hstep
      · exact Option.some.inj hstep ▸ .fail call hphase hvalue
  case h_2 hphase => exact Option.some.inj hstep ▸ .let_go call _ (.inl rfl) (.inr hphase)
  case h_3 => simp at hstep

theorem moves_of_drop_request (hstep : s.drop_request call = some t) : Moves s t := by
  dsimp only [drop_request] at hstep
  split at hstep
  case h_1 hphase => exact Option.some.inj hstep ▸ .let_go call _ (.inr rfl) (.inl hphase)
  case h_2 hphase => exact Option.some.inj hstep ▸ .let_go call _ (.inr rfl) (.inr hphase)
  case h_3 => simp at hstep

theorem moves_of_request_stream_dynamic (hstep : s.request_stream_dynamic call envelope = some t) :
    Moves s t := by
  dsimp only [request_stream_dynamic] at hstep
  split at hstep
  case h_1 hphase =>
    split at hstep
    · exact Option.some.inj hstep ▸ .identify_stream call hphase
    · exact Option.some.inj hstep ▸ .refuse_stream call (.inl hphase)
  case h_2 id hphase hid =>
    split at hstep
    · exact Option.some.inj hstep ▸ .refuse_stream call (.inr hphase)
    · next channels hchannels => exact Option.some.inj hstep ▸ .insert_stream call id channels hphase hid hchannels
  case h_3 id hphase hid =>
    split at hstep
    · exact Option.some.inj hstep ▸ .unsend_stream call hphase
    · exact Option.some.inj hstep ▸ .send_stream call _ hphase
  case h_4 hphase => exact Option.some.inj hstep ▸ .unregister call hphase
  case h_5 => simp at hstep

theorem moves_of_poll_stream (hstep : s.poll_stream call = some t) : Moves s t := by
  dsimp only [poll_stream] at hstep
  split at hstep
  case h_1 hphase => exact Option.some.inj hstep ▸ .drop_stream call _ (.inl rfl) (by simp [hphase, StreamPhase.receives])
  case h_2 hphase => exact Option.some.inj hstep ▸ .start call hphase
  case h_3 hphase =>
    split at hstep
    · next hqueue =>
      split at hstep
      · simp at hstep
      · exact Option.some.inj hstep ▸ .finish call hphase hqueue
    · next item queue hqueue =>
      split at hstep
      · exact Option.some.inj hstep ▸ .poll_closed call queue hphase hqueue
      · next response barrier =>
        split at hstep
        · next hterminal =>
          exact Option.some.inj hstep ▸ .poll_terminal call response barrier queue hphase hqueue hterminal
        · next hterminal =>
          exact Option.some.inj hstep ▸
            .poll_frame call response barrier queue hphase hqueue (by simpa using hterminal)
  case h_4 => simp at hstep

theorem moves_of_drop_stream (hstep : s.drop_stream call = some t) : Moves s t := by
  dsimp only [drop_stream] at hstep
  split at hstep
  case h_5 hphase => exact Option.some.inj hstep ▸ .clean_up call hphase
  case h_6 => simp at hstep
  all_goals
    next hphase =>
      exact Option.some.inj hstep ▸ .drop_stream call _ (by simp) (by simp [hphase, StreamPhase.receives])

theorem moves_of_end_connection (hstep : s.end_connection = some t) : Moves s t := by
  dsimp only [end_connection] at hstep
  split at hstep
  case h_1 hio => exact Option.some.inj hstep ▸ .close_requests hio
  case h_2 hio => exact Option.some.inj hstep ▸ .close_streams hio
  case h_3 hio => exact Option.some.inj hstep ▸ .end_io hio
  case h_4 => simp at hstep

theorem moves_of_deliver {incoming : Envelope Body} {id : Nat} {response_channel stream_response_channel : Option Nat}
    (hhandler : s.handler = .delivering incoming id response_channel stream_response_channel) :
    Moves s (s.deliver incoming id response_channel stream_response_channel) := by
  dsimp only [deliver]
  split
  case h_1 stream_response_channel call =>
    split
    · next hthere => exact .answer incoming id call _ hhandler hthere
    · next hgone => exact .find_requester_gone incoming id call _ hhandler (by simpa using hgone)
  case h_2 call =>
    split
    · next hthere => exact .feed incoming id call hhandler hthere
    · next hgone => exact .find_consumer_gone incoming id call hhandler (by simpa using hgone)
  case h_3 => exact .give_up (.inr (.inr ⟨incoming, id, hhandler⟩))

theorem moves_of_handle_incoming (hstep : s.handle_incoming = some t) : Moves s t := by
  dsimp only [handle_incoming] at hstep
  split at hstep
  case h_1 hhandler =>
    split at hstep
    · simp at hstep
    · next incoming rest hincoming =>
      split at hstep
      · next hresponse => exact Option.some.inj hstep ▸ .hand_on incoming rest hhandler hincoming hresponse
      · next id hresponse =>
        exact Option.some.inj hstep ▸ .take_response incoming rest id hhandler hincoming hresponse
  case h_2 incoming id hhandler =>
    split at hstep
    · next hchannels => exact Option.some.inj hstep ▸ .give_up (.inl ⟨incoming, id, hhandler, hchannels⟩)
    · next channels hchannels =>
      exact Option.some.inj hstep ▸ .look_up_request incoming id channels hhandler hchannels
  case h_3 incoming id response_channel hhandler =>
    split at hstep
    · next hchannels =>
      exact Option.some.inj hstep ▸ .give_up (.inr (.inl ⟨incoming, id, response_channel, hhandler, hchannels⟩))
    · next channels hchannels =>
      exact Option.some.inj hstep ▸ .look_up_stream incoming id response_channel channels hhandler hchannels
  case h_4 hhandler => exact Option.some.inj hstep ▸ moves_of_deliver hhandler
  case h_5 id hhandler => exact Option.some.inj hstep ▸ .forget id hhandler
  case h_6 call barrier hhandler =>
    split at hstep
    · simp at hstep
    · next hwaits =>
      exact Option.some.inj hstep ▸ .resume (.inl ⟨call, barrier, hhandler, by simpa using hwaits⟩)
  case h_7 call barrier hhandler =>
    split at hstep
    · simp at hstep
    · next hwaits =>
      refine Option.some.inj hstep ▸ .resume (.inr ⟨call, barrier, hhandler, fun response hmem => hwaits ?_⟩)
      exact List.any_eq_true.mpr ⟨_, hmem, by simp⟩
  case h_8 => simp at hstep

theorem moves_of_drop_incoming (hstep : s.drop_incoming = some t) : Moves s t := by
  dsimp only [drop_incoming] at hstep
  split at hstep
  case h_1 hhandler => exact Option.some.inj hstep ▸ .drop_incoming (.inl hhandler)
  case h_2 call barrier hhandler => exact Option.some.inj hstep ▸ .drop_incoming (.inr (.inl ⟨call, barrier, hhandler⟩))
  case h_3 call barrier hhandler => exact Option.some.inj hstep ▸ .drop_incoming (.inr (.inr ⟨call, barrier, hhandler⟩))
  case h_4 => simp at hstep

theorem moves_of_step {capacity : Nat} {action : Action Body} (hstep : s.step capacity action = some t) :
    Moves s t := by
  cases action with
  | read incoming =>
    dsimp only [step] at hstep
    split at hstep
    · next hread => exact Option.some.inj hstep ▸ .read incoming hread.1 hread.2.2
    · simp at hstep
  | write =>
    dsimp only [step] at hstep
    split at hstep
    · simp at hstep
    · split at hstep
      · exact Option.some.inj hstep ▸ .write _
      · simp at hstep
  | end_connection => exact moves_of_end_connection hstep
  | disconnect => exact Option.some.inj hstep ▸ .disconnect
  | send envelope =>
    dsimp only [step] at hstep
    split at hstep
    · exact Option.some.inj hstep ▸ .send _
    · simp at hstep
  | request_dynamic call envelope => exact moves_of_request_dynamic hstep
  | poll_request call => exact moves_of_poll_request hstep
  | drop_request call => exact moves_of_drop_request hstep
  | request_stream_dynamic call envelope => exact moves_of_request_stream_dynamic hstep
  | poll_stream call => exact moves_of_poll_stream hstep
  | drop_stream call => exact moves_of_drop_stream hstep
  | handle_incoming => exact moves_of_handle_incoming hstep
  | drop_incoming => exact moves_of_drop_incoming hstep

end ConnectionState

end zed.rpc
