import Zed.Transition

namespace zed.rpc

inductive Payload (Body : Type) where
  | error (message : Body)
  | end_stream
  | message (body : Body)

structure Envelope (Body : Type) where
  id : Nat
  responding_to : Option Nat
  payload : Option (Payload Body)

/-- Whether a frame is the last of its stream. -/
def Envelope.terminal_stream_response {Body : Type} (envelope : Envelope Body) : Bool :=
  match envelope.payload with
  | some (.error _) | some .end_stream => true
  | _ => false

/-- A map from message ids to the calls whose channel's sending end it holds. -/
abbrev Channels := List (Nat × Nat)

namespace Channels

def get (channels : Channels) (id : Nat) : Option Nat :=
  (channels.find? fun entry => entry.1 == id).map Prod.snd

def remove (channels : Channels) (id : Nat) : Channels :=
  channels.filter fun entry => entry.1 != id

def insert (channels : Channels) (id call : Nat) : Channels :=
  (id, call) :: channels.remove id

end Channels

/-- What a stream's channel carries: a frame with its barrier, or that the connection
    was closed. -/
inductive Item (Body : Type) where
  | frame (envelope : Envelope Body) (barrier : Nat)
  | closed

/-- What a stream yields for a frame: an error, nothing at its end, or the frame. -/
def Envelope.yields {Body : Type} (response : Envelope Body) : Option (Except (Option Body) (Envelope Body)) :=
  match response.payload with
  | some (.error message) => some (.error (some message))
  | some .end_stream => none
  | _ => some (.ok response)

/-- What a stream yields for an item. The error of a closed connection has no message. -/
def Item.yields {Body : Type} : Item Body → Option (Except (Option Body) (Envelope Body))
  | .frame response _ => response.yields
  | .closed => some (.error none)

/-- Where a call of `request_dynamic` is: up to `sending` in the call itself, then in
    the future it returned. `refused` is a future that only has an error to return. -/
inductive RequestPhase where
  | idle
  | inserting
  | sending
  | waiting
  | refused
  | resolved
  | failed
  | dropped
  deriving DecidableEq

structure Request (Body : Type) where
  id : Option Nat
  phase : RequestPhase
  value : Option (Envelope Body × Nat)

/-- Whether the receiving end of a request's channel is there. -/
def RequestPhase.receives : RequestPhase → Bool
  | .inserting | .sending | .waiting | .refused => true
  | _ => false

/-- Where a call of `request_stream_dynamic` is. The stream is `opened` until its future
    was polled, which makes the guard that cleans up after it. -/
inductive StreamPhase where
  | idle
  | inserting
  | sending
  | unregistering
  | refused
  | opened
  | streaming
  | finished
  | cleaning
  | gone
  deriving DecidableEq

/-- A stream's call. `polled` is what it took out of its queue, and `since` counts the
    responses that were looked up before it was registered. -/
structure Stream (Body : Type) where
  id : Option Nat
  phase : StreamPhase
  queue : List (Item Body)
  polled : List (Item Body)
  since : Nat

/-- What the application has seen of a stream. -/
def Stream.yielded {Body : Type} (stream : Stream Body) : List (Except (Option Body) (Envelope Body)) :=
  stream.polled.filterMap Item.yields

/-- Whether the receiving end of a stream's channel is there. -/
def StreamPhase.receives : StreamPhase → Bool
  | .idle | .cleaning | .gone => false
  | _ => true

/-- Where the I/O loop is: it runs, or its end guard takes the stream channels, then
    removes the connection. -/
inductive IoPhase where
  | running
  | taking_streams
  | removing
  | ended
  deriving DecidableEq

/-- Where the handling of an incoming message is. -/
inductive Handler (Body : Type) where
  | idle
  | looking_up_request (incoming : Envelope Body) (responding_to : Nat)
  | looking_up_stream (incoming : Envelope Body) (responding_to : Nat) (response_channel : Option Nat)
  | delivering (incoming : Envelope Body) (responding_to : Nat) (response_channel stream_response_channel : Option Nat)
  | forgetting (responding_to : Nat)
  | awaiting_requester (call barrier : Nat)
  | awaiting_consumer (call barrier : Nat)
  | gone

/-- A connection: its shared channel maps, its queues, its I/O loop, the handling of
    what comes in, and the calls that were made on it. The last fields record what
    happened: what the handler took up, which responses it looked up in both maps,
    what it handed to the application, and which requests resolved. -/
structure ConnectionState (Body : Type) where
  next_message_id : Nat
  response_channels : Option Channels
  stream_response_channels : Option Channels
  connected : Bool
  io : IoPhase
  outgoing : List (Envelope Body)
  incoming : List (Envelope Body)
  handler : Handler Body
  requests : Nat → Request Body
  streams : Nat → Stream Body
  arrived : List (Envelope Body)
  taken : List (Envelope Body)
  looked_up : List (Envelope Body)
  handed : List (Envelope Body)
  resolved : List (Nat × Envelope Body)

namespace ConnectionState

variable {Body : Type}

def new : ConnectionState Body :=
  { next_message_id := 0
    response_channels := some []
    stream_response_channels := some []
    connected := true
    io := .running
    outgoing := []
    incoming := []
    handler := .idle
    requests := fun _ => { id := none, phase := .idle, value := none }
    streams := fun _ => { id := none, phase := .idle, queue := [], polled := [], since := 0 }
    arrived := []
    taken := []
    looked_up := []
    handed := []
    resolved := [] }

def set_request (s : ConnectionState Body) (call : Nat) (request : Request Body) : ConnectionState Body :=
  { s with requests := Function.update s.requests call request }

def set_stream (s : ConnectionState Body) (call : Nat) (stream : Stream Body) : ConnectionState Body :=
  { s with streams := Function.update s.streams call stream }

/-- Whether the sending end of a request's channel is in the map or with the handler. -/
def request_sender (s : ConnectionState Body) (call : Nat) : Bool :=
  (s.response_channels.any fun channels => channels.any (·.2 == call)) ||
    match s.handler with
    | .looking_up_stream _ _ response_channel | .delivering _ _ response_channel _ => response_channel == some call
    | _ => false

/-- Whether a sending end of a stream's channel is in the map or with the handler. -/
def stream_sender (s : ConnectionState Body) (call : Nat) : Bool :=
  (s.stream_response_channels.any fun channels => channels.any (·.2 == call)) ||
    match s.handler with
    | .delivering _ _ _ stream_response_channel => stream_response_channel == some call
    | .awaiting_consumer consumer _ => consumer == call
    | _ => false

/-- The next step of a call of `request_dynamic`. Message ids are 32 bits wide. -/
def request_dynamic (s : ConnectionState Body) (call : Nat) (envelope : Envelope Body) :
    Option (ConnectionState Body) :=
  let request := s.requests call
  match request.phase, request.id with
  | .idle, _ =>
    if s.connected then
      some
        { s.set_request call { request with id := some (s.next_message_id % 2 ^ 32), phase := .inserting } with
          next_message_id := s.next_message_id + 1 }
    else some (s.set_request call { request with phase := .refused })
  | .inserting, some id =>
    match s.response_channels with
    | none => some (s.set_request call { request with phase := .refused })
    | some channels =>
      some
        { s.set_request call { request with phase := .sending } with
          response_channels := some (channels.insert id call) }
  | .sending, some id =>
    if s.io = .ended then some (s.set_request call { request with phase := .refused })
    else
      some
        { s.set_request call { request with phase := .waiting } with
          outgoing := s.outgoing ++ [{ envelope with id := id }] }
  | _, _ => none

/-- The future of a request is polled: it resolves, fails, or goes on waiting. -/
def poll_request (s : ConnectionState Body) (call : Nat) : Option (ConnectionState Body) :=
  let request := s.requests call
  match request.phase with
  | .waiting =>
    match request.value with
    | some (response, _) =>
      some
        { s.set_request call { request with phase := .resolved, value := none } with
          resolved := s.resolved ++ [(call, response)] }
    | none =>
      if s.request_sender call then none
      else some (s.set_request call { request with phase := .failed })
  | .refused => some (s.set_request call { request with phase := .failed, value := none })
  | _ => none

def drop_request (s : ConnectionState Body) (call : Nat) : Option (ConnectionState Body) :=
  let request := s.requests call
  match request.phase with
  | .waiting | .refused => some (s.set_request call { request with phase := .dropped, value := none })
  | _ => none

def remove_stream_channel (s : ConnectionState Body) (id : Option Nat) : ConnectionState Body :=
  match id with
  | none => s
  | some id => { s with stream_response_channels := s.stream_response_channels.map (·.remove id) }

/-- The next step of a call of `request_stream_dynamic`. -/
def request_stream_dynamic (s : ConnectionState Body) (call : Nat) (envelope : Envelope Body) :
    Option (ConnectionState Body) :=
  let stream := s.streams call
  match stream.phase, stream.id with
  | .idle, _ =>
    if s.connected then
      some
        { s.set_stream call { stream with id := some (s.next_message_id % 2 ^ 32), phase := .inserting } with
          next_message_id := s.next_message_id + 1 }
    else some (s.set_stream call { stream with phase := .refused })
  | .inserting, some id =>
    match s.stream_response_channels with
    | none => some (s.set_stream call { stream with phase := .refused })
    | some channels =>
      some
        { s.set_stream call { stream with phase := .sending, since := s.looked_up.length } with
          stream_response_channels := some (channels.insert id call) }
  | .sending, some id =>
    if s.io = .ended then some (s.set_stream call { stream with phase := .unregistering })
    else
      some
        { s.set_stream call { stream with phase := .opened } with
          outgoing := s.outgoing ++ [{ envelope with id := id }] }
  | .unregistering, id => some ((s.remove_stream_channel id).set_stream call { stream with phase := .refused })
  | _, _ => none

/-- The future of a stream, and then the stream, is polled. -/
def poll_stream (s : ConnectionState Body) (call : Nat) : Option (ConnectionState Body) :=
  let stream := s.streams call
  match stream.phase with
  | .refused => some (s.set_stream call { stream with phase := .gone, queue := [] })
  | .opened => some (s.set_stream call { stream with phase := .streaming })
  | .streaming =>
    match stream.queue with
    | [] =>
      if s.stream_sender call then none
      else some (s.set_stream call { stream with phase := .finished })
    | item :: queue =>
      let s' := s.set_stream call { stream with queue := queue, polled := stream.polled ++ [item] }
      match item with
      | .closed => some s'
      | .frame response _ =>
        -- the last frame removes the sending end, to end the stream
        if response.terminal_stream_response then some (s'.remove_stream_channel stream.id) else some s'
  | _ => none

/-- A stream is dropped; the guard of one that was polled then cleans up. -/
def drop_stream (s : ConnectionState Body) (call : Nat) : Option (ConnectionState Body) :=
  let stream := s.streams call
  match stream.phase with
  | .refused | .opened => some (s.set_stream call { stream with phase := .gone, queue := [] })
  | .streaming | .finished => some (s.set_stream call { stream with phase := .cleaning, queue := [] })
  | .cleaning => some ((s.remove_stream_channel stream.id).set_stream call { stream with phase := .gone })
  | _ => none

/-- A message that is not a response goes to the application, if it is of a known type. -/
def hand (s : ConnectionState Body) (incoming : Envelope Body) : ConnectionState Body :=
  if incoming.payload.isSome then { s with handed := s.handed ++ [incoming] } else s

/-- A response goes into the channel of its requester or of its stream's consumer,
    where there is one. -/
def deliver (s : ConnectionState Body) (incoming : Envelope Body) (responding_to : Nat)
    (response_channel stream_response_channel : Option Nat) : ConnectionState Body :=
  let barrier := s.taken.length
  match response_channel, stream_response_channel with
  | some call, _ =>
    let request := s.requests call
    let s' :=
      if request.phase.receives then s.set_request call { request with value := some (incoming, barrier) } else s
    { s' with handler := .awaiting_requester call barrier }
  | none, some call =>
    let stream := s.streams call
    if stream.phase.receives then
      { s.set_stream call { stream with queue := stream.queue ++ [.frame incoming barrier] } with
        handler := .awaiting_consumer call barrier }
    else { s with handler := .forgetting responding_to }
  | none, none => { s with handler := .idle }

/-- The next step of the handling of incoming messages. -/
def handle_incoming (s : ConnectionState Body) : Option (ConnectionState Body) :=
  match s.handler with
  | .idle =>
    match s.incoming with
    | [] => none
    | incoming :: rest =>
      let s' := { s with incoming := rest, taken := s.taken ++ [incoming] }
      match incoming.responding_to with
      | none => some (s'.hand incoming)
      | some responding_to => some { s' with handler := .looking_up_request incoming responding_to }
  | .looking_up_request incoming responding_to =>
    match s.response_channels with
    | none => some { s with handler := .idle }
    | some channels =>
      some
        { s with
          response_channels := some (channels.remove responding_to)
          handler := .looking_up_stream incoming responding_to (channels.get responding_to) }
  | .looking_up_stream incoming responding_to response_channel =>
    match s.stream_response_channels with
    | none => some { s with handler := .idle }
    | some channels =>
      some
        { s with
          stream_response_channels :=
            some (if incoming.terminal_stream_response then channels.remove responding_to else channels)
          handler := .delivering incoming responding_to response_channel (channels.get responding_to)
          looked_up := s.looked_up ++ [incoming] }
  | .delivering incoming responding_to response_channel stream_response_channel =>
    some (s.deliver incoming responding_to response_channel stream_response_channel)
  | .forgetting responding_to => some { s.remove_stream_channel (some responding_to) with handler := .idle }
  | .awaiting_requester call barrier =>
    if (s.requests call).value.any (·.2 == barrier) then none else some { s with handler := .idle }
  | .awaiting_consumer call barrier =>
    let waits := (s.streams call).queue.any fun item => match item with
      | .frame _ other => other == barrier
      | .closed => false
    if waits then none else some { s with handler := .idle }
  | .gone => none

/-- The application drops its stream of incoming messages, between two polls of it. -/
def drop_incoming (s : ConnectionState Body) : Option (ConnectionState Body) :=
  match s.handler with
  | .idle | .awaiting_requester _ _ | .awaiting_consumer _ _ => some { s with handler := .gone, incoming := [] }
  | _ => none

/-- The next step of the end of the I/O loop, which may begin at any time. -/
def end_connection (s : ConnectionState Body) : Option (ConnectionState Body) :=
  match s.io with
  | .running => some { s with io := .taking_streams, response_channels := none }
  | .taking_streams =>
    let channels := s.stream_response_channels.getD []
    some
      { s with
        io := .removing
        stream_response_channels := none
        streams := fun call =>
          let stream := s.streams call
          if channels.any (·.2 == call) && stream.phase.receives then
            { stream with queue := stream.queue ++ [.closed] }
          else stream }
  | .removing => some { s with io := .ended, connected := false }
  | .ended => none

inductive Action (Body : Type) where
  | read (incoming : Envelope Body)
  | write
  | end_connection
  | disconnect
  | send (envelope : Envelope Body)
  | request_dynamic (call : Nat) (envelope : Envelope Body)
  | poll_request (call : Nat)
  | drop_request (call : Nat)
  | request_stream_dynamic (call : Nat) (envelope : Envelope Body)
  | poll_stream (call : Nat)
  | drop_stream (call : Nat)
  | handle_incoming
  | drop_incoming

def gone : Handler Body → Bool
  | .gone => true
  | _ => false

/-- The steps of a connection whose incoming queue has room for `capacity` messages. -/
def step (capacity : Nat) (s : ConnectionState Body) : Action Body → Option (ConnectionState Body)
  | .read incoming =>
    if s.io = .running ∧ s.incoming.length < capacity ∧ gone s.handler = false then
      some { s with incoming := s.incoming ++ [incoming], arrived := s.arrived ++ [incoming] }
    else none
  | .write =>
    match s.outgoing with
    | [] => none
    | _ :: rest => if s.io = .running then some { s with outgoing := rest } else none
  | .end_connection => s.end_connection
  | .disconnect => some { s with connected := false }
  | .send envelope =>
    if s.connected then
      let outgoing :=
        if s.io = .ended then s.outgoing
        else s.outgoing ++ [{ envelope with id := s.next_message_id % 2 ^ 32 }]
      some { s with next_message_id := s.next_message_id + 1, outgoing := outgoing }
    else none
  | .request_dynamic call envelope => s.request_dynamic call envelope
  | .poll_request call => s.poll_request call
  | .drop_request call => s.drop_request call
  | .request_stream_dynamic call envelope => s.request_stream_dynamic call envelope
  | .poll_stream call => s.poll_stream call
  | .drop_stream call => s.drop_stream call
  | .handle_incoming => s.handle_incoming
  | .drop_incoming => s.drop_incoming

end ConnectionState

end zed.rpc
