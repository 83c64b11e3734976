import Zed.Rpc.Peer.Requests

namespace zed.rpc

variable {Body : Type}

/-- No two streams have one id, and no stream has a request's. -/
structure IdsOk (next : Nat) (requests : Nat → Request Body) (streams : Nat → Stream Body) : Prop where
  requests_lt : ∀ call id, (requests call).id = some id → id < next
  streams_lt : ∀ call id, (streams call).id = some id → id < next
  streams_inj : ∀ call call' id, (streams call).id = some id → (streams call').id = some id → call = call'
  apart : ∀ call call' id, (requests call).id = some id → (streams call').id ≠ some id

namespace IdsOk

variable {next next' : Nat} {requests requests' : Nat → Request Body} {streams streams' : Nat → Stream Body}

theorem same (hok : IdsOk next requests streams) (hle : next ≤ next')
    (hrequests : ∀ call, (requests' call).id = (requests call).id)
    (hstreams : ∀ call, (streams' call).id = (streams call).id) : IdsOk next' requests' streams' := by
  refine ⟨?_, ?_, ?_, ?_⟩
  · intro call id h
    exact Nat.lt_of_lt_of_le (hok.requests_lt call id (hrequests call ▸ h)) hle
  · intro call id h
    exact Nat.lt_of_lt_of_le (hok.streams_lt call id (hstreams call ▸ h)) hle
  · intro call call' id h h'
    exact hok.streams_inj call call' id (hstreams call ▸ h) (hstreams call' ▸ h')
  · intro call call' id h h'
    exact hok.apart call call' id (hrequests call ▸ h) (hstreams call' ▸ h')

theorem identify_request (hok : IdsOk next requests streams) (call : Nat) (request : Request Body)
    (hid : request.id = some next) : IdsOk (next + 1) (Function.update requests call request) streams := by
  have hcases : ∀ other id, (Function.update requests call request other).id = some id →
      id = next ∨ (requests other).id = some id := by
    intro other id h
    by_cases hother : other = call
    · subst hother
      rw [Function.update_self, hid] at h
      exact .inl (Option.some.inj h).symm
    · exact .inr (by rwa [Function.update_of_ne hother] at h)
  refine ⟨?_, ?_, hok.streams_inj, ?_⟩
  · intro other id h
    obtain rfl | h := hcases other id h
    · exact Nat.lt_succ_self _
    · exact Nat.lt_succ_of_lt (hok.requests_lt other id h)
  · intro other id h
    exact Nat.lt_succ_of_lt (hok.streams_lt other id h)
  · intro other other' id h h'
    obtain rfl | h := hcases other id h
    · exact Nat.lt_irrefl _ (hok.streams_lt other' id h')
    · exact hok.apart other other' id h h'

theorem identify_stream (hok : IdsOk next requests streams) (call : Nat) (stream : Stream Body)
    (hid : stream.id = some next) : IdsOk (next + 1) requests (Function.update streams call stream) := by
  have hcases : ∀ other id, (Function.update streams call stream other).id = some id →
      (other = call ∧ id = next) ∨ (streams other).id = some id := by
    intro other id h
    by_cases hother : other = call
    · subst hother
      rw [Function.update_self, hid] at h
      exact .inl ⟨rfl, (Option.some.inj h).symm⟩
    · exact .inr (by rwa [Function.update_of_ne hother] at h)
  refine ⟨?_, ?_, ?_, ?_⟩
  · intro other id h
    exact Nat.lt_succ_of_lt (hok.requests_lt other id h)
  · intro other id h
    obtain ⟨-, rfl⟩ | h := hcases other id h
    · exact Nat.lt_succ_self _
    · exact Nat.lt_succ_of_lt (hok.streams_lt other id h)
  · intro other other' id h h'
    obtain ⟨hother, hid⟩ | h := hcases other id h <;> obtain ⟨hother', hid'⟩ | h' := hcases other' id h'
    · rw [hother, hother']
    · exact absurd (hok.streams_lt other' id h') (by simp [hid])
    · exact absurd (hok.streams_lt other id h) (by simp [hid'])
    · exact hok.streams_inj other other' id h h'
  · intro other other' id h h'
    obtain ⟨-, rfl⟩ | h' := hcases other' id h'
    · exact Nat.lt_irrefl _ (hok.requests_lt other id h)
    · exact hok.apart other other' id h h'

end IdsOk

theorem request_id_update {requests : Nat → Request Body} {call : Nat} {request : Request Body}
    (hid : request.id = (requests call).id) (other : Nat) :
    (Function.update requests call request other).id = (requests other).id := by
  by_cases hother : other = call
  · subst hother
    rw [Function.update_self, hid]
  · rw [Function.update_of_ne hother]

theorem stream_id_update {streams : Nat → Stream Body} {call : Nat} {stream : Stream Body}
    (hid : stream.id = (streams call).id) (other : Nat) :
    (Function.update streams call stream other).id = (streams other).id := by
  by_cases hother : other = call
  · subst hother
    rw [Function.update_self, hid]
  · rw [Function.update_of_ne hother]

namespace ConnectionState

@[simp] theorem told_id (s : ConnectionState Body) (call : Nat) : (s.told call).id = (s.streams call).id := by
  unfold told
  split <;> rfl

abbrev IdsHold (s : ConnectionState Body) : Prop :=
  IdsOk s.next_message_id s.requests s.streams

@[simp] theorem remove_stream_channel_next_message_id (s : ConnectionState Body) (id : Option Nat) :
    (s.remove_stream_channel id).next_message_id = s.next_message_id := by
  cases id <;> rfl

@[simp] theorem remove_stream_channel_streams (s : ConnectionState Body) (id : Option Nat) :
    (s.remove_stream_channel id).streams = s.streams := by
  cases id <;> rfl

theorem IdsHold.moves {s t : ConnectionState Body} (hok : s.IdsHold) (hnext : s.next_message_id < 2 ^ 32)
    (hmoves : Moves s t) : t.IdsHold := by
  have hrequest : ∀ call (request : Request Body), request.id = (s.requests call).id →
      IdsOk s.next_message_id (Function.update s.requests call request) s.streams :=
    fun call request hid => hok.same (Nat.le_refl _) (request_id_update hid) fun _ => rfl
  have hstream : ∀ call (stream : Stream Body), stream.id = (s.streams call).id →
      IdsOk s.next_message_id s.requests (Function.update s.streams call stream) :=
    fun call stream hid => hok.same (Nat.le_refl _) (fun _ => rfl) (stream_id_update hid)
  cases hmoves with
  | identify_request call _ => exact hok.identify_request call _ (congrArg some (Nat.mod_eq_of_lt hnext))
  | identify_stream call _ => exact hok.identify_stream call _ (congrArg some (Nat.mod_eq_of_lt hnext))
  | send => exact hok.same (Nat.le_succ _) (fun _ => rfl) fun _ => rfl
  | close_streams => exact hok.same (Nat.le_refl _) (fun _ => rfl) s.told_id
  | hand_on =>
    rw [hand_eq]
    exact hok
  | refuse_request | insert_request | send_request | resolve | fail | let_go | answer => exact hrequest _ _ rfl
  | refuse_stream | insert_stream | send_stream | unsend_stream | start => exact hstream _ _ rfl
  | poll_closed | poll_frame | finish | drop_stream | feed => exact hstream _ _ rfl
  | unregister call | clean_up call | poll_terminal call =>
    simp only [IdsHold, set_stream, remove_stream_channel_next_message_id, remove_stream_channel_requests,
      remove_stream_channel_streams]
    exact hstream call _ rfl
  | _ => exact hok

end ConnectionState

end zed.rpc

namespace zed.rpc

variable {Body : Type}

def Item.envelope : Item Body → Option (Envelope Body)
  | .frame response _ => some response
  | .closed => none

def frames (items : List (Item Body)) : List (Envelope Body) :=
  items.filterMap Item.envelope

@[simp] theorem frames_append (items items' : List (Item Body)) :
    frames (items ++ items') = frames items ++ frames items' :=
  List.filterMap_append

@[simp] theorem frames_frame (response : Envelope Body) (barrier : Nat) :
    frames [.frame response barrier] = [response] := rfl

@[simp] theorem frames_closed : frames ([.closed] : List (Item Body)) = [] := rfl

/-- A stream of responses up to its first terminal frame, which is kept. -/
def up_to_terminal : List (Envelope Body) → List (Envelope Body)
  | [] => []
  | response :: rest => if response.terminal_stream_response then [response] else response :: up_to_terminal rest

def Ends (responses : List (Envelope Body)) : Prop :=
  ∃ response ∈ responses, response.terminal_stream_response = true

theorem up_to_terminal_append (responses more : List (Envelope Body)) :
    up_to_terminal (responses ++ more) =
      up_to_terminal responses ++ if responses.any (·.terminal_stream_response) then [] else up_to_terminal more := by
  induction responses with
  | nil => simp [up_to_terminal]
  | cons response rest ih =>
    cases hresponse : response.terminal_stream_response with
    | true => simp [up_to_terminal, hresponse]
    | false => simp [up_to_terminal, hresponse, ih]

theorem up_to_terminal_of_ends {responses : List (Envelope Body)} (hends : Ends responses)
    (more : List (Envelope Body)) : up_to_terminal (responses ++ more) = up_to_terminal responses := by
  have hany : responses.any (·.terminal_stream_response) = true := List.any_eq_true.mpr hends
  simp [up_to_terminal_append, hany]

theorem up_to_terminal_snoc {responses : List (Envelope Body)} (hends : ¬ Ends responses)
    (response : Envelope Body) : up_to_terminal (responses ++ [response]) = up_to_terminal responses ++ [response] := by
  have hany : responses.any (·.terminal_stream_response) = false := by
    rw [← Bool.not_eq_true]
    exact fun h => hends (List.any_eq_true.mp h)
  cases hresponse : response.terminal_stream_response <;>
    simp [up_to_terminal_append, hany, up_to_terminal, hresponse]

theorem up_to_terminal_mono {responses more : List (Envelope Body)} (hinitial : responses <+: more) :
    up_to_terminal responses <+: up_to_terminal more := by
  obtain ⟨rest, rfl⟩ := hinitial
  rw [up_to_terminal_append]
  exact List.prefix_append ..

theorem mem_of_mem_up_to_terminal {responses : List (Envelope Body)} {response : Envelope Body}
    (hmem : response ∈ up_to_terminal responses) : response ∈ responses := by
  induction responses with
  | nil => exact hmem
  | cons first rest ih =>
    cases hfirst : first.terminal_stream_response with
    | true =>
      obtain rfl : response = first := by simpa [up_to_terminal, hfirst] using hmem
      exact List.mem_cons_self ..
    | false =>
      simp only [up_to_terminal, hfirst, Bool.false_eq_true, if_false, List.mem_cons] at hmem
      exact List.mem_cons.mpr (hmem.imp_right ih)

/-- The responses with a stream's id, of those that came after it was registered. -/
def Stream.addressed (stream : Stream Body) (responses : List (Envelope Body)) : List (Envelope Body) :=
  (responses.drop stream.since).filter (·.responding_to == stream.id)

theorem Stream.addressed_snoc {stream : Stream Body} {responses : List (Envelope Body)}
    (hsince : stream.since ≤ responses.length) (response : Envelope Body) :
    stream.addressed (responses ++ [response]) =
      stream.addressed responses ++ if response.responding_to = stream.id then [response] else [] := by
  by_cases hid : response.responding_to = stream.id <;>
    simp [addressed, List.drop_append_of_le_length hsince, List.filter_append, hid]

theorem Stream.addressed_mono (stream : Stream Body) {responses more : List (Envelope Body)}
    (hinitial : responses <+: more) : stream.addressed responses <+: stream.addressed more := by
  obtain ⟨rest, rfl⟩ := hinitial
  rw [addressed, addressed, List.drop_append]
  exact (List.prefix_append ..).filter _

/-- Whether a stream is registered, and its receiving end there. -/
def StreamPhase.Live (phase : StreamPhase) : Prop :=
  phase = .sending ∨ phase = .opened ∨ phase = .streaming ∨ phase = .finished

def StreamPhase.Registered (phase : StreamPhase) : Prop :=
  phase ≠ .idle ∧ phase ≠ .inserting

theorem StreamPhase.Live.registered {phase : StreamPhase} (hlive : phase.Live) : phase.Registered := by
  rcases hlive with rfl | rfl | rfl | rfl <;> exact ⟨by simp, by simp⟩

theorem StreamPhase.Live.receives {phase : StreamPhase} (hlive : phase.Live) : phase.receives = true := by
  rcases hlive with rfl | rfl | rfl | rfl <;> rfl

/-- The stream whose channel the response being handled goes into, and its id. -/
def Handler.consumer : Handler Body → Option (Envelope Body × Nat × Nat)
  | .delivering incoming id none (some call) => some (incoming, id, call)
  | _ => none

/-- What is on its way into a stream's channel. -/
def Handler.pending (handler : Handler Body) (call : Nat) : List (Envelope Body) :=
  match handler.consumer with
  | some (incoming, _, consumer) => if consumer = call then [incoming] else []
  | none => []

@[simp] theorem Handler.pending_of_consumer {handler : Handler Body} (hconsumer : handler.consumer = none)
    (call : Nat) : handler.pending call = [] := by
  simp [pending, hconsumer]

@[simp] theorem Handler.pending_delivering (incoming : Envelope Body) (id consumer call : Nat) :
    (Handler.delivering incoming id none (some consumer)).pending call =
      if consumer = call then [incoming] else [] := rfl

/-- Whether a stream's channel is in the map until a terminal frame came, or until the
    connection was closed, of which it was told. -/
def Linked (channels : Option Channels) (looked_up : List (Envelope Body)) (call : Nat) (stream : Stream Body) : Prop :=
  ((∃ id, Holds channels id call) ∧ ¬ Ends (stream.addressed looked_up)) ∨
    ((∀ id, ¬ Holds channels id call) ∧ Ends (stream.addressed looked_up)) ∨
    (channels = none ∧ .closed ∈ stream.polled ++ stream.queue)

/-- What a live stream got, and is about to get, is what was addressed to it, up to the
    first terminal frame. -/
structure Follows (channels : Option Channels) (handler : Handler Body) (looked_up : List (Envelope Body))
    (call : Nat) (stream : Stream Body) : Prop where
  since_le : stream.since ≤ looked_up.length
  frames_eq : frames (stream.polled ++ stream.queue) ++ handler.pending call =
    up_to_terminal (stream.addressed looked_up)
  linked : Linked channels looked_up call stream

/-- What holds of a stream at any time. -/
structure StreamOk (channels : Option Channels) (handler : Handler Body) (looked_up : List (Envelope Body))
    (call : Nat) (stream : Stream Body) : Prop where
  in_map : ∀ id, Holds channels id call → stream.id = some id ∧ stream.phase.Registered
  fed : ∀ incoming id, handler.consumer = some (incoming, id, call) →
    stream.id = some id ∧ stream.phase.Registered
  unstarted : ¬ stream.phase.Registered → stream.polled = [] ∧ stream.queue = []
  queued : ∀ response barrier, .frame response barrier ∈ stream.queue →
    handler = .awaiting_consumer call barrier ∨ handler = .gone
  got : frames stream.polled <+: up_to_terminal (stream.addressed looked_up)
  follows : stream.phase.Live → Follows channels handler looked_up call stream

namespace StreamOk

variable {channels : Option Channels} {handler handler' : Handler Body} {looked_up : List (Envelope Body)}
  {call : Nat} {stream stream' : Stream Body}

/-- A live stream goes on, and may take items out of its queue. -/
theorem advance (hok : StreamOk channels handler looked_up call stream) (hlive : stream.phase.Live)
    (hlive' : stream'.phase.Live) (hid : stream'.id = stream.id) (hsince : stream'.since = stream.since)
    (hitems : stream'.polled ++ stream'.queue = stream.polled ++ stream.queue)
    (hqueue : stream'.queue ⊆ stream.queue) : StreamOk channels handler looked_up call stream' := by
  have hfollows := hok.follows hlive
  have haddressed : ∀ responses, stream'.addressed responses = stream.addressed responses := by
    simp [Stream.addressed, hid, hsince]
  have hframes : frames (stream'.polled ++ stream'.queue) ++ handler.pending call =
      up_to_terminal (stream'.addressed looked_up) := by
    rw [hitems, haddressed]
    exact hfollows.frames_eq
  refine ⟨?_, ?_, ?_, fun response barrier h => hok.queued response barrier (hqueue h), ?_, fun _ => ⟨?_, hframes, ?_⟩⟩
  · intro id hholds
    exact ⟨hid.trans (hok.in_map id hholds).1, hlive'.registered⟩
  · intro incoming id hconsumer
    exact ⟨hid.trans (hok.fed incoming id hconsumer).1, hlive'.registered⟩
  · intro hnot
    exact absurd hlive'.registered hnot
  · rw [← hframes, frames_append, List.append_assoc]
    exact List.prefix_append ..
  · rw [hsince]
    exact hfollows.since_le
  · unfold Linked
    rw [hitems, haddressed]
    exact hfollows.linked

theorem retire (hok : StreamOk channels handler looked_up call stream) (hlive : ¬ stream'.phase.Live)
    (hregistered : stream'.phase.Registered) (hid : stream'.id = stream.id) (hsince : stream'.since = stream.since)
    (hpolled : stream'.polled = stream.polled) (hqueue : stream'.queue ⊆ stream.queue) :
    StreamOk channels handler looked_up call stream' := by
  refine ⟨?_, ?_, ?_, fun response barrier h => hok.queued response barrier (hqueue h), ?_, ?_⟩
  · intro id hholds
    exact ⟨hid.trans (hok.in_map id hholds).1, hregistered⟩
  · intro incoming id hconsumer
    exact ⟨hid.trans (hok.fed incoming id hconsumer).1, hregistered⟩
  · intro hnot
    exact absurd hregistered hnot
  · simpa [Stream.addressed, hid, hsince, hpolled] using hok.got
  · intro h
    exact absurd h hlive

theorem of_unregistered (hok : StreamOk channels handler looked_up call stream)
    (hphase : ¬ stream.phase.Registered) (hlive : ¬ stream'.phase.Live) (hpolled : stream'.polled = stream.polled)
    (hqueue : stream'.queue = stream.queue) : StreamOk channels handler looked_up call stream' := by
  obtain ⟨hpolled', hqueue'⟩ := hok.unstarted hphase
  refine ⟨?_, ?_, ?_, ?_, ?_, ?_⟩
  · intro id hholds
    exact absurd (hok.in_map id hholds).2 hphase
  · intro incoming id hconsumer
    exact absurd (hok.fed incoming id hconsumer).2 hphase
  · intro _
    exact ⟨hpolled.trans hpolled', hqueue.trans hqueue'⟩
  · intro response barrier h
    simp [hqueue, hqueue'] at h
  · rw [hpolled, hpolled']
    exact List.nil_prefix
  · intro h
    exact absurd h hlive

theorem register {entries : Channels} {id : Nat} (hok : StreamOk (some entries) handler looked_up call stream)
    (hphase : ¬ stream.phase.Registered) (hid : stream'.id = some id) (hlive : stream'.phase.Live)
    (hsince : stream'.since = looked_up.length) (hpolled : stream'.polled = stream.polled)
    (hqueue : stream'.queue = stream.queue) :
    StreamOk (some (entries.insert id call)) handler looked_up call stream' := by
  obtain ⟨hpolled', hqueue'⟩ := hok.unstarted hphase
  have haddressed : stream'.addressed looked_up = [] := by simp [Stream.addressed, hsince]
  have hpending : handler.pending call = [] := by
    unfold Handler.pending
    split
    · next incoming id' consumer hconsumer =>
      refine if_neg ?_
      rintro rfl
      exact hphase (hok.fed incoming id' hconsumer).2
    · rfl
  refine ⟨?_, ?_, ?_, ?_, ?_, fun _ => ⟨Nat.le_of_eq hsince, ?_, .inl ⟨⟨id, by simp⟩, ?_⟩⟩⟩
  · intro id' hholds
    rw [holds_some, Channels.mem_insert] at hholds
    obtain ⟨rfl, -⟩ | ⟨hmem, -⟩ := hholds
    · exact ⟨hid, hlive.registered⟩
    · exact absurd (hok.in_map id' (holds_some.mpr hmem)).2 hphase
  · intro incoming id' hconsumer
    exact absurd (hok.fed incoming id' hconsumer).2 hphase
  · intro hnot
    exact absurd hlive.registered hnot
  · intro response barrier h
    simp [hqueue, hqueue'] at h
  · rw [hpolled, hpolled']
    exact List.nil_prefix
  · rw [hpolled, hqueue, hpolled', hqueue', hpending, haddressed]
    rfl
  · simp [haddressed, Ends]

theorem remap {channels' : Option Channels} (hok : StreamOk channels handler looked_up call stream)
    (hholds : ∀ id, Holds channels' id call → Holds channels id call)
    (hkept : stream.phase.Live → (∃ id, Holds channels id call) → ∃ id, Holds channels' id call)
    (hnone : channels = none → channels' = none) : StreamOk channels' handler looked_up call stream := by
  refine ⟨fun id h => hok.in_map id (hholds id h), hok.fed, hok.unstarted, hok.queued, hok.got, fun hlive => ?_⟩
  have hfollows := hok.follows hlive
  refine ⟨hfollows.since_le, hfollows.frames_eq, ?_⟩
  obtain ⟨hin, hends⟩ | ⟨hout, hends⟩ | ⟨hclosed, htold⟩ := hfollows.linked
  · exact .inl ⟨hkept hlive hin, hends⟩
  · exact .inr (.inl ⟨fun id h => hout id (hholds id h), hends⟩)
  · exact .inr (.inr ⟨hnone hclosed, htold⟩)

/-- The handler goes on, with nothing on its way into this stream's channel. -/
theorem rehandle (hok : StreamOk channels handler looked_up call stream)
    (hpending : stream.phase.Live → handler'.pending call = handler.pending call)
    (hconsumer : ∀ incoming id, handler'.consumer ≠ some (incoming, id, call))
    (hqueued : ∀ response barrier, .frame response barrier ∈ stream.queue →
      handler' = .awaiting_consumer call barrier ∨ handler' = .gone) :
    StreamOk channels handler' looked_up call stream := by
  refine ⟨hok.in_map, ?_, hok.unstarted, hqueued, hok.got, fun hlive => ?_⟩
  · intro incoming id h
    exact absurd h (hconsumer incoming id)
  · have hfollows := hok.follows hlive
    refine ⟨hfollows.since_le, ?_, hfollows.linked⟩
    rw [hpending hlive]
    exact hfollows.frames_eq

theorem close (hok : StreamOk channels handler looked_up call stream)
    (htold : ((∃ id, Holds channels id call) ∧ stream' = { stream with queue := stream.queue ++ [.closed] }) ∨
      stream' = stream ∧ (stream.phase.Live → ∀ id, ¬ Holds channels id call)) :
    StreamOk none handler looked_up call stream' := by
  obtain ⟨⟨id, hin⟩, rfl⟩ | ⟨rfl, hout⟩ := htold
  · refine ⟨fun id h => absurd h holds_none, hok.fed, ?_, ?_, hok.got, fun hlive => ?_⟩
    · intro hnot
      exact absurd (hok.in_map id hin).2 hnot
    · intro response barrier h
      exact hok.queued response barrier (by simpa using h)
    · have hfollows := hok.follows hlive
      refine ⟨hfollows.since_le, ?_, .inr (.inr ⟨rfl, by simp⟩)⟩
      have hframes := hfollows.frames_eq
      simpa [Stream.addressed] using hframes
  · refine ⟨fun id h => absurd h holds_none, hok.fed, hok.unstarted, hok.queued, hok.got, fun hlive => ?_⟩
    have hfollows := hok.follows hlive
    refine ⟨hfollows.since_le, hfollows.frames_eq, ?_⟩
    obtain ⟨⟨id, hin⟩, -⟩ | ⟨-, hends⟩ | ⟨-, hclosed⟩ := hfollows.linked
    · exact absurd hin (hout hlive id)
    · exact .inr (.inl ⟨fun id => holds_none, hends⟩)
    · exact .inr (.inr ⟨rfl, hclosed⟩)

theorem not_holds_of_terminal {response : Envelope Body}
    (hok : StreamOk channels handler looked_up call stream) (hlive : stream.phase.Live)
    (hmem : response ∈ frames (stream.polled ++ stream.queue)) (hterminal : response.terminal_stream_response = true)
    (id : Nat) : ¬ Holds channels id call := by
  have hfollows := hok.follows hlive
  have haddressed : response ∈ stream.addressed looked_up := by
    apply mem_of_mem_up_to_terminal
    rw [← hfollows.frames_eq]
    exact List.mem_append_left _ hmem
  obtain ⟨-, hends⟩ | ⟨hout, -⟩ | ⟨hclosed, -⟩ := hfollows.linked
  · exact absurd ⟨response, haddressed, hterminal⟩ hends
  · exact hout id
  · rw [hclosed]
    exact holds_none

/-- While a message is handled, up to its delivery, no frame waits in a channel. -/
theorem not_queued (hok : StreamOk channels handler looked_up call stream)
    (hwaiting : ∀ barrier, handler ≠ .awaiting_consumer call barrier) (hgone : handler ≠ .gone)
    (response : Envelope Body) (barrier : Nat) : .frame response barrier ∉ stream.queue := by
  intro hmem
  exact (hok.queued response barrier hmem).elim (hwaiting barrier) hgone

end StreamOk

/-- What holds of a connection's streams. A stream the handler found gone stays so. -/
structure StreamsOk (channels : Option Channels) (handler : Handler Body) (looked_up : List (Envelope Body))
    (streams : Nat → Stream Body) : Prop where
  each : ∀ call, StreamOk channels handler looked_up call (streams call)
  forgotten : ∀ id, handler = .forgetting id → ∃ call, (streams call).id = some id ∧
    ((streams call).phase = .cleaning ∨ (streams call).phase = .gone)

namespace StreamsOk

variable {channels : Option Channels} {handler handler' : Handler Body} {looked_up : List (Envelope Body)}
  {streams : Nat → Stream Body}

theorem update (hok : StreamsOk channels handler looked_up streams) (call : Nat) (stream : Stream Body)
    (hstream : StreamOk channels handler looked_up call stream)
    (hdone : (streams call).phase = .cleaning ∨ (streams call).phase = .gone →
      stream.id = (streams call).id ∧ (stream.phase = .cleaning ∨ stream.phase = .gone)) :
    StreamsOk channels handler looked_up (Function.update streams call stream) := by
  refine ⟨?_, ?_⟩
  · intro other
    by_cases hother : other = call
    · subst hother
      rwa [Function.update_self]
    · rw [Function.update_of_ne hother]
      exact hok.each other
  · intro id hhandler
    obtain ⟨other, hid, hphase⟩ := hok.forgotten id hhandler
    refine ⟨other, ?_⟩
    by_cases hother : other = call
    · subst hother
      rw [Function.update_self]
      exact ⟨(hdone hphase).1.trans hid, (hdone hphase).2⟩
    · rw [Function.update_of_ne hother]
      exact ⟨hid, hphase⟩

theorem remove (hok : StreamsOk channels handler looked_up streams) (id : Nat)
    (hdone : ∀ call, (streams call).phase.Live → (streams call).id = some id → ¬ Holds channels id call) :
    StreamsOk (channels.map (·.remove id)) handler looked_up streams := by
  refine ⟨fun call => (hok.each call).remap ?_ ?_ ?_, hok.forgotten⟩
  · intro id' h
    exact (holds_of_map_remove.mp h).1
  · intro hlive ⟨id', hin⟩
    refine ⟨id', holds_of_map_remove.mpr ⟨hin, ?_⟩⟩
    rintro rfl
    exact hdone call hlive ((hok.each call).in_map id' hin).1 hin
  · rintro rfl
    rfl

theorem insert {entries : Channels} {call id : Nat} (hok : StreamsOk (some entries) handler looked_up streams)
    (hinj : ∀ other, (streams other).id = some id → other = call) :
    ∀ other, other ≠ call → StreamOk (some (entries.insert id call)) handler looked_up other (streams other) := by
  intro other hother
  refine (hok.each other).remap ?_ ?_ (by simp)
  · intro id' h
    rw [holds_some, Channels.mem_insert] at h
    obtain ⟨-, rfl⟩ | ⟨hmem, -⟩ := h
    · exact absurd rfl hother
    · exact holds_some.mpr hmem
  · intro _ ⟨id', hin⟩
    refine ⟨id', holds_some.mpr (Channels.mem_insert.mpr (.inr ⟨holds_some.mp hin, ?_⟩))⟩
    rintro rfl
    exact hother (hinj other ((hok.each other).in_map id' hin).1)

/-- The handler goes on, with nothing on its way into a channel. -/
theorem rehandle (hok : StreamsOk channels handler looked_up streams) (hconsumer : handler.consumer = none)
    (hconsumer' : handler'.consumer = none) (hforgets : ∀ id, handler' ≠ .forgetting id)
    (hqueued : ∀ call response barrier, .frame response barrier ∈ (streams call).queue →
      handler' = .awaiting_consumer call barrier ∨ handler' = .gone) :
    StreamsOk channels handler' looked_up streams := by
  refine ⟨fun call => (hok.each call).rehandle ?_ (by simp [hconsumer']) (hqueued call), ?_⟩
  · intro _
    rw [Handler.pending_of_consumer hconsumer, Handler.pending_of_consumer hconsumer']
  · intro id h
    exact absurd h (hforgets id)

/-- The handler goes on from where no frame waits in a channel. -/
theorem go_on (hok : StreamsOk channels handler looked_up streams)
    (hwaiting : ∀ call barrier, handler ≠ .awaiting_consumer call barrier) (hgone : handler ≠ .gone)
    (hconsumer : handler.consumer = none) (hconsumer' : handler'.consumer = none)
    (hforgets : ∀ id, handler' ≠ .forgetting id) : StreamsOk channels handler' looked_up streams := by
  refine hok.rehandle hconsumer hconsumer' hforgets ?_
  intro call response barrier hmem
  exact absurd hmem ((hok.each call).not_queued (hwaiting call) hgone response barrier)

theorem pending_of_get {incoming : Envelope Body} {id call : Nat} {channel found : Option Nat}
    (hget : found ≠ some call) : (Handler.delivering incoming id channel found).pending call = [] := by
  cases channel with
  | some _ => rfl
  | none =>
    cases found with
    | none => rfl
    | some other =>
      rw [Handler.pending_delivering, if_neg]
      rintro rfl
      exact hget rfl

theorem look_up {entries : Channels} {incoming : Envelope Body} {id : Nat} {channel : Option Nat}
    (hok : StreamsOk (some entries) (.looking_up_stream incoming id channel) looked_up streams)
    (hinj : ∀ call call', (streams call).id = some id → (streams call').id = some id → call = call')
    (hresponse : incoming.responding_to = some id)
    (hapart : channel = none ∨ ∀ call, (streams call).id ≠ some id) :
    StreamsOk (some (if incoming.terminal_stream_response then entries.remove id else entries))
      (.delivering incoming id channel (entries.get id)) (looked_up ++ [incoming]) streams := by
  refine ⟨fun call => ?_, by simp⟩
  obtain ⟨hmap, -, hunstarted, -, hgot, hfollows⟩ := hok.each call
  have hsub : ∀ id', Holds (some (if incoming.terminal_stream_response then entries.remove id else entries)) id' call →
      Holds (some entries) id' call := by
    intro id' h
    split at h
    · exact holds_some.mpr (Channels.mem_remove.mp (holds_some.mp h)).1
    · exact h
  refine ⟨fun id' h => hmap id' (hsub id' h), ?_, hunstarted, ?_, ?_, fun hlive => ?_⟩
  · intro response id' hconsumer
    cases channel with
    | some _ => simp [Handler.consumer] at hconsumer
    | none =>
      cases hget : entries.get id with
      | none => simp [hget, Handler.consumer] at hconsumer
      | some found =>
        obtain ⟨-, rfl, rfl⟩ : incoming = response ∧ id = id' ∧ found = call := by
          simpa [hget, Handler.consumer] using hconsumer
        exact hmap id (holds_some.mpr (Channels.mem_of_get hget))
  · intro response barrier h
    exact absurd h ((hok.each call).not_queued (by simp) (by simp) response barrier)
  · exact hgot.trans (up_to_terminal_mono ((streams call).addressed_mono (List.prefix_append ..)))
  · have hold := hfollows hlive
    have hframes := hold.frames_eq
    rw [Handler.pending_of_consumer rfl, List.append_nil] at hframes
    have haddressed := Stream.addressed_snoc hold.since_le incoming
    rw [hresponse] at haddressed
    have hlength : (streams call).since ≤ (looked_up ++ [incoming]).length := by
      rw [List.length_append]
      exact Nat.le_add_right_of_le hold.since_le
    by_cases hid : (streams call).id = some id
    · rw [hid, if_pos rfl] at haddressed
      obtain ⟨⟨id', hin⟩, hends⟩ | ⟨hout, hends⟩ | ⟨hclosed, -⟩ := hold.linked
      · obtain rfl : id' = id := Option.some.inj ((hmap id' hin).1.symm.trans hid)
        have hget : entries.get id' = some call := by
          cases hget : entries.get id' with
          | none => exact absurd (holds_some.mp hin) (Channels.not_mem_of_get hget)
          | some found =>
            have hfound := (hok.each found).in_map id' (holds_some.mpr (Channels.mem_of_get hget))
            rw [hinj found call hfound.1 hid]
        obtain rfl : channel = none := hapart.resolve_right fun h => h call hid
        refine ⟨hlength, ?_, ?_⟩
        · rw [haddressed, up_to_terminal_snoc hends, ← hframes, hget]
          simp
        · unfold Linked
          rw [haddressed]
          cases hterminal : incoming.terminal_stream_response with
          | true =>
            refine .inr (.inl ⟨fun other h => ?_, incoming, by simp, hterminal⟩)
            rw [if_pos rfl, holds_some, Channels.mem_remove] at h
            have hother := (hmap other (holds_some.mpr h.1)).1
            exact h.2 (Option.some.inj (hother.symm.trans hid))
          | false =>
            refine .inl ⟨⟨id', hin⟩, ?_⟩
            rintro ⟨response, hmem, hend⟩
            obtain hmem | hmem := List.mem_append.mp hmem
            · exact hends ⟨response, hmem, hend⟩
            · obtain rfl : response = incoming := List.mem_singleton.mp hmem
              simp [hterminal] at hend
      · have hget : entries.get id ≠ some call := fun h => hout id (holds_some.mpr (Channels.mem_of_get h))
        refine ⟨hlength, ?_, .inr (.inl ⟨fun id' h => hout id' (hsub id' h), ?_⟩)⟩
        · rw [haddressed, up_to_terminal_of_ends hends, ← hframes, pending_of_get hget, List.append_nil]
        · obtain ⟨response, hmem, hend⟩ := hends
          exact haddressed ▸ ⟨response, List.mem_append_left _ hmem, hend⟩
      · simp at hclosed
    · rw [if_neg (fun h => hid h.symm), List.append_nil] at haddressed
      have hget : entries.get id ≠ some call :=
        fun h => hid (hmap id (holds_some.mpr (Channels.mem_of_get h))).1
      refine ⟨hlength, ?_, ?_⟩
      · rw [haddressed, ← hframes, pending_of_get hget, List.append_nil]
      · unfold Linked
        rw [haddressed]
        obtain ⟨⟨id', hin⟩, hends⟩ | ⟨hout, hends⟩ | ⟨hclosed, -⟩ := hold.linked
        · refine .inl ⟨⟨id', ?_⟩, hends⟩
          split
          · refine holds_some.mpr (Channels.mem_remove.mpr ⟨holds_some.mp hin, ?_⟩)
            rintro rfl
            exact hid (hmap id' hin).1
          · exact hin
        · exact .inr (.inl ⟨fun id' h => hout id' (hsub id' h), hends⟩)
        · simp at hclosed

theorem feed {incoming : Envelope Body} {id call barrier : Nat}
    (hok : StreamsOk channels (.delivering incoming id none (some call)) looked_up streams) :
    StreamsOk channels (.awaiting_consumer call barrier) looked_up
      (Function.update streams call
        { streams call with queue := (streams call).queue ++ [.frame incoming barrier] }) := by
  refine ⟨fun other => ?_, by simp⟩
  by_cases hother : other = call
  · subst hother
    rw [Function.update_self]
    obtain ⟨hmap, hfed, -, -, hgot, hfollows⟩ := hok.each other
    have hregistered := (hfed incoming id rfl).2
    refine ⟨hmap, by simp [Handler.consumer], fun hnot => absurd hregistered hnot, ?_, hgot, fun hlive => ?_⟩
    · intro response barrier' hmem
      rcases List.mem_append.mp hmem with hmem | hmem
      · exact absurd hmem ((hok.each other).not_queued (by simp) (by simp) response barrier')
      · obtain ⟨-, rfl⟩ : response = incoming ∧ barrier' = barrier := by simpa using hmem
        exact .inl rfl
    · have hold := hfollows hlive
      refine ⟨hold.since_le, ?_, ?_⟩
      · have hframes := hold.frames_eq
        rw [Handler.pending_delivering, if_pos rfl, frames_append] at hframes
        rw [Handler.pending_of_consumer rfl, List.append_nil, frames_append, frames_append, ← List.append_assoc]
        exact hframes
      · obtain hin | hout | ⟨hclosed, htold⟩ := hold.linked
        · exact .inl hin
        · exact .inr (.inl hout)
        · refine .inr (.inr ⟨hclosed, ?_⟩)
          rw [← List.append_assoc]
          exact List.mem_append_left _ htold
  · rw [Function.update_of_ne hother]
    refine (hok.each other).rehandle (fun _ => ?_) (by simp [Handler.consumer]) ?_
    · rw [pending_of_get (fun h => hother (Option.some.inj h).symm), Handler.pending_of_consumer rfl]
    · intro response barrier' hmem
      exact absurd hmem ((hok.each other).not_queued (by simp) (by simp) response barrier')

theorem find_consumer_gone {incoming : Envelope Body} {id call : Nat}
    (hok : StreamsOk channels (.delivering incoming id none (some call)) looked_up streams)
    (hgone : (streams call).phase.receives = false) :
    StreamsOk channels (.forgetting id) looked_up streams := by
  obtain ⟨hid, hregistered⟩ := (hok.each call).fed incoming id rfl
  refine ⟨fun other => (hok.each other).rehandle (fun hlive => ?_) (by simp [Handler.consumer]) ?_, ?_⟩
  · have hother : call ≠ other := by
      rintro rfl
      simp [hlive.receives] at hgone
    rw [pending_of_get (fun h => hother (Option.some.inj h)), Handler.pending_of_consumer rfl]
  · intro response barrier hmem
    exact absurd hmem ((hok.each other).not_queued (by simp) (by simp) response barrier)
  · intro id' h
    obtain rfl : id = id' := by simpa using h
    refine ⟨call, hid, ?_⟩
    cases hphase : (streams call).phase <;> simp_all [StreamPhase.receives, StreamPhase.Registered]

end StreamsOk

namespace ConnectionState

abbrev StreamsHold (s : ConnectionState Body) : Prop :=
  StreamsOk s.stream_response_channels s.handler s.looked_up s.streams

theorem StreamsHold.remove {s : ConnectionState Body} (hok : s.StreamsHold) (id : Option Nat)
    (hdone : ∀ call, (s.streams call).phase.Live → (s.streams call).id = id →
      ∀ id', ¬ Holds s.stream_response_channels id' call) : (s.remove_stream_channel id).StreamsHold := by
  cases id with
  | none => exact hok
  | some id => exact StreamsOk.remove hok id fun call hlive hid => hdone call hlive hid id

theorem StreamsHold.not_holds_of_id_eq {s : ConnectionState Body} (hok : s.StreamsHold) (hids : s.IdsHold)
    {call : Nat} (hcall : ¬ (s.streams call).phase.Live) (other : Nat) (hlive : (s.streams other).phase.Live)
    (hid : (s.streams other).id = (s.streams call).id) (id : Nat) : ¬ Holds s.stream_response_channels id other := by
  intro hholds
  have hin := ((hok.each other).in_map id hholds).1
  obtain rfl := hids.streams_inj other call id hin (hid ▸ hin)
  exact hcall hlive

theorem StreamsHold.close {s : ConnectionState Body} (hok : s.StreamsHold) :
    StreamsOk none s.handler s.looked_up s.told := by
  refine ⟨fun call => (hok.each call).close ?_, ?_⟩
  · unfold told
    split
    · next htold =>
      refine .inl ⟨?_, rfl⟩
      cases hchannels : s.stream_response_channels with
      | none => simp [hchannels] at htold
      | some entries =>
        obtain ⟨⟨id, other⟩, hmem, heq⟩ := List.any_eq_true.mp (Bool.and_eq_true_iff.mp htold).1
        obtain rfl : other = call := by simpa using heq
        exact ⟨id, by simpa [hchannels] using hmem⟩
    · next htold =>
      refine .inr ⟨rfl, fun hlive id hholds => htold ?_⟩
      obtain ⟨entries, hchannels, hmem⟩ := hholds
      rw [Bool.and_eq_true_iff]
      refine ⟨List.any_eq_true.mpr ⟨(id, call), ?_, by simp⟩, hlive.receives⟩
      rw [Option.mem_def.mp hchannels]
      exact hmem
  · intro id h
    obtain ⟨call, hid, hphase⟩ := hok.forgotten id h
    refine ⟨call, by simpa using hid, ?_⟩
    unfold told
    split <;> exact hphase

theorem StreamsHold.moves {s t : ConnectionState Body} (hok : s.StreamsHold) (hids : s.IdsHold)
    (hrequests : s.RequestsHold) (hmoves : Moves s t) : t.StreamsHold := by
  cases hmoves with
  | read | write | close_requests | end_io | disconnect | send => exact hok
  | identify_request | refuse_request | insert_request | send_request | resolve | fail | let_go => exact hok
  | close_streams => exact hok.close
  | hand_on =>
    rw [hand_eq]
    exact hok
  | identify_stream call hphase =>
    refine StreamsOk.update hok call _ ?_ (by simp [hphase])
    exact (hok.each call).of_unregistered (by simp [hphase, StreamPhase.Registered]) (by simp [StreamPhase.Live]) rfl rfl
  | refuse_stream call hphase =>
    have hnot : ¬ (s.streams call).phase.Registered := fun h => hphase.elim h.1 h.2
    refine StreamsOk.update hok call _ ?_ ?_
    · exact (hok.each call).of_unregistered hnot (by simp [StreamPhase.Live]) rfl rfl
    · rcases hphase with h | h <;> simp [h]
  | insert_stream call id channels hphase hid hchannels =>
    have hsome : StreamsOk (some channels) s.handler s.looked_up s.streams := hchannels ▸ hok
    refine ⟨?_, ?_⟩
    · intro other
      by_cases hother : other = call
      · subst hother
        have hregistered := (hsome.each other).register (by simp [hphase, StreamPhase.Registered])
          (show ({ s.streams other with phase := .sending, since := s.looked_up.length } : Stream Body).id = _ from hid)
          (.inl rfl) rfl rfl rfl
        simpa [set_stream] using hregistered
      · have hkept := hsome.insert (fun other h => hids.streams_inj other call id h hid) other hother
        simpa [set_stream, hother] using hkept
    · intro id' h
      obtain ⟨other, hother⟩ := hok.forgotten id' h
      refine ⟨other, ?_⟩
      have hne : other ≠ call := by
        rintro rfl
        simp [hphase] at hother
      simpa [set_stream, hne] using hother
  | send_stream call outgoing hphase =>
    refine StreamsOk.update hok call _ ?_ (by simp [hphase])
    exact (hok.each call).advance (.inl hphase) (.inr (.inl rfl)) rfl rfl rfl (List.Subset.refl _)
  | unsend_stream call hphase =>
    refine StreamsOk.update hok call _ ?_ (by simp [hphase])
    exact (hok.each call).retire (by simp [StreamPhase.Live]) ⟨by simp, by simp⟩ rfl rfl rfl (List.Subset.refl _)
  | unregister call hphase =>
    have hnot : ¬ (s.streams call).phase.Live := by simp [hphase, StreamPhase.Live]
    have hremoved := hok.remove _ (hok.not_holds_of_id_eq hids hnot)
    refine StreamsOk.update hremoved call _ ?_ (by simp [hphase])
    exact (hremoved.each call).retire (by simp [StreamPhase.Live]) ⟨by simp, by simp⟩ (by simp) (by simp) (by simp)
      (by simp)
  | start call hphase =>
    refine StreamsOk.update hok call _ ?_ (by simp [hphase])
    exact (hok.each call).advance (.inr (.inl hphase)) (.inr (.inr (.inl rfl))) rfl rfl rfl (List.Subset.refl _)
  | poll_closed call queue hphase hqueue =>
    refine StreamsOk.update hok call _ ?_ (by simp [hphase])
    exact (hok.each call).advance (.inr (.inr (.inl hphase))) (.inr (.inr (.inl hphase))) rfl rfl (by simp [hqueue])
      (by simp [hqueue])
  | poll_frame call response barrier queue hphase hqueue hterminal =>
    refine StreamsOk.update hok call _ ?_ (by simp [hphase])
    exact (hok.each call).advance (.inr (.inr (.inl hphase))) (.inr (.inr (.inl hphase))) rfl rfl (by simp [hqueue])
      (by simp [hqueue])
  | poll_terminal call response barrier queue hphase hqueue hterminal =>
    have hlive : (s.streams call).phase.Live := .inr (.inr (.inl hphase))
    have hpolled : StreamsHold (s.set_stream call
        { s.streams call with queue := queue, polled := (s.streams call).polled ++ [.frame response barrier] }) := by
      refine StreamsOk.update hok call _ ?_ (by simp [hphase])
      exact (hok.each call).advance hlive hlive rfl rfl (by simp [hqueue]) (by simp [hqueue])
    refine hpolled.remove _ fun other hother hid id hholds => ?_
    have hcall : other = call := by
      by_contra hne
      rw [set_stream_of_ne _ _ hne] at hid
      have hin := ((hok.each other).in_map id hholds).1
      exact hne (hids.streams_inj other call id hin (hid ▸ hin))
    subst hcall
    have hmem : response ∈ frames ((s.streams other).polled ++ (s.streams other).queue) := by
      simp [hqueue, frames, Item.envelope]
    exact (hok.each other).not_holds_of_terminal hlive hmem hterminal id hholds
  | finish call hphase hqueue =>
    refine StreamsOk.update hok call _ ?_ (by simp [hphase])
    exact (hok.each call).advance (.inr (.inr (.inl hphase))) (.inr (.inr (.inr rfl))) rfl rfl rfl (List.Subset.refl _)
  | drop_stream call phase hend hphase =>
    refine StreamsOk.update hok call _ ?_ ?_
    · refine (hok.each call).retire ?_ ?_ rfl rfl rfl (List.nil_subset _)
      · rcases hend with rfl | rfl <;> simp [StreamPhase.Live]
      · rcases hend with rfl | rfl <;> exact ⟨by simp, by simp⟩
    · rintro (h | h) <;> simp [h, StreamPhase.receives] at hphase
  | clean_up call hphase =>
    have hnot : ¬ (s.streams call).phase.Live := by simp [hphase, StreamPhase.Live]
    have hremoved := hok.remove _ (hok.not_holds_of_id_eq hids hnot)
    refine StreamsOk.update hremoved call _ ?_ (by simp)
    exact (hremoved.each call).retire (by simp [StreamPhase.Live]) ⟨by simp, by simp⟩ (by simp) (by simp) (by simp)
      (by simp)
  | take_response incoming rest id hhandler hincoming hresponse =>
    exact StreamsOk.go_on hok (by simp [hhandler]) (by simp [hhandler]) (by simp [hhandler, Handler.consumer]) rfl
      (by simp)
  | look_up_request incoming id channels hhandler hchannels =>
    exact StreamsOk.go_on hok (by simp [hhandler]) (by simp [hhandler]) (by simp [hhandler, Handler.consumer]) rfl
      (by simp)
  | look_up_stream incoming id response_channel channels hhandler hchannels =>
    have hopen : StreamsOk (some channels) (.looking_up_stream incoming id response_channel) s.looked_up s.streams :=
      hchannels ▸ hhandler ▸ hok
    have hresponse := (hrequests.handled incoming id (by simp [hhandler, Handler.response])).1
    refine hopen.look_up (fun call call' => hids.streams_inj call call' id) hresponse ?_
    cases response_channel with
    | none => exact .inl rfl
    | some found =>
      have hfound := (hrequests.held id found (by simp [hhandler, Handler.requester])).1.id_eq
      exact .inr fun call => hids.apart found call id hfound
  | answer incoming id call stream_response_channel hhandler hthere =>
    exact StreamsOk.go_on hok (by simp [hhandler]) (by simp [hhandler]) (by simp [hhandler, Handler.consumer]) rfl
      (by simp)
  | find_requester_gone incoming id call _ hhandler =>
    exact StreamsOk.go_on hok (by simp [hhandler]) (by simp [hhandler]) (by simp [hhandler, Handler.consumer]) rfl
      (by simp)
  | feed incoming id call hhandler =>
    unfold StreamsHold at hok
    rw [hhandler] at hok
    exact hok.feed
  | find_consumer_gone incoming id call hhandler hgone =>
    unfold StreamsHold at hok
    rw [hhandler] at hok
    exact hok.find_consumer_gone hgone
  | forget id hhandler =>
    have hremoved := hok.remove (some id) fun other hlive hid id' hholds => by
      obtain ⟨call, hcall, hphase⟩ := hok.forgotten id hhandler
      obtain rfl := hids.streams_inj other call id hid hcall
      rcases hphase with h | h <;> simp [h, StreamPhase.Live] at hlive
    exact StreamsOk.go_on hremoved (by simp [hhandler]) (by simp [hhandler]) (by simp [hhandler, Handler.consumer]) rfl
      (by simp)
  | give_up hhandler =>
    obtain ⟨_, _, hhandler, -⟩ | ⟨_, _, _, hhandler, -⟩ | ⟨_, _, hhandler⟩ := hhandler <;>
      exact StreamsOk.go_on hok (by simp [hhandler]) (by simp [hhandler]) (by simp [hhandler, Handler.consumer]) rfl
        (by simp)
  | resume hhandler =>
    obtain ⟨call, barrier, hhandler, -⟩ | ⟨call, barrier, hhandler, hqueue⟩ := hhandler
    · exact StreamsOk.go_on hok (by simp [hhandler]) (by simp [hhandler]) (by simp [hhandler, Handler.consumer]) rfl
        (by simp)
    · refine StreamsOk.rehandle hok (by simp [hhandler, Handler.consumer]) rfl (by simp) ?_
      intro other response barrier' hmem
      obtain h | h := (hok.each other).queued response barrier' hmem
      · obtain ⟨rfl, rfl⟩ : call = other ∧ barrier = barrier' := by simpa [hhandler] using h
        exact absurd hmem (hqueue response)
      · simp [hhandler] at h
  | drop_incoming hhandler =>
    have hconsumer : s.handler.consumer = none := by
      obtain h | ⟨_, _, h⟩ | ⟨_, _, h⟩ := hhandler <;> simp [h, Handler.consumer]
    exact StreamsOk.rehandle hok hconsumer rfl (by simp) fun _ _ _ _ => .inr rfl

end ConnectionState

end zed.rpc
