import Zed.Rpc.Peer.Frames

namespace zed.rpc

open zed.transition

variable {Body : Type}

def Envelope.is_response (envelope : Envelope Body) : Bool :=
  envelope.responding_to.isSome

/-- The response that is not yet looked up in both maps. -/
def Handler.unlooked : Handler Body → List (Envelope Body)
  | .looking_up_request incoming _ | .looking_up_stream incoming _ _ => [incoming]
  | _ => []

/-- The response that is looked up in the map of the requests only. -/
def Handler.half_looked : Handler Body → List (Envelope Body)
  | .looking_up_stream incoming _ _ => [incoming]
  | _ => []

/-- The maps are there until the I/O ends, messages are taken up in the order they
    arrive, and the responses are looked up in that order, all of them while the I/O runs. -/
structure ArrivalsOk (io : IoPhase) (requests_open streams_open : Bool) (handler : Handler Body)
    (arrived taken incoming looked_up : List (Envelope Body)) : Prop where
  requests_open : requests_open = true ↔ io = .running
  streams_open : streams_open = true ↔ io = .running ∨ io = .taking_streams
  taken_initial : taken <+: arrived
  arrived_eq : handler ≠ .gone → arrived = taken ++ incoming
  looked_initial : looked_up ++ handler.half_looked <+: taken.filter Envelope.is_response
  looked_eq : io = .running → looked_up ++ handler.unlooked = taken.filter Envelope.is_response

namespace ArrivalsOk

variable {io : IoPhase} {requests_open streams_open : Bool} {handler handler' : Handler Body}
  {arrived taken incoming looked_up : List (Envelope Body)}

theorem go_on (hok : ArrivalsOk io requests_open streams_open handler arrived taken incoming looked_up)
    (hlooked : io = .running → handler.unlooked = []) (hlooked' : handler'.unlooked = [])
    (hhalf' : handler'.half_looked = []) (hgone : handler ≠ .gone) :
    ArrivalsOk io requests_open streams_open handler' arrived taken incoming looked_up := by
  refine ⟨hok.requests_open, hok.streams_open, hok.taken_initial, fun _ => hok.arrived_eq hgone, ?_, ?_⟩
  · rw [hhalf', List.append_nil]
    exact (List.prefix_append ..).trans hok.looked_initial
  · intro hio
    have heq := hok.looked_eq hio
    rw [hlooked hio] at heq
    rwa [hlooked']

end ArrivalsOk

namespace ConnectionState

abbrev ArrivalsHold (s : ConnectionState Body) : Prop :=
  ArrivalsOk s.io s.response_channels.isSome s.stream_response_channels.isSome s.handler s.arrived s.taken s.incoming
    s.looked_up

theorem ArrivalsHold.remove {s : ConnectionState Body} (hok : s.ArrivalsHold) (id : Option Nat) :
    (s.remove_stream_channel id).ArrivalsHold := by
  cases id with
  | none => exact hok
  | some id => simpa [ArrivalsHold, remove_stream_channel] using hok

theorem ArrivalsHold.moves {s t : ConnectionState Body} (hok : s.ArrivalsHold) (hmoves : Moves s t) :
    t.ArrivalsHold := by
  have hopen := hok.requests_open
  have hstreams := hok.streams_open
  cases hmoves with
  | write | disconnect | send | identify_request | refuse_request | send_request | resolve | fail | let_go => exact hok
  | identify_stream | refuse_stream | send_stream | unsend_stream | start | poll_closed | poll_frame => exact hok
  | finish | drop_stream => exact hok
  | unregister call | clean_up call => exact hok.remove (s.streams call).id
  | poll_terminal call =>
    have hpolled : ∀ stream, (s.set_stream call stream).ArrivalsHold := fun _ => hok
    exact (hpolled _).remove (s.streams call).id
  | read incoming hio hthere =>
    have harrived := hok.arrived_eq (by rintro h; simp [h, gone] at hthere)
    refine ⟨hopen, hstreams, hok.taken_initial.trans (List.prefix_append ..), fun _ => ?_, hok.looked_initial,
      hok.looked_eq⟩
    simp [harrived]
  | close_requests hio =>
    exact ⟨by simp, by simpa [hio] using hstreams, hok.taken_initial, hok.arrived_eq, hok.looked_initial, by simp⟩
  | close_streams hio =>
    exact ⟨by simpa [hio] using hopen, by simp, hok.taken_initial, hok.arrived_eq, hok.looked_initial, by simp⟩
  | end_io hio =>
    exact ⟨by simpa [hio] using hopen, by simpa [hio] using hstreams, hok.taken_initial, hok.arrived_eq,
      hok.looked_initial, by simp⟩
  | insert_request call id channels _ _ hchannels | insert_stream call id channels _ _ hchannels =>
    unfold ArrivalsHold at hok
    rw [hchannels] at hok
    exact hok
  | hand_on incoming rest hhandler hincoming hresponse =>
    rw [hand_eq]
    have harrived := hok.arrived_eq (by simp [hhandler])
    have hfilter : (s.taken ++ [incoming]).filter Envelope.is_response = s.taken.filter Envelope.is_response := by
      simp [List.filter_append, Envelope.is_response, hresponse]
    refine ⟨hopen, hstreams, ?_, fun _ => ?_, hfilter ▸ hok.looked_initial, fun hio => hfilter ▸ hok.looked_eq hio⟩
    · exact ⟨rest, by simp [harrived, hincoming]⟩
    · simp [harrived, hincoming]
  | take_response incoming rest id hhandler hincoming hresponse =>
    have harrived := hok.arrived_eq (by simp [hhandler])
    have hlooked := hok.looked_initial
    have hfilter : (s.taken ++ [incoming]).filter Envelope.is_response =
        s.taken.filter Envelope.is_response ++ [incoming] := by
      simp [List.filter_append, Envelope.is_response, hresponse]
    refine ⟨hopen, hstreams, ⟨rest, by simp [harrived, hincoming]⟩, fun _ => by simp [harrived, hincoming], ?_, ?_⟩
    · rw [hhandler] at hlooked
      exact hfilter ▸ hlooked.trans (List.prefix_append ..)
    · intro hio
      have heq := hok.looked_eq hio
      rw [hhandler] at heq
      rw [hfilter, ← heq]
      simp [Handler.unlooked]
  | look_up_request incoming id channels hhandler hchannels =>
    have hio := hopen.mp (by simp [hchannels])
    have heq := hok.looked_eq hio
    rw [hhandler] at heq
    refine ⟨by simpa using hio, hstreams, hok.taken_initial, fun _ => hok.arrived_eq (by simp [hhandler]), ?_, fun _ => heq⟩
    rw [← heq]
    exact List.prefix_rfl
  | look_up_stream incoming id response_channel channels hhandler hchannels =>
    have hlooked := hok.looked_initial
    rw [hhandler] at hlooked
    refine ⟨hopen, by simpa [hchannels] using hstreams, hok.taken_initial, fun _ => hok.arrived_eq (by simp [hhandler]),
      ?_, fun hio => ?_⟩
    · simpa [Handler.half_looked] using hlooked
    · have heq := hok.looked_eq hio
      rw [hhandler] at heq
      simpa [Handler.unlooked] using heq
  | answer incoming id call _ hhandler | find_requester_gone incoming id call _ hhandler
  | feed incoming id call hhandler | find_consumer_gone incoming id call hhandler =>
    exact hok.go_on (by simp [hhandler, Handler.unlooked]) rfl rfl (by simp [hhandler])
  | forget id hhandler =>
    exact (hok.remove (some id)).go_on (by simp [hhandler, Handler.unlooked]) rfl rfl (by simp [hhandler])
  | give_up hhandler =>
    obtain ⟨_, _, hhandler, hnone⟩ | ⟨_, _, _, hhandler, hnone⟩ | ⟨_, _, hhandler⟩ := hhandler
    · have hio : s.io ≠ .running := by simpa [hnone] using hopen
      exact hok.go_on (fun h => absurd h hio) rfl rfl (by simp [hhandler])
    · have hio : s.io ≠ .running := by
        intro h
        simp [hnone, h] at hstreams
      exact hok.go_on (fun h => absurd h hio) rfl rfl (by simp [hhandler])
    · exact hok.go_on (by simp [hhandler, Handler.unlooked]) rfl rfl (by simp [hhandler])
  | resume hhandler =>
    obtain ⟨_, _, hhandler, -⟩ | ⟨_, _, hhandler, -⟩ := hhandler <;>
      exact hok.go_on (by simp [hhandler, Handler.unlooked]) rfl rfl (by simp [hhandler])
  | drop_incoming hhandler =>
    have hunlooked : s.handler.unlooked = [] := by
      obtain h | ⟨_, _, h⟩ | ⟨_, _, h⟩ := hhandler <;> simp [h, Handler.unlooked]
    have hidle : ArrivalsOk s.io s.response_channels.isSome s.stream_response_channels.isSome .idle s.arrived s.taken
        s.incoming s.looked_up := by
      refine hok.go_on (fun _ => hunlooked) rfl rfl ?_
      obtain h | ⟨_, _, h⟩ | ⟨_, _, h⟩ := hhandler <;> simp [h]
    exact ⟨hopen, hstreams, hok.taken_initial, by simp, hidle.looked_initial, hidle.looked_eq⟩

/-- What holds of a connection at any time. -/
structure Consistent (s : ConnectionState Body) : Prop where
  ids : s.IdsHold
  requests : s.RequestsHold
  resolved : s.ResolvedOk
  streams : s.StreamsHold
  arrivals : s.ArrivalsHold

theorem consistent_new : (new : ConnectionState Body).Consistent := by
  have hholds : ∀ id call, ¬ Holds (some []) id call := by simp
  refine ⟨⟨?_, ?_, ?_, ?_⟩, ⟨?_, ?_, ?_, ?_, ?_⟩, ⟨?_, ?_⟩, ⟨fun call => ⟨?_, ?_, ?_, ?_, ?_, ?_⟩, ?_⟩,
    ⟨?_, ?_, ?_, ?_, ?_, ?_⟩⟩
  all_goals
    simp [new, Handler.response, Handler.requester, Handler.consumer, StreamPhase.Live, frames,
      Handler.half_looked, Handler.unlooked]

theorem Consistent.moves {s t : ConnectionState Body} (hok : s.Consistent) (hnext : s.next_message_id < 2 ^ 32)
    (hmoves : Moves s t) : t.Consistent :=
  { ids := hok.ids.moves hnext hmoves
    requests := hok.requests.moves hmoves
    resolved := hok.resolved.moves hok.requests hmoves
    streams := hok.streams.moves hok.ids hok.requests hmoves
    arrivals := hok.arrivals.moves hmoves }

/-- Fewer than `2 ^ 32` message ids were used. -/
def IdsLeft (s : ConnectionState Body) (_ : Action Body) : Prop :=
  s.next_message_id < 2 ^ 32

theorem consistent_of_run {capacity : Nat} {t : ConnectionState Body} (hrun : Runs (step capacity) IdsLeft new t) :
    t.Consistent :=
  hrun.keeps (fun _ _ _ hok hleft hstep => hok.moves hleft (moves_of_step hstep)) consistent_new

theorem handler_of_handed {s t : ConnectionState Body} (hmoves : Moves s t) (hhanded : t.handed ≠ s.handed) :
    s.handler = .idle := by
  cases hmoves with
  | hand_on incoming rest hhandler => exact hhandler
  | unregister call | clean_up call | poll_terminal call =>
    refine absurd ?_ hhanded
    cases (s.streams call).id <;> rfl
  | _ => exact absurd rfl hhanded

/-- No response is in a channel, not yet taken by its requester or consumer. -/
def Resumed (s : ConnectionState Body) : Prop :=
  ∀ call, (s.requests call).value = none ∧ frames (s.streams call).queue = []

theorem Consistent.resumed {s : ConnectionState Body} (hok : s.Consistent) (hhandler : s.handler = .idle) :
    s.Resumed := by
  intro call
  refine ⟨hok.requests.value_eq_none (by simp [hhandler]) (by simp [hhandler]) call, ?_⟩
  apply List.filterMap_eq_nil_iff.mpr
  intro item hmem
  cases item with
  | closed => rfl
  | frame response barrier =>
    exact absurd hmem ((hok.streams.each call).not_queued (by simp [hhandler]) (by simp [hhandler]) response barrier)

/-- Whether a poll of a call returns, now or after the next step of the handling. -/
def Returns (poll : ConnectionState Body → Option (ConnectionState Body)) (s : ConnectionState Body) : Prop :=
  (poll s).isSome ∨ ∃ t, s.handle_incoming = some t ∧ (poll t).isSome

theorem poll_request_isSome {s : ConnectionState Body} {call : Nat} (hphase : (s.requests call).phase = .waiting)
    (hsender : (s.requests call).value.isSome ∨ s.request_sender call = false) : (s.poll_request call).isSome := by
  unfold poll_request
  cases hvalue : (s.requests call).value with
  | some value => simp [hphase, hvalue]
  | none =>
    have hgone : s.request_sender call = false := hsender.resolve_left (by simp [hvalue])
    simp [hphase, hvalue, hgone]

theorem poll_stream_isSome {s : ConnectionState Body} {call : Nat} (hphase : (s.streams call).phase = .streaming)
    (hsender : (s.streams call).queue ≠ [] ∨ s.stream_sender call = false) : (s.poll_stream call).isSome := by
  unfold poll_stream
  cases hqueue : (s.streams call).queue with
  | nil =>
    have hgone : s.stream_sender call = false := hsender.resolve_left (by simp [hqueue])
    simp [hphase, hqueue, hgone]
  | cons item queue =>
    cases item with
    | closed => simp [hphase, hqueue]
    | frame response barrier =>
      simp only [hphase, hqueue]
      split <;> rfl

/-- Whether a stream yielded it for a frame, not for the end of its connection. -/
def of_frame : Except (Option Body) (Envelope Body) → Bool
  | .error none => false
  | _ => true

theorem yielded_of_frames (stream : Stream Body) :
    stream.yielded.filter of_frame = (frames stream.polled).filterMap Envelope.yields := by
  unfold Stream.yielded
  induction stream.polled with
  | nil => rfl
  | cons item items ih =>
    cases item with
    | closed => simpa [frames, List.filterMap_cons, Item.yields, Item.envelope, of_frame] using ih
    | frame response barrier =>
      cases hyields : response.yields with
      | none => simpa [frames, Item.yields, Item.envelope, hyields] using ih
      | some result =>
        have hresult : of_frame result = true := by
          unfold Envelope.yields at hyields
          split at hyields <;> simp at hyields <;> subst hyields <;> rfl
        simpa [frames, Item.yields, Item.envelope, hyields, hresult] using ih

theorem request_returns {s : ConnectionState Body} {call : Nat} (hrequests : s.response_channels = none)
    (hstreams : s.stream_response_channels = none) (hphase : (s.requests call).phase = .waiting) :
    Returns (·.poll_request call) s := by
  by_cases hsender : s.request_sender call = false
  · exact .inl (poll_request_isSome hphase (.inr hsender))
  · cases hhandler : s.handler with
    | looking_up_stream incoming id response_channel =>
      refine .inr ⟨{ s with handler := .idle }, by simp [handle_incoming, hhandler, hstreams], ?_⟩
      exact poll_request_isSome hphase (.inr (by simp [request_sender, hrequests]))
    | delivering incoming id response_channel stream_response_channel =>
      obtain rfl : response_channel = some call := by simpa [request_sender, hrequests, hhandler] using hsender
      refine .inr ⟨_, by rw [handle_incoming, hhandler], ?_⟩
      apply poll_request_isSome
      · simp [deliver, hphase, RequestPhase.receives]
      · simp [deliver, hphase, RequestPhase.receives]
    | _ => simp [request_sender, hrequests, hhandler] at hsender

theorem stream_returns {s : ConnectionState Body} {call : Nat} (hstreams : s.stream_response_channels = none)
    (hphase : (s.streams call).phase = .streaming) : Returns (·.poll_stream call) s := by
  by_cases hsender : s.stream_sender call = false
  · exact .inl (poll_stream_isSome hphase (.inr hsender))
  by_cases hqueue : (s.streams call).queue = []
  · cases hhandler : s.handler with
    | delivering incoming id response_channel stream_response_channel =>
      obtain rfl : stream_response_channel = some call := by
        simpa [stream_sender, hstreams, hhandler] using hsender
      refine .inr ⟨_, by rw [handle_incoming, hhandler], ?_⟩
      cases response_channel with
      | none =>
        apply poll_stream_isSome
        · simp [deliver, hphase, StreamPhase.receives]
        · simp [deliver, hphase, StreamPhase.receives]
      | some requester =>
        apply poll_stream_isSome
        · dsimp only [deliver]
          split <;> exact hphase
        · refine .inr ?_
          dsimp only [deliver]
          split <;> simp [stream_sender, hstreams, set_request]
    | awaiting_consumer consumer barrier =>
      obtain rfl : consumer = call := by simpa [stream_sender, hstreams, hhandler] using hsender
      refine .inr ⟨{ s with handler := .idle }, by simp [handle_incoming, hhandler, hqueue], ?_⟩
      exact poll_stream_isSome hphase (.inr (by simp [stream_sender, hstreams]))
    | _ => simp [stream_sender, hstreams, hhandler] at hsender
  · exact .inl (poll_stream_isSome hphase (.inl hqueue))

/-- On a connection that used fewer than `2 ^ 32` message ids: a request resolves at most
    once, with a response to its id. A stream gets the frames to its id that are looked up
    after it was registered, in the order they arrive and up to the first terminal frame;
    all that were taken up are looked up while the I/O runs. A message goes to the application
    only when every response before it was taken. Once the I/O has ended, each request and
    each stream returns, and a stream that has not come to its end was told. -/
theorem responses_in_order (capacity : Nat) (t : ConnectionState Body)
    (hrun : Runs (step capacity) IdsLeft new t) :
    ((t.resolved.map Prod.fst).Nodup ∧
      ∀ call response, (call, response) ∈ t.resolved →
        response ∈ t.taken ∧ ∃ id, (t.requests call).id = some id ∧ response.responding_to = some id) ∧
    (t.taken <+: t.arrived ∧ (t.handler ≠ .gone → t.arrived = t.taken ++ t.incoming) ∧
      t.looked_up <+: t.taken.filter Envelope.is_response ∧
      (t.io = .running → t.looked_up ++ t.handler.unlooked = t.taken.filter Envelope.is_response) ∧
      ∀ call, (t.streams call).yielded.filter of_frame <+:
          (up_to_terminal ((t.streams call).addressed t.looked_up)).filterMap Envelope.yields ∧
        ((t.streams call).phase.Live →
          frames ((t.streams call).polled ++ (t.streams call).queue) ++ t.handler.pending call =
            up_to_terminal ((t.streams call).addressed t.looked_up))) ∧
    (∀ action u, t.step capacity action = some u → u.handed ≠ t.handed → t.Resumed) ∧
    (t.io = .ended →
      ∀ call, ((t.requests call).phase = .waiting → Returns (·.poll_request call) t) ∧
        ((t.streams call).phase = .streaming → Returns (·.poll_stream call) t) ∧
        ((t.streams call).phase.Live →
          Ends ((t.streams call).addressed t.looked_up) ∨
            .closed ∈ (t.streams call).polled ++ (t.streams call).queue)) := by
  have hok := consistent_of_run hrun
  have harrivals := hok.arrivals
  refine ⟨⟨hok.resolved.once, ?_⟩, ⟨harrivals.taken_initial, harrivals.arrived_eq, ?_, harrivals.looked_eq, ?_⟩, ?_, ?_⟩
  · intro call response hmem
    exact (hok.resolved.responds call response hmem).2
  · exact (List.prefix_append ..).trans harrivals.looked_initial
  · intro call
    refine ⟨?_, fun hlive => ((hok.streams.each call).follows hlive).frames_eq⟩
    rw [yielded_of_frames]
    exact (hok.streams.each call).got.filterMap _
  · intro action u hstep hhanded
    exact hok.resumed (handler_of_handed (moves_of_step hstep) hhanded)
  · intro hio call
    have hrequests : t.response_channels = none := by simpa [hio] using harrivals.requests_open
    have hstreams : t.stream_response_channels = none := by simpa [hio] using harrivals.streams_open
    refine ⟨request_returns hrequests hstreams, stream_returns hstreams, fun hlive => ?_⟩
    obtain ⟨⟨id, hin⟩, -⟩ | ⟨-, hends⟩ | ⟨-, htold⟩ := ((hok.streams.each call).follows hlive).linked
    · rw [hstreams] at hin
      exact absurd hin holds_none
    · exact .inl hends
    · exact .inr htold

instance (s : ConnectionState Body) (action : Action Body) : Decidable (IdsLeft s action) :=
  inferInstanceAs (Decidable (s.next_message_id < 2 ^ 32))

def sample_message (responding_to : Option Nat) (payload : Payload Nat) : Envelope Nat :=
  { id := 7, responding_to := responding_to, payload := some payload }

/-- A request and a stream are registered, under the ids 0 and 1, and the stream started. -/
def sample_calls : List (Action Nat) :=
  List.replicate 3 (.request_dynamic 0 (sample_message none (.message 1))) ++
    List.replicate 3 (.request_stream_dynamic 0 (sample_message none (.message 2))) ++ [.poll_stream 0]

/-- The response to the request and a frame of the stream come in, and are handled. -/
def sample_handled : List (Action Nat) :=
  [.read (sample_message (some 0) (.message 10)), .read (sample_message (some 1) (.message 20))] ++
    List.replicate 4 .handle_incoming ++ [.poll_request 0] ++ List.replicate 5 .handle_incoming ++ [.poll_stream 0]

/-- A frame of the stream comes in, and the I/O ends before the handler takes it up. -/
def sample_ended : List (Action Nat) :=
  .read (sample_message (some 1) (.message 20)) :: List.replicate 3 .end_connection ++
    List.replicate 2 .handle_incoming ++ List.replicate 2 (.poll_stream 0)

def sample_run (actions : List (Action Nat)) : Option (ConnectionState Nat) :=
  take_all (fun s action => if IdsLeft s action then s.step 256 action else none) new actions

theorem sample_responses_in_order :
    ∃ t : ConnectionState Nat, sample_run (sample_calls ++ sample_handled) = some t ∧
      t.resolved = [(0, sample_message (some 0) (.message 10))] ∧
      (t.streams 0).yielded = [.ok (sample_message (some 1) (.message 20))] ∧ (t.resolved.map Prod.fst).Nodup ∧
      (t.streams 0).yielded.filter of_frame <+:
        (up_to_terminal ((t.streams 0).addressed t.looked_up)).filterMap Envelope.yields := by
  have hall : ∃ t, sample_run (sample_calls ++ sample_handled) = some t ∧
      t.resolved = [(0, sample_message (some 0) (.message 10))] ∧
      (t.streams 0).yielded = [.ok (sample_message (some 1) (.message 20))] := ⟨_, rfl, rfl, rfl⟩
  obtain ⟨t, htaken, hresolved, hyielded⟩ := hall
  obtain ⟨⟨honce, -⟩, ⟨-, -, -, -, hstreams⟩, -⟩ := responses_in_order 256 t (runs_of_take_allowed _ htaken)
  exact ⟨t, htaken, hresolved, hyielded, honce, (hstreams 0).1⟩

/-- A stream that has finished did not yield every frame to its id: the one that was not
    looked up when the I/O ended is lost. -/
theorem sample_frame_lost :
    ¬ ∀ t : ConnectionState Nat, Runs (step 256) IdsLeft new t → ∀ call, (t.streams call).phase = .finished →
      frames (t.streams call).polled =
        up_to_terminal (t.arrived.filter (·.responding_to == (t.streams call).id)) := by
  intro hexactly
  have hall : ∃ t, sample_run (sample_calls ++ sample_ended) = some t ∧ (t.streams 0).phase = .finished ∧
      frames (t.streams 0).polled = [] ∧
      up_to_terminal (t.arrived.filter (·.responding_to == (t.streams 0).id)) =
        [sample_message (some 1) (.message 20)] := ⟨_, rfl, rfl, rfl, rfl⟩
  obtain ⟨t, htaken, hfinished, hpolled, haddressed⟩ := hall
  have hframes := hexactly t (runs_of_take_allowed _ htaken) 0 hfinished
  rw [hpolled, haddressed] at hframes
  simp at hframes

end ConnectionState

end zed.rpc
