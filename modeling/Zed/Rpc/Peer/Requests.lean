import Zed.Rpc.Peer.Moves

namespace zed.rpc

variable {Body : Type}

/-- The response that is being handled, and the id it responds to. -/
def Handler.response : Handler Body → Option (Envelope Body × Nat)
  | .looking_up_request incoming id | .looking_up_stream incoming id _ | .delivering incoming id _ _ =>
    some (incoming, id)
  | _ => none

/-- The request whose channel is with the handler, and the id it was found under. -/
def Handler.requester : Handler Body → Option (Nat × Nat)
  | .looking_up_stream _ id (some call) | .delivering _ id (some call) _ => some (id, call)
  | _ => none

/-- Whether a request's channel has been in the map. -/
def RequestPhase.Registered (phase : RequestPhase) : Prop :=
  phase ≠ .idle ∧ phase ≠ .inserting

/-- A request under an id that has no response yet. -/
structure Waits (request : Request Body) (id : Nat) : Prop where
  id_eq : request.id = some id
  registered : request.phase.Registered
  value_eq : request.value = none

/-- A channel is in the map or with the handler as long as there is no response in it,
    and a response in it responds to its request and is the one being handled. -/
structure RequestsOk (channels : Option Channels) (handler : Handler Body) (taken : List (Envelope Body))
    (requests : Nat → Request Body) : Prop where
  handled : ∀ incoming id, handler.response = some (incoming, id) →
    incoming.responding_to = some id ∧ incoming ∈ taken
  in_map : ∀ id call, Holds channels id call → Waits (requests call) id
  held : ∀ id call, handler.requester = some (id, call) →
    Waits (requests call) id ∧ ∀ id', ¬ Holds channels id' call
  registered : ∀ call, (requests call).value.isSome → (requests call).phase.Registered
  answered : ∀ call response barrier, (requests call).value = some (response, barrier) →
    (∃ id, (requests call).id = some id ∧ response.responding_to = some id) ∧ response ∈ taken ∧
      (handler = .awaiting_requester call barrier ∨ handler = .gone)

namespace RequestsOk

variable {channels : Option Channels} {handler handler' : Handler Body} {taken : List (Envelope Body)}
  {requests : Nat → Request Body}

/-- What changes in a request that keeps its id, is registered and gets no response. -/
theorem advance (hok : RequestsOk channels handler taken requests) (call : Nat) (request : Request Body)
    (hid : request.id = (requests call).id) (hregistered : request.phase.Registered)
    (hvalue : request.value = none ∨ request.value = (requests call).value) :
    RequestsOk channels handler taken (Function.update requests call request) := by
  have hwaits : ∀ id other, Waits (requests other) id → Waits (Function.update requests call request other) id := by
    intro id other h
    by_cases hother : other = call
    · subst hother
      rw [Function.update_self]
      exact ⟨hid.trans h.id_eq, hregistered, hvalue.elim (fun hnone => hnone) (·.trans h.value_eq)⟩
    · rwa [Function.update_of_ne hother]
  refine ⟨hok.handled, ?_, ?_, ?_, ?_⟩
  · intro id other hholds
    exact hwaits id other (hok.in_map id other hholds)
  · intro id other hheld
    exact ⟨hwaits id other (hok.held id other hheld).1, (hok.held id other hheld).2⟩
  · intro other hsome
    by_cases hother : other = call
    · subst hother
      rwa [Function.update_self]
    · rw [Function.update_of_ne hother] at hsome ⊢
      exact hok.registered other hsome
  · intro other response barrier hother
    by_cases heq : other = call
    · subst heq
      rw [Function.update_self] at hother ⊢
      have hold : (requests other).value = some (response, barrier) := by
        rcases hvalue with h | h
        · rw [h] at hother
          cases hother
        · exact h ▸ hother
      rw [hid]
      exact hok.answered other response barrier hold
    · rw [Function.update_of_ne heq] at hother ⊢
      exact hok.answered other response barrier hother

theorem unregistered (hok : RequestsOk channels handler taken requests) {call : Nat}
    (hphase : (requests call).phase = .idle ∨ (requests call).phase = .inserting) :
    (∀ id, ¬ Holds channels id call) ∧ (∀ id, handler.requester ≠ some (id, call)) ∧
      (requests call).value = none := by
  have hnot : ¬ (requests call).phase.Registered := by
    intro h
    exact hphase.elim h.1 h.2
  refine ⟨fun id h => hnot (hok.in_map id call h).registered, fun id h => hnot (hok.held id call h).1.registered, ?_⟩
  by_contra hvalue
  exact hnot (hok.registered call (Option.isSome_iff_ne_none.mpr hvalue))

theorem of_unregistered (hok : RequestsOk channels handler taken requests) (call : Nat) (request : Request Body)
    (hphase : (requests call).phase = .idle ∨ (requests call).phase = .inserting) (hvalue : request.value = none) :
    RequestsOk channels handler taken (Function.update requests call request) := by
  obtain ⟨hmap, hheld, -⟩ := hok.unregistered hphase
  refine ⟨hok.handled, ?_, ?_, ?_, ?_⟩
  · intro id other hholds
    have hne : other ≠ call := fun h => hmap id (h ▸ hholds)
    rw [Function.update_of_ne hne]
    exact hok.in_map id other hholds
  · intro id other h
    have hne : other ≠ call := fun heq => hheld id (heq ▸ h)
    rw [Function.update_of_ne hne]
    exact hok.held id other h
  · intro other hsome
    have hne : other ≠ call := by
      rintro rfl
      simp [hvalue] at hsome
    rw [Function.update_of_ne hne] at hsome ⊢
    exact hok.registered other hsome
  · intro other response barrier hother
    have hne : other ≠ call := by
      rintro rfl
      simp [hvalue] at hother
    rw [Function.update_of_ne hne] at hother ⊢
    exact hok.answered other response barrier hother

theorem insert {entries : Channels} (hok : RequestsOk (some entries) handler taken requests) {call id : Nat}
    (hwaits : Waits (requests call) id) (hheld : ∀ id, handler.requester ≠ some (id, call)) :
    RequestsOk (some (entries.insert id call)) handler taken requests := by
  refine ⟨hok.handled, ?_, ?_, hok.registered, hok.answered⟩
  · intro id' other hholds
    rw [holds_some, Channels.mem_insert] at hholds
    obtain ⟨rfl, rfl⟩ | ⟨hmem, -⟩ := hholds
    · exact hwaits
    · exact hok.in_map id' other (holds_some.mpr hmem)
  · intro id' other h
    refine ⟨(hok.held id' other h).1, fun id'' hholds => ?_⟩
    rw [holds_some, Channels.mem_insert] at hholds
    obtain ⟨-, rfl⟩ | ⟨hmem, -⟩ := hholds
    · exact hheld id' h
    · exact (hok.held id' other h).2 id'' (holds_some.mpr hmem)

theorem release (hok : RequestsOk channels handler taken requests)
    (hwaiting : ∀ call barrier, handler ≠ .awaiting_requester call barrier) (hgone : handler ≠ .gone)
    (hresponse : handler'.response = none) (hrequester : handler'.requester = none) :
    RequestsOk channels handler' taken requests := by
  refine ⟨?_, hok.in_map, ?_, hok.registered, ?_⟩
  · intro incoming id h
    simp [hresponse] at h
  · intro id call h
    simp [hrequester] at h
  · intro call response barrier hvalue
    obtain ⟨-, -, h | h⟩ := hok.answered call response barrier hvalue
    · exact absurd h (hwaiting call barrier)
    · exact absurd h hgone

theorem value_eq_none (hok : RequestsOk channels handler taken requests)
    (hwaiting : ∀ call barrier, handler ≠ .awaiting_requester call barrier) (hgone : handler ≠ .gone) (call : Nat) :
    (requests call).value = none := by
  by_contra hvalue
  obtain ⟨⟨response, barrier⟩, hsome⟩ := Option.ne_none_iff_exists'.mp hvalue
  obtain ⟨-, -, h | h⟩ := hok.answered call response barrier hsome
  · exact hwaiting call barrier h
  · exact hgone h

end RequestsOk

namespace ConnectionState

abbrev RequestsHold (s : ConnectionState Body) : Prop :=
  RequestsOk s.response_channels s.handler s.taken s.requests

theorem RequestsHold.moves {s t : ConnectionState Body} (hok : s.RequestsHold) (hmoves : Moves s t) :
    t.RequestsHold := by
  cases hmoves with
  | read | write | end_io | disconnect | send | close_streams => exact hok
  | identify_stream | refuse_stream | insert_stream | send_stream | unsend_stream => exact hok
  | start | poll_closed | poll_frame | finish | drop_stream => exact hok
  | unregister | poll_terminal | clean_up => simpa [RequestsHold, set_stream] using hok
  | close_requests =>
    refine ⟨hok.handled, fun id call h => absurd h holds_none, ?_, hok.registered, hok.answered⟩
    intro id call h
    exact ⟨(hok.held id call h).1, fun _ => holds_none⟩
  | identify_request call hphase =>
    exact hok.of_unregistered call _ (.inl hphase) (hok.unregistered (.inl hphase)).2.2
  | refuse_request call hphase => exact hok.advance call _ rfl ⟨by simp, by simp⟩ (.inr rfl)
  | insert_request call id channels hphase hid hchannels =>
    obtain ⟨-, hheld, hvalue⟩ := hok.unregistered (.inr hphase)
    have hsending := hok.advance call { s.requests call with phase := .sending } rfl ⟨by simp, by simp⟩ (.inr rfl)
    rw [hchannels] at hsending
    exact hsending.insert (by simpa using ⟨hid, ⟨by simp, by simp⟩, hvalue⟩) hheld
  | send_request call outgoing hphase => exact hok.advance call _ rfl ⟨by simp, by simp⟩ (.inr rfl)
  | resolve call response barrier hphase hvalue => exact hok.advance call _ rfl ⟨by simp, by simp⟩ (.inl rfl)
  | fail call hphase hvalue => exact hok.advance call _ rfl ⟨by simp, by simp⟩ (.inr rfl)
  | let_go call phase hend hphase =>
    refine hok.advance call _ rfl ?_ (.inl rfl)
    rcases hend with rfl | rfl <;> exact ⟨by simp, by simp⟩
  | hand_on incoming rest hhandler hincoming hresponse =>
    rw [hand_eq]
    refine ⟨?_, hok.in_map, hok.held, hok.registered, ?_⟩
    · intro response id h
      simp [hhandler, Handler.response] at h
    · intro call response barrier hvalue
      simp [hok.value_eq_none (by simp [hhandler]) (by simp [hhandler]) call] at hvalue
  | take_response incoming rest id hhandler hincoming hresponse =>
    refine ⟨?_, hok.in_map, ?_, hok.registered, ?_⟩
    · intro response id' h
      obtain ⟨rfl, rfl⟩ : incoming = response ∧ id = id' := by simpa [Handler.response] using h
      exact ⟨hresponse, by simp⟩
    · intro id' call h
      simp [Handler.requester] at h
    · intro call response barrier hvalue
      simp [hok.value_eq_none (by simp [hhandler]) (by simp [hhandler]) call] at hvalue
  | look_up_request incoming id channels hhandler hchannels =>
    have hvalue := hok.value_eq_none (by simp [hhandler]) (by simp [hhandler])
    refine ⟨?_, ?_, ?_, hok.registered, ?_⟩
    · intro response id' h
      exact hok.handled response id' (by simpa [hhandler, Handler.response] using h)
    · intro id' call h
      exact hok.in_map id' call (by simp_all)
    · intro id' call h
      cases hget : channels.get id with
      | none => simp [hget, Handler.requester] at h
      | some found =>
        obtain ⟨rfl, rfl⟩ : id = id' ∧ found = call := by simpa [hget, Handler.requester] using h
        have hwaits := hok.in_map id found (by simpa [hchannels] using Channels.mem_of_get hget)
        refine ⟨hwaits, fun other hholds => ?_⟩
        rw [holds_some, Channels.mem_remove] at hholds
        have hother := hok.in_map other found (by simpa [hchannels] using hholds.1)
        exact hholds.2 (Option.some.inj (hother.id_eq.symm.trans hwaits.id_eq))
    · intro call response barrier h
      simp [hvalue call] at h
  | look_up_stream incoming id response_channel channels hhandler hchannels =>
    have hvalue := hok.value_eq_none (by simp [hhandler]) (by simp [hhandler])
    refine ⟨?_, hok.in_map, ?_, hok.registered, ?_⟩
    · intro response id' h
      exact hok.handled response id' (by simpa [hhandler, Handler.response] using h)
    · intro id' call h
      refine hok.held id' call ?_
      cases response_channel with
      | none => simp [Handler.requester] at h
      | some found => simpa [hhandler, Handler.requester] using h
    · intro call response barrier h
      simp [hvalue call] at h
  | answer incoming id call stream_response_channel hhandler hthere =>
    have hvalue := hok.value_eq_none (by simp [hhandler]) (by simp [hhandler])
    obtain ⟨hwaits, hmap⟩ := hok.held id call (by simp [hhandler, Handler.requester])
    obtain ⟨hresponse, htaken⟩ := hok.handled incoming id (by simp [hhandler, Handler.response])
    refine ⟨?_, ?_, ?_, ?_, ?_⟩
    · intro response id' h
      simp [Handler.response] at h
    · intro id' other hholds
      have hne : other ≠ call := fun h => hmap id' (h ▸ hholds)
      simpa [set_request, hne] using hok.in_map id' other hholds
    · intro id' other h
      simp [Handler.requester] at h
    · intro other hsome
      by_cases hother : other = call
      · subst hother
        simpa using hwaits.registered
      · simp [set_request, hother, hvalue other] at hsome
    · intro other response barrier h
      by_cases hother : other = call
      · subst hother
        obtain ⟨rfl, rfl⟩ : incoming = response ∧ s.taken.length = barrier := by simpa using h
        exact ⟨⟨id, by simpa using hwaits.id_eq, hresponse⟩, htaken, .inl rfl⟩
      · simp [set_request, hother, hvalue other] at h
  | find_requester_gone incoming id call _ hhandler | feed incoming id call hhandler
  | find_consumer_gone incoming id call hhandler =>
    exact hok.release (by simp [hhandler]) (by simp [hhandler]) rfl rfl
  | forget id hhandler => exact hok.release (by simp [hhandler]) (by simp [hhandler]) rfl rfl
  | give_up hhandler =>
    obtain ⟨_, _, hhandler, -⟩ | ⟨_, _, _, hhandler, -⟩ | ⟨_, _, hhandler⟩ := hhandler <;>
      exact hok.release (by simp [hhandler]) (by simp [hhandler]) rfl rfl
  | resume hhandler =>
    obtain ⟨call, barrier, hhandler, hwaits⟩ | ⟨call, barrier, hhandler, -⟩ := hhandler
    · refine ⟨?_, hok.in_map, ?_, hok.registered, ?_⟩
      · intro response id h
        simp [Handler.response] at h
      · intro id other h
        simp [Handler.requester] at h
      · intro other response barrier' hvalue
        change (s.requests other).value = some (response, barrier') at hvalue
        obtain ⟨-, -, h | h⟩ := hok.answered other response barrier' hvalue
        · obtain ⟨rfl, rfl⟩ : call = other ∧ barrier = barrier' := by simpa [hhandler] using h
          simp [hvalue] at hwaits
        · simp [hhandler] at h
    · exact hok.release (by simp [hhandler]) (by simp [hhandler]) rfl rfl
  | drop_incoming hhandler =>
    refine ⟨?_, hok.in_map, ?_, hok.registered, ?_⟩
    · intro response id h
      simp [Handler.response] at h
    · intro id call h
      simp [Handler.requester] at h
    · intro call response barrier hvalue
      obtain ⟨hid, htaken, -⟩ := hok.answered call response barrier hvalue
      exact ⟨hid, htaken, .inr rfl⟩

/-- A request resolved once, with a response to its id that was taken up. -/
structure ResolvedOk (s : ConnectionState Body) : Prop where
  once : (s.resolved.map Prod.fst).Nodup
  responds : ∀ call response, (call, response) ∈ s.resolved →
    (s.requests call).phase = .resolved ∧ response ∈ s.taken ∧
      ∃ id, (s.requests call).id = some id ∧ response.responding_to = some id

theorem requests_of_resolved {s t : ConnectionState Body} (hmoves : Moves s t) {call : Nat}
    (hresolved : (s.requests call).phase = .resolved) : t.requests call = s.requests call := by
  have hupdate : ∀ other (request : Request Body), (s.requests other).phase ≠ .resolved →
      Function.update s.requests other request call = s.requests call := by
    intro other request hother
    refine Function.update_of_ne ?_ _ _
    rintro rfl
    exact hother hresolved
  cases hmoves with
  | identify_request _ h | insert_request _ _ _ h | send_request _ _ h | resolve _ _ _ h | fail _ h =>
    exact hupdate _ _ (by simp [h])
  | refuse_request _ h =>
    refine hupdate _ _ ?_
    rcases h with h | h | h <;> simp [h]
  | let_go _ _ _ h =>
    refine hupdate _ _ ?_
    rcases h with h | h <;> simp [h]
  | answer incoming id other channel hhandler hthere =>
    refine hupdate _ _ ?_
    intro h
    simp [h, RequestPhase.receives] at hthere
  | unregister | poll_terminal | clean_up => simp [set_stream]
  | hand_on => rw [hand_eq]
  | _ => rfl

theorem taken_of_moves {s t : ConnectionState Body} (hmoves : Moves s t) : s.taken <+: t.taken := by
  cases hmoves with
  | unregister | poll_terminal | clean_up => simp [set_stream]
  | hand_on =>
    rw [hand_eq]
    exact List.prefix_append ..
  | take_response => exact List.prefix_append ..
  | _ => exact List.prefix_rfl

theorem ResolvedOk.moves {s t : ConnectionState Body} (hok : s.ResolvedOk) (hrequests : s.RequestsHold)
    (hmoves : Moves s t) : t.ResolvedOk := by
  have hkeeps : ∀ call response, (call, response) ∈ s.resolved →
      (t.requests call).phase = .resolved ∧ response ∈ t.taken ∧
        ∃ id, (t.requests call).id = some id ∧ response.responding_to = some id := by
    intro call response hmem
    obtain ⟨hphase, htaken, hid⟩ := hok.responds call response hmem
    rw [requests_of_resolved hmoves hphase]
    exact ⟨hphase, (taken_of_moves hmoves).subset htaken, hid⟩
  have hsame : t.resolved = s.resolved → t.ResolvedOk := by
    intro h
    refine ⟨?_, ?_⟩
    · rw [h]
      exact hok.once
    · rw [h]
      exact hkeeps
  cases hmoves with
  | resolve call response barrier hphase hvalue =>
    refine ⟨?_, ?_⟩
    · rw [List.map_append, List.nodup_append]
      refine ⟨hok.once, by simp, ?_⟩
      intro other hother call' hcall' heq
      obtain ⟨⟨_, response'⟩, hmem, rfl⟩ := List.mem_map.mp hother
      obtain rfl : call' = call := by simpa using hcall'
      subst heq
      simpa [hphase] using (hok.responds _ _ hmem).1
    · intro call' response' hmem
      rcases List.mem_append.mp hmem with hmem | hmem
      · exact hkeeps call' response' hmem
      · obtain ⟨rfl, rfl⟩ : call' = call ∧ response' = response := by simpa using hmem
        obtain ⟨hid, htaken, -⟩ := hrequests.answered call' response' barrier hvalue
        simpa using ⟨htaken, hid⟩
  | unregister _ _ | poll_terminal _ _ _ _ _ _ _ | clean_up _ _ => exact hsame (by cases (s.streams _).id <;> rfl)
  | hand_on => exact hsame (by rw [hand_eq])
  | _ => exact hsame rfl

end ConnectionState

end zed.rpc
