import Zed.Text.Replica.Act
import Zed.Text.Replica.Flush

namespace zed.text

open zed.clock zed.rope
/-- A replica: its buffer, and what happened to it so far: the operations that it
    made or was sent, those that took effect, in order, and the text that each
    subscription was last told of. -/
structure Peer where
  buffer : Buffer
  has : List Operation
  applied : List Operation
  texts : List Rope

namespace Peer

def act (peer : Peer) (action : Action) (after : Buffer) (made : List Operation) : Peer :=
  { buffer := after
    has := peer.has ++ made
    applied := peer.applied ++ made
    texts := action.told peer.buffer.snapshot.visible_text peer.texts }

def receive (peer : Peer) (ops : List Operation) : Peer :=
  { peer with
    buffer := peer.buffer.apply_ops ops
    has := peer.has ++ ops
    applied := peer.applied ++ peer.buffer.apply_ops_effects ops }

end Peer

/-- A replica for each id, and the operations that were made so far. -/
structure Network where
  peers : Nat → Peer
  ops : List Operation

namespace Network

def start (base_text : Str) (remote_ids : Nat → Nat) : Network :=
  { peers := fun replica_id =>
      { buffer := Buffer.new replica_id (remote_ids replica_id) base_text
        has := []
        applied := []
        texts := [] }
    ops := [] }

/-- The user of a replica does something, or a replica is sent some operations:
    any of those that were made, in any order and number. -/
inductive Step (network : Network) : Network → Prop
  | act (replica_id : Nat) (action : Action) (after : Buffer) (made : List Operation)
    (hallows : (network.peers replica_id).buffer.Allows network.ops action)
    (hact : (network.peers replica_id).buffer.act action = some (after, made)) :
    Step network
      { peers := Function.update network.peers replica_id ((network.peers replica_id).act action after made)
        ops := network.ops ++ made }
  | receive (replica_id : Nat) (ops : List Operation) (hops : ops ⊆ network.ops) :
    Step network
      { network with
        peers := Function.update network.peers replica_id ((network.peers replica_id).receive ops) }

def Reaches : Network → Network → Prop := Relation.ReflTransGen Step

/-- A state of replicas that started from the same text. -/
def Reachable (base_text : Str) (network : Network) : Prop := ∃ remote_ids, (start base_text remote_ids).Reaches network

end Network

namespace Ledger

/-- A replica that has done what a ledger says, and defers what it must. -/
structure Follows (ledger : Ledger) (replica_id : Nat) (peer : Peer) : Prop where
  keeps : ledger.Keeps replica_id peer.buffer
  defers : ledger.Defers peer.buffer
  applied : ledger.Applied peer.buffer.version peer.applied
  known : ∀ op ∈ peer.has, op ∈ ledger.ops
  settled : ∀ op ∈ peer.has,
    op ∈ peer.buffer.deferred_ops ∨ peer.buffer.version.observed op.timestamp = true
  tracks : peer.buffer.Tracks peer.texts

variable {ledger : Ledger} {replica_id : Nat} {peer : Peer} {action : Action} {after : Buffer}

theorem Follows.quiet (h : ledger.Follows replica_id peer) (hkeeps : ledger.Keeps replica_id after)
    (hsnapshot : after.snapshot = peer.buffer.snapshot) (hdeferred : after.deferred_ops = peer.buffer.deferred_ops)
    (htracks : after.Tracks (action.told peer.buffer.snapshot.visible_text peer.texts)) :
    ledger.Follows replica_id (peer.act action after []) := by
  have hversion : after.version = peer.buffer.version := congrArg BufferSnapshot.version hsnapshot
  refine
    { keeps := hkeeps
      defers := ⟨hdeferred ▸ h.defers.sorted, hdeferred ▸ h.defers.ops, ?_⟩
      applied := ?_
      known := fun op hop => h.known op (by rwa [Peer.act, List.append_nil] at hop)
      settled := ?_
      tracks := htracks }
  · change ∀ op ∈ after.deferred_ops, ∃ record ∈ ledger.records,
      op.version.observed record.timestamp = true ∧ after.version.observed record.timestamp = false
    rw [hdeferred, hversion]
    exact h.defers.misses
  · change ledger.Applied after.version (peer.applied ++ [])
    rw [List.append_nil, hversion]
    exact h.applied
  · change ∀ op ∈ peer.has ++ [], op ∈ after.deferred_ops ∨ after.version.observed op.timestamp = true
    rw [List.append_nil, hdeferred, hversion]
    exact h.settled

theorem Follows.makes (hlawful : ledger.Lawful) (h : ledger.Follows replica_id peer) {op : Operation}
    (hmakes : Buffer.Makes ledger replica_id peer.buffer after op)
    (htracks : after.Tracks (action.told peer.buffer.snapshot.visible_text peer.texts)) :
    (ledger.push (peer.buffer.snapshot.authored op)).Follows replica_id (peer.act action after [op]) := by
  let record := peer.buffer.snapshot.authored op
  have hfresh : ledger.Fresh record.timestamp := hmakes.fresh
  have hversion := h.keeps.mirrors.version
  have hseen : record.version = peer.buffer.version := hmakes.seen
  refine
    { keeps := hmakes.keeps
      defers := h.defers.makes h.keeps hmakes
      applied := ?_
      known := fun other hother => ?_
      settled := fun other hother => ?_
      tracks := htracks }
  · change Ledger.Applied _ after.version (peer.applied ++ [op])
    rw [hmakes.version]
    have happlied : (ledger.push record).Applied peer.buffer.version peer.applied :=
      h.applied.push hlawful hversion hfresh
    refine happlied.apply hmakes.lawful (hversion.push hfresh) mem_push ?_ (hfresh.not_observed hversion)
    rw [hseen]
    exact Global.observed_all_refl _
  · rw [mem_ops]
    obtain hother | hother := List.mem_append.mp hother
    · obtain ⟨source, hsource, heq⟩ := mem_ops.mp (h.known other hother)
      exact ⟨source, List.mem_append_left _ hsource, heq⟩
    · exact ⟨record, mem_push, (List.mem_singleton.mp hother).symm⟩
  · change other ∈ after.deferred_ops ∨ after.version.observed other.timestamp = true
    rw [hmakes.deferred_ops, hmakes.version]
    obtain hother | hother := List.mem_append.mp hother
    · exact (h.settled other hother).imp_right
        (Global.observed_of_observed_all (Global.observe_observed_all _ _))
    · rw [List.mem_singleton.mp hother]
      exact Or.inr (Global.observe_observed_self _ _)

theorem Follows.push (hlawful : ledger.Lawful) (h : ledger.Follows replica_id peer) {record : Record}
    (hfresh : ledger.Fresh record.timestamp) (hother : record.timestamp.replica_id ≠ replica_id) :
    (ledger.push record).Follows replica_id peer where
  keeps := h.keeps.push hfresh hother
  defers := h.defers.push
  applied := h.applied.push hlawful h.keeps.mirrors.version hfresh
  known op hop := by
    obtain ⟨source, hsource, heq⟩ := mem_ops.mp (h.known op hop)
    exact mem_ops.mpr ⟨source, List.mem_append_left _ hsource, heq⟩
  settled := h.settled
  tracks := h.tracks

theorem Follows.receive (hlawful : ledger.Lawful) (h : ledger.Follows replica_id peer) {ops : List Operation}
    (hops : ∀ op ∈ ops, op ∈ ledger.ops) :
    ledger.Follows replica_id (peer.receive ops) ∧
      (peer.receive ops).buffer.version.observed_all peer.buffer.version = true := by
  have happlies := h.keeps.apply_ops hlawful h.defers hops
  refine ⟨?_, happlies.grows⟩
  refine
    { keeps := happlies.keeps
      defers := happlies.defers
      applied := happlies.applied _ h.applied
      known := fun op hop => (List.mem_append.mp hop).elim (h.known op) (hops op)
      settled := fun op hop => ?_
      tracks := happlies.reports _ h.tracks }
  obtain hop | hop := List.mem_append.mp hop
  · obtain hdeferred | hobserved := h.settled op hop
    · exact happlies.settled op (List.mem_append_left _ hdeferred)
    · exact Or.inr (Global.observed_of_observed_all happlies.grows hobserved)
  · exact happlies.settled op (List.mem_append_right _ hop)

end Ledger

namespace Network

/-- A ledger of what the replicas did. -/
structure Recorded (ledger : Ledger) (base_text : Str) (network : Network) : Prop where
  lawful : ledger.Lawful
  base : ledger.base = utf8 (normalize base_text)
  ops : ledger.ops = network.ops
  follows : ∀ replica_id, ledger.Follows replica_id (network.peers replica_id)

/-- A ledger that has grown still has all that a snapshot shows. -/
def Retains (ledger later : Ledger) : Prop := ∀ snapshot, ledger.Mirrors snapshot → later.Mirrors snapshot

theorem new_keeps (base_text : Str) (replica_id remote_id : Nat) :
    (Ledger.start (utf8 (normalize base_text))).Keeps replica_id (Buffer.new replica_id remote_id base_text) := by
  have hmirrors := Ledger.new_mirrors replica_id remote_id (normalize base_text)
  have hclock : (Buffer.new replica_id remote_id base_text).lamport_clock.replica_id = replica_id ∧
      ∀ other, (Buffer.new replica_id remote_id base_text).version.get other <
        (Buffer.new replica_id remote_id base_text).lamport_clock.value := by
    by_cases hempty : utf8 (normalize base_text) = []
    · simp [Buffer.new, Buffer.new_normalized, hempty, Lamport.new, Buffer.version, Global.new_get]
    · simp only [Buffer.new, Buffer.new_normalized, if_neg hempty, Buffer.version]
      refine ⟨rfl, fun other => ?_⟩
      rw [Global.observe_get]
      simp only [Lamport.new, Lamport.observe, Global.new_get]
      split <;> omega
  exact
    { mirrors := hmirrors
      clock_replica := hclock.1
      clock_after := hclock.2
      own := fun record hmem => absurd hmem List.not_mem_nil
      operations_sorted := List.Pairwise.nil
      open_entry := fun hdepth => absurd hdepth (lt_irrefl 0)
      undo_known := fun edit_id hedit => absurd hedit List.not_mem_nil
      redo_known := fun edit_id hedit => absurd hedit List.not_mem_nil }

theorem start_recorded (base_text : Str) (remote_ids : Nat → Nat) :
    Recorded (Ledger.start (utf8 (normalize base_text))) base_text (start base_text remote_ids) := by
  refine ⟨Ledger.start_lawful, rfl, rfl, fun replica_id => ?_⟩
  refine
    { keeps := new_keeps base_text replica_id (remote_ids replica_id)
      defers := ⟨List.Pairwise.nil, fun _ hop => absurd hop List.not_mem_nil, fun _ hop => absurd hop List.not_mem_nil⟩
      applied := ⟨List.nodup_nil, fun op => ⟨fun hop => absurd hop List.not_mem_nil, ?_⟩, ?_⟩
      known := fun _ hop => absurd hop List.not_mem_nil
      settled := fun _ hop => absurd hop List.not_mem_nil
      tracks := List.Forall₂.nil }
  · rintro ⟨record, hmem, -⟩
    exact absurd hmem List.not_mem_nil
  · intro before op after heq
    simp [start] at heq

variable {ledger : Ledger} {base_text : Str} {network next : Network}

theorem forall_update {P : Nat → Peer → Prop} {replica_id : Nat} {peer : Peer} (hself : P replica_id peer)
    (hothers : ∀ other, other ≠ replica_id → P other (network.peers other)) (other : Nat) :
    P other (Function.update network.peers replica_id peer other) := by
  by_cases heq : other = replica_id
  · rw [heq, Function.update_self]
    exact hself
  · rw [Function.update_of_ne heq]
    exact hothers other heq

theorem Recorded.step (h : Recorded ledger base_text network) (hstep : Step network next) :
    ∃ later, Recorded later base_text next ∧ Retains ledger later ∧
      ∀ replica_id, (next.peers replica_id).buffer.version.observed_all
        (network.peers replica_id).buffer.version = true := by
  have hgrows : ∀ {replica_id : Nat} {peer : Peer}, peer.buffer.version.observed_all
      (network.peers replica_id).buffer.version = true → ∀ other,
      (Function.update network.peers replica_id peer other).buffer.version.observed_all
        (network.peers other).buffer.version = true := fun hpeer =>
    forall_update (P := fun other peer =>
      peer.buffer.version.observed_all (network.peers other).buffer.version = true) hpeer
      fun other _ => Global.observed_all_refl _
  cases hstep with
  | act replica_id action after made hallows hact =>
    have hfollows := h.follows replica_id
    have hknown : ∀ op ∈ network.ops, ∃ record ∈ ledger.records, record.op = op := fun op hop =>
      Ledger.mem_ops.mp (h.ops ▸ hop)
    obtain ⟨hacts, htracks⟩ := Buffer.act_spec h.lawful hfollows.keeps hknown hallows hact
    cases hacts with
    | quiet hkeeps hsnapshot hdeferred =>
      refine ⟨ledger, ⟨h.lawful, h.base, ?_, ?_⟩, fun _ hmirrors => hmirrors, hgrows ?_⟩
      · rw [h.ops, List.append_nil]
      · exact forall_update (hfollows.quiet hkeeps hsnapshot hdeferred (htracks _ hfollows.tracks))
          fun other _ => h.follows other
      · change Global.observed_all after.snapshot.version _ = true
        rw [hsnapshot]
        exact Global.observed_all_refl _
    | makes op hmakes =>
      refine ⟨_, ⟨hmakes.lawful, h.base, ?_, ?_⟩, fun _ hmirrors => hmirrors.push hmakes.fresh, hgrows ?_⟩
      · rw [← h.ops]
        exact List.map_append
      · refine forall_update (hfollows.makes h.lawful hmakes (htracks _ hfollows.tracks)) fun other hne => ?_
        exact (h.follows other).push h.lawful hmakes.fresh fun heq => hne (heq.symm.trans hmakes.replica)
      · change after.version.observed_all _ = true
        rw [hmakes.version]
        exact Global.observe_observed_all _ _
  | receive replica_id ops hops =>
    obtain ⟨hreceive, hversion⟩ := (h.follows replica_id).receive h.lawful fun op hop => h.ops ▸ hops hop
    exact ⟨ledger, ⟨h.lawful, h.base, h.ops, forall_update hreceive fun other _ => h.follows other⟩,
      fun _ hmirrors => hmirrors, hgrows hversion⟩

theorem Recorded.reaches (h : Recorded ledger base_text network) (hreaches : network.Reaches next) :
    ∃ later, Recorded later base_text next ∧ Retains ledger later ∧
      ∀ replica_id, (next.peers replica_id).buffer.version.observed_all
        (network.peers replica_id).buffer.version = true := by
  induction hreaches with
  | refl => exact ⟨ledger, h, fun _ hmirrors => hmirrors, fun _ => Global.observed_all_refl _⟩
  | tail _ hstep ih =>
    obtain ⟨middle, hmiddle, hretains, hversions⟩ := ih
    obtain ⟨later, hlater, hretainsLater, hversionsLater⟩ := hmiddle.step hstep
    exact ⟨later, hlater, fun _ hmirrors => hretainsLater _ (hretains _ hmirrors),
      fun replica_id => Global.observed_all_trans (hversionsLater replica_id) (hversions replica_id)⟩

theorem Reachable.recorded (h : Reachable base_text network) : ∃ ledger, Recorded ledger base_text network := by
  obtain ⟨remote_ids, hreaches⟩ := h
  obtain ⟨ledger, hrecorded, -⟩ := (start_recorded base_text remote_ids).reaches hreaches
  exact ⟨ledger, hrecorded⟩

def acted (network : Network) (replica_id : Nat) (action : Action) : Network :=
  match (network.peers replica_id).buffer.act action with
  | none => network
  | some (after, made) =>
    { peers := Function.update network.peers replica_id ((network.peers replica_id).act action after made)
      ops := network.ops ++ made }

/-- A replica is sent all operations, the last one first. -/
def sent (network : Network) (replica_id : Nat) : Network :=
  { network with
    peers := Function.update network.peers replica_id ((network.peers replica_id).receive network.ops.reverse) }

theorem Reachable.acted (h : Reachable base_text network) {replica_id : Nat} {action : Action}
    (hallows : (network.peers replica_id).buffer.Allows network.ops action) :
    Reachable base_text (network.acted replica_id action) := by
  obtain ⟨remote_ids, hreaches⟩ := h
  refine ⟨remote_ids, ?_⟩
  unfold Network.acted
  cases hact : (network.peers replica_id).buffer.act action with
  | none => exact hreaches
  | some result => exact hreaches.tail (.act replica_id _ result.1 result.2 hallows hact)

theorem Reachable.sent (h : Reachable base_text network) (replica_id : Nat) :
    Reachable base_text (network.sent replica_id) := by
  obtain ⟨remote_ids, hreaches⟩ := h
  exact ⟨remote_ids, hreaches.tail (.receive replica_id _ fun _ hop => List.mem_reverse.mp hop)⟩

theorem acted_of_ne (network : Network) {replica_id other : Nat} (action : Action) (hne : other ≠ replica_id) :
    (network.acted replica_id action).peers other = network.peers other := by
  unfold acted
  split
  · rfl
  · exact Function.update_of_ne hne _ _

/-- Two replicas of one text, one with a subscription, before they do anything. -/
def subscribed : Network := (start ['a', 'b'] id).acted 1 .subscribe

/-- The replicas edit the text at the same time. -/
def edited : Network :=
  (subscribed.acted 1 (.edit [(⟨1, 1⟩, ['c'])] 0 0)).acted 2 (.edit [(⟨0, 1⟩, ['d'])] 0 0)

/-- They are sent what both did. -/
def sample : Network := (edited.sent 1).sent 2

theorem edited_reachable : Reachable ['a', 'b'] edited := by
  have hstart : Reachable ['a', 'b'] (start ['a', 'b'] id) := ⟨id, Relation.ReflTransGen.refl⟩
  have hsubscribed : Reachable ['a', 'b'] subscribed := hstart.acted trivial
  have hlength : ∀ replica_id, (subscribed.peers replica_id).buffer.snapshot.visible_text.length = 2 := by
    intro replica_id
    by_cases heq : replica_id = 1
    · rw [heq]
      rfl
    · rw [subscribed, acted_of_ne _ _ heq]
      rfl
  have hfirst : Reachable ['a', 'b'] (subscribed.acted 1 (.edit [(⟨1, 1⟩, ['c'])] 0 0)) := by
    refine hsubscribed.acted ?_
    rw [Buffer.Allows, hlength]
    simp [EditsFrom]
  refine hfirst.acted ?_
  rw [Buffer.Allows, acted_of_ne _ _ (by decide), hlength]
  simp [EditsFrom]

theorem sample_reachable : Reachable ['a', 'b'] sample := (edited_reachable.sent 1).sent 2

theorem edited_reaches : edited.Reaches sample := by
  have hfirst : edited.Reaches (edited.sent 1) :=
    Relation.ReflTransGen.single (.receive 1 _ fun _ hop => List.mem_reverse.mp hop)
  exact hfirst.tail (.receive 2 _ fun _ hop => List.mem_reverse.mp hop)

example : (edited.peers 1).buffer.snapshot.visible_text = utf8 ['a', 'c', 'b'] ∧
    (edited.peers 2).buffer.snapshot.visible_text = utf8 ['d', 'b'] ∧
    (sample.peers 2).buffer.snapshot.visible_text = utf8 ['d', 'c', 'b'] := by
  decide +kernel

theorem sample_has {replica_id : Nat} (h : replica_id = 1 ∨ replica_id = 2) :
    ∀ op ∈ sample.ops, op ∈ (sample.peers replica_id).has := by
  intro op hop
  obtain rfl | rfl := h
  · exact List.mem_append_right _ (List.mem_reverse.mpr hop)
  · exact List.mem_append_right _ (List.mem_reverse.mpr hop)

end Network

end zed.text
