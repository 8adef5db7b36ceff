import Mahimahi.ByteStreamQueue
import Mahimahi.PollerRounds
import Mahimahi.ReadWrite

/-!
# The DNS proxy between a client and a server

`DNSProxy::handle_tcp` gives every connection a thread with two byte streams
between two sockets, and registers four actions with a poller: each socket is read
into its stream while there is space, and written from the stream of the other one
while there are bytes.

The streams assert what the actions were asked for, and an action is called for the
interest that it showed before the callbacks in front of it. So the argument has two
parts. What has been read from one socket is what has been written to the other one
and what the stream between them holds (`Accounted`); and a push only adds bytes and
a pop only makes space, so that nobody takes away what another action wants
(`leaves_actions`). The rest is `Poller.rounds_sound`.
-/

namespace Mahimahi

namespace DNSProxy

open Poller

inductive Side where
  | dnsServer
  | client
  deriving DecidableEq, Repr

def Side.other : Side → Side
  | dnsServer => client
  | client => dnsServer

@[simp] theorem Side.other_other (side : Side) : side.other.other = side := by
  cases side <;> rfl

theorem Side.other_ne (side : Side) : side.other ≠ side := by
  cases side <;> simp [other]

theorem Side.eq_or_eq_other (side side' : Side) : side' = side ∨ side' = side.other := by
  cases side <;> cases side' <;> simp [other]

/-- A connected socket; with it, for the record, what has been read from it and
written to it. -/
structure Socket where
  fd : FileDescriptor
  received : Bytes
  sent : Bytes
  deriving DecidableEq, Repr

/-- The thread of a connection. `queue .dnsServer` is the stream `from_server`, and
`queue .client` is `from_client`. -/
structure Relay where
  socket : Side → Socket
  queue : Side → ByteStreamQueue

/-- What the system calls answer in a callback. -/
structure Call where
  read : Option Bytes
  write : Option Nat
  deriving DecidableEq, Repr

/-! ## The byte streams and their descriptors -/

/-- `push( fd )`. -/
def push (x : Call) (socket : Socket) (queue : ByteStreamQueue) :
    Except Fault (ByteStreamQueue.Result × Socket × ByteStreamQueue) := do
  assertThat queue.spaceAvailable "space_available()"
  assertThat (queue.contiguousSpaceToPush > 0) "contiguous_space_to_push > 0"
  let (newChunk, fd) ← socket.fd.read queue.contiguousSpaceToPush x.read
  let (result, queue) ← queue.push newChunk
  return (result, { socket with fd := fd, received := socket.received ++ newChunk }, queue)

/-- `pop( fd )`. -/
def pop (x : Call) (socket : Socket) (queue : ByteStreamQueue) :
    Except Fault (Socket × ByteStreamQueue) := do
  assertThat queue.nonEmpty "non_empty()"
  let offered := (queue.buffer.drop queue.nextByteToPop).take queue.contiguousSpaceToPop
  let (n, fd) ← socket.fd.writeSome offered x.write
  let (bytes, queue) ← queue.pop n
  return ({ socket with fd := fd, sent := socket.sent ++ bytes }, queue)

/-! ## The actions -/

def Relay.setSocket (r : Relay) (side : Side) (socket : Socket) : Relay :=
  { r with socket := Function.update r.socket side socket }

def Relay.setQueue (r : Relay) (side : Side) (queue : ByteStreamQueue) : Relay :=
  { r with queue := Function.update r.queue side queue }

/-- The `Direction::In` action of a socket. -/
def inAction (side : Side) : Action Relay Call where
  fd r := (r.socket side).fd
  direction := .input
  callback x r := do
    let (result, socket, queue) ← push x (r.socket side) (r.queue side)
    let r := (r.setSocket side socket).setQueue side queue
    return (if result = .endOfFile then .cancel else .goOn, r)
  whenInterested r := (r.queue side).spaceAvailable
  active := true

/-- The `Direction::Out` action of a socket, which writes what has come from the other
one. -/
def outAction (side : Side) : Action Relay Call where
  fd r := (r.socket side).fd
  direction := .output
  callback x r := do
    let (socket, queue) ← pop x (r.socket side) (r.queue side.other)
    return (.goOn, (r.setSocket side socket).setQueue side.other queue)
  whenInterested r := (r.queue side.other).nonEmpty
  active := true

/-- The actions in the order in which they are added to the poller. -/
def actions : List (Action Relay Call) :=
  [inAction .dnsServer, inAction .client, outAction .dnsServer, outAction .client]

/-- `BUFFER_SIZE`. -/
def bufferSize : Nat := 1024 * 1024

def start (dnsServer client : FileDescriptor) (fromClient fromServer : ByteStreamQueue) : Relay where
  socket
    | .dnsServer => ⟨dnsServer, [], []⟩
    | .client => ⟨client, [], []⟩
  queue
    | .dnsServer => fromServer
    | .client => fromClient

/-- The thread of `handle_tcp`, with queues of `size` bytes, as far as the answers of
`::poll` given. -/
def handleTcp (size : Nat) (dnsServer client : FileDescriptor) (answers : List (Answer Call)) :
    Except Fault (Option Exit × List (Action Relay Call) × Relay) := do
  let fromClient ← ByteStreamQueue.create size
  let fromServer ← ByteStreamQueue.create size
  rounds answers actions (start dnsServer client fromClient fromServer)

/-! ## What a push and a pop do -/

/-- What a push does to its socket and its queue. -/
structure Pushed (socket : Socket) (queue : ByteStreamQueue)
    (r : ByteStreamQueue.Result × Socket × ByteStreamQueue) (chunk : Bytes) : Prop where
  fd : r.2.1.fd = socket.fd.afterRead chunk
  received : r.2.1.received = socket.received ++ chunk
  sent : r.2.1.sent = socket.sent
  valid : r.2.2.Valid
  size : r.2.2.buffer.length = queue.buffer.length
  contents : r.2.2.contents = queue.contents ++ chunk
  eof : r.1 = .endOfFile ↔ chunk = []

theorem push_outcome {socket : Socket} {queue : ByteStreamQueue} (x : Call) (h : queue.Valid)
    (hspace : queue.spaceAvailable = true) :
    Outcome FileDescriptor.CallFault (fun r => ∃ chunk, Pushed socket queue r chunk)
      (push x socket queue) := by
  have hlt := h.push_lt
  have hcontiguous : queue.contiguousSpaceToPush > 0 := by
    have havailable : queue.availableToPush > 0 := of_decide_eq_true hspace
    rw [ByteStreamQueue.availableToPush_eq h] at havailable
    rw [ByteStreamQueue.contiguousSpaceToPush_eq h]
    omega
  refine .assertThat hspace (.assertThat (decide_eq_true hcontiguous) ?_)
  refine (FileDescriptor.read_outcome _ _ _).bind ?_
  rintro ⟨chunk, fd⟩ ⟨hle, hfd⟩
  by_cases hne : chunk = []
  · subst hne
    simp only [ByteStreamQueue.push_nil h hspace, ok_bind]
    exact ⟨[], hfd, rfl, rfl, h, rfl, (List.append_nil _).symm, by simp⟩
  · obtain ⟨hpush, hcontents, -⟩ := ByteStreamQueue.push_eq h hspace hne hle
    simp only [hpush, ok_bind]
    refine ⟨chunk, hfd, rfl, rfl, (ByteStreamQueue.valid_pushed h hle).1, ?_, hcontents,
      by simp [hne]⟩
    simp only [ByteStreamQueue.contiguousSpaceToPush_eq h] at hle
    exact Ring.length_overwrite (by omega)

theorem nonEmpty_iff {queue : ByteStreamQueue} (h : queue.Valid) :
    queue.nonEmpty = true ↔ queue.contents ≠ [] := by
  rw [ByteStreamQueue.nonEmpty, decide_eq_true_iff, ByteStreamQueue.availableToPop_eq h,
    ← ByteStreamQueue.length_contents h]
  exact List.length_pos_iff

theorem spaceAvailable_iff {queue : ByteStreamQueue} (h : queue.Valid) :
    queue.spaceAvailable = true ↔ queue.contents.length < queue.buffer.length - 1 := by
  rw [ByteStreamQueue.spaceAvailable, decide_eq_true_iff, ByteStreamQueue.availableToPush_eq h,
    ByteStreamQueue.length_contents h]
  omega

/-- What a pop does to its socket and its queue. -/
structure Popped (socket : Socket) (queue : ByteStreamQueue) (r : Socket × ByteStreamQueue)
    (bytes : Bytes) : Prop where
  fd : r.1.fd = socket.fd.afterWrites 1
  received : r.1.received = socket.received
  sent : r.1.sent = socket.sent ++ bytes
  some : bytes ≠ []
  valid : r.2.Valid
  size : r.2.buffer.length = queue.buffer.length
  contents : queue.contents = bytes ++ r.2.contents

theorem pop_outcome {socket : Socket} {queue : ByteStreamQueue} (x : Call) (h : queue.Valid)
    (hnonEmpty : queue.nonEmpty = true) :
    Outcome FileDescriptor.CallFault (fun r => ∃ bytes, Popped socket queue r bytes)
      (pop x socket queue) := by
  have hlt := h.pop_lt
  have hcount : 0 < queue.count := by
    have havailable : queue.availableToPop > 0 := of_decide_eq_true hnonEmpty
    rwa [ByteStreamQueue.availableToPop_eq h] at havailable
  have hcontiguous := ByteStreamQueue.contiguousSpaceToPop_eq h
  have hoffered : ((queue.buffer.drop queue.nextByteToPop).take
      queue.contiguousSpaceToPop).length = queue.contiguousSpaceToPop := by
    rw [List.length_take, List.length_drop]
    omega
  have hne : (queue.buffer.drop queue.nextByteToPop).take queue.contiguousSpaceToPop ≠ [] := by
    rw [← List.length_pos_iff, hoffered]
    omega
  refine .assertThat hnonEmpty ((FileDescriptor.writeSome_outcome hne _ _).bind ?_)
  rintro ⟨n, fd⟩ ⟨hpos, hle, rfl⟩
  simp only [hoffered] at hpos hle
  obtain ⟨hpop, hcontents⟩ := ByteStreamQueue.pop_eq h hnonEmpty hle
  simp only [hpop, ok_bind]
  refine ⟨_, rfl, rfl, rfl, ?_, (ByteStreamQueue.valid_popped h hle).1, rfl, ?_⟩
  · rw [← List.length_pos_iff, List.length_take, ByteStreamQueue.length_contents h]
    omega
  · rw [hcontents, List.take_append_drop]

/-! ## What the callbacks do -/

/-- The account of the bytes: what has been read from a socket is what has been written
to the other one, and what is queued between them. -/
structure Accounted (size : Nat) (r : Relay) : Prop where
  valid : ∀ side, (r.queue side).Valid
  size : ∀ side, (r.queue side).buffer.length = size
  flow : ∀ side, (r.socket side).received
    = (r.socket side.other).sent ++ (r.queue side).contents

variable {size : Nat} {r r' : Relay} {side : Side} {x : Call}

/-- A call of an `In` action. -/
structure Read (side : Side) (r r' : Relay) (result : ActionResult) (chunk : Bytes) : Prop where
  fd : (r'.socket side).fd = (r.socket side).fd.afterRead chunk
  received : (r'.socket side).received = (r.socket side).received ++ chunk
  sent : (r'.socket side).sent = (r.socket side).sent
  valid : (r'.queue side).Valid
  size : (r'.queue side).buffer.length = (r.queue side).buffer.length
  contents : (r'.queue side).contents = (r.queue side).contents ++ chunk
  otherSocket : r'.socket side.other = r.socket side.other
  otherQueue : r'.queue side.other = r.queue side.other
  result : result = if chunk = [] then .cancel else .goOn

theorem inAction_outcome (side : Side) (x : Call) (h : Accounted size r)
    (hspace : (r.queue side).spaceAvailable = true) :
    Outcome FileDescriptor.CallFault (fun p => ∃ chunk, Read side r p.2 p.1 chunk)
      ((inAction side).callback x r) := by
  refine (push_outcome x (h.valid side) hspace).bind ?_
  rintro ⟨result, socket, queue⟩ ⟨chunk, hpushed⟩
  refine ⟨chunk, ?_, ?_, ?_, ?_, ?_, ?_, ?_, ?_, ?_⟩
  · simpa [Relay.setSocket, Relay.setQueue] using hpushed.fd
  · simpa [Relay.setSocket, Relay.setQueue] using hpushed.received
  · simpa [Relay.setSocket, Relay.setQueue] using hpushed.sent
  · simpa [Relay.setSocket, Relay.setQueue] using hpushed.valid
  · simpa [Relay.setSocket, Relay.setQueue] using hpushed.size
  · simpa [Relay.setSocket, Relay.setQueue] using hpushed.contents
  · exact Function.update_of_ne side.other_ne _ _
  · exact Function.update_of_ne side.other_ne _ _
  · exact if_congr hpushed.eof rfl rfl

/-- A call of an `Out` action. -/
structure Wrote (side : Side) (r r' : Relay) (result : ActionResult) (bytes : Bytes) : Prop where
  fd : (r'.socket side).fd = (r.socket side).fd.afterWrites 1
  received : (r'.socket side).received = (r.socket side).received
  sent : (r'.socket side).sent = (r.socket side).sent ++ bytes
  some : bytes ≠ []
  valid : (r'.queue side.other).Valid
  size : (r'.queue side.other).buffer.length = (r.queue side.other).buffer.length
  contents : (r.queue side.other).contents = bytes ++ (r'.queue side.other).contents
  otherSocket : r'.socket side.other = r.socket side.other
  otherQueue : r'.queue side = r.queue side
  result : result = .goOn

theorem outAction_outcome (side : Side) (x : Call) (h : Accounted size r)
    (hnonEmpty : (r.queue side.other).nonEmpty = true) :
    Outcome FileDescriptor.CallFault (fun p => ∃ bytes, Wrote side r p.2 p.1 bytes)
      ((outAction side).callback x r) := by
  refine (pop_outcome x (h.valid side.other) hnonEmpty).bind ?_
  rintro ⟨socket, queue⟩ ⟨bytes, hpopped⟩
  refine ⟨bytes, ?_, ?_, ?_, hpopped.some, ?_, ?_, ?_, ?_, ?_, rfl⟩
  · simpa [Relay.setSocket, Relay.setQueue] using hpopped.fd
  · simpa [Relay.setSocket, Relay.setQueue] using hpopped.received
  · simpa [Relay.setSocket, Relay.setQueue] using hpopped.sent
  · simpa [Relay.setSocket, Relay.setQueue] using hpopped.valid
  · simpa [Relay.setSocket, Relay.setQueue] using hpopped.size
  · simpa [Relay.setSocket, Relay.setQueue] using hpopped.contents
  · exact Function.update_of_ne side.other_ne _ _
  · exact Function.update_of_ne side.other_ne.symm _ _

variable {result : ActionResult} {chunk bytes : Bytes}

theorem Read.accounted (h : Read side r r' result chunk) (hr : Accounted size r) : Accounted size r' where
  valid := by
    intro s
    rcases side.eq_or_eq_other s with rfl | rfl
    · exact h.valid
    · rw [h.otherQueue]
      exact hr.valid _
  size := by
    intro s
    rcases side.eq_or_eq_other s with rfl | rfl
    · rw [h.size, hr.size]
    · rw [h.otherQueue, hr.size]
  flow := by
    intro s
    rcases side.eq_or_eq_other s with rfl | rfl
    · rw [h.received, h.contents, h.otherSocket, hr.flow, List.append_assoc]
    · rw [h.otherSocket, h.otherQueue, Side.other_other, h.sent, hr.flow, Side.other_other]

theorem Wrote.accounted (h : Wrote side r r' result bytes) (hr : Accounted size r) : Accounted size r' where
  valid := by
    intro s
    rcases side.eq_or_eq_other s with rfl | rfl
    · rw [h.otherQueue]
      exact hr.valid _
    · exact h.valid
  size := by
    intro s
    rcases side.eq_or_eq_other s with rfl | rfl
    · rw [h.otherQueue, hr.size]
    · rw [h.size, hr.size]
  flow := by
    intro s
    rcases side.eq_or_eq_other s with rfl | rfl
    · rw [h.received, h.otherQueue, h.otherSocket, hr.flow]
    · rw [h.otherSocket, Side.other_other, h.sent, hr.flow, Side.other_other, h.contents,
        List.append_assoc]

theorem Read.eof (h : Read side r r' result chunk) {s : Side} (hs : (r.socket s).fd.eof = true) :
    (r'.socket s).fd.eof = true := by
  rcases side.eq_or_eq_other s with rfl | rfl
  · rw [h.fd, FileDescriptor.afterRead, hs, Bool.true_or]
  · rw [h.otherSocket]
    exact hs

theorem Wrote.eof (h : Wrote side r r' result bytes) (s : Side) :
    (r'.socket s).fd.eof = (r.socket s).fd.eof := by
  rcases side.eq_or_eq_other s with rfl | rfl
  · rw [h.fd]
    rfl
  · rw [h.otherSocket]

/-! ## What the poller needs of the actions -/

/-- An action that has been cancelled reads a socket that has ended. -/
def EndsCancelled (a : Action Relay Call) (r : Relay) : Prop :=
  a.active = false → a.direction = .input ∧ ∃ side, (a.fd = fun r => (r.socket side).fd) ∧
    (r.socket side).fd.eof = true

theorem wants_inAction {side : Side} :
    (inAction side).wants r = true ↔
      (r.queue side).spaceAvailable = true ∧ (r.socket side).fd.eof = false := by
  simp [Action.wants, inAction]

theorem wants_outAction {side : Side} :
    (outAction side).wants r = true ↔ (r.queue side.other).nonEmpty = true := by
  simp [Action.wants, outAction]

theorem serves_inAction (side : Side) :
    Serves (Accounted size) FileDescriptor.CallFault EndsCancelled (inAction side) where
  serves x r hr hwants := by
    refine (inAction_outcome side x hr (wants_inAction.mp hwants).1).mono (fun e he => he) ?_
    rintro ⟨result, r'⟩ ⟨chunk, hread⟩
    have hcount : (r.socket side).fd.readCount ≠ (r'.socket side).fd.readCount := by
      rw [hread.fd]
      exact FileDescriptor.u32_succ_ne _
    refine ⟨hread.accounted hr, fun heq => absurd heq hcount, fun hcancel _ =>
      ⟨rfl, side, rfl, ?_⟩⟩
    · have hnil : chunk = [] := by
        by_contra hne
        have := hread.result
        rw [if_neg hne] at this
        rw [this] at hcancel
        cases hcancel
      show (r'.socket side).fd.eof = true
      rw [hread.fd, hnil]
      simp [FileDescriptor.afterRead]
  keeps x r p hr hwants hcall b hb hactive := by
    obtain ⟨chunk, hread⟩ := (inAction_outcome side x hr (wants_inAction.mp hwants).1).of_ok hcall
    obtain ⟨hin, s, hfd, heof⟩ := hb hactive
    exact ⟨hin, s, hfd, hread.eof heof⟩

theorem serves_outAction (side : Side) :
    Serves (Accounted size) FileDescriptor.CallFault EndsCancelled (outAction side) where
  serves x r hr hwants := by
    refine (outAction_outcome side x hr (wants_outAction.mp hwants)).mono (fun e he => he) ?_
    rintro ⟨result, r'⟩ ⟨bytes, hwrote⟩
    have hcount : (r.socket side).fd.writeCount ≠ (r'.socket side).fd.writeCount := by
      rw [hwrote.fd]
      exact FileDescriptor.u32_succ_ne _
    refine ⟨hwrote.accounted hr, fun heq => absurd heq hcount, fun hcancel => ?_⟩
    have := hwrote.result.symm.trans hcancel
    cases this
  keeps x r p hr hwants hcall b hb hactive := by
    obtain ⟨bytes, hwrote⟩ := (outAction_outcome side x hr (wants_outAction.mp hwants)).of_ok hcall
    obtain ⟨hin, s, hfd, heof⟩ := hb hactive
    exact ⟨hin, s, hfd, (hwrote.eof s).trans heof⟩

/-- A read takes nothing from the other socket's read, and none of the bytes that are
to be written. -/
theorem leaves_inAction (side side' : Side) :
    (side' ≠ side → Leaves (Accounted size) (inAction side) (inAction side')) ∧
      Leaves (Accounted size) (inAction side) (outAction side') := by
  constructor
  · intro hne x r p hr hwants hcall hb
    obtain ⟨chunk, hread⟩ := (inAction_outcome side x hr (wants_inAction.mp hwants).1).of_ok hcall
    obtain rfl : side' = side.other := (side.eq_or_eq_other side').resolve_left hne
    rw [wants_inAction] at hb ⊢
    rw [hread.otherQueue, hread.otherSocket]
    exact hb
  · intro x r p hr hwants hcall hb
    obtain ⟨chunk, hread⟩ := (inAction_outcome side x hr (wants_inAction.mp hwants).1).of_ok hcall
    rw [wants_outAction] at hb ⊢
    rcases side.eq_or_eq_other side'.other with hside | hside
    · rw [hside] at hb ⊢
      rw [nonEmpty_iff (hr.valid side)] at hb
      rw [nonEmpty_iff hread.valid, hread.contents]
      simp [hb]
    · rw [hside] at hb ⊢
      rw [hread.otherQueue]
      exact hb

theorem leaves_outAction {side side' : Side} (hne : side' ≠ side) :
    Leaves (Accounted size) (outAction side) (outAction side') := by
  intro x r p hr hwants hcall hb
  obtain ⟨bytes, hwrote⟩ := (outAction_outcome side x hr (wants_outAction.mp hwants)).of_ok hcall
  obtain rfl : side' = side.other := (side.eq_or_eq_other side').resolve_left hne
  rw [wants_outAction, Side.other_other] at hb ⊢
  rw [hwrote.otherQueue]
  exact hb

theorem serves_actions :
    ∀ a ∈ actions, Serves (Accounted size) FileDescriptor.CallFault EndsCancelled a := by
  intro a ha
  simp only [actions, List.mem_cons, List.not_mem_nil, or_false] at ha
  rcases ha with rfl | rfl | rfl | rfl
  · exact serves_inAction _
  · exact serves_inAction _
  · exact serves_outAction _
  · exact serves_outAction _

theorem leaves_actions : actions.Pairwise (Leaves (Accounted size)) := by
  have hin : Leaves (Accounted size) (inAction .dnsServer) (inAction .client) :=
    (leaves_inAction .dnsServer .client).1 (by simp)
  have hout : Leaves (Accounted size) (outAction .dnsServer) (outAction .client) :=
    leaves_outAction (by simp)
  simp [actions, List.pairwise_cons, hin, hout, (leaves_inAction _ _).2]

/-! ## The relay -/

theorem create_eq_ok (hsize : 1 < size) (hmax : size ≤ ByteStreamQueue.maxSize) :
    ByteStreamQueue.create size = .ok ⟨List.replicate size 0, 0, 0⟩ := by
  rw [ByteStreamQueue.create, if_neg (by omega)]
  simp [hsize]

theorem handleTcp_eq (hsize : 1 < size) (hmax : size ≤ ByteStreamQueue.maxSize)
    (dnsServer client : FileDescriptor) (answers : List (Answer Call)) :
    ∃ queue, ByteStreamQueue.create size = .ok queue ∧
      Accounted size (start dnsServer client queue queue) ∧
      handleTcp size dnsServer client answers
        = rounds answers actions (start dnsServer client queue queue) := by
  have hcreate := create_eq_ok hsize hmax
  obtain ⟨hvalid, hcontents, hlen⟩ := ByteStreamQueue.create_ok hcreate
  refine ⟨_, hcreate, ⟨?_, ?_, ?_⟩, ?_⟩
  · intro side
    cases side <;> exact hvalid
  · intro side
    cases side <;> exact hlen
  · intro side
    cases side <;> exact hcontents.symm
  · rw [handleTcp, hcreate]
    rfl

theorem endsCancelled_actions : ∀ a ∈ actions, EndsCancelled a r := by
  intro a ha hactive
  simp only [actions, List.mem_cons, List.not_mem_nil, or_false] at ha
  rcases ha with rfl | rfl | rfl | rfl <;> cases hactive

/-- What has been written to a side and what is queued for it is what has been read from
the other one, and there is room in its queue for one byte more. -/
structure Faithful (size : Nat) (r : Relay) : Prop where
  flow : ∀ side, (r.socket side.other).sent ++ (r.queue side).contents = (r.socket side).received
  room : ∀ side, (r.queue side).contents.length < size

theorem Accounted.faithful (h : Accounted size r) : Faithful size r where
  flow side := (h.flow side).symm
  room side := by
    have := ByteStreamQueue.count_lt (h.valid side)
    rwa [← ByteStreamQueue.length_contents (h.valid side), h.size] at this

/-- **The relay is faithful.** However `::poll`, the reads and the writes answer: no
assertion fails and no busy wait is found, a thread can only be ended by a system call
that fails, and after every round what each side has been sent and what is queued for it
is, in order and unchanged, what the other one has sent; and a queue never holds as much as
its size. -/
theorem relay_is_faithful (hsize : 1 < size) (hmax : size ≤ ByteStreamQueue.maxSize)
    (dnsServer client : FileDescriptor) (answers : List (Answer Call)) :
    Outcome (fun e => e = .systemError "poll" ∨ FileDescriptor.CallFault e)
      (fun r => Faithful size r.2.2) (handleTcp size dnsServer client answers) := by
  obtain ⟨queue, -, hr, heq⟩ := handleTcp_eq hsize hmax dnsServer client answers
  rw [heq]
  exact (rounds_sound answers serves_actions leaves_actions hr endsCancelled_actions).mono
    (fun e he => he) fun p hp => hp.1.faithful

/-- The server answers three bytes to one of the client, which has read two of them. -/
def halfWay : List (Answer Call) :=
  [.events (fun i => ⟨false, i == 0 || i == 1⟩) fun i => ⟨some (if i = 0 then [7, 8, 9] else [1]), none⟩,
    .timeout, .events (fun i => ⟨false, i == 2 || i == 3⟩) fun _ => ⟨none, some 2⟩]

theorem relay_is_faithful_halfWay :
    ∃ e acts r, handleTcp 8 (.initial 3) (.initial 4) halfWay = .ok (e, acts, r) ∧
      (r.socket .client).sent = [7, 8] ∧ (r.queue .dnsServer).contents = [9] ∧ Faithful 8 r := by
  have hfaithful := @relay_is_faithful 8 (by decide) (by decide) (.initial 3) (.initial 4) halfWay
  have hrun : ((handleTcp 8 (.initial 3) (.initial 4) halfWay).toOption.map
      fun p => ((p.2.2.socket .client).sent, (p.2.2.queue .dnsServer).contents))
        = some ([7, 8], [9]) := by
    decide +kernel
  cases h : handleTcp 8 (.initial 3) (.initial 4) halfWay with
  | error e =>
      rw [h] at hrun
      cases hrun
  | ok p =>
      rw [h] at hrun
      obtain ⟨hsent, hqueued⟩ := Prod.mk.inj (Option.some.inj hrun)
      exact ⟨p.1, p.2.1, p.2.2, rfl, hsent, hqueued, hfaithful.of_ok h⟩

/-! ## The end of the relay -/

/-- Both peers have ended, and each has been sent all that the other one has sent. -/
def Done (r : Relay) : Prop :=
  ∀ side, (r.socket side).fd.eof = true ∧ (r.socket side.other).sent = (r.socket side).received

theorem Accounted.done_iff (h : Accounted size r) :
    Done r ↔ ∀ side, (r.socket side).fd.eof = true ∧ (r.queue side).contents = [] := by
  refine forall_congr' fun side => and_congr_right fun _ => ?_
  rw [h.flow side]
  exact ⟨fun heq => by simpa using heq, fun hnil => by rw [hnil, List.append_nil]⟩

/-- Nobody is interested any more exactly when the relay is done. -/
theorem quiet_iff_done {acts : List (Action Relay Call)} (h : Accounted size r)
    (hsame : List.Forall₂ SameBut actions acts) (hcancelled : ∀ a ∈ acts, EndsCancelled a r) :
    (∀ a ∈ acts, a.asks r = false) ↔ Done r := by
  rw [h.done_iff]
  constructor
  · intro hquiet
    have hempty : ∀ side, (r.queue side).contents = [] := by
      intro side
      obtain ⟨a, ha, hab⟩ := (exists_sameBut hsame).1 (outAction side.other)
        (by cases side <;> simp [actions, Side.other])
      have hactive : a.active = true := by
        rw [← Bool.not_eq_false]
        intro hoff
        have := (hcancelled a ha hoff).1
        rw [hab] at this
        cases this
      have hasks := hquiet a ha
      rw [asks_eq, hactive, Bool.true_and, hab] at hasks
      by_contra hne
      have hwants : (outAction side.other).wants r = true := by
        rw [wants_outAction, Side.other_other, nonEmpty_iff (h.valid side)]
        exact hne
      exact absurd hwants (by simpa [Action.wants, outAction] using hasks)
    intro side
    refine ⟨?_, hempty side⟩
    obtain ⟨a, ha, hab⟩ := (exists_sameBut hsame).1 (inAction side)
      (by cases side <;> simp [actions])
    cases hactive : a.active with
    | false =>
        obtain ⟨-, side', hfd, heof⟩ := hcancelled a ha hactive
        have hfd' : a.fd r = (r.socket side).fd := by
          rw [hab]
          rfl
        rw [hfd] at hfd'
        rw [← hfd']
        exact heof
    | true =>
        have hasks := hquiet a ha
        rw [asks_eq, hactive, Bool.true_and, hab] at hasks
        by_contra heof
        have hwants : (inAction side).wants r = true := by
          rw [wants_inAction, spaceAvailable_iff (h.valid side), hempty side]
          have := (h.valid side).size
          exact ⟨by rw [List.length_nil]; omega, by simpa using heof⟩
        exact absurd hwants (by simpa [Action.wants, inAction] using hasks)
  · intro hdone a ha
    obtain ⟨b, hb, hab⟩ := (exists_sameBut hsame).2 a ha
    have hin : ∀ side, (inAction side).wants r = false := by
      intro side
      simp [Action.wants, inAction, (hdone side).1]
    have hout : ∀ side, (outAction side).wants r = false := by
      intro side
      rw [← Bool.not_eq_true, wants_outAction, nonEmpty_iff (h.valid _)]
      exact fun hne => hne (hdone side.other).2
    have hwants : b.wants r = false := by
      simp only [actions, List.mem_cons, List.not_mem_nil, or_false] at hb
      rcases hb with rfl | rfl | rfl | rfl
      · exact hin _
      · exact hin _
      · exact hout _
      · exact hout _
    rw [asks_eq, hab]
    show (_ && b.wants r) = false
    rw [hwants, Bool.and_false]

/-- The bytes that have been read and written, and the ends that have been found. -/
def moved (r : Relay) : Nat :=
  ((r.socket .dnsServer).received.length + (r.socket .dnsServer).sent.length
      + (r.socket .dnsServer).fd.eof.toNat) +
    ((r.socket .client).received.length + (r.socket .client).sent.length
      + (r.socket .client).fd.eof.toNat)

theorem moved_eq (r : Relay) (side : Side) : moved r =
    ((r.socket side).received.length + (r.socket side).sent.length + (r.socket side).fd.eof.toNat)
      + ((r.socket side.other).received.length + (r.socket side.other).sent.length
        + (r.socket side.other).fd.eof.toNat) := by
  cases side
  · rfl
  · rw [moved, Nat.add_comm]
    rfl

/-- A read moves a byte at least or finds the end, which is not looked for again. -/
theorem advances_inAction (side : Side) : Advances (Accounted size) moved (inAction side) := by
  intro x r p hr hwants hcall
  obtain ⟨hspace, heof⟩ := wants_inAction.mp hwants
  obtain ⟨chunk, hread⟩ := (inAction_outcome side x hr hspace).of_ok hcall
  constructor
  · rw [moved_eq r side, moved_eq p.2 side, hread.otherSocket, hread.received, hread.sent, hread.fd,
      FileDescriptor.afterRead, heof, Bool.false_or, List.length_append]
    cases chunk with
    | nil => simp
    | cons b bs =>
        simp only [List.length_cons, List.isEmpty_cons, Bool.toNat_false]
        omega
  · intro status
    rw [hread.result]
    split <;> simp

theorem advances_outAction (side : Side) : Advances (Accounted size) moved (outAction side) := by
  intro x r p hr hwants hcall
  obtain ⟨bytes, hwrote⟩ := (outAction_outcome side x hr (wants_outAction.mp hwants)).of_ok hcall
  have hpos : 0 < bytes.length := List.length_pos_iff.mpr hwrote.some
  constructor
  · rw [moved_eq r side, moved_eq p.2 side, hwrote.otherSocket, hwrote.received, hwrote.sent,
      hwrote.eof, List.length_append]
    omega
  · intro status
    rw [hwrote.result]
    simp

theorem advances_actions : ∀ a ∈ actions, Advances (Accounted size) moved a := by
  intro a ha
  simp only [actions, List.mem_cons, List.not_mem_nil, or_false] at ha
  rcases ha with rfl | rfl | rfl | rfl
  · exact advances_inAction _
  · exact advances_inAction _
  · exact advances_outAction _
  · exact advances_outAction _

theorem Accounted.moved_le (h : Accounted size r) : moved r ≤
    2 * ((r.socket .dnsServer).received.length + (r.socket .client).received.length) + 2 := by
  have hserver := congrArg List.length (h.flow .dnsServer)
  have hclient := congrArg List.length (h.flow .client)
  rw [List.length_append] at hserver hclient
  simp only [Side.other] at hserver hclient
  have heof : ∀ b : Bool, b.toNat ≤ 1 := Bool.toNat_le
  have := heof (r.socket .dnsServer).fd.eof
  have := heof (r.socket .client).fd.eof
  unfold moved
  omega

/-- How many callbacks the thread runs. -/
def callbacks (size : Nat) (dnsServer client : FileDescriptor) (answers : List (Answer Call)) : Nat :=
  match ByteStreamQueue.create size with
  | .ok queue => called answers actions (start dnsServer client queue queue)
  | .error _ => 0

/-- **The relay ends when it is done, and does not spin before.** As long as `::poll`
and the descriptors do not report an error, the thread leaves only when both peers have
ended and everything has been passed on; then it does leave, in the next round and
without waiting. Until then, it is called at most twice for each byte that the peers
send and once for each of their ends. -/
theorem relay_ends_when_done (hsize : 1 < size) (hmax : size ≤ ByteStreamQueue.maxSize)
    (dnsServer client : FileDescriptor) {answers : List (Answer Call)}
    (hclean : ∀ answer ∈ answers, answer.Clean) {e : Option Exit}
    {acts : List (Action Relay Call)}
    (h : handleTcp size dnsServer client answers = .ok (e, acts, r)) :
    (e = none ∨ e = some ⟨0, none⟩ ∧ Done r) ∧
      ((∀ answer, poll answer acts r = .ok (.exit ⟨0, none⟩, acts, r)) ↔ Done r) ∧
      callbacks size dnsServer client answers ≤
        2 * ((r.socket .dnsServer).received.length + (r.socket .client).received.length) + 2 := by
  obtain ⟨queue, hcreate, hr₀, heq⟩ := handleTcp_eq hsize hmax dnsServer client answers
  rw [heq] at h
  have hsound := rounds_sound answers serves_actions leaves_actions hr₀
    endsCancelled_actions
  rw [h] at hsound
  have hr : Accounted size r := hsound.1
  have hsame : List.Forall₂ SameBut actions acts := hsound.2.1
  have hcancelled : ∀ a ∈ acts, EndsCancelled a r := hsound.2.2
  have hquiet := quiet_iff_done hr hsame hcancelled
  obtain ⟨hexit, hcalled⟩ := rounds_advance hclean serves_actions advances_actions leaves_actions
    hr₀ endsCancelled_actions h
  refine ⟨hexit.imp_right fun ⟨he, hnone⟩ => ⟨he, hquiet.mp hnone⟩, ?_, ?_⟩
  · refine ⟨fun hpoll => hquiet.mp ?_, fun hdone answer => poll_quiet answer (hquiet.mpr hdone)⟩
    rcases poll_advances .timeout trivial (serves_of_forall₂ hsame serves_actions)
        (advances_of_forall₂ hsame advances_actions) (pairwise_of_forall₂ hsame leaves_actions) hr
        hcancelled (hpoll .timeout) with ⟨-, -, -, hnone⟩ | ⟨hresult, -⟩
    · exact hnone
    · rcases hresult with hresult | hresult <;> cases hresult
  · have := hr.moved_le
    rw [callbacks, hcreate]
    exact Nat.le_trans (Nat.le_add_left _ _) (Nat.le_trans hcalled this)

/-- The server sends two bytes and ends, and so does the client without sending any. -/
def twoBytes : List (Answer Call) :=
  [.events (fun i => ⟨false, i == 0 || i == 1⟩) fun i => ⟨some (if i = 0 then [7, 8] else []), none⟩,
    .events (fun i => ⟨false, i == 0 || i == 3⟩) fun _ => ⟨some [], some 1⟩,
    .events (fun i => ⟨false, i == 3⟩) fun _ => ⟨none, some 1⟩,
    .timeout]

theorem relay_ends_when_done_two :
    ∃ acts r, handleTcp 4 (.initial 3) (.initial 4) twoBytes = .ok (some ⟨0, none⟩, acts, r) ∧
      (r.socket .client).sent = [7, 8] ∧ Done r ∧
      callbacks 4 (.initial 3) (.initial 4) twoBytes ≤
        2 * ((r.socket .dnsServer).received.length + (r.socket .client).received.length) + 2 := by
  have hclean : ∀ answer ∈ twoBytes, answer.Clean := by
    intro answer hanswer
    simp only [twoBytes, List.mem_cons, List.not_mem_nil, or_false] at hanswer
    rcases hanswer with rfl | rfl | rfl | rfl
    · exact fun _ => rfl
    · exact fun _ => rfl
    · exact fun _ => rfl
    · trivial
  have hrun : ((handleTcp 4 (.initial 3) (.initial 4) twoBytes).toOption.map
      fun p => (p.1, (p.2.2.socket .client).sent)) = some (some ⟨0, none⟩, [7, 8]) := by
    decide +kernel
  cases h : handleTcp 4 (.initial 3) (.initial 4) twoBytes with
  | error e =>
      rw [h] at hrun
      cases hrun
  | ok p =>
      rw [h] at hrun
      obtain ⟨e, acts, r⟩ := p
      obtain ⟨rfl, hsent⟩ := Prod.mk.inj (Option.some.inj hrun)
      obtain ⟨hexit, -, hcalls⟩ := relay_ends_when_done (by decide) (by decide) _ _ hclean h
      refine ⟨acts, r, rfl, hsent, ?_, hcalls⟩
      rcases hexit with hnone | ⟨-, hdone⟩
      · cases hnone
      · exact hdone

end DNSProxy

end Mahimahi
