import Mahimahi.LinkClock
import Mahimahi.PollTimeout
import Mahimahi.Poller

/-!
# The loop of a packet shell over a link

`PacketShell::Ferry::loop` registers three actions, behind those that are there
already and before the one for signals: read a datagram from the tun device, write
what the link has ready to the sibling, and exit when the link is finished. The
last two wait for the same thing, that the sibling can be written.

The link becomes finished while it is emulated, and the opportunity that ends the
trace may carry packets. That nothing is left behind rests on the order in which
the poller does things. When the exit is called, it has asked for it before any
callback of that round; then the write before it has been asked at the same state
of the link (`serve_ferry`), and what it had to write, it has written. Nothing has
been added in between, because a link that is finished delivers nothing more
(`rationalize_of_finished`).
-/

namespace Mahimahi

/-! ## A link that is finished -/

namespace LinkQueue

variable {tr : Trace} {Q : Type} [AbstractPacketQueue Q] {world : Nat → Env} {now : Nat}
  {written : List Bytes} {q q' : LinkQueue tr Q}

/-- A link that is finished delivers nothing; at the last reading of `uint64_t` its
loop does not end. -/
theorem rationalize_of_finished (hf : q.finished = true) (hr : q.rationalize world now = .ok q') :
    q' = q := by
  have hexits : EmulatedTo world now q q' := emulatedTo_of_rationalize hr
  have hkeeps : ∀ s s' : LinkQueue tr Q, s.finished = true → deliver world s = .ok s' →
      s'.finished = true := by
    intro s s' hs hd
    have hcursor := congrArg Cursor.finished (deliver_cursor hd)
    have hcursor : s'.finished = (s.finished || _) := hcursor
    rw [hcursor, hs, Bool.true_or]
  obtain ⟨hf', hlt⟩ := hexits.invariant (I := fun s => s.finished = true) hf
    fun s s' hs _ hd => hkeeps s s' hs hd
  rw [nextDeliveryTime_of_finished hf'] at hlt
  have hend : isDue now q = false := by
    rw [isDue, nextDeliveryTime_of_finished hf]
    exact decide_eq_false (Nat.not_le.mpr hlt)
  have hleave : EmulatedTo world now q q := .leave (whileDo_leave.mpr ⟨hend, rfl⟩)
  exact Except.ok.inj (hexits.unique hleave)

theorem readPacket_of_finished {contents : Bytes} {env : Env} (hf : q.finished = true)
    (hr : q.readPacket world now contents env = .ok q') :
    q'.finished = true ∧ q'.outputQueue = q.outputQueue := by
  obtain ⟨-, q₁, hr, ha⟩ := readPacket_eq_ok.mp hr
  obtain rfl := rationalize_of_finished hf hr
  obtain ⟨_, _, _, _, -, -, -, -, rfl⟩ := accept_eq_ok ha
  exact ⟨hf, rfl⟩

/-- A link that does not repeat its trace comes to the end of it, and every
`rationalize` before the last reading of `uint64_t` comes to an end. -/
theorem rationalize_exits_once (world : Nat → Env) (hrep : tr.repeats = false)
    (hq : tr.InRange q.cursor) (hnow : now < 2 ^ 64 - 1) :
    Exits (whileDo (isDue now) (LinkQueue.deliver world)) q (q.rationalize world now) := by
  have hmax : tr.schedule.length < maxTurns tr now := by
    have : tr.schedule.length ≤ tr.schedule.length * (now + 2) := Nat.le_mul_of_pos_right _ (by omega)
    unfold maxTurns
    omega
  refine exits_loop (I := fun s : LinkQueue tr Q => tr.InRange s.cursor)
    (μ := fun s => if s.finished then 0 else tr.schedule.length - s.nextDelivery) ?_ hq ?_
  · intro s s' hs hb
    obtain ⟨hdue, hd⟩ := whileDo_again.mp hb
    have hrun : s.finished = false := by
      rw [← Bool.not_eq_true]
      intro hf
      have hdue : s.nextDeliveryTime ≤ now := of_decide_eq_true hdue
      rw [nextDeliveryTime_of_finished hf] at hdue
      omega
    have hcursor : s'.cursor = tr.advance s.cursor := by
      rw [deliver_cursor hd]
      simp [cursor, useADeliveryOpportunity, record, Trace.advance, hrep]
      rfl
    have hnext : s'.nextDelivery = (tr.advance s.cursor).next := congrArg Cursor.next hcursor
    have hfin : s'.finished = (tr.advance s.cursor).finished := congrArg Cursor.finished hcursor
    have hlt := s.next_lt
    refine ⟨?_, ?_⟩
    · rw [hcursor]
      exact ⟨Trace.advance_next_lt _, Trace.advance_next_lt_u32 _⟩
    · rw [hnext, hfin, hrun]
      rcases Trace.advance_cases hs with ⟨ha, -⟩ | ha
      · rw [ha]
        simp only [cursor, hrun, Bool.false_eq_true, if_false]
        omega
      · rw [ha]
        simp only [hrep, Bool.not_false, Bool.or_true, if_true, Bool.false_eq_true, if_false]
        omega
  · split <;> omega

/-! ## What has been written -/

/-- All that has departed has been written or is ready to be. -/
def PutOut (written : List Bytes) (q : LinkQueue tr Q) : Prop :=
  written ++ q.outputQueue = q.departed.map fun d => d.2.contents

theorem PutOut.deliver (h : q.PutOut written) (hd : LinkQueue.deliver world q = .ok q') :
    q'.PutOut written := by
  have huse : q.useADeliveryOpportunity.PutOut written := by
    simpa [PutOut, useADeliveryOpportunity, record, departed] using h
  obtain ⟨-, hI, -⟩ := deliver_invariant hd (I := fun _ s => s.PutOut written) huse
    fun _ s s₁ hI _ hf _ => by
      have hs₁ : s₁.PutOut written := by
        obtain ⟨_, _, _, _, rfl⟩ := fetch_frame hf
        exact hI
      simp only [send]
      split
      · -- the packet departs and is put out at once
        simp only [PutOut, departed, record, List.filterMap_append, List.map_append,
          ← List.append_assoc] at hs₁ ⊢
        rw [hs₁]
        rfl
      · exact hs₁
  exact hI

theorem PutOut.rationalize (h : q.PutOut written)
    (hr : LinkQueue.rationalize world now q = .ok q') : q'.PutOut written :=
  rationalize_invariant hr h fun _ _ hI _ hd => hI.deliver hd

theorem PutOut.readPacket {contents : Bytes} {env : Env} (h : q.PutOut written)
    (hr : LinkQueue.readPacket world now contents env q = .ok q') : q'.PutOut written := by
  obtain ⟨-, q₁, hr, ha⟩ := readPacket_eq_ok.mp hr
  have h₁ := h.rationalize hr
  obtain ⟨_, _, _, drops, -, -, -, hdrops, rfl⟩ := accept_eq_ok ha
  rcases hdrops with rfl | ⟨t, n, b, rfl⟩ <;> simpa [PutOut, departed] using h₁

omit [AbstractPacketQueue Q] in
theorem writePackets_eq_ok {more : List Bytes} (h : q.writePackets = .ok (more, q')) :
    more = q.outputQueue ∧ q' = { q with outputQueue := [] } := by
  unfold writePackets at h
  split at h
  · cases h
  · cases h
    exact ⟨rfl, rfl⟩

omit [AbstractPacketQueue Q] in
theorem PutOut.writePackets {more : List Bytes} (h : q.PutOut written)
    (hw : LinkQueue.writePackets q = .ok (more, q')) : q'.PutOut (written ++ more) := by
  obtain ⟨rfl, rfl⟩ := writePackets_eq_ok hw
  simpa [PutOut, departed] using h

end LinkQueue

/-! ## Ferry::loop -/

/-- What the actions of the loop refer to: the queue, the two descriptors, and what
the handlers of others work on. `written` is the history of what has been written
to the sibling. -/
structure Ferry (tr : Trace) (Q ω : Type) where
  queue : LinkQueue tr Q
  tun : FileDescriptor
  sibling : FileDescriptor
  written : List Bytes
  others : ω

/-- What a callback reads of the world: that of the tun device a datagram, the
clock, and what `enqueue` reads; those of others what they read. -/
structure FerryInput (ι : Type) where
  contents : Bytes
  now : Nat
  env : Env
  other : ι

namespace Ferry

open Poller

variable {tr : Trace} {Q ω ι : Type} [AbstractPacketQueue Q] {world : Nat → Env}

/-- `tun device gets datagram -> read it -> give to ferry` -/
def tunInput (world : Nat → Env) : Poller.Action (Ferry tr Q ω) (FerryInput ι) where
  fd f := f.tun
  direction := .input
  callback x f := do
    let queue ← f.queue.readPacket world x.now x.contents x.env
    return (.goOn, { f with queue := queue, tun := f.tun.afterRead x.contents })
  whenInterested _ := true
  active := true

/-- `ferry ready to write datagram -> send to sibling's tun device` -/
def siblingOutput : Poller.Action (Ferry tr Q ω) (FerryInput ι) where
  fd f := f.sibling
  direction := .output
  callback _ f := do
    let (written, queue) ← f.queue.writePackets
    return (.goOn, { f with
      queue := queue
      sibling := f.sibling.afterWrites written.length
      written := f.written ++ written })
  whenInterested f := f.queue.pendingOutput
  active := true

/-- `exit if finished` -/
def exitIfFinished : Poller.Action (Ferry tr Q ω) (FerryInput ι) where
  fd f := f.sibling
  direction := .output
  callback _ f := .ok (.exit 77, f)
  whenInterested f := f.queue.finished
  active := true

/-- A handler of others, which knows nothing of the ferry. -/
def other (a : Poller.Action ω ι) : Poller.Action (Ferry tr Q ω) (FerryInput ι) where
  fd f := a.fd f.others
  direction := a.direction
  callback x f := do
    let (result, others) ← a.callback x.other f.others
    return (result, { f with others := others })
  whenInterested f := a.whenInterested f.others
  active := a.active

/-- The actions, in the order of their registration: `earlier` were there before
`loop` was called, and `internal_loop` adds the one for signals. -/
def actions (world : Nat → Env) (earlier : List (Poller.Action ω ι)) (signal : Poller.Action ω ι) :
    List (Poller.Action (Ferry tr Q ω) (FerryInput ι)) :=
  earlier.map other ++ [tunInput world, siblingOutput, exitIfFinished] ++ [other signal]

/-- `ferry_queue.wait_time()`, at the clock reading `now`. -/
def waitTime (world : Nat → Env) (now : Nat) (f : Ferry tr Q ω) : Except Fault (Ferry tr Q ω) := do
  let (_, queue) ← f.queue.waitTime world now
  return { f with queue := queue }

/-- The loop, as far as the turns given. -/
def loop (world : Nat → Env) (earlier : List (Poller.Action ω ι)) (signal : Poller.Action ω ι)
    (turns : List (Nat × Answer (FerryInput ι))) (f : Ferry tr Q ω) :
    Except Fault (Option Exit × List (Poller.Action (Ferry tr Q ω) (FerryInput ι)) × Ferry tr Q ω) :=
  internalLoop (waitTime world) turns (actions world earlier signal) f

/-- A ferry with a link that has just been made. -/
def start (packetQueue : Q) (now : Nat) (tun sibling : FileDescriptor) (others : ω) :
    Ferry tr Q ω :=
  ⟨.initial tr packetQueue now, tun, sibling, [], others⟩

/-- The two actions on the sibling, behind `n` others and that of the tun device,
are told the same about it. -/
def SameReadiness (n : Nat) : Answer (FerryInput ι) → Prop
  | .events revents _ => (revents (n + 1)).ready = (revents (n + 2)).ready
  | _ => True

/-! ## One round -/

variable {f f' : Ferry tr Q ω} {revents : Nat → Revents} {input : Nat → FerryInput ι}

/-- A handler of others, whether it is still active or not. -/
def IsOther (a : Poller.Action (Ferry tr Q ω) (FerryInput ι)) : Prop :=
  ∃ b : Poller.Action ω ι, a = other b

/-- The actions of a loop in which some handlers of others may have been canceled. -/
def Registered (world : Nat → Env) (n : Nat)
    (acts : List (Poller.Action (Ferry tr Q ω) (FerryInput ι))) : Prop :=
  ∃ earlier later, earlier.length = n ∧ (∀ a ∈ earlier, IsOther a) ∧ (∀ a ∈ later, IsOther a) ∧
    acts = earlier ++ tunInput world :: siblingOutput :: exitIfFinished :: later

theorem registered_actions (world : Nat → Env) (earlier : List (Poller.Action ω ι))
    (signal : Poller.Action ω ι) :
    Registered world earlier.length
      (actions world earlier signal : List (Poller.Action (Ferry tr Q ω) (FerryInput ι))) := by
  refine ⟨earlier.map other, [other signal], by simp, fun a ha => ?_, fun a ha => ?_,
    by simp [actions]⟩
  · obtain ⟨b, -, rfl⟩ := List.mem_map.mp ha
    exact ⟨b, rfl⟩
  · obtain rfl := List.mem_singleton.mp ha
    exact ⟨signal, rfl⟩

omit [AbstractPacketQueue Q] in
/-- The handlers of others leave the ferry alone. -/
theorem serve_others {xs : List (Poller.Action (Ferry tr Q ω) (FerryInput ι) × Bool)} {i : Nat}
    {e : Option Exit} {acts : List (Poller.Action (Ferry tr Q ω) (FerryInput ι))}
    (h : serve revents input i xs f = .ok (e, acts, f')) (hxs : ∀ x ∈ xs, IsOther x.1) :
    (f'.queue = f.queue ∧ f'.written = f.written) ∧ (∀ a ∈ acts, IsOther a) ∧
      acts.length = xs.length ∧ ∀ e₁ ∈ e, ∀ j ∈ e₁.action, i ≤ j ∧ j < i + xs.length := by
  refine serve_invariant (I := fun g => g.queue = f.queue ∧ g.written = f.written)
    (P := IsOther) ?_ ?_ h hxs ⟨rfl, rfl⟩
  · rintro _ x g result g' ⟨b, rfl⟩ hg hcall
    obtain ⟨⟨_, others⟩, -, hret⟩ := bind_eq_ok.mp hcall
    cases hret
    exact hg
  · rintro _ ⟨b, rfl⟩
    exact ⟨{ b with active := false }, rfl⟩

omit [AbstractPacketQueue Q] in
theorem serveOne_goOn {i : Nat} {v : Revents} {x : FerryInput ι} {asked : Bool} {e : Option Exit}
    {a a' : Poller.Action (Ferry tr Q ω) (FerryInput ι)}
    (hcall : ∀ result g, a.callback x f = .ok (result, g) → result = .goOn)
    (h : serveOne i v x a asked f = .ok (e, a', f')) :
    a' = a ∧ ((e = some ⟨0, none⟩ ∧ f' = f) ∨
      (e = none ∧ (((v.ready && asked) = false ∧ f' = f) ∨
        ((v.ready && asked) = true ∧ a.callback x f = .ok (.goOn, f'))))) := by
  rcases serveOne_cases h with ⟨-, rfl, rfl, rfl⟩ | ⟨hnot, rfl, rfl, rfl⟩ | ⟨hserved, result, hc, hr⟩
  · exact ⟨rfl, .inl ⟨rfl, rfl⟩⟩
  · exact ⟨rfl, .inr ⟨rfl, .inl ⟨hnot, rfl⟩⟩⟩
  · obtain rfl := hcall _ _ hc
    rcases hr with ⟨_, hn, -⟩ | ⟨hn, -⟩ | ⟨-, rfl, rfl⟩
    · cases hn
    · cases hn
    · exact ⟨rfl, .inr ⟨rfl, .inr ⟨hserved, hc⟩⟩⟩

/-- The datagram is read. Into a link that is finished it goes without a packet
coming out. -/
theorem serve_tunInput {i : Nat} {v : Revents} {x : FerryInput ι} {asked : Bool} {e : Option Exit}
    {a : Poller.Action (Ferry tr Q ω) (FerryInput ι)} (hacc : f.queue.PutOut f.written)
    (h : serveOne i v x (tunInput world) asked f = .ok (e, a, f')) :
    a = tunInput world ∧ (∀ e₁ ∈ e, e₁.action = none) ∧ f'.queue.PutOut f'.written ∧
      (f.queue.finished = true →
        f'.queue.finished = true ∧ f'.queue.outputQueue = f.queue.outputQueue) := by
  have hcall : ∀ result g, (tunInput world).callback x f = .ok (result, g) → result = .goOn := by
    intro result g hc
    obtain ⟨_, -, hret⟩ := bind_eq_ok.mp hc
    cases hret
    rfl
  obtain ⟨ha, hcases⟩ := serveOne_goOn hcall h
  rcases hcases with ⟨rfl, rfl⟩ | ⟨rfl, ⟨-, rfl⟩ | ⟨-, hc⟩⟩
  · exact ⟨ha, fun e₁ he => (by cases he; rfl), hacc, fun hf => ⟨hf, rfl⟩⟩
  · exact ⟨ha, fun e₁ he => (by cases he), hacc, fun hf => ⟨hf, rfl⟩⟩
  · obtain ⟨queue, hread, hret⟩ := bind_eq_ok.mp hc
    cases hret
    exact ⟨ha, fun e₁ he => (by cases he), hacc.readPacket hread,
      fun hf => LinkQueue.readPacket_of_finished hf hread⟩

omit [AbstractPacketQueue Q] in
theorem serve_siblingOutput {i : Nat} {v : Revents} {x : FerryInput ι} {asked : Bool}
    {e : Option Exit} {a : Poller.Action (Ferry tr Q ω) (FerryInput ι)}
    (hacc : f.queue.PutOut f.written)
    (h : serveOne i v x siblingOutput asked f = .ok (e, a, f')) :
    a = siblingOutput ∧ (∀ e₁ ∈ e, e₁.action = none) ∧ f'.queue.PutOut f'.written ∧
      f'.queue.finished = f.queue.finished ∧
      (e = none → f'.queue.outputQueue = if v.ready && asked then [] else f.queue.outputQueue) := by
  have hcall : ∀ result g, siblingOutput.callback x f = .ok (result, g) → result = .goOn := by
    intro result g hc
    obtain ⟨_, -, hret⟩ := bind_eq_ok.mp hc
    cases hret
    rfl
  obtain ⟨ha, hcases⟩ := serveOne_goOn hcall h
  rcases hcases with ⟨rfl, rfl⟩ | ⟨rfl, ⟨hnot, rfl⟩ | ⟨hserved, hc⟩⟩
  · exact ⟨ha, fun e₁ he => (by cases he; rfl), hacc, rfl, fun hn => (by cases hn)⟩
  · exact ⟨ha, fun e₁ he => (by cases he), hacc, rfl, fun _ => (by rw [hnot]; rfl)⟩
  · obtain ⟨⟨more, queue⟩, hw, hret⟩ := bind_eq_ok.mp hc
    cases hret
    have hqueue := (LinkQueue.writePackets_eq_ok hw).2
    refine ⟨ha, fun e₁ he => (by cases he), hacc.writePackets hw, ?_, fun _ => ?_⟩
    · simp only [hqueue]
    · simp only [hqueue, hserved, if_true]

omit [AbstractPacketQueue Q] in
theorem serve_exitIfFinished {i : Nat} {v : Revents} {x : FerryInput ι} {asked : Bool}
    {e : Option Exit} {a : Poller.Action (Ferry tr Q ω) (FerryInput ι)}
    (h : serveOne i v x exitIfFinished asked f = .ok (e, a, f')) :
    a = exitIfFinished ∧ f' = f ∧
      ∀ e₁ ∈ e, ∀ j ∈ e₁.action, (v.ready && asked) = true := by
  rcases serveOne_cases h with ⟨-, rfl, ha, hf⟩ | ⟨-, rfl, ha, hf⟩ | ⟨hserved, result, hc, hr⟩
  · exact ⟨ha, hf, fun e₁ he j hj => by cases he; cases hj⟩
  · exact ⟨ha, hf, fun e₁ he => (by cases he)⟩
  · have hc : (.ok (.exit 77, f) : Except Fault (ActionResult × Ferry tr Q ω)) = .ok (result, f') := hc
    cases hc
    rcases hr with ⟨status, -, rfl, ha⟩ | ⟨hn, -⟩ | ⟨hn, -⟩
    · exact ⟨ha, rfl, fun e₁ _ j _ => hserved⟩
    · cases hn
    · cases hn

omit [AbstractPacketQueue Q] in
theorem asks_siblingOutput :
    (siblingOutput : Poller.Action (Ferry tr Q ω) (FerryInput ι)).asks f = f.queue.pendingOutput := by
  simp [Poller.Action.asks, siblingOutput]

omit [AbstractPacketQueue Q] in
theorem asks_exitIfFinished :
    (exitIfFinished : Poller.Action (Ferry tr Q ω) (FerryInput ι)).asks f = f.queue.finished := by
  simp [Poller.Action.asks, exitIfFinished]

omit [AbstractPacketQueue Q] in
theorem map_asks {l : List (Poller.Action (Ferry tr Q ω) (FerryInput ι))} :
    (l.map fun a => (a, a.asks f)).map Prod.fst = l := by
  rw [List.map_map]
  exact List.map_id l

omit [AbstractPacketQueue Q] in
theorem isOther_map_asks {l : List (Poller.Action (Ferry tr Q ω) (FerryInput ι))}
    (hl : ∀ a ∈ l, IsOther a) : ∀ x ∈ l.map fun a => (a, a.asks f), IsOther x.1 := by
  intro x hx
  obtain ⟨a, ha, rfl⟩ := List.mem_map.mp hx
  exact hl a ha

omit [AbstractPacketQueue Q] in
/-- The pass from the write on. Where the exit has been asked for, the link is
finished, and unless the write has been asked for there was nothing to write. -/
theorem serve_sibling {i : Nat} {asksOutput asksExit : Bool} {e : Option Exit}
    {later : List (Poller.Action (Ferry tr Q ω) (FerryInput ι) × Bool)}
    {acts : List (Poller.Action (Ferry tr Q ω) (FerryInput ι))}
    (hsame : (revents i).ready = (revents (i + 1)).ready) (hlater : ∀ x ∈ later, IsOther x.1)
    (hacc : f.queue.PutOut f.written)
    (hasked : asksExit = true →
      f.queue.finished = true ∧ (asksOutput = false → f.queue.outputQueue = []))
    (h : serve revents input i ((siblingOutput, asksOutput) :: (exitIfFinished, asksExit) :: later) f
      = .ok (e, acts, f')) :
    (∃ later', (∀ a ∈ later', IsOther a) ∧ acts = siblingOutput :: exitIfFinished :: later') ∧
      f'.queue.PutOut f'.written ∧
      ∀ e₁ ∈ e, e₁.action = some (i + 1) →
        f'.queue.finished = true ∧ f'.queue.outputQueue = [] := by
  have hbehind : ∀ a ∈ later.map Prod.fst, IsOther a := by
    intro a ha
    obtain ⟨x, hx, rfl⟩ := List.mem_map.mp ha
    exact hlater x hx
  rcases serve_cons h with ⟨e₁, a, rfl, h₁, rfl⟩ | ⟨a, f₁, acts₁, h₁, hrest, rfl⟩
  · obtain ⟨rfl, hnone, hacc₁, -⟩ := serve_siblingOutput hacc h₁
    refine ⟨⟨_, hbehind, rfl⟩, hacc₁, fun e₂ he hj => ?_⟩
    rw [hnone e₂ he] at hj
    cases hj
  · obtain ⟨rfl, -, hacc₁, hfin₁, hwritten⟩ := serve_siblingOutput hacc h₁
    rcases serve_cons hrest with ⟨e₁, a, rfl, h₂, rfl⟩ | ⟨a, f₂, acts₂, h₂, hothers, rfl⟩
    · obtain ⟨rfl, rfl, hserved⟩ := serve_exitIfFinished h₂
      refine ⟨⟨_, hbehind, rfl⟩, hacc₁, fun e₂ he hj => ?_⟩
      have hready := hserved e₂ he _ hj
      rw [Bool.and_eq_true] at hready
      obtain ⟨hfin, hnothing⟩ := hasked hready.2
      refine ⟨hfin₁.trans hfin, ?_⟩
      rw [hwritten rfl, hsame, hready.1, Bool.true_and]
      cases hout : asksOutput with
      | true => rfl
      | false => exact hnothing hout
    · obtain ⟨rfl, rfl, -⟩ := serve_exitIfFinished h₂
      obtain ⟨⟨hq, hw⟩, hacts, -, hbound⟩ := serve_others hothers hlater
      refine ⟨⟨acts₂, hacts, rfl⟩, by rw [hq, hw]; exact hacc₁, fun e₂ he hj => ?_⟩
      have := hbound e₂ he _ hj
      omega

/-- The second pass of a round. The exit has been asked for at the state `f`, like
the write before it, and nothing that is called in between makes a finished link
deliver. -/
theorem serve_ferry {n : Nat} {e : Option Exit}
    {acts acts' : List (Poller.Action (Ferry tr Q ω) (FerryInput ι))}
    (hsame : (revents (n + 1)).ready = (revents (n + 2)).ready) (hreg : Registered world n acts)
    (hacc : f.queue.PutOut f.written)
    (h : serve revents input 0 (acts.map fun a => (a, a.asks f)) f = .ok (e, acts', f')) :
    Registered world n acts' ∧ f'.queue.PutOut f'.written ∧
      ∀ e₁ ∈ e, e₁.action = some (n + 2) →
        f'.queue.finished = true ∧ f'.queue.outputQueue = [] := by
  obtain ⟨earlier, later, rfl, hearlier, hlater, rfl⟩ := hreg
  simp only [List.map_append, List.map_cons, asks_siblingOutput, asks_exitIfFinished] at h
  rcases serve_append h with ⟨e₁, acts₁, rfl, h₁, rfl⟩ | ⟨acts₁, f₁, acts₂, h₁, hrest, rfl⟩
  · obtain ⟨⟨hq, hw⟩, hacts₁, hlen, hbound⟩ := serve_others h₁ (isOther_map_asks hearlier)
    rw [List.length_map] at hlen hbound
    refine ⟨⟨acts₁, later, hlen, hacts₁, hlater, ?_⟩, by rw [hq, hw]; exact hacc, fun e₂ he hj => ?_⟩
    · simp only [List.map_cons, map_asks]
    · have := hbound e₂ he _ hj
      omega
  · obtain ⟨⟨hq, hw⟩, hacts₁, hlen, -⟩ := serve_others h₁ (isOther_map_asks hearlier)
    rw [List.length_map] at hlen hrest
    rw [Nat.zero_add] at hrest
    have hacc₁ : f₁.queue.PutOut f₁.written := by
      rw [hq, hw]
      exact hacc
    rcases serve_cons hrest with ⟨e₁, a, rfl, h₂, rfl⟩ | ⟨a, f₂, acts₃, h₂, hsibling, rfl⟩
    · obtain ⟨rfl, hnone, hacc₂, -⟩ := serve_tunInput hacc₁ h₂
      refine ⟨⟨acts₁, later, hlen, hacts₁, hlater, ?_⟩, hacc₂, fun e₂ he hj => ?_⟩
      · simp only [List.map_cons, map_asks]
      · rw [hnone e₂ he] at hj
        cases hj
    · obtain ⟨rfl, -, hacc₂, hquiet⟩ := serve_tunInput hacc₁ h₂
      have hasked : f.queue.finished = true → f₂.queue.finished = true ∧
          (f.queue.pendingOutput = false → f₂.queue.outputQueue = []) := by
        intro hfin
        obtain ⟨hfin₂, hout₂⟩ := hquiet (hq ▸ hfin)
        refine ⟨hfin₂, fun hnone => ?_⟩
        rw [hout₂, hq]
        simpa [LinkQueue.pendingOutput] using hnone
      obtain ⟨⟨later', hlater', rfl⟩, hacc₃, hexit⟩ :=
        serve_sibling hsame (isOther_map_asks hlater) hacc₂ hasked hsibling
      exact ⟨⟨acts₁, later', hlen, hacts₁, hlater', rfl⟩, hacc₃, hexit⟩

theorem poll_ferry {n : Nat} {result : Result} {answer : Answer (FerryInput ι)}
    {acts acts' : List (Poller.Action (Ferry tr Q ω) (FerryInput ι))} (hsame : SameReadiness n answer)
    (hreg : Registered world n acts) (hacc : f.queue.PutOut f.written)
    (h : poll answer acts f = .ok (result, acts', f')) :
    Registered world n acts' ∧ f'.queue.PutOut f'.written ∧
      ∀ e, result = .exit e → e.action = some (n + 2) →
        f'.queue.finished = true ∧ f'.queue.outputQueue = [] := by
  simp only [poll] at h
  split at h
  · cases answer with
    | failed => cases h
    | timeout =>
        cases h
        exact ⟨hreg, hacc, fun e he => (by cases he)⟩
    | events revents input =>
        obtain ⟨⟨e, acts₁, f₁⟩, hserve, hret⟩ := bind_eq_ok.mp h
        obtain ⟨hreg', hacc', hexit⟩ := serve_ferry hsame hreg hacc hserve
        cases e with
        | none =>
            cases hret
            exact ⟨hreg', hacc', fun e he => (by cases he)⟩
        | some e₁ =>
            cases hret
            exact ⟨hreg', hacc', fun e he hj => by cases he; exact hexit e₁ rfl hj⟩
  · cases h
    exact ⟨hreg, hacc, fun e he hj => by cases he; cases hj⟩

/-! ## All rounds -/

theorem internalLoop_ferry {n : Nat} {e : Exit} :
    ∀ {turns : List (Nat × Answer (FerryInput ι))}
      {acts acts' : List (Poller.Action (Ferry tr Q ω) (FerryInput ι))} {f f' : Ferry tr Q ω},
    (∀ turn ∈ turns, SameReadiness n turn.2) → Registered world n acts →
    f.queue.PutOut f.written →
    internalLoop (waitTime world) turns acts f = .ok (some e, acts', f') →
    e.action = some (n + 2) →
    f'.queue.finished = true ∧ f'.queue.outputQueue = [] ∧ f'.queue.PutOut f'.written
  | [], _, _, _, _, _, _, _, h, _ => by cases h
  | (now, answer) :: turns, acts, acts', f, f', hsame, hreg, hacc, h, hj => by
      obtain ⟨f₁, hwait, h⟩ := bind_eq_ok.mp h
      obtain ⟨⟨result, acts₁, f₂⟩, hpoll, h⟩ := bind_eq_ok.mp h
      have hacc₁ : f₁.queue.PutOut f₁.written := by
        obtain ⟨⟨n, queue⟩, hq, hret⟩ := bind_eq_ok.mp hwait
        cases hret
        rw [LinkQueue.waitTime_eq] at hq
        obtain ⟨queue', hr, hpair⟩ := map_eq_ok.mp hq
        cases hpair
        exact hacc.rationalize hr
      obtain ⟨hreg', hacc', hexit⟩ :=
        poll_ferry (hsame _ List.mem_cons_self) hreg hacc₁ hpoll
      have hrest : ∀ turn ∈ turns, SameReadiness n turn.2 :=
        fun turn ht => hsame turn (List.mem_cons_of_mem _ ht)
      cases result with
      | exit e' =>
          cases h
          obtain ⟨hfin, hout⟩ := hexit _ rfl hj
          exact ⟨hfin, hout, hacc'⟩
      | success => exact internalLoop_ferry hrest hreg' hacc' h hj
      | timeout => exact internalLoop_ferry hrest hreg' hacc' h hj

/-- **Finishing loses nothing.** In every run of the loop over a link, whatever the
trace, the queue and the other handlers: when the loop exits by its third action,
which is the exit of a finished link, nothing is ready to be written any more, and
what has been written to the sibling is what the opportunities have carried to the
last byte, each packet once and in that order. -/
theorem finishing_loses_nothing (tr : Trace) (packetQueue : Q) (now : Nat)
    (tun sibling : FileDescriptor) (others : ω) (world : Nat → Env)
    (earlier : List (Poller.Action ω ι)) (signal : Poller.Action ω ι)
    (turns : List (Nat × Answer (FerryInput ι)))
    (hsame : ∀ turn ∈ turns, SameReadiness earlier.length turn.2)
    (status : Nat) (acts : List (Poller.Action (Ferry tr Q ω) (FerryInput ι))) (f : Ferry tr Q ω)
    (hexit : loop world earlier signal turns (start packetQueue now tun sibling others)
      = .ok (some ⟨status, some (earlier.length + 2)⟩, acts, f)) :
    f.queue.finished = true ∧ f.queue.outputQueue = [] ∧
      f.written = f.queue.departed.map fun d => d.2.contents := by
  obtain ⟨hfin, hout, hacc⟩ := internalLoop_ferry hsame
    (registered_actions world earlier signal) (by rfl) hexit rfl
  refine ⟨hfin, hout, ?_⟩
  rw [← hacc, hout, List.append_nil]

/-- One opportunity, 1 ms after the start, and no more. -/
def onceAtOneMs : Trace := { everyMs with repeats := false }

/-- A datagram is read at 0 ms; at 1 ms the sibling can be written. -/
def twoRounds : List (Nat × Answer (FerryInput Unit)) :=
  [(0, .events (fun i => ⟨false, i == 0⟩) fun _ => ⟨[1, 2, 3], 0, ⟨0, 0, 0⟩, ()⟩),
    (1, .events (fun i => ⟨false, i == 1 || i == 2⟩) fun _ => ⟨[], 1, ⟨0, 0, 0⟩, ()⟩)]

/-- A handler that exits on a signal. -/
def exitOnSignal : Poller.Action Unit Unit :=
  ⟨fun _ => .initial 5, .input, fun _ _ => .ok (.exit 0, ()), fun _ => true, true⟩

/-- The trace ends with the opportunity that carries the datagram. -/
theorem finishing_loses_nothing_once :
    ∃ acts f, loop (fun _ => ⟨0, 0, 0⟩) [] exitOnSignal twoRounds
        (start (InfinitePacketQueue.initial .machine) 0 (.initial 3) (.initial 4) () :
          Ferry onceAtOneMs _ _) = .ok (some ⟨77, some 2⟩, acts, f) ∧
      f.queue.finished = true ∧ f.queue.outputQueue = [] ∧
      f.written = f.queue.departed.map fun d => d.2.contents := by
  have hsame : ∀ turn ∈ twoRounds, SameReadiness 0 turn.2 := by
    intro turn hturn
    simp only [twoRounds, List.mem_cons, List.not_mem_nil, or_false] at hturn
    rcases hturn with rfl | rfl <;> rfl
  refine ⟨_, _, rfl, ?_⟩
  exact finishing_loses_nothing onceAtOneMs (InfinitePacketQueue.initial .machine) 0 (.initial 3)
    (.initial 4) () (fun _ => ⟨0, 0, 0⟩) [] exitOnSignal twoRounds hsame 77 _ _ rfl

end Ferry

end Mahimahi
