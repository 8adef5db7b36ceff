import Mahimahi.ShellFerry

/-!
# The queues that the shells put into the loop

Each queue is given what it promises (`FerryQueueType.Conveys`), and the rule of the
loop does the rest. Two kinds of promise are enough. A queue that holds packets back
for nothing (`PassesOn`) writes all that it has kept; which packets it keeps is up to
the queue, and to the state that it is in when they are read. A queue that delays
(`Releases`) gives every packet a time, and writes none of them before.
-/

namespace Mahimahi

open ShellFerry

/-! ## Queues that hold nothing back -/

/-- `MeterQueue`; its graph is that of `add_value_now`. -/
structure MeterQueue where
  packetQueue : List Bytes
  deriving DecidableEq, Repr

namespace MeterQueue

def readPacket (contents : Bytes) (q : MeterQueue) : MeterQueue :=
  { q with packetQueue := q.packetQueue ++ [contents] }

def writePackets (q : MeterQueue) : List Bytes × MeterQueue :=
  (q.packetQueue, { q with packetQueue := [] })

def waitTime (q : MeterQueue) : Nat := if q.packetQueue.isEmpty then 2 ^ 16 - 1 else 0

def pendingOutput (q : MeterQueue) : Bool := !q.packetQueue.isEmpty

end MeterQueue

def LossQueue.pendingOutput (q : LossQueue) : Bool := !q.packetQueue.isEmpty

/-- A packet that has been read, with the time that its delay gives it. -/
def release {Q ι : Type} (delay : Arrival Q ι → Nat) (a : Arrival Q ι) : DelayPktPair :=
  (u64 (a.now + delay a), a.contents)

theorem release_lt {Q ι : Type} {delay : Arrival Q ι → Nat} {a : Arrival Q ι} {t : Nat}
    (hpast : a.now ≤ t) (hdelay : delay a < 2 ^ 32) : (release delay a).1 < t + 2 ^ 32 := by
  have : u64 (a.now + delay a) ≤ a.now + delay a := Nat.mod_le _ _
  show u64 (a.now + delay a) < _
  omega

/-- Where no release time is 2 ^ 32 ms ahead, 0 means that a packet is due. -/
theorem releaseWait_le_zero_iff {next : Option DelayPktPair} {t : Nat}
    (h : ∀ x ∈ next, x.1 < t + 2 ^ 32) : releaseWait next t ≤ 0 ↔ ∃ x ∈ next, x.1 ≤ t := by
  cases next with
  | none =>
      refine iff_of_false (fun hle => absurd hle (by decide : ¬ 2 ^ 16 - 1 ≤ 0)) ?_
      rintro ⟨x, hx, -⟩
      cases hx
  | some x =>
      have hlt : x.1 < t + 2 ^ 32 := h x rfl
      have hwait : releaseWait (some x) t = if x.1 ≤ t then 0 else u32 (x.1 - t) := rfl
      rw [hwait]
      by_cases hdue : x.1 ≤ t
      · rw [if_pos hdue]
        exact iff_of_true (Nat.le_refl 0) ⟨x, rfl, hdue⟩
      · rw [if_neg hdue, u32_of_lt (by omega)]
        refine iff_of_false (by omega) ?_
        rintro ⟨y, hy, hle⟩
        cases hy
        exact hdue hle

theorem moved {Q ι : Type} {delay : Arrival Q ι → Nat} {ws : List (Nat × Bytes)}
    {gone held : List (Arrival Q ι)} {out left : List DelayPktPair} {clock : Nat → Nat}
    {sent : List Bytes} (hgone : List.Forall₂ LeavesAs ws (gone.map (release delay)))
    (hheld : out ++ left = held.map (release delay))
    (hout : List.Forall₂ LeavesAs (departures clock 0 sent) out) :
    ∃ going staying, held = going ++ staying ∧
      List.Forall₂ LeavesAs (ws ++ departures clock 0 sent) ((gone ++ going).map (release delay)) ∧
      left = staying.map (release delay) ∧ sent.length = going.length := by
  obtain ⟨going, staying, rfl, rfl, rfl⟩ := List.append_eq_map_iff.mp hheld
  refine ⟨going, staying, rfl, ?_, rfl, ?_⟩
  · rw [List.map_append]
    exact List.rel_append hgone hout
  · simpa using hout.length_eq

/-- The queue of `mm-delay`. -/
def delayQueue : FerryQueueType DelayQueue Unit where
  readPacket now _ contents q := .ok (q.readPacket now contents)
  writePackets clock q := q.writePackets clock
  pendingOutput t q := q.pendingOutput t
  finished _ := false
  waitTime now _ q := .ok (q.waitTime now, q)

/-- One delay for all: packets leave in the order in which they came. -/
structure InTurn (delayMs : Nat) (rs : List (Arrival DelayQueue Unit)) (ws : List (Nat × Bytes))
    (q : DelayQueue) : Prop where
  delay : q.delayMs = delayMs
  writable : ∀ a ∈ rs, a.contents ≠ []
  parted : ∃ gone held, rs = gone ++ held ∧
    List.Forall₂ LeavesAs ws (gone.map (release fun _ => delayMs)) ∧
    q.packetQueue = held.map (release fun _ => delayMs)

section

variable {delayMs : Nat} {rs : List (Arrival DelayQueue Unit)} {ws : List (Nat × Bytes)}
  {q : DelayQueue}

theorem InTurn.pending_iff (h : InTurn delayMs rs ws q) (hdelay : delayMs < 2 ^ 32) {t : Nat}
    (hpast : ∀ a ∈ rs, a.now ≤ t) :
    q.pendingOutput t = true ↔ ∃ x ∈ q.packetQueue.head?, x.1 ≤ t := by
  obtain ⟨gone, held, rfl, -, hheld⟩ := h.parted
  rw [DelayQueue.pendingOutput, decide_eq_true_eq, DelayQueue.waitTime, releaseWait_le_zero_iff]
  intro x hx
  have hmem : x ∈ held.map (release fun _ => delayMs) := hheld ▸ List.mem_of_head? hx
  obtain ⟨a, ha, rfl⟩ := List.mem_map.mp hmem
  exact release_lt (hpast a (List.mem_append_right _ ha)) hdelay

theorem InTurn.read (h : InTurn delayMs rs ws q) (now : Nat) {x : Unit} {c : Bytes} (hc : c ≠ []) :
    InTurn delayMs (rs ++ [⟨q, now, x, c⟩]) ws (q.readPacket now c) := by
  obtain ⟨gone, held, rfl, hgone, hheld⟩ := h.parted
  refine ⟨h.delay, fun a ha => ?_, gone, held ++ [⟨q, now, x, c⟩], List.append_assoc .., hgone, ?_⟩
  · rcases List.mem_append.mp ha with ha | ha
    · exact h.writable a ha
    · rw [List.mem_singleton.mp ha]
      exact hc
  · rw [List.map_append, ← hheld, DelayQueue.readPacket, h.delay]
    rfl

/-- The first packet that is due is written. -/
theorem writeLoop_ne_nil {clock : Nat → Nat} {packets left : List DelayPktPair}
    {written : List Bytes} (h : DelayQueue.writeLoop clock 0 packets = .ok (written, left))
    (hdue : ∃ x ∈ packets.head?, x.1 ≤ clock 0) : written ≠ [] := by
  obtain ⟨x, hx, hle⟩ := hdue
  obtain ⟨rest, rfl⟩ := List.head?_eq_some_iff.mp hx
  rw [DelayQueue.writeLoop, if_pos hle] at h
  obtain ⟨contents, -, h⟩ := bind_eq_ok.mp h
  obtain ⟨⟨written', left'⟩, -, h⟩ := bind_eq_ok.mp h
  cases h
  exact List.cons_ne_nil _ _

theorem InTurn.write (h : InTurn delayMs rs ws q) {clock : Nat → Nat}
    (hdue : ∃ x ∈ q.packetQueue.head?, x.1 ≤ clock 0) :
    Outcome (fun _ => False) (fun r => InTurn delayMs rs (ws ++ departures clock 0 r.1) r.2 ∧
      r.1 ≠ [] ∧ r.1.length ≤ rs.length) (q.writePackets clock) := by
  obtain ⟨gone, held, rfl, hgone, hheld⟩ := h.parted
  cases hloop : DelayQueue.writeLoop clock 0 q.packetQueue with
  | error e =>
      obtain ⟨x, hx, hnil⟩ := DelayQueue.drain_of_error hloop
      rw [hheld] at hx
      obtain ⟨a, ha, rfl⟩ := List.mem_map.mp hx
      exact absurd hnil (h.writable a (List.mem_append_right _ ha))
  | ok r =>
      obtain ⟨written, left⟩ := r
      have hw : q.writePackets clock = .ok (written, { q with packetQueue := left }) := by
        rw [DelayQueue.writePackets, hloop]
        rfl
      rw [hw]
      obtain ⟨out, hout, hleaves⟩ := DelayQueue.drain_append (DelayQueue.drain_of_ok hloop)
      rw [hheld] at hout
      obtain ⟨going, staying, rfl, hgone', hstaying, hlength⟩ := moved hgone hout.symm hleaves
      refine ⟨⟨h.delay, h.writable, gone ++ going, staying, (List.append_assoc ..).symm, hgone',
        hstaying⟩, writeLoop_ne_nil hloop hdue, ?_⟩
      show written.length ≤ _
      simp only [List.length_append]
      omega

theorem conveys_delayQueue (hdelay : delayMs < 2 ^ 32) :
    delayQueue.Conveys True (fun _ => False) (InTurn delayMs) where
  read rs ws q t now x c h hc hsteady := by
    obtain ⟨hpast, hle⟩ := hsteady trivial
    refine ⟨h.read now hc, fun hp => ?_⟩
    have hlater : ∀ a ∈ rs ++ [(⟨q, now, x, c⟩ : Arrival DelayQueue Unit)], a.now ≤ now := by
      intro a ha
      rcases List.mem_append.mp ha with ha | ha
      · exact (hpast a ha).trans hle
      · rw [List.mem_singleton.mp ha]
    obtain ⟨front, hfront, hdue⟩ := (h.pending_iff hdelay hpast).mp hp
    refine ((h.read now hc).pending_iff hdelay hlater).mpr ⟨front, ?_, hdue.trans hle⟩
    have hfront : q.packetQueue.head? = some front := hfront
    show (q.packetQueue ++ _).head? = some front
    rw [List.head?_append, hfront]
    rfl
  write rs ws q t clock h hp hsteady := by
    obtain ⟨hpast, hle⟩ := hsteady trivial
    obtain ⟨front, hfront, hdue⟩ := (h.pending_iff hdelay hpast).mp hp
    exact h.write ⟨front, hfront, hdue.trans hle⟩
  wait rs ws q now x h := h
  unfinished _ := rfl

end

/-- The delay that the queue, as it was, has chosen for the packet. -/
def chosen {K : ReleaseQueue} (a : Arrival (AdvDelayQueue K) Unit) : Nat :=
  (LoggedQueue.delayOf a.queue a.contents).toOption.getD 0

/-- A delay for each packet: they leave when theirs is over. -/
structure OwnTime {K : ReleaseQueue} (rs : List (Arrival (AdvDelayQueue K) Unit))
    (ws : List (Nat × Bytes)) (q : AdvDelayQueue K) : Prop where
  delay : q.delayMs < 2 ^ 32
  rules : DelaysBelow (2 ^ 32) q.rules
  delays : ∀ a ∈ rs, LoggedQueue.delayOf a.queue a.contents = .ok (chosen a) ∧
    chosen a < 2 ^ 32 ∧ a.contents ≠ []
  parted : ∃ gone held : List (Arrival (AdvDelayQueue K) Unit), (gone ++ held).Perm rs ∧
    List.Forall₂ LeavesAs ws (gone.map (release chosen)) ∧
    K.elements q.packetQueue = held.map (release chosen)

theorem exists_map_of_perm {α β : Type} {f : α → β} {l : List β} {held : List α}
    (h : l.Perm (held.map f)) : ∃ held' : List α, held'.Perm held ∧ l = held'.map f := by
  have hcomp : Relation.Comp (· = List.map f ·) List.Perm l held := by
    rw [List.eq_map_comp_perm]
    exact h
  obtain ⟨held', heq, hheld⟩ := hcomp
  exact ⟨held', hheld, heq⟩

section

variable {K : ReleaseQueue} {rs : List (Arrival (AdvDelayQueue K) Unit)} {ws : List (Nat × Bytes)}
  {q q' : AdvDelayQueue K}

theorem mem_elements_of_top {packets : K.Carrier} {x : DelayPktPair}
    (h : K.top packets = some x) : x ∈ K.elements packets :=
  (K.pop_perm packets x h).mem_iff.mpr List.mem_cons_self

theorem OwnTime.pending_iff (h : OwnTime rs ws q) {t : Nat} (hpast : ∀ a ∈ rs, a.now ≤ t) :
    q.pendingOutput t = true ↔ ∃ x ∈ K.top q.packetQueue, x.1 ≤ t := by
  obtain ⟨gone, held, hperm, -, hheld⟩ := h.parted
  rw [AdvDelayQueue.pendingOutput, decide_eq_true_eq, AdvDelayQueue.waitTime,
    releaseWait_le_zero_iff]
  intro x hx
  have hmem : x ∈ held.map (release chosen) := hheld ▸ mem_elements_of_top hx
  obtain ⟨a, ha, rfl⟩ := List.mem_map.mp hmem
  have ha : a ∈ rs := hperm.mem_iff.mp (List.mem_append_right _ ha)
  exact release_lt (hpast a ha) (h.delays a ha).2.1

theorem OwnTime.read (h : OwnTime rs ws q) {now : Nat} {x : Unit} {c : Bytes}
    (hread : q.readPacket now c = .ok q') : OwnTime (rs ++ [⟨q, now, x, c⟩]) ws q' ∧
      ∃ y, q'.packetQueue = K.emplace y q.packetQueue := by
  obtain ⟨gone, held, hperm, hgone, hheld⟩ := h.parted
  obtain ⟨hsize, d, q₁, hdelay, rfl⟩ := AdvDelayQueue.readPacket_cases hread
  obtain ⟨hdelayMs, hrules, hpackets⟩ : q₁.delayMs = q.delayMs ∧ q₁.rules = q.rules ∧
      q₁.packetQueue = q.packetQueue :=
    AdvDelayQueue.getDelayFor_frame (q := q.counted c) hdelay
  have hlt : d < 2 ^ 32 := AdvDelayQueue.getDelayFor_below (q := q.counted c) h.delay h.rules hdelay
  have hof : LoggedQueue.delayOf q c = .ok d := by
    rw [LoggedQueue.delayOf, hdelay]
    rfl
  let a : Arrival (AdvDelayQueue K) Unit := ⟨q, now, x, c⟩
  have hchosen : chosen a = d := by
    rw [chosen, hof]
    rfl
  have hne : c ≠ [] := by
    rintro rfl
    simp at hsize
  have hqueued : (K.elements (K.emplace (u64 (now + d), c) q₁.packetQueue)).Perm
      ((held ++ [a]).map (release chosen)) := by
    rw [hpackets, List.map_append, ← hheld, List.map_singleton, release, hchosen]
    exact (K.emplace_perm ..).trans (List.perm_append_singleton _ _).symm
  obtain ⟨held', hheld', heq⟩ := exists_map_of_perm hqueued
  refine ⟨⟨hdelayMs ▸ h.delay, hrules ▸ h.rules, fun b hb => ?_, gone, held', ?_, hgone, heq⟩,
    _, congrArg _ hpackets⟩
  · rcases List.mem_append.mp hb with hb | hb
    · exact h.delays b hb
    · rw [List.mem_singleton.mp hb, hchosen]
      exact ⟨hof, hlt, hne⟩
  · refine (hheld'.append_left gone).trans ?_
    rw [← List.append_assoc]
    exact hperm.append_right _

theorem OwnTime.write (h : OwnTime rs ws q) {clock : Nat → Nat}
    (hdue : ∃ x ∈ K.top q.packetQueue, x.1 ≤ clock 0) : Outcome (fun _ => False)
      (fun r => OwnTime rs (ws ++ departures clock 0 r.1) r.2 ∧ r.1 ≠ [] ∧
        r.1.length ≤ rs.length) (q.writePackets clock) := by
  obtain ⟨gone, held, hperm, hgone, hheld⟩ := h.parted
  have hwritable : ∀ x ∈ K.elements q.packetQueue, x.2 ≠ [] := by
    intro x hx
    rw [hheld] at hx
    obtain ⟨a, ha, rfl⟩ := List.mem_map.mp hx
    exact (h.delays a (hperm.mem_iff.mp (List.mem_append_right _ ha))).2.2
  obtain ⟨written, packets, out, hw, hout, hdrained⟩ := q.writePackets_drained clock hwritable
  rw [hw]
  rw [hheld] at hout
  obtain ⟨held', hheld', heq⟩ := exists_map_of_perm hout
  obtain ⟨going, staying, rfl, hgone', hstaying, hlength⟩ := moved hgone heq hdrained.leaves
  have hperm' : ((gone ++ going) ++ staying).Perm rs := by
    rw [List.append_assoc]
    exact (hheld'.append_left gone).trans hperm
  refine ⟨⟨h.delay, h.rules, h.delays, gone ++ going, staying, hperm', hgone', hstaying⟩, ?_, ?_⟩
  · rintro rfl
    -- nothing has been written, so the packet on top has been left, and it was due
    obtain ⟨x, hx, hle⟩ := hdue
    have hnil : going = [] := List.length_eq_zero_iff.mp hlength.symm
    have hmem : x ∈ K.elements packets := by
      have := hout.mem_iff.mpr (hheld ▸ mem_elements_of_top hx)
      have hout : out = [] := by
        have := hdrained.leaves.length_eq
        exact List.length_eq_zero_iff.mp this.symm
      simpa [hout] using this
    have := hdrained.waiting x hmem
    exact absurd hle (Nat.not_le.mpr this)
  · have := hperm'.length_eq
    simp only [List.length_append] at this
    show written.length ≤ _
    omega

end

/-! ## The loops -/

namespace ShellFerry

open Poller

section

variable {κ ω : Type} {J : ω → Prop} {Eo : Fault → Prop} {P : Poller.Action ω κ → ω → Prop}

/-- A handler that reads a signal and exits. -/
def readsSignal : Poller.Action FileDescriptor Unit :=
  ⟨id, .input, fun _ fd => .ok (.exit 0, fd.afterRead [1]), fun _ => true, true⟩

theorem independent_readsSignal :
    Independent (fun _ => True) (fun _ => False) (fun _ _ => True) ([] ++ [readsSignal]) where
  serves a ha := by
    obtain rfl := List.mem_singleton.mp ha
    refine ⟨fun x fd _ _ => ⟨trivial, fun heq => ?_, fun _ => trivial⟩,
      fun _ _ _ _ _ _ _ _ => trivial⟩
    exact u32_add_ne Nat.one_pos (by decide) heq
  leaves := List.pairwise_singleton _ _

/-- One byte. -/
def ping : Datagram := ⟨[0], List.cons_ne_nil _ _⟩

/-- The callbacks read nothing else of the world. -/
def nothing [Inhabited κ] : Nat → ShellInput Unit κ := fun _ => ⟨(), default⟩

/-- A packet is read at 0. Then `pending_output` is asked at one time, and `write_packets`
looks at the clock at another. -/
def lookedAt (asked tested : Nat) (k : Nat) : Nat :=
  if k < 3 then 0 else if k < 5 then asked else tested

theorem lookedAt_mono {asked tested : Nat} (h : asked ≤ tested) : Monotone (lookedAt asked tested) := by
  intro i j hij
  unfold lookedAt
  split_ifs <;> omega

/-- The turns of it. -/
def packetTurns [Inhabited κ] (n : Nat) : List (Unit × Answer (ShellInput Unit κ)) :=
  [((), .events (only n) nothing), ((), .events (only (n + 1)) nothing)]

theorem writePackets_ahead {release : Nat} (clock : Nat → Nat) (delayMs : Nat) (contents : Bytes)
    (h : clock 0 < release) : (⟨delayMs, [(release, contents)]⟩ : DelayQueue).writePackets clock
      = .ok ([], ⟨delayMs, [(release, contents)]⟩) := by
  simp [DelayQueue.writePackets, DelayQueue.writeLoop, Nat.not_le.mpr h]

/-- A packet that seems to be due when `pending_output` is asked, and is not when
`write_packets` looks, ends the loop. -/
theorem loop_lookedAt [Inhabited κ] {delayMs asked tested : Nat} (hlt : delayMs < 2 ^ 64)
    (hpending : delayMs ≤ asked ∨ u32 (delayMs - asked) = 0) (hahead : tested < delayMs)
    (tun sibling : Nat) (earlier : List (Poller.Action ω κ))
    (signal : Poller.Action ω κ) (others : ω) :
    loop delayQueue (lookedAt asked tested) earlier signal (packetTurns earlier.length)
      (start (.initial delayMs) (.initial tun) (.initial sibling) [ping] others) = .error busyWait := by
  -- the packet has been read, and nothing has been written
  let began : ShellFerry DelayQueue Unit ω :=
    { start (.initial delayMs) (.initial tun) (.initial sibling) [ping] others with readings := 2 }
  let held : ShellFerry DelayQueue Unit ω :=
    ⟨⟨delayMs, [(delayMs, [0])]⟩, (FileDescriptor.initial tun).afterRead [0], .initial sibling, 0, 3, [],
      [⟨.initial delayMs, 0, (), [0]⟩], [], others⟩
  let ahead : ShellFerry DelayQueue Unit ω := { held with now := asked, readings := 5 }
  have hfirst : poll (.events (only earlier.length) nothing)
      (actions delayQueue (lookedAt asked tested) earlier signal) began
      = .ok (.success, actions delayQueue (lookedAt asked tested) earlier signal, held) := by
    have hrelease : u64 (0 + delayMs) = delayMs := by
      rw [Nat.zero_add, u64_of_lt hlt]
    have hcall : (tunInput delayQueue (lookedAt asked tested)).callback
        (nothing earlier.length : ShellInput Unit κ) began
        = .ok (.goOn, { held with queue := ⟨delayMs, [(u64 (0 + delayMs), [0])]⟩ }) := rfl
    rw [hrelease] at hcall
    rw [poll_tunInput rfl hcall]
    rfl
  have hsecond : poll (.events (only (earlier.length + 1)) nothing)
      (actions delayQueue (lookedAt asked tested) earlier signal) ahead = .error busyWait := by
    have hpending : delayQueue.pendingOutput ahead.now ahead.queue = true := by
      show decide ((if delayMs ≤ asked then 0 else u32 (delayMs - asked)) ≤ 0) = true
      rcases hpending with hle | hzero
      · rw [if_pos hle]
        rfl
      · rw [hzero, ite_self]
        rfl
    have hcall : (siblingOutput delayQueue (lookedAt asked tested)).callback
        (nothing (earlier.length + 1) : ShellInput Unit κ) ahead
        = .ok (.goOn, { ahead with now := tested, readings := 6 }) := by
      have hwrite := writePackets_ahead (fun k => lookedAt asked tested (5 + k)) delayMs [0] hahead
      show (DelayQueue.writePackets (fun k => lookedAt asked tested (5 + k)) held.queue >>= _) = _
      rw [hwrite]
      rfl
    rw [poll_siblingOutput hpending hcall]
    rfl
  have hwait : waitTime delayQueue (lookedAt asked tested) ()
      (start (.initial delayMs) (.initial tun) (.initial sibling) [ping] others) = .ok began := rfl
  have hwait' : waitTime delayQueue (lookedAt asked tested) () held = .ok ahead := rfl
  rw [loop, packetTurns, internalLoop, hwait, ok_bind, hfirst, ok_bind]
  simp only [internalLoop]
  rw [hwait', ok_bind, hsecond]
  rfl

/-- **`mm-delay` keeps its promise if its delay is below 2 ^ 32 ms, and only then.** Below,
every run of the loop over a clock that does not go back writes the packets in the order in
which they came, none before its delay is over, and the poller never finds a busy wait
before 2 ^ 32 packets. From 2 ^ 32 on, `wait_time` may take a distance for none, and the
loop ends with the exception for a busy wait; and so it may with any delay if the clock
goes back between `pending_output` and `write_packets`. -/
theorem delay_ferry_iff [Inhabited κ] (delayMs : Nat) (hlt : delayMs < 2 ^ 64)
    (earlier : List (Poller.Action ω κ)) (signal : Poller.Action ω κ)
    (hothers : Independent J Eo P (earlier ++ [signal])) (hbusy : ¬ Eo busyWait) (others : ω)
    (hJ : J others) :
    (Runs Monotone delayQueue (fun _ => False) Eo (InTurn delayMs) J earlier signal
        (.initial delayMs) others ↔ delayMs < 2 ^ 32) ∧
      (2 ^ 32 ≤ delayMs → ∃ clock, Monotone clock ∧ ∃ turns, ∀ tun sibling,
        loop delayQueue clock earlier signal turns
          (start (.initial delayMs) (.initial tun) (.initial sibling) [ping] others) = .error busyWait) ∧
      (0 < delayMs → ∃ clock turns, ∀ tun sibling,
        loop delayQueue clock earlier signal turns
          (start (.initial delayMs) (.initial tun) (.initial sibling) [ping] others) = .error busyWait) := by
  have hwrapped : 2 ^ 32 ≤ delayMs → delayMs ≤ delayMs - 2 ^ 32 ∨
      u32 (delayMs - (delayMs - 2 ^ 32)) = 0 := by
    intro hge
    have hdistance : delayMs - (delayMs - 2 ^ 32) = 2 ^ 32 := by omega
    rw [hdistance]
    exact .inr rfl
  refine ⟨⟨fun hruns => ?_, fun hdelay => ?_⟩, fun hge => ?_, fun hpos => ?_⟩
  · by_contra hge
    have hge : 2 ^ 32 ≤ delayMs := Nat.le_of_not_lt hge
    have hrun := hruns (lookedAt (delayMs - 2 ^ 32) (delayMs - 2 ^ 32)) (lookedAt_mono le_rfl)
      (.initial 3) (.initial 4) [ping] (packetTurns earlier.length)
    have hfault := hrun.of_error (loop_lookedAt hlt (hwrapped hge) (by omega) 3 4 earlier signal
      others)
    rcases hfault with hpoll | hread | hqueue | hother | ⟨-, hmany⟩
    · cases hpoll
    · cases hread
    · exact hqueue
    · exact hbusy hother
    · exact absurd hmany (by decide)
  · exact runs_of_conveys (conveys_delayQueue hdelay) (fun _ hmono _ => hmono) hothers hJ
      ⟨rfl, fun a ha => (by cases ha), [], [], rfl, .nil, rfl⟩
  · exact ⟨_, lookedAt_mono le_rfl, packetTurns earlier.length, fun tun sibling =>
      loop_lookedAt hlt (hwrapped hge) (by omega) tun sibling earlier signal others⟩
  · exact ⟨lookedAt delayMs (delayMs - 1), packetTurns earlier.length, fun tun sibling =>
      loop_lookedAt hlt (.inl le_rfl) (by omega) tun sibling earlier signal others⟩

theorem delay_ferry_iff_signal :
    Runs Monotone delayQueue (fun _ => False) (fun _ => False) (InTurn 20) (fun _ => True) []
        readsSignal (.initial 20) (FileDescriptor.initial 5) ∧
      ∃ clock turns, loop delayQueue clock [] readsSignal turns
        (start (.initial 20) (.initial 3) (.initial 4) [ping] (FileDescriptor.initial 5))
          = .error busyWait := by
  obtain ⟨hiff, -, hback⟩ := delay_ferry_iff 20 (by decide) [] readsSignal
    independent_readsSignal id (.initial 5) trivial
  obtain ⟨clock, turns, hloop⟩ := hback (by decide)
  exact ⟨hiff.mpr (by decide), clock, turns, hloop 3 4⟩

end

end ShellFerry

end Mahimahi
