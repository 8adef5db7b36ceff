import Mahimahi.Codel
import Mahimahi.LossyFifo
import Mahimahi.Pie
import Mahimahi.Run

/-!
# The queues with limits

Drop-tail, CoDel and PIE share `DroppingPacketQueue` and differ in what they
do around it. `BoundedDiscipline` is what they have in common: what is
queued, an invariant of the states between two calls, and what a call does
to them. It is enough for `KeepsContract` to hold all along a run
(`BoundedDiscipline.always_keepsContract`), so each of the three only has to
be shown to be one.

The counters are read as unbounded integers throughout, so no packet is too
large to be counted.
-/

namespace Mahimahi

/-- Clock readings are `uint64_t`s. -/
def Env.Readable (env : Env) : Prop := env.now < 2 ^ 64 ∧ env.later < 2 ^ 64

instance (env : Env) : Decidable env.Readable := inferInstanceAs (Decidable (_ ∧ _))

def QueueCall.env : QueueCall → Env
  | .enqueue env _ => env
  | .dequeue env => env

/-- A queue, with the packets that were offered to it and those that it returned. -/
structure Handled (Q : Type) where
  queue : Q
  offered : List QueuedPacket
  returned : List QueuedPacket

namespace Handled

variable {Q : Type} [AbstractPacketQueue Q]

def start (queue : Q) : Handled Q := ⟨queue, [], []⟩

/-- A call that does not fail, and is not a `dequeue` from an empty queue. -/
def step (s : Handled Q) : QueueCall → Option (Handled Q)
  | .enqueue env p =>
      match AbstractPacketQueue.enqueue env s.queue p with
      | .ok queue => some ⟨queue, s.offered ++ [p], s.returned⟩
      | .error _ => none
  | .dequeue env =>
      if AbstractPacketQueue.empty s.queue then none
      else
        match AbstractPacketQueue.dequeue env s.queue with
        | .ok (p, queue) => some ⟨queue, s.offered, s.returned ++ [p]⟩
        | .error _ => none

end Handled

section

variable {Q : Type} [AbstractPacketQueue Q]

/-- What holds of a bounded queue between two calls, the next call included. -/
structure KeepsContract (contents : Q → List QueuedPacket) (l : Limits) (s : Handled Q) : Prop where
  size_packets : AbstractPacketQueue.sizePackets s.queue = .ok (contents s.queue).length
  size_bytes : AbstractPacketQueue.sizeBytes s.queue = .ok (bytesOf (contents s.queue))
  limits : l.Holds (contents s.queue)
  empty_iff : AbstractPacketQueue.empty s.queue = true ↔
    AbstractPacketQueue.sizePackets s.queue = .ok 0
  enqueue : ∀ env p, env.Readable → ∃ queue, AbstractPacketQueue.enqueue env s.queue p = .ok queue ∧
    (contents queue = contents s.queue ∨ contents queue = contents s.queue ++ [p])
  dequeue : AbstractPacketQueue.empty s.queue = false → ∀ env, env.Readable →
    ∃ p queue, AbstractPacketQueue.dequeue env s.queue = .ok (p, queue)
  in_order : s.returned.Sublist s.offered

/-- A discipline that keeps within the limits `l`. -/
structure BoundedDiscipline (Q : Type) [AbstractPacketQueue Q] (l : Limits) where
  contents : Q → List QueuedPacket
  Inv : Q → Prop
  size_packets {q : Q} : Inv q → AbstractPacketQueue.sizePackets q = .ok (contents q).length
  size_bytes {q : Q} : Inv q → AbstractPacketQueue.sizeBytes q = .ok (bytesOf (contents q))
  empty {q : Q} : AbstractPacketQueue.empty q = true ↔ contents q = []
  limits {q : Q} : Inv q → l.Holds (contents q)
  enqueue {q : Q} (env : Env) (p : QueuedPacket) : Inv q → env.Readable →
    ∃ q', AbstractPacketQueue.enqueue env q p = .ok q' ∧ Inv q' ∧
      (contents q' = contents q ∨ contents q' = contents q ++ [p])
  dequeue {q : Q} (env : Env) : Inv q → env.Readable → contents q ≠ [] →
    ∃ p q' lost, AbstractPacketQueue.dequeue env q = .ok (p, q') ∧ Inv q' ∧
      contents q = p :: (lost ++ contents q')

namespace BoundedDiscipline

variable {l : Limits} (D : BoundedDiscipline Q l)

/-- Between two calls: the queue has its invariant, and its history is that of
a first-in-first-out queue that loses packets. -/
def Consistent (s : Handled Q) : Prop :=
  D.Inv s.queue ∧ ∃ log : FifoLog QueuedPacket,
    log.queued = D.contents s.queue ∧ log.offered = s.offered ∧ log.taken = s.returned

theorem Consistent.keepsContract {s : Handled Q} (h : D.Consistent s) :
    KeepsContract D.contents l s := by
  obtain ⟨hinv, log, hqueued, hoffered, htaken⟩ := h
  refine ⟨D.size_packets hinv, D.size_bytes hinv, D.limits hinv, ?_, fun env p henv => ?_,
    fun hne env henv => ?_, ?_⟩
  · rw [D.empty, D.size_packets hinv, Except.ok.injEq, List.length_eq_zero_iff]
  · obtain ⟨queue, he, -, hcases⟩ := D.enqueue env p hinv henv
    exact ⟨queue, he, hcases⟩
  · have hne' : D.contents s.queue ≠ [] := fun hnil => by
      rw [D.empty.mpr hnil] at hne
      cases hne
    obtain ⟨p, queue, -, hd, -, -⟩ := D.dequeue env hinv henv hne'
    exact ⟨p, queue, hd⟩
  · rw [← hoffered, ← htaken]
    exact log.taken_sublist

theorem Consistent.step {s s' : Handled Q} {c : QueueCall} (h : D.Consistent s)
    (hstep : s.step c = some s') (hc : c.env.Readable) : D.Consistent s' := by
  obtain ⟨hinv, log, hqueued, hoffered, htaken⟩ := h
  cases c with
  | enqueue env p =>
      obtain ⟨queue, he, hinv', hcases⟩ := D.enqueue env p hinv hc
      simp only [Handled.step, he, Option.some.injEq] at hstep
      subst hstep
      rcases hcases with hsame | happ
      · exact ⟨hinv', log.refuse p, hqueued.trans hsame.symm, congrArg (· ++ [p]) hoffered, htaken⟩
      · exact ⟨hinv', log.append p, by rw [happ, ← hqueued]; rfl, congrArg (· ++ [p]) hoffered,
          htaken⟩
  | dequeue env =>
      cases hempty : AbstractPacketQueue.empty s.queue with
      | true => simp [Handled.step, hempty] at hstep
      | false =>
          have hne : D.contents s.queue ≠ [] := fun hnil => by
            rw [D.empty.mpr hnil] at hempty
            cases hempty
          obtain ⟨p, queue, lost, hd, hinv', hfront⟩ := D.dequeue env hinv hc hne
          simp only [Handled.step, hempty, hd, Bool.false_eq_true, if_false,
            Option.some.injEq] at hstep
          subst hstep
          -- the packet is taken, and what CoDel drops behind it is lost
          let taken := log.take p (lost ++ D.contents queue) (hqueued.trans hfront)
          exact ⟨hinv', taken.lose (D.contents queue) (List.suffix_append ..), rfl, hoffered,
            congrArg (· ++ [p]) htaken⟩

/-- The contract, all along a run. -/
theorem always_keepsContract {q : Q} (hinv : D.Inv q) (hnil : D.contents q = []) :
    ∀ {calls : List QueueCall}, (∀ c ∈ calls, c.env.Readable) →
      Always Handled.step (KeepsContract D.contents l) (.start q) calls := by
  intro calls hcalls
  have hstart : D.Consistent (.start q) := ⟨hinv, .nil, hnil.symm, rfl, rfl⟩
  generalize Handled.start q = s at hstart
  induction calls generalizing s with
  | nil => exact hstart.keepsContract
  | cons c calls ih =>
      refine ⟨hstart.keepsContract, fun s' hs' => ?_⟩
      exact ih (fun c' hc' => hcalls c' (List.mem_cons_of_mem _ hc')) s'
        (hstart.step D hs' (hcalls c List.mem_cons_self))

end BoundedDiscipline

end

/-! ## Drop-tail -/

theorem fits_exact (q : DroppingPacketQueue .exact) : q.Fits := ⟨trivial, trivial⟩

namespace DropTailPacketQueue

/-- `enqueue` with a packet that can be counted: it goes to the back or nowhere. -/
theorem enqueue_spec {W : Arith} {q : DropTailPacketQueue W} {p : QueuedPacket} (hq : q.base.Valid)
    (hfits : (q.base.accept p).Fits) :
    ∃ b : Bool, q.enqueue p = .ok ⟨if b then q.base.accept p else q.base⟩ ∧
      (if b then q.base.accept p else q.base).Valid := by
  obtain ⟨b, hb, hgood⟩ := DroppingPacketQueue.offer_valid hq hfits
  have hv : (if b then q.base.accept p else q.base).Valid := by
    cases b
    · exact hq
    · exact hgood rfl
  exact ⟨b, by simp [enqueue, hb, DroppingPacketQueue.assertGood_of_valid hv], hv⟩

def bounded (l : Limits) : BoundedDiscipline (DropTailPacketQueue .exact) l where
  contents q := q.base.internalQueue
  Inv q := q.base.Valid ∧ q.base.limits = l
  size_packets h := DroppingPacketQueue.sizePackets_of_fits h.1.fits
  size_bytes h := DroppingPacketQueue.sizeBytes_of_fits h.1.fits
  empty := DroppingPacketQueue.empty_eq_true
  limits h := h.2 ▸ h.1.holds
  enqueue {q} env p h _ := by
    obtain ⟨b, he, hv⟩ := enqueue_spec h.1 (fits_exact (q.base.accept p))
    refine ⟨_, he, ⟨hv, ?_⟩, ?_⟩
    · cases b <;> exact h.2
    · cases b
      · exact .inl rfl
      · exact .inr rfl
  dequeue {q} env h _ hne := by
    obtain ⟨p, ps, hps⟩ := List.exists_cons_of_ne_nil hne
    obtain ⟨base, hd, hps', hl, hv⟩ := DroppingPacketQueue.dequeue_valid hps h.1
    refine ⟨p, ⟨base⟩, [], ?_, ⟨hv, hl.trans h.2⟩, ?_⟩
    · show q.dequeue = .ok (p, ⟨base⟩)
      simp [dequeue, hd]
    · rw [List.nil_append, hps, hps']

end DropTailPacketQueue

/-! ## CoDel -/

namespace CODELPacketQueue

variable {W : Arith}

theorem dodequeue_limits {now : Nat} {q q' : CODELPacketQueue W} {r : DodequeueResult}
    (h : q.dodequeue now = .ok (r, q')) : q'.base.limits = q.base.limits := by
  obtain ⟨⟨p, base⟩, hd, h⟩ := bind_eq_ok.mp h
  have hl : base.limits = q.base.limits := (DroppingPacketQueue.dequeue_eq_ok hd).2
  cases hempty : base.empty with
  | true =>
      simp only [hempty, if_true] at h
      cases h
      exact hl
  | false =>
      simp only [hempty, Bool.false_eq_true, if_false] at h
      obtain ⟨sizeBytes, -, h⟩ := bind_eq_ok.mp h
      split at h
      · cases h
        exact hl
      · split at h <;> (cases h; exact hl)

theorem dropTurn_limits {now : Nat} {t t' : CODELPacketQueue W × List DodequeueResult}
    (h : dropTurn now t = .ok t') : t'.1.base.limits = t.1.base.limits := by
  obtain ⟨⟨r, q⟩, hd, h⟩ := bind_eq_ok.mp h
  have hl := dodequeue_limits hd
  cases hok : r.okToDrop <;>
  · simp only [hok, Bool.false_eq_true, if_false, if_true, pure_eq_ok, Except.ok.injEq] at h
    subst h
    exact hl

theorem dropLoop_limits {now : Nat} {q : CODELPacketQueue W}
    {t : CODELPacketQueue W × List DodequeueResult} (h : q.dropLoop now = .ok t) :
    t.1.base.limits = q.base.limits := by
  refine (exits_of_loop_ok h).invariant (I := fun t => t.1.base.limits = q.base.limits)
    (Q := fun t => t.1.base.limits = q.base.limits) (fun t t' hI hb => ?_) (fun t r hI hb => ?_)
    rfl t rfl
  · exact (dropTurn_limits (whileDo_again.mp hb).2).trans hI
  · rw [(whileDo_leave.mp hb).2]
    exact hI

theorem dequeueTrace_limits {now : Nat} {q q' : CODELPacketQueue W} {r : DodequeueResult}
    {rs : List DodequeueResult} (h : q.dequeueTrace now = .ok (r, rs, q')) :
    q'.base.limits = q.base.limits := by
  obtain ⟨⟨r₁, q₁⟩, hd, h⟩ := bind_eq_ok.mp h
  have hl := dodequeue_limits hd
  cases hdropping : q₁.dropping with
  | true =>
      simp only [hdropping, if_true] at h
      obtain ⟨⟨q₂, rs₂⟩, hloop, h⟩ := bind_eq_ok.mp h
      cases h
      rw [dropLoop_limits hloop, ← hl]
      split <;> rfl
  | false =>
      cases hok : r₁.okToDrop with
      | false =>
          simp only [hdropping, hok, Bool.false_eq_true, if_false] at h
          cases h
          exact hl
      | true =>
          simp only [hdropping, hok, Bool.false_eq_true, if_false, if_true] at h
          obtain ⟨⟨r₂, q₂⟩, hd₂, h⟩ := bind_eq_ok.mp h
          cases h
          exact (dodequeue_limits hd₂).trans hl

def bounded (l : Limits) : BoundedDiscipline (CODELPacketQueue .exact) l where
  contents q := q.internalQueue
  Inv q := q.base.Valid ∧ q.base.limits = l
  size_packets h := DroppingPacketQueue.sizePackets_of_fits h.1.fits
  size_bytes h := DroppingPacketQueue.sizeBytes_of_fits h.1.fits
  empty := DroppingPacketQueue.empty_eq_true
  limits h := h.2 ▸ h.1.holds
  enqueue {q} env p h _ := by
    obtain ⟨b, hb, hgood⟩ :=
      DroppingPacketQueue.offer_valid h.1 (fits_exact (q.base.accept p))
    have hv : (if b then q.base.accept p else q.base).Valid := by
      cases b
      · exact h.1
      · exact hgood rfl
    refine ⟨{ q with base := if b then q.base.accept p else q.base }, ?_, ⟨hv, ?_⟩, ?_⟩
    · show q.enqueue p = _
      simp [enqueue, hb, DroppingPacketQueue.assertGood_of_valid hv]
    · cases b <;> exact h.2
    · cases b
      · exact .inl rfl
      · exact .inr rfl
  dequeue {q} env h _ hne := by
    obtain ⟨r, rs, q', htrace, hv, hfront, -, -⟩ := dequeueTrace_spec env.now h.1 hne
    refine ⟨r.p, q', rs.map DodequeueResult.p, ?_,
      ⟨hv, (dequeueTrace_limits htrace).trans h.2⟩, hfront.symm⟩
    show q.dequeue env.now = .ok (r.p, q')
    simp [dequeue, htrace]

end CODELPacketQueue

/-! ## PIE -/

namespace PIEPacketQueue

variable {W : Arith}

theorem updateStep_ok {q : PIEPacketQueue W} (hq : q.base.Valid) :
    ∃ q', q.updateStep = .ok q' := by
  simp [updateStep, DroppingPacketQueue.sizeBytes_of_fits hq.fits]

/-- The replay comes to an end at any clock reading, also at one before the
last update. -/
theorem calculateDropProb_ok {now : Nat} {q : PIEPacketQueue W} (hq : q.base.Valid)
    (hnow : now < 2 ^ 64) (hlast : q.lastUpdate < 2 ^ 64) :
    ∃ q', q.calculateDropProb now = .ok q' ∧ q'.base = q.base ∧ q'.lastUpdate < 2 ^ 64 := by
  have hturn : ∀ s : PIEPacketQueue W, (s.base.Valid ∧ s.lastUpdate < 2 ^ 64) →
      (∃ s', whileDo (updateDue now) updateStep s = .ok (.inl s') ∧
        (s'.base.Valid ∧ s'.lastUpdate < 2 ^ 64) ∧
        sub64 now s'.lastUpdate / tUpdate < sub64 now s.lastUpdate / tUpdate) ∨
      ∃ r, whileDo (updateDue now) updateStep s = .ok (.inr r) ∧ r.lastUpdate < 2 ^ 64 := by
    rintro s ⟨hv, hlt⟩
    cases hdue : updateDue now s with
    | false => exact .inr ⟨s, whileDo_leave.mpr ⟨hdue, rfl⟩, hlt⟩
    | true =>
        obtain ⟨s', hs'⟩ := updateStep_ok hv
        have hnext := updateStep_lastUpdate hs'
        have hgap : tUpdate < sub64 now s.lastUpdate := by simpa [updateDue] using hdue
        refine .inl ⟨s', whileDo_again.mpr ⟨hdue, hs'⟩, ⟨?_, ?_⟩, ?_⟩
        · rw [updateStep_base hs']
          exact hv
        · rw [hnext]
          exact Nat.mod_lt _ (by decide)
        · -- the gap shrinks by one period, around the end of the range too
          have hsub : sub64 now s'.lastUpdate = sub64 now s.lastUpdate - tUpdate := by
            rw [hnext]
            unfold sub64 u64 tUpdate at *
            split at hgap <;> split <;> omega
          rw [hsub]
          simp only [tUpdate] at hgap ⊢
          omega
  obtain ⟨q', hloop, hlt⟩ := loop_total .diverges hturn (s := q) ⟨hq, hlast⟩ (Nat.lt_succ_self _)
  exact ⟨q', hloop, calculateDropProb_base hloop, hlt⟩

theorem dropEarly_ok {q : PIEPacketQueue W} (hq : q.base.Valid) (draw : ℚ) :
    ∃ b, q.dropEarly draw = .ok b := by
  unfold dropEarly
  split
  · exact ⟨_, rfl⟩
  · split
    · exact ⟨_, rfl⟩
    · rw [DroppingPacketQueue.sizeBytes_of_fits hq.fits]
      simp only [ok_bind]
      split <;> exact ⟨_, rfl⟩

theorem offer_spec {q : PIEPacketQueue W} {p : QueuedPacket} (hq : q.base.Valid) (draw : ℚ)
    (hfits : (q.base.accept p).Fits) :
    ∃ base, q.offer draw p = .ok { q with base := base } ∧ base.Valid ∧
      (base = q.base ∨ base = q.base.accept p) := by
  obtain ⟨b, hb, hgood⟩ := DroppingPacketQueue.offer_valid hq hfits
  obtain ⟨d, hd⟩ := dropEarly_ok hq draw
  cases b with
  | false => exact ⟨q.base, by simp [offer, hb], hq, .inl rfl⟩
  | true =>
      cases d with
      | true =>
          exact ⟨q.base, by simp [offer, hb, hd, DroppingPacketQueue.assertGood_of_valid hq], hq,
            .inl rfl⟩
      | false =>
          have hv := hgood rfl
          exact ⟨q.base.accept p,
            by simp [offer, hb, hd, DroppingPacketQueue.assertGood_of_valid hv], hv, .inr rfl⟩

def bounded (l : Limits) : BoundedDiscipline (PIEPacketQueue .exact) l where
  contents q := q.base.internalQueue
  Inv q := q.base.Valid ∧ q.base.limits = l ∧ q.lastUpdate < 2 ^ 64
  size_packets h := DroppingPacketQueue.sizePackets_of_fits h.1.fits
  size_bytes h := DroppingPacketQueue.sizeBytes_of_fits h.1.fits
  empty := DroppingPacketQueue.empty_eq_true
  limits h := h.2.1 ▸ h.1.holds
  enqueue {q} env p h henv := by
    obtain ⟨q₁, hcalc, hbase, hlast⟩ := calculateDropProb_ok h.1 henv.1 h.2.2
    obtain ⟨base, ho, hv, hcases⟩ :=
      offer_spec (q := q₁) (p := p) (by rw [hbase]; exact h.1) env.draw (fits_exact _)
    rw [hbase] at hcases
    refine ⟨{ q₁ with base := base }, ?_, ⟨hv, ?_, hlast⟩, ?_⟩
    · show q.enqueue env p = _
      simp [enqueue, hcalc, ho]
    · rcases hcases with rfl | rfl <;> exact h.2.1
    · rcases hcases with rfl | rfl
      · exact .inl rfl
      · exact .inr rfl
  dequeue {q} env h henv hne := by
    obtain ⟨p, ps, hps⟩ := List.exists_cons_of_ne_nil hne
    obtain ⟨base, hd, hps', hl, hv⟩ := DroppingPacketQueue.dequeue_valid hps h.1
    obtain ⟨q₁, htake⟩ : ∃ q₁, q.takeOut env.now = .ok (p, q₁) := by
      simp [takeOut, hd, DroppingPacketQueue.sizeBytes_of_fits hv.fits]
    have hbase₁ : q₁.base = base := by
      simp only [takeOut, hd, ok_bind, DroppingPacketQueue.sizeBytes_of_fits hv.fits, pure_eq_ok,
        Except.ok.injEq, Prod.mk.injEq, true_and] at htake
      rw [← htake, countDeparture_base, startMeasurement_base]
    obtain ⟨q₂, hcalc, hbase₂, hlast⟩ := calculateDropProb_ok (q := q₁) (by rw [hbase₁]; exact hv)
      henv.2 (by rw [takeOut_lastUpdate htake]; exact h.2.2)
    rw [hbase₁] at hbase₂
    refine ⟨p, q₂, [], ?_, ⟨?_, ?_, hlast⟩, ?_⟩
    · show q.dequeue env = .ok (p, q₂)
      simp [dequeue, htake, hcalc]
    · rw [hbase₂]
      exact hv
    · rw [hbase₂]
      exact hl.trans h.2.1
    · rw [List.nil_append, hbase₂, hps, hps']

end PIEPacketQueue

/-! ## All three -/

/-- **The bounded queues.** Whatever the limits, the parameters, the clock
readings and the random draws: between any two calls of a run, the sizes that
a drop-tail, a CoDel and a PIE queue report are those of what they hold, both
limits are kept, the next call does not fail, and what has been returned is
part of what has been offered, in order. -/
theorem bounded_queues_keep_contract (l : Limits) (calls : List QueueCall)
    (hcalls : ∀ c ∈ calls, c.env.Readable) :
    Always Handled.step (KeepsContract (fun q => q.base.internalQueue) l)
      (.start (DropTailPacketQueue.initial .exact l)) calls ∧
    (∀ target interval controlStep,
      Always Handled.step (KeepsContract (fun q => q.base.internalQueue) l)
        (.start (CODELPacketQueue.initial .exact l target interval controlStep)) calls) ∧
    ∀ qdelayRef maxBurst start, start < 2 ^ 64 →
      Always Handled.step (KeepsContract (fun q => q.base.internalQueue) l)
        (.start (PIEPacketQueue.initial .exact l qdelayRef maxBurst start)) calls :=
  ⟨(DropTailPacketQueue.bounded l).always_keepsContract
      ⟨DroppingPacketQueue.initial_valid l, rfl⟩ rfl hcalls,
    fun _ _ _ => (CODELPacketQueue.bounded l).always_keepsContract
      ⟨DroppingPacketQueue.initial_valid l, rfl⟩ rfl hcalls,
    fun _ _ _ hstart => (PIEPacketQueue.bounded l).always_keepsContract
      ⟨DroppingPacketQueue.initial_valid l, rfl, hstart⟩ rfl hcalls⟩

/-- A packet limit of 1, and a second packet that has to be refused. -/
theorem bounded_queues_keep_contract_full :
    let calls : List QueueCall :=
      [.enqueue ⟨0, 0, 0⟩ ⟨0, [1]⟩, .enqueue ⟨1, 1, 0⟩ ⟨1, [2]⟩, .dequeue ⟨2, 2, 0⟩]
    Always Handled.step (KeepsContract (fun q => q.base.internalQueue) ⟨1, 0⟩)
      (.start (DropTailPacketQueue.initial .exact ⟨1, 0⟩)) calls ∧
    Always Handled.step (KeepsContract (fun q => q.base.internalQueue) ⟨1, 0⟩)
      (.start (PIEPacketQueue.initial .exact ⟨1, 0⟩ 20 100 7)) calls :=
  have h := bounded_queues_keep_contract ⟨1, 0⟩
    [.enqueue ⟨0, 0, 0⟩ ⟨0, [1]⟩, .enqueue ⟨1, 1, 0⟩ ⟨1, [2]⟩, .dequeue ⟨2, 2, 0⟩] (by decide)
  ⟨h.1, h.2.2 20 100 7 (by decide)⟩

end Mahimahi
