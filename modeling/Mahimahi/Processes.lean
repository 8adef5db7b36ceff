import Mathlib.Logic.Function.Basic
import Mahimahi.EventLoop
import Mahimahi.Run

/-!
# Who is behind a pid

A `ChildProcess` knows its process by a number, and the kernel gives the number to another
process once the first has been waited for. So everything rests on `terminated_`: an object
that has seen its process end must not use the number again, an object that has been moved
away must leave it to the other one, and nobody else may wait for the process.

The system is the objects, the table of the kernel and the processes behind it, which stop,
go on and end when they like; the kernel may start processes of others under any number that
is free. `Faithful` is the promise of the methods, in whatever order and on whatever object
they are called. The destructor is a loop, and others come between its calls; it waits
without a limit, so it must not wait for a process that is stopped or knows of nothing
(`destructor_waits_for_ending`).
-/

namespace Mahimahi

/-! ## The kernel -/

inductive ProcessState where
  | alive (stopped : Bool) (report : Option JobChange)
  | zombie (t : Termination)
  deriving DecidableEq, Repr

/-- What a pid stands for. `ours` says whose child it is. For the record: which process it
is, and what it has been sent. -/
structure KernelProcess where
  serial : Nat
  ours : Bool
  state : ProcessState
  signals : List Signal
  deriving DecidableEq, Repr

namespace KernelProcess

def start (serial : Nat) (ours : Bool) : KernelProcess := ⟨serial, ours, .alive false none, []⟩

/-- `SIGCONT` lets a stopped process go on at once. What other signals do is up to the
process, and a zombie does nothing. -/
def deliver (sig : Signal) (p : KernelProcess) : KernelProcess :=
  { p with
    signals := p.signals ++ [sig]
    state :=
      match p.state with
      | .alive true report => if sig = .cont then .alive false (some .continued) else .alive true report
      | state => state }

def change (c : JobChange) (p : KernelProcess) : KernelProcess :=
  { p with state := .alive (c == .stopped) (some c) }

/-- What `waitid` reports. -/
def waitid (p : KernelProcess) : Option StateChange :=
  match p.state with
  | .alive _ none => none
  | .alive _ (some .stopped) => some .stopped
  | .alive _ (some .continued) => some .continued
  | .zombie t => some (.terminated t)

/-- What is left in the table after a `waitid` without `WNOWAIT`. -/
def waited (p : KernelProcess) : Option KernelProcess :=
  match p.state with
  | .alive stopped _ => some { p with state := .alive stopped none }
  | .zombie _ => none

end KernelProcess

/-! ## The objects -/

/-- Where a destructor is: before one of the calls of its loop, or at its end. -/
inductive Destructor where
  | resume
  | signal
  | wait
  | left
  deriving DecidableEq, Repr

/-- `ChildProcess` with all its members; for the record, the process that it was made for. -/
structure ChildObject extends ChildProcess where
  pid : Nat
  gracefulTerminationSignal : Signal
  movedAway : Bool
  destructor : Option Destructor
  serial : Nat
  deriving DecidableEq, Repr

/-- A `kill` or a `waitid` of an object: the process that it was meant for, and the one that
the pid then stood for. -/
structure KernelCall where
  serial : Nat
  target : Option Nat
  deriving DecidableEq, Repr

/-- The objects and the table. For the record: how many processes there have been, the calls
of the objects, and how each process has ended. -/
structure Processes where
  objects : List ChildObject
  table : Nat → Option KernelProcess
  started : Nat
  calls : List KernelCall
  ended : Nat → Option Termination
  aborted : Bool

namespace Processes

def initial : Processes := ⟨[], fun _ => none, 0, [], fun _ => none, false⟩

def record (o : ChildObject) (s : Processes) : Processes :=
  { s with calls := s.calls ++ [⟨o.serial, (s.table o.pid).map KernelProcess.serial⟩] }

/-- A system call that the kernel may refuse. -/
def kill (sig : Signal) (permitted : Bool) (o : ChildObject) (s : Processes) :
    Except Fault Unit × Processes :=
  match s.table o.pid with
  | none => (.error (.systemError "kill"), s.record o)
  | some p =>
      if permitted then
        (.ok (), { s.record o with table := Function.update s.table o.pid (some (p.deliver sig)) })
      else (.error (.systemError "kill"), s.record o)

def signal (sig : Signal) (permitted : Bool) (o : ChildObject) (s : Processes) :
    Except Fault Unit × Processes :=
  match assertThat (!o.movedAway) "!moved_away_" with
  | .error e => (.error e, s)
  | .ok _ => if !o.terminated then s.kill sig permitted o else (.ok (), s)

def resume (permitted : Bool) (o : ChildObject) (s : Processes) : Except Fault Unit × Processes :=
  match assertThat (!o.movedAway) "!moved_away_" with
  | .error e => (.error e, s)
  | .ok _ => if !o.running then s.signal .cont permitted o else (.ok (), s)

/-- The two assertions of `waitable` and `wait`. -/
def waits (o : ChildObject) : Except Fault Unit := do
  assertThat (!o.movedAway) "!moved_away_"
  assertThat (!o.terminated) "!terminated_"

def waitable (o : ChildObject) (s : Processes) : Except Fault Bool × Processes :=
  match waits o with
  | .error e => (.error e, s)
  | .ok _ =>
      match s.table o.pid with
      | none => (.error (.systemError "waitid"), s.record o)
      | some p =>
          if p.ours then (.ok p.waitid.isSome, s.record o)
          else (.error (.systemError "waitid"), s.record o)

/-- `wait`; there is no outcome while it blocks. -/
def wait (nonblocking : Bool) (o : ChildObject) (s : Processes) :
    Option (Except Fault ChildObject × Processes) :=
  match waits o with
  | .error e => some (.error e, s)
  | .ok _ =>
      match s.table o.pid with
      | none => some (.error (.systemError "waitid"), s.record o)
      | some p =>
          if p.ours then
            match p.waitid with
            | none =>
                if nonblocking then
                  some (.error (.runtimeError "nonblocking wait: process was not waitable"),
                    s.record o)
                else none
            | some c =>
                some (.ok { o with toChildProcess := o.toChildProcess.wait c },
                  { s.record o with table := Function.update s.table o.pid p.waited })
          else some (.error (.systemError "waitid"), s.record o)

/-! ## Steps -/

inductive Event where
  /-- The constructor, when the kernel gives the pid. -/
  | construct (name : Bytes) (pid : Nat) (terminationSignal : Signal)
  /-- The move constructor, from object `i`. -/
  | move (i : Nat)
  | waitable (i : Nat)
  | wait (i : Nat) (nonblocking : Bool)
  | signal (i : Nat) (sig : Signal) (permitted : Bool)
  | resume (i : Nat) (permitted : Bool)
  /-- The destructor begins, or goes on. -/
  | destroy (i : Nat)
  | destructor (i : Nat) (permitted : Bool)
  /-- A process of others starts. -/
  | spawn (pid : Nat)
  | ends (pid : Nat) (t : Termination)
  /-- The parent of a process of others waits for it. -/
  | reaped (pid : Nat)
  | changes (pid : Nat) (c : JobChange)

/-- What a method leaves: an assertion that fails ends the program, an exception is the
caller's. -/
def finish {α : Type} (i : Nat) (update : α → ChildObject → ChildObject) (o : ChildObject)
    (r : Except Fault α × Processes) : Processes :=
  match r.1 with
  | .ok a => { r.2 with objects := r.2.objects.set i (update a o) }
  | .error (.assertion _) => { r.2 with aborted := true }
  | .error _ => r.2

/-- Where a call of `resume` or `signal` leaves the destructor: an exception ends its loop. -/
def afterSending (o : ChildObject) (next : Destructor) (r : Except Fault Unit × Processes) :
    ChildObject × Processes :=
  match r.1 with
  | .ok _ => ({ o with destructor := some next }, r.2)
  | .error _ => ({ o with destructor := some .left }, r.2)

/-- One call of the loop of the destructor. -/
def destruct (permitted : Bool) (o : ChildObject) (s : Processes) :
    Option (ChildObject × Processes) :=
  match o.destructor with
  | some .resume => some (afterSending o .signal (s.resume permitted o))
  | some .signal =>
      some (afterSending o .wait (s.signal o.gracefulTerminationSignal permitted o))
  | some .wait => do
      let r ← s.wait false o
      match r.1 with
      | .ok o' =>
          return ({ o' with destructor := some (if o'.terminated then .left else .resume) }, r.2)
      | .error _ => return ({ o with destructor := some .left }, r.2)
  | _ => none

/-- Where a destructor begins. -/
def begin (o : ChildObject) : Destructor := if o.movedAway || o.terminated then .left else .resume

/-- A method of the program on object `i`, whose destructor has not begun. -/
def onObject (i : Nat) (s : Processes) (f : ChildObject → Option Processes) : Option Processes :=
  match s.objects[i]? with
  | none => none
  | some o => if s.aborted || o.destructor.isSome then none else f o

/-- Something happens to the process that the pid stands for. -/
def onProcess (pid : Nat) (s : Processes) (f : KernelProcess → Option Processes) :
    Option Processes :=
  match s.table pid with
  | none => none
  | some p => f p

def step (s : Processes) : Event → Option Processes
  | .construct name pid sig =>
      if s.aborted || (s.table pid).isSome then none
      else some { s with
        objects := s.objects ++ [⟨.start name, pid, sig, false, none, s.started⟩]
        table := Function.update s.table pid (some (.start s.started true))
        started := s.started + 1 }
  | .move i => s.onObject i fun o =>
      match assertThat (!o.movedAway) "!other.moved_away_" with
      | .error _ => some { s with aborted := true }
      | .ok _ => some { s with objects := s.objects.set i { o with movedAway := true } ++ [o] }
  | .waitable i => s.onObject i fun o => some (finish i (fun _ o => o) o (s.waitable o))
  | .wait i nonblocking => s.onObject i fun o =>
      (s.wait nonblocking o).map (finish i (fun o' _ => o') o)
  | .signal i sig permitted => s.onObject i fun o =>
      some (finish i (fun _ o => o) o (s.signal sig permitted o))
  | .resume i permitted => s.onObject i fun o =>
      some (finish i (fun _ o => o) o (s.resume permitted o))
  | .destroy i => s.onObject i fun o =>
      some { s with objects := s.objects.set i { o with destructor := some (begin o) } }
  | .destructor i permitted =>
      match s.objects[i]? with
      | none => none
      | some o =>
          if s.aborted then none
          else (s.destruct permitted o).map fun r => { r.2 with objects := r.2.objects.set i r.1 }
  | .spawn pid =>
      if (s.table pid).isSome then none
      else some { s with
        table := Function.update s.table pid (some (.start s.started false))
        started := s.started + 1 }
  | .ends pid t => s.onProcess pid fun p =>
      match p.state with
      | .zombie _ => none
      | .alive _ _ => some { s with
          table := Function.update s.table pid (some { p with state := .zombie t })
          ended := Function.update s.ended p.serial (some t) }
  | .reaped pid => s.onProcess pid fun p =>
      match p.ours, p.state with
      | false, .zombie _ => some { s with table := Function.update s.table pid none }
      | _, _ => none
  | .changes pid c => s.onProcess pid fun p =>
      match p.state with
      | .zombie _ => none
      | .alive stopped _ =>
          -- a process that is stopped can only go on, and the other way round
          if stopped == (c == .stopped) then none
          else some { s with table := Function.update s.table pid (some (p.change c)) }

/-! ## What is kept -/

/-- The object answers for a process that has not been waited for. -/
def Holds (o : ChildObject) : Prop := o.movedAway = false ∧ o.terminated = false

/-- What the object knows of its process: of a stop it has been told, or it will be; and a
destructor that waits has sent its signal. -/
structure Fits (o : ChildObject) (p : KernelProcess) : Prop where
  stopped : ∀ report, p.state = .alive true report → report = some .stopped ∨
    (report = none ∧ o.running = false ∧ o.destructor ≠ some .signal ∧ o.destructor ≠ some .wait)
  sent : o.destructor = some .wait → o.gracefulTerminationSignal ∈ p.signals

/-- What an object that has seen its process end knows of it. -/
def Knows (s : Processes) (o : ChildObject) : Prop :=
  ∃ t, s.ended o.serial = some t ∧ o.exitStatus = t.status ∧ o.diedOnSignal = t.onSignal

structure Owns (s : Processes) : Prop where
  serial_lt : ∀ pid p, s.table pid = some p → p.serial < s.started
  one_pid : ∀ pid pid' p p', s.table pid = some p → s.table pid' = some p' →
    p.serial = p'.serial → pid = pid'
  zombie : ∀ pid p t, s.table pid = some p → p.state = .zombie t → s.ended p.serial = some t
  made : ∀ o ∈ s.objects, o.serial < s.started
  owner : ∀ o ∈ s.objects, Holds o →
    ∃ p, s.table o.pid = some p ∧ p.serial = o.serial ∧ p.ours = true ∧ Fits o p
  one_owner : ∀ (i j : Nat) o o', s.objects[i]? = some o → s.objects[j]? = some o' → Holds o →
    Holds o' → o.serial = o'.serial → i = j
  gone : ∀ o ∈ s.objects, o.terminated = true → ∀ pid p, s.table pid = some p →
    p.serial ≠ o.serial
  knows : ∀ o ∈ s.objects, o.terminated = true → s.Knows o
  unmarked : ∀ o ∈ s.objects, o.terminated = false → o.diedOnSignal = false
  calls : ∀ c ∈ s.calls, c.target = some c.serial

section

variable {s s' : Processes} {o o' : ChildObject} {p p' : KernelProcess} {i pid : Nat}

theorem Owns.abort (h : Owns s) : Owns { s with aborted := true } :=
  ⟨h.serial_lt, h.one_pid, h.zombie, h.made, h.owner, h.one_owner, h.gone, h.knows, h.unmarked,
    h.calls⟩

/-- A call reaches the process it was meant for. -/
theorem Owns.record (h : Owns s) (ho : o ∈ s.objects) (hholds : Holds o) : Owns (s.record o) := by
  obtain ⟨p, hp, hserial, -⟩ := h.owner o ho hholds
  refine ⟨h.serial_lt, h.one_pid, h.zombie, h.made, h.owner, h.one_owner, h.gone, h.knows,
    h.unmarked, fun c hc => ?_⟩
  rcases List.mem_append.mp hc with hc | hc
  · exact h.calls c hc
  · rw [List.mem_singleton.mp hc, hp]
    exact congrArg some hserial

theorem Owns.holder (h : Owns s) (hi : s.objects[i]? = some o) (hholds : Holds o)
    {o₁ : ChildObject} (h₁ : o₁ ∈ s.objects) (hholds₁ : Holds o₁) (hpid : o₁.pid = o.pid) :
    o₁ = o := by
  obtain ⟨p, hp, hserial, -⟩ := h.owner o (List.mem_of_getElem? hi) hholds
  obtain ⟨p₁, hp₁, hserial₁, -⟩ := h.owner o₁ h₁ hholds₁
  rw [hpid, hp] at hp₁
  obtain rfl := Option.some.inj hp₁
  obtain ⟨j, hj⟩ := List.mem_iff_getElem?.mp h₁
  obtain rfl := h.one_owner j i o₁ o hj hi hholds₁ hholds (hserial₁.symm.trans hserial)
  exact Option.some.inj (hj.symm.trans hi)

/-- Something happens to a process that its object can live with. -/
theorem Owns.touch (h : Owns s) (hp : s.table pid = some p) (hserial : p'.serial = p.serial)
    (hours : p'.ours = p.ours) (hfits : ∀ o ∈ s.objects, Holds o → o.pid = pid → Fits o p → Fits o p')
    (hzombie : ∀ t, p'.state = .zombie t → s.ended p.serial = some t) :
    Owns { s with table := Function.update s.table pid (some p') } := by
  have htable : ∀ pid₁ p₁, Function.update s.table pid (some p') pid₁ = some p₁ →
      ∃ p₀, s.table pid₁ = some p₀ ∧ p₁.serial = p₀.serial ∧ (pid₁ = pid ∧ p₁ = p' ∨ p₁ = p₀) := by
    intro pid₁ p₁ h₁
    by_cases hpid : pid₁ = pid
    · rw [hpid, Function.update_self] at h₁
      obtain rfl := Option.some.inj h₁
      exact ⟨p, hpid ▸ hp, hserial, .inl ⟨hpid, rfl⟩⟩
    · rw [Function.update_of_ne hpid] at h₁
      exact ⟨p₁, h₁, rfl, .inr rfl⟩
  refine ⟨fun pid₁ p₁ h₁ => ?_, fun pid₁ pid₂ p₁ p₂ h₁ h₂ heq => ?_, fun pid₁ p₁ t h₁ ht => ?_,
    h.made, fun o ho hholds => ?_, h.one_owner, fun o ho hterm pid₁ p₁ h₁ => ?_, h.knows,
    h.unmarked, h.calls⟩
  · obtain ⟨p₀, h₀, hs, -⟩ := htable pid₁ p₁ h₁
    exact hs ▸ h.serial_lt pid₁ p₀ h₀
  · obtain ⟨q₁, hq₁, hs₁, -⟩ := htable pid₁ p₁ h₁
    obtain ⟨q₂, hq₂, hs₂, -⟩ := htable pid₂ p₂ h₂
    exact h.one_pid pid₁ pid₂ q₁ q₂ hq₁ hq₂ (hs₁.symm.trans (heq.trans hs₂))
  · obtain ⟨p₀, h₀, hs, ⟨rfl, rfl⟩ | rfl⟩ := htable pid₁ p₁ h₁
    · rw [hserial]
      exact hzombie t ht
    · exact h.zombie pid₁ p₁ t h₀ ht
  · obtain ⟨p₀, h₀, hs, ho', hf⟩ := h.owner o ho hholds
    by_cases hpid : o.pid = pid
    · rw [hpid, hp] at h₀
      obtain rfl := Option.some.inj h₀
      refine ⟨p', ?_, hserial.trans hs, hours.trans ho', hfits o ho hholds hpid hf⟩
      rw [hpid]
      exact Function.update_self ..
    · exact ⟨p₀, by rw [← h₀]; exact Function.update_of_ne hpid .., hs, ho', hf⟩
  · obtain ⟨p₀, h₀, hs, -⟩ := htable pid₁ p₁ h₁
    rw [hs]
    exact h.gone o ho hterm pid₁ p₀ h₀

theorem Owns.replace (h : Owns s) (o' : ChildObject) (hi : s.objects[i]? = some o)
    (hserial : o'.serial = o.serial)
    (howner : Holds o' → Holds o ∧
      ∃ p, s.table o'.pid = some p ∧ p.serial = o'.serial ∧ p.ours = true ∧ Fits o' p)
    (hgone : o'.terminated = true → ∀ pid p, s.table pid = some p → p.serial ≠ o'.serial)
    (hknows : o'.terminated = true → s.Knows o')
    (hunmarked : o'.terminated = false → o'.diedOnSignal = false) :
    Owns { s with objects := s.objects.set i o' } := by
  have hmem : ∀ {Q : ChildObject → Prop}, (∀ o₁ ∈ s.objects, Q o₁) → Q o' →
      ∀ o₁ ∈ s.objects.set i o', Q o₁ := by
    intro Q hQ hQo o₁ h₁
    rcases List.mem_or_eq_of_mem_set h₁ with h₁ | rfl
    · exact hQ o₁ h₁
    · exact hQo
  have hmade : o'.serial < s.started := hserial ▸ h.made o (List.mem_of_getElem? hi)
  refine ⟨h.serial_lt, h.one_pid, h.zombie, hmem h.made hmade,
    hmem h.owner fun hholds => (howner hholds).2, ?_, hmem h.gone hgone, hmem h.knows hknows,
    hmem h.unmarked hunmarked, h.calls⟩
  -- each that holds a process is one that did so before, with its serial number
  have hold : ∀ (j : Nat) o₁, (s.objects.set i o')[j]? = some o₁ → Holds o₁ →
      ∃ o₀, s.objects[j]? = some o₀ ∧ Holds o₀ ∧ o₁.serial = o₀.serial := by
    intro j o₁ hj hh
    rw [List.getElem?_set] at hj
    by_cases hij : i = j
    · rw [if_pos hij] at hj
      split at hj
      · obtain rfl := Option.some.inj hj
        exact ⟨o, hij ▸ hi, (howner hh).1, hserial⟩
      · cases hj
    · rw [if_neg hij] at hj
      exact ⟨o₁, hj, hh, rfl⟩
  intro j k o₁ o₂ h₁ h₂ hh₁ hh₂ heq
  obtain ⟨q₁, hq₁, hhq₁, hs₁⟩ := hold j o₁ h₁ hh₁
  obtain ⟨q₂, hq₂, hhq₂, hs₂⟩ := hold k o₂ h₂ hh₂
  exact h.one_owner j k q₁ q₂ hq₁ hq₂ hhq₁ hhq₂ (hs₁.symm.trans (heq.trans hs₂))

theorem Owns.setObject (h : Owns s) (o' : ChildObject) (hi : s.objects[i]? = some o)
    (hserial : o'.serial = o.serial)
    (hpid : o'.pid = o.pid) (hmoved : o'.movedAway = false → o.movedAway = false)
    (hterm : o'.terminated = o.terminated) (hstatus : o'.exitStatus = o.exitStatus)
    (hdied : o'.diedOnSignal = o.diedOnSignal)
    (hfits : Holds o → ∀ p, s.table o.pid = some p → Fits o p → Fits o' p) :
    Owns { s with objects := s.objects.set i o' } := by
  have ho : o ∈ s.objects := List.mem_of_getElem? hi
  refine h.replace o' hi hserial (fun hholds => ?_) (fun ht => ?_) (fun ht => ?_) fun ht => ?_
  · have hholds : Holds o := ⟨hmoved hholds.1, hterm ▸ hholds.2⟩
    obtain ⟨p, hp, hs, hours, hf⟩ := h.owner o ho hholds
    exact ⟨hholds, p, hpid ▸ hp, hserial ▸ hs, hours, hfits hholds p hp hf⟩
  · rw [hserial]
    exact h.gone o ho (hterm ▸ ht)
  · obtain ⟨t, hended, hs, hd⟩ := h.knows o ho (hterm ▸ ht)
    exact ⟨t, hserial ▸ hended, hstatus.trans hs, hdied.trans hd⟩
  · rw [hdied]
    exact h.unmarked o ho (hterm ▸ ht)

theorem Owns.start (h : Owns s) (hp : s.table pid = none) (ours : Bool) : Owns { s with
    table := Function.update s.table pid (some (.start s.started ours))
    started := s.started + 1 } := by
  have htable : ∀ pid₁ p₁,
      Function.update s.table pid (some (KernelProcess.start s.started ours)) pid₁ = some p₁ →
      (pid₁ = pid ∧ p₁ = .start s.started ours) ∨ s.table pid₁ = some p₁ := by
    intro pid₁ p₁ h₁
    by_cases hpid : pid₁ = pid
    · rw [hpid, Function.update_self] at h₁
      exact .inl ⟨hpid, (Option.some.inj h₁).symm⟩
    · rw [Function.update_of_ne hpid] at h₁
      exact .inr h₁
  refine ⟨fun pid₁ p₁ h₁ => ?_, fun pid₁ pid₂ p₁ p₂ h₁ h₂ heq => ?_, fun pid₁ p₁ t h₁ ht => ?_,
    fun o ho => Nat.lt_succ_of_lt (h.made o ho), fun o ho hholds => ?_, h.one_owner,
    fun o ho hterm pid₁ p₁ h₁ => ?_, h.knows, h.unmarked, h.calls⟩
  · rcases htable pid₁ p₁ h₁ with ⟨-, rfl⟩ | h₁
    · exact Nat.lt_succ_self _
    · exact Nat.lt_succ_of_lt (h.serial_lt pid₁ p₁ h₁)
  · rcases htable pid₁ p₁ h₁ with ⟨hpid₁, hp₁⟩ | hq₁ <;>
      rcases htable pid₂ p₂ h₂ with ⟨hpid₂, hp₂⟩ | hq₂
    · rw [hpid₁, hpid₂]
    · rw [hp₁] at heq
      exact absurd heq (Nat.ne_of_gt (h.serial_lt pid₂ p₂ hq₂))
    · rw [hp₂] at heq
      exact absurd heq (Nat.ne_of_lt (h.serial_lt pid₁ p₁ hq₁))
    · exact h.one_pid pid₁ pid₂ p₁ p₂ hq₁ hq₂ heq
  · rcases htable pid₁ p₁ h₁ with ⟨-, rfl⟩ | h₁
    · cases ht
    · exact h.zombie pid₁ p₁ t h₁ ht
  · obtain ⟨p, hp', hs, ho', hf⟩ := h.owner o ho hholds
    have hne : o.pid ≠ pid := by
      rintro rfl
      rw [hp] at hp'
      cases hp'
    exact ⟨p, by rw [← hp']; exact Function.update_of_ne hne .., hs, ho', hf⟩
  · rcases htable pid₁ p₁ h₁ with ⟨-, rfl⟩ | h₁
    · exact Nat.ne_of_gt (h.made o ho)
    · exact h.gone o ho hterm pid₁ p₁ h₁

theorem Owns.remove (h : Owns s) (hp : s.table pid = some p)
    (hfree : ∀ o ∈ s.objects, Holds o → p.serial ≠ o.serial) :
    Owns { s with table := Function.update s.table pid none } := by
  have htable : ∀ pid₁ p₁, Function.update s.table pid none pid₁ = some p₁ →
      s.table pid₁ = some p₁ := by
    intro pid₁ p₁ h₁
    by_cases hpid : pid₁ = pid
    · rw [hpid, Function.update_self] at h₁
      cases h₁
    · rwa [Function.update_of_ne hpid] at h₁
  refine ⟨fun pid₁ p₁ h₁ => h.serial_lt pid₁ p₁ (htable _ _ h₁), fun pid₁ pid₂ p₁ p₂ h₁ h₂ =>
    h.one_pid pid₁ pid₂ p₁ p₂ (htable _ _ h₁) (htable _ _ h₂), fun pid₁ p₁ t h₁ =>
    h.zombie pid₁ p₁ t (htable _ _ h₁), h.made, fun o ho hholds => ?_, h.one_owner,
    fun o ho hterm pid₁ p₁ h₁ => h.gone o ho hterm pid₁ p₁ (htable _ _ h₁), h.knows, h.unmarked,
    h.calls⟩
  obtain ⟨q, hq, hs, hours, hf⟩ := h.owner o ho hholds
  have hne : o.pid ≠ pid := by
    rintro rfl
    rw [hp] at hq
    obtain rfl := Option.some.inj hq
    exact hfree o ho hholds hs
  exact ⟨q, by rw [← hq]; exact Function.update_of_ne hne .., hs, hours, hf⟩

theorem Owns.append (h : Owns s) (hmade : o.serial < s.started)
    (howner : Holds o → ∃ p, s.table o.pid = some p ∧ p.serial = o.serial ∧ p.ours = true ∧ Fits o p)
    (hfree : Holds o → ∀ o₁ ∈ s.objects, Holds o₁ → o₁.serial ≠ o.serial)
    (hgone : o.terminated = true → ∀ pid p, s.table pid = some p → p.serial ≠ o.serial)
    (hknows : o.terminated = true → s.Knows o)
    (hunmarked : o.terminated = false → o.diedOnSignal = false) :
    Owns { s with objects := s.objects ++ [o] } := by
  have hmem : ∀ {Q : ChildObject → Prop}, (∀ o₁ ∈ s.objects, Q o₁) → Q o →
      ∀ o₁ ∈ s.objects ++ [o], Q o₁ := by
    intro Q hQ hQo o₁ h₁
    rcases List.mem_append.mp h₁ with h₁ | h₁
    · exact hQ o₁ h₁
    · exact List.mem_singleton.mp h₁ ▸ hQo
  refine ⟨h.serial_lt, h.one_pid, h.zombie, hmem h.made hmade, hmem h.owner howner, ?_,
    hmem h.gone hgone, hmem h.knows hknows, hmem h.unmarked hunmarked, h.calls⟩
  have hcases : ∀ (j : Nat) o₁, (s.objects ++ [o])[j]? = some o₁ →
      s.objects[j]? = some o₁ ∨ (j = s.objects.length ∧ o₁ = o) := by
    intro j o₁ hj
    rcases Nat.lt_or_ge j s.objects.length with hlt | hge
    · rw [List.getElem?_append_left hlt] at hj
      exact .inl hj
    · rw [List.getElem?_append_right hge] at hj
      obtain ⟨hlt, hget⟩ := List.getElem?_eq_some_iff.mp hj
      rw [List.length_singleton] at hlt
      refine .inr ⟨by omega, ?_⟩
      rw [List.getElem_singleton] at hget
      exact hget.symm
  intro j k o₁ o₂ h₁ h₂ hh₁ hh₂ heq
  rcases hcases j o₁ h₁ with hq₁ | ⟨hj, hp₁⟩ <;> rcases hcases k o₂ h₂ with hq₂ | ⟨hk, hp₂⟩
  · exact h.one_owner j k o₁ o₂ hq₁ hq₂ hh₁ hh₂ heq
  · rw [hp₂] at heq hh₂
    exact absurd heq (hfree hh₂ o₁ (List.mem_of_getElem? hq₁) hh₁)
  · rw [hp₁] at heq hh₁
    exact absurd heq.symm (hfree hh₁ o₂ (List.mem_of_getElem? hq₂) hh₂)
  · rw [hj, hk]

/-! ### The kernel's side of a step -/

theorem Fits.deliver (h : Fits o p) (sig : Signal) : Fits o (p.deliver sig) := by
  refine ⟨fun report hstate => ?_, fun hwait => List.mem_append_left _ (h.sent hwait)⟩
  have hstate : (match p.state with
      | .alive true report => if sig = .cont then .alive false (some .continued) else .alive true report
      | state => state) = ProcessState.alive true report := hstate
  split at hstate
  · next hp =>
      split at hstate
      · cases hstate
      · exact h.stopped report (hp.trans hstate)
  · exact h.stopped report hstate

/-- After `SIGCONT` no process is stopped. -/
theorem deliver_cont (p : KernelProcess) (report : Option JobChange) :
    (p.deliver .cont).state ≠ .alive true report := by
  intro hstate
  have hstate : (match p.state with
      | .alive true report => if Signal.cont = .cont then .alive false (some .continued)
          else .alive true report
      | state => state) = ProcessState.alive true report := hstate
  split at hstate
  · cases hstate
  · next hne => exact hne report hstate

theorem Fits.change (h : Fits o p) (c : JobChange) : Fits o (p.change c) := by
  refine ⟨fun report hstate => ?_, h.sent⟩
  cases c with
  | stopped =>
      cases hstate
      exact .inl rfl
  | continued => cases hstate

/-- How a process ends is noted once. -/
theorem Owns.note (h : Owns s) (hp : s.table pid = some p) (halive : ∀ t, p.state ≠ .zombie t)
    (t : Termination) : Owns { s with ended := Function.update s.ended p.serial (some t) } := by
  refine ⟨h.serial_lt, h.one_pid, fun pid₁ p₁ t₁ h₁ ht₁ => ?_, h.made, h.owner, h.one_owner, h.gone,
    fun o ho hterm => ?_, h.unmarked, h.calls⟩
  · have hne : p₁.serial ≠ p.serial := by
      intro heq
      obtain rfl := h.one_pid pid₁ pid p₁ p h₁ hp heq
      rw [hp] at h₁
      obtain rfl := Option.some.inj h₁
      exact halive t₁ ht₁
    rw [← h.zombie pid₁ p₁ t₁ h₁ ht₁]
    exact Function.update_of_ne hne ..
  · obtain ⟨t', hended, hstatus⟩ := h.knows o ho hterm
    have hne : o.serial ≠ p.serial := (h.gone o ho hterm pid p hp).symm
    exact ⟨t', by rw [← hended]; exact Function.update_of_ne hne .., hstatus⟩

/-! ### The methods -/

theorem Owns.kill (h : Owns s) (hi : s.objects[i]? = some o) (hholds : Holds o) (sig : Signal)
    (permitted : Bool) : Owns (s.kill sig permitted o).2 ∧
      (s.kill sig permitted o).2.objects = s.objects ∧ ((s.kill sig permitted o).1 = .ok () →
        ∃ p, s.table o.pid = some p ∧
          (s.kill sig permitted o).2.table o.pid = some (p.deliver sig)) := by
  obtain ⟨p, hp, -⟩ := h.owner o (List.mem_of_getElem? hi) hholds
  have hrecord := h.record (List.mem_of_getElem? hi) hholds
  unfold Processes.kill
  rw [hp]
  cases permitted with
  | false => exact ⟨hrecord, rfl, fun hok => (by cases hok)⟩
  | true =>
      refine ⟨hrecord.touch hp rfl rfl (fun o₁ _ _ _ hf => hf.deliver sig) fun t ht => ?_, rfl,
        fun _ => ⟨p, rfl, Function.update_self ..⟩⟩
      have ht : (match p.state with
        | .alive true report => if sig = .cont then .alive false (some .continued)
            else .alive true report
        | state => state) = ProcessState.zombie t := ht
      split at ht
      · split at ht <;> cases ht
      · exact h.zombie _ p t hp ht

theorem Owns.signal (h : Owns s) (hi : s.objects[i]? = some o) (sig : Signal) (permitted : Bool) :
    Owns (s.signal sig permitted o).2 ∧ (s.signal sig permitted o).2.objects = s.objects ∧
      ((s.signal sig permitted o).1 = .ok () → Holds o → ∃ p, s.table o.pid = some p ∧
        (s.signal sig permitted o).2.table o.pid = some (p.deliver sig)) := by
  unfold Processes.signal
  cases hmoved : o.movedAway with
  | true => exact ⟨h, rfl, fun hok => (by cases hok)⟩
  | false =>
      cases hterm : o.terminated with
      | true => exact ⟨h, rfl, fun _ hholds => absurd hholds.2 (by simp [hterm])⟩
      | false =>
          obtain ⟨howns, hobjects, htable⟩ := h.kill hi ⟨hmoved, hterm⟩ sig permitted
          exact ⟨howns, hobjects, fun hok _ => htable hok⟩

theorem Owns.resume (h : Owns s) (hi : s.objects[i]? = some o) (permitted : Bool) :
    Owns (s.resume permitted o).2 ∧ (s.resume permitted o).2.objects = s.objects ∧
      ((s.resume permitted o).1 = .ok () → Holds o → ∀ p,
        (s.resume permitted o).2.table o.pid = some p → ∀ report,
          p.state = .alive true report → report = some .stopped) := by
  unfold Processes.resume
  cases hmoved : o.movedAway with
  | true => exact ⟨h, rfl, fun hok => (by cases hok)⟩
  | false =>
      cases hrunning : o.running with
      | true =>
          refine ⟨h, rfl, fun _ hholds p hp report hstate => ?_⟩
          obtain ⟨q, hq, -, -, hf⟩ := h.owner o (List.mem_of_getElem? hi) hholds
          have hp : s.table o.pid = some p := hp
          rw [hq] at hp
          obtain rfl := Option.some.inj hp
          rcases hf.stopped report hstate with hreport | ⟨-, hnot, -⟩
          · exact hreport
          · rw [hrunning] at hnot
            cases hnot
      | false =>
          obtain ⟨howns, hobjects, htable⟩ := h.signal hi .cont permitted
          refine ⟨howns, hobjects, fun hok hholds p hp report hstate => ?_⟩
          obtain ⟨q, -, hq⟩ := htable hok hholds
          have hp : (s.signal .cont permitted o).2.table o.pid = some p := hp
          rw [hq] at hp
          obtain rfl := Option.some.inj hp
          exact absurd hstate (deliver_cont q report)

theorem waits_eq_ok (o : ChildObject) : waits o = .ok () ↔ Holds o := by
  cases hmoved : o.movedAway <;> cases hterm : o.terminated <;>
    simp [waits, Holds, hmoved, hterm, assertThat]

/-- A `wait` that returns or throws: it has changed nothing, or told the object of a change. -/
theorem wait_cases {nonblocking : Bool} {r : Except Fault ChildObject × Processes}
    (hw : s.wait nonblocking o = some r) :
    (∃ e, r.1 = .error e ∧ (r.2 = s ∨ Holds o ∧ r.2 = s.record o)) ∨
    ∃ p c, Holds o ∧ s.table o.pid = some p ∧ p.waitid = some c ∧
      r = (.ok { o with toChildProcess := o.toChildProcess.wait c },
        { s.record o with table := Function.update s.table o.pid p.waited }) := by
  unfold Processes.wait at hw
  cases hwaits : waits o with
  | error e =>
      rw [hwaits] at hw
      cases hw
      exact .inl ⟨e, rfl, .inl rfl⟩
  | ok u =>
      have hholds := (waits_eq_ok o).mp hwaits
      rw [hwaits] at hw
      simp only at hw
      split at hw
      · cases hw
        exact .inl ⟨_, rfl, .inr ⟨hholds, rfl⟩⟩
      · next p hp =>
          split at hw
          · split at hw
            · split at hw
              · cases hw
                exact .inl ⟨_, rfl, .inr ⟨hholds, rfl⟩⟩
              · cases hw
            · next c hc =>
                cases hw
                exact .inr ⟨p, c, hholds, hp, hc, rfl⟩
          · cases hw
            exact .inl ⟨_, rfl, .inr ⟨hholds, rfl⟩⟩

/-- An object is told of a change, and leaves a loop of its destructor or is in none. -/
theorem Owns.waited (h : Owns s) (hi : s.objects[i]? = some o) (hholds : Holds o)
    (hp : s.table o.pid = some p) {c : StateChange} (hc : p.waitid = some c)
    {d : Option Destructor} (hsignal : d ≠ some .signal) (hwait : d ≠ some .wait) :
    Owns { s with
      table := Function.update s.table o.pid p.waited
      objects := s.objects.set i
        { o with toChildProcess := o.toChildProcess.wait c, destructor := d } } := by
  obtain ⟨q, hq, hserial, hours, hf⟩ := h.owner o (List.mem_of_getElem? hi) hholds
  rw [hp] at hq
  obtain rfl := Option.some.inj hq
  have hlt := (List.getElem?_eq_some_iff.mp hi).1
  have hset : ∀ o' : ChildObject, (s.objects.set i o')[i]? = some o' := fun o' =>
    List.getElem?_set_self hlt
  unfold KernelProcess.waitid at hc
  cases hstate : p.state with
  | zombie t =>
      rw [hstate] at hc
      obtain rfl := Option.some.inj hc
      have hnone : p.waited = none := by
        rw [KernelProcess.waited, hstate]
      -- first nobody answers for the process, then it goes, then its end is known
      have hgive := h.setObject { o with movedAway := true } hi rfl rfl
        (fun hn => absurd hn (by simp)) rfl rfl rfl (fun _ p hp hf => ⟨hf.stopped, hf.sent⟩)
      have hremove := hgive.remove hp fun o₁ h₁ hh₁ heq => by
        obtain ⟨j, hj⟩ := List.mem_iff_getElem?.mp h₁
        have hj : (s.objects.set i { o with movedAway := true })[j]? = some o₁ := hj
        by_cases hij : i = j
        · rw [← hij, hset] at hj
          obtain rfl := Option.some.inj hj
          exact absurd hh₁.1 (by simp)
        · rw [List.getElem?_set_ne hij] at hj
          exact hij (h.one_owner i j o o₁ hi hj hholds hh₁ (hserial.symm.trans heq))
      have hdied : o.diedOnSignal = false := h.unmarked o (List.mem_of_getElem? hi) hholds.2
      have hknow := hremove.replace ({ o with
          toChildProcess := o.toChildProcess.wait (.terminated t), destructor := d })
        (hset _) rfl (fun hn => absurd hn.2 (by simp [ChildProcess.wait])) (fun _ pid₁ p₁ h₁ heq => ?_)
        (fun _ => ⟨t, ?_, rfl, ?_⟩) (fun hn => absurd hn (by simp [ChildProcess.wait]))
      · rw [List.set_set, ← hnone] at hknow
        exact hknow
      · have h₁ : Function.update s.table o.pid none pid₁ = some p₁ := h₁
        by_cases hpid : pid₁ = o.pid
        · rw [hpid, Function.update_self] at h₁
          cases h₁
        · rw [Function.update_of_ne hpid] at h₁
          exact hpid (h.one_pid pid₁ o.pid p₁ p h₁ hp (heq.trans hserial.symm))
      · exact hserial ▸ h.zombie _ p t hp hstate
      · show (o.diedOnSignal || t.onSignal) = t.onSignal
        rw [hdied, Bool.false_or]
  | alive stopped report =>
      rw [hstate] at hc
      have hsome : p.waited = some { p with state := .alive stopped none } := by
        rw [KernelProcess.waited, hstate]
      cases report with
      | none => cases hc
      | some change =>
          have hknow : ∀ running : Bool, (stopped = true → running = false) →
              Owns { s with
                table := Function.update s.table o.pid p.waited
                objects := s.objects.set i
                  { o with toChildProcess := { o.toChildProcess with running := running }
                           destructor := d } } := by
            intro running hrunning
            let o' : ChildObject := { o with
              toChildProcess := { o.toChildProcess with running := running }, destructor := d }
            have htold := h.setObject o' hi rfl rfl id rfl rfl rfl fun _ p₁ hp₁ hf₁ => by
              obtain rfl := Option.some.inj (hp.symm.trans hp₁)
              refine ⟨fun report hreport => .inl ?_, fun hd => absurd hd hwait⟩
              rcases hf₁.stopped report hreport with hreport' | ⟨hnone, -⟩
              · exact hreport'
              · rw [hstate, hnone] at hreport
                cases hreport
            rw [hsome]
            refine htold.touch hp rfl rfl (fun o₁ h₁ hh₁ hpid hf₁ => ?_) (fun t ht => by cases ht)
            obtain rfl := htold.holder (hset o') hholds h₁ hh₁ hpid
            refine ⟨fun report hreport => .inr ?_, fun hd => absurd hd hwait⟩
            obtain ⟨hstopped, hnone⟩ := ProcessState.alive.inj hreport
            exact ⟨hnone.symm, hrunning hstopped, hsignal, hwait⟩
          cases change with
          | stopped =>
              obtain rfl := Option.some.inj hc
              exact hknow false fun _ => rfl
          | continued =>
              obtain rfl := Option.some.inj hc
              refine hknow true fun hstopped => ?_
              rw [hstopped] at hstate
              rcases hf.stopped _ hstate with hreport | ⟨hreport, -⟩ <;> cases hreport

/-! ### All steps -/

theorem Owns.finish {α : Type} {update : α → ChildObject → ChildObject}
    {r : Except Fault α × Processes} (h : Owns r.2)
    (hok : ∀ a, r.1 = .ok a → Owns { r.2 with objects := r.2.objects.set i (update a o) }) :
    Owns (finish i update o r) := by
  unfold Processes.finish
  cases hr : r.1 with
  | ok a => exact hok a hr
  | error e =>
      cases e with
      | assertion expr => exact h.abort
      | runtimeError text => exact h
      | runtimeErrorWith text detail => exact h
      | systemError attempt => exact h
      | outOfRange => exact h
      | outOfBounds => exact h
      | diverges => exact h

theorem set_getElem? (hi : s.objects[i]? = some o) : s.objects.set i o = s.objects := by
  obtain ⟨hlt, rfl⟩ := List.getElem?_eq_some_iff.mp hi
  exact List.set_getElem_self hlt

theorem Owns.finish_same {α : Type} {r : Except Fault α × Processes}
    (hi : s.objects[i]? = some o) (h : Owns r.2) (hobjects : r.2.objects = s.objects) :
    Owns (Processes.finish i (fun _ o => o) o r) := by
  refine h.finish fun a _ => ?_
  have hset : r.2.objects.set i o = r.2.objects := by
    rw [hobjects]
    exact set_getElem? hi
  rw [hset]
  exact h

theorem Owns.waitable (h : Owns s) (hi : s.objects[i]? = some o) :
    Owns (s.waitable o).2 ∧ (s.waitable o).2.objects = s.objects := by
  unfold Processes.waitable
  cases hwaits : waits o with
  | error e => exact ⟨h, rfl⟩
  | ok u =>
      have hrecord := h.record (List.mem_of_getElem? hi) ((waits_eq_ok o).mp hwaits)
      dsimp only
      split
      · exact ⟨hrecord, rfl⟩
      · split
        · exact ⟨hrecord, rfl⟩
        · exact ⟨hrecord, rfl⟩

/-- The destructor leaves, or is at its beginning. -/
theorem Owns.setDestructor (h : Owns s) (hi : s.objects[i]? = some o) {d : Option Destructor}
    (hsignal : d ≠ some .signal) (hwait : d ≠ some .wait) :
    Owns { s with objects := s.objects.set i { o with destructor := d } } := by
  refine h.setObject _ hi rfl rfl id rfl rfl rfl fun _ p _ hf => ⟨fun report hreport => ?_,
    fun hd => absurd hd hwait⟩
  rcases hf.stopped report hreport with hreport | ⟨hnone, hrunning, -⟩
  · exact .inl hreport
  · exact .inr ⟨hnone, hrunning, hsignal, hwait⟩

theorem Owns.afterSending {next : Destructor} {r : Except Fault Unit × Processes}
    (hi : s.objects[i]? = some o) (h : Owns r.2) (hobjects : r.2.objects = s.objects)
    (hfits : r.1 = .ok () → Holds o → ∀ p, r.2.table o.pid = some p → Fits o p →
      Fits { o with destructor := some next } p) :
    Owns { r.2 with
      objects := r.2.objects.set i (Processes.afterSending o next r).1 } := by
  have hi : r.2.objects[i]? = some o := hobjects ▸ hi
  unfold Processes.afterSending
  cases hr : r.1 with
  | error e => exact h.setDestructor hi (by simp) (by simp)
  | ok u => exact h.setObject _ hi rfl rfl id rfl rfl rfl (hfits hr)

theorem afterSending_snd (o : ChildObject) (next : Destructor)
    (r : Except Fault Unit × Processes) : (afterSending o next r).2 = r.2 := by
  unfold Processes.afterSending
  split <;> rfl

theorem Owns.destruct (h : Owns s) (hi : s.objects[i]? = some o) {permitted : Bool}
    {r : ChildObject × Processes} (hr : s.destruct permitted o = some r) :
    Owns { r.2 with objects := r.2.objects.set i r.1 } := by
  unfold Processes.destruct at hr
  cases hd : o.destructor with
  | none =>
      rw [hd] at hr
      cases hr
  | some d =>
      rw [hd] at hr
      cases d with
      | left => cases hr
      | resume =>
          obtain rfl := Option.some.inj hr
          obtain ⟨howns, hobjects, hresumed⟩ := h.resume hi permitted
          rw [afterSending_snd]
          refine howns.afterSending hi hobjects fun hok hholds p hp hf =>
            ⟨fun report hreport => .inl (hresumed hok hholds p hp report hreport), fun hd => ?_⟩
          cases Option.some.inj hd
      | signal =>
          obtain rfl := Option.some.inj hr
          obtain ⟨howns, hobjects, hsent⟩ := h.signal hi o.gracefulTerminationSignal permitted
          rw [afterSending_snd]
          refine howns.afterSending hi hobjects fun hok hholds p hp hf =>
            ⟨fun report hreport => .inl ?_, fun _ => ?_⟩
          · rcases hf.stopped report hreport with hreport | ⟨-, -, hnot, -⟩
            · exact hreport
            · exact absurd hd hnot
          · obtain ⟨q, -, hq⟩ := hsent hok hholds
            obtain rfl := Option.some.inj (hq.symm.trans hp)
            exact List.mem_append_right _ List.mem_cons_self
      | wait =>
          have hleft : ∀ {s' : Processes}, Owns s' → s'.objects = s.objects →
              Owns { s' with objects := s'.objects.set i { o with destructor := some .left } } :=
            fun h' hobjects => h'.setDestructor (hobjects ▸ hi) (by simp) (by simp)
          obtain ⟨w, hw, hr⟩ := Option.bind_eq_some_iff.mp hr
          rcases wait_cases hw with ⟨e, he, hs⟩ | ⟨p, c, hholds, hp, hc, rfl⟩
          · simp only [he] at hr
            obtain rfl := Option.some.inj hr
            rcases hs with hs | ⟨hholds, hs⟩
            · rw [hs]
              exact hleft h rfl
            · rw [hs]
              exact hleft (h.record (List.mem_of_getElem? hi) hholds) rfl
          · obtain rfl := Option.some.inj hr
            have hrecord := h.record (List.mem_of_getElem? hi) hholds
            refine hrecord.waited (s := s.record o) hi hholds hp hc ?_ ?_
            · split <;> simp
            · split <;> simp

theorem Owns.construct (h : Owns s) (hp : s.table pid = none) (name : Bytes) (sig : Signal) :
    Owns { s with
      objects := s.objects ++ [⟨.start name, pid, sig, false, none, s.started⟩]
      table := Function.update s.table pid (some (.start s.started true))
      started := s.started + 1 } := by
  refine (h.start hp true).append (Nat.lt_succ_self _) (fun _ => ⟨_, Function.update_self .., rfl,
    rfl, fun report hreport => ?_, fun hd => ?_⟩) (fun _ o₁ h₁ _ => Nat.ne_of_lt (h.made o₁ h₁))
    (fun hterm => ?_) (fun hterm => ?_) (fun _ => rfl)
  · cases hreport
  · cases hd
  · cases hterm
  · cases hterm

/-- The move constructor: the new object answers for what the other one has answered for. -/
theorem Owns.move (h : Owns s) (hi : s.objects[i]? = some o) :
    Owns { s with objects := s.objects.set i { o with movedAway := true } ++ [o] } := by
  have ho : o ∈ s.objects := List.mem_of_getElem? hi
  have hgive := h.setObject { o with movedAway := true } hi rfl rfl
    (fun hn => absurd hn (by simp)) rfl rfl rfl fun _ p _ hf => ⟨hf.stopped, hf.sent⟩
  refine hgive.append (h.made o ho) (h.owner o ho) (fun hholds o₁ h₁ hh₁ heq => ?_)
    (h.gone o ho) (h.knows o ho) (h.unmarked o ho)
  obtain ⟨j, hj⟩ := List.mem_iff_getElem?.mp h₁
  have hj : (s.objects.set i { o with movedAway := true })[j]? = some o₁ := hj
  by_cases hij : i = j
  · rw [← hij, List.getElem?_set_self (List.getElem?_eq_some_iff.mp hi).1] at hj
    obtain rfl := Option.some.inj hj
    exact absurd hh₁.1 (by simp)
  · rw [List.getElem?_set_ne hij] at hj
    exact hij (h.one_owner i j o o₁ hi hj hholds hh₁ heq.symm)

theorem onObject_eq_some {f : ChildObject → Option Processes} (h : s.onObject i f = some s') :
    ∃ o, s.objects[i]? = some o ∧ o.destructor = none ∧ f o = some s' := by
  unfold onObject at h
  split at h
  · cases h
  · next o hi =>
      split at h
      · cases h
      · next hnot =>
          refine ⟨o, hi, ?_, h⟩
          simp only [Bool.or_eq_true, not_or, Option.isSome_iff_ne_none, not_not] at hnot
          exact hnot.2

theorem onProcess_eq_some {f : KernelProcess → Option Processes}
    (h : s.onProcess pid f = some s') : ∃ p, s.table pid = some p ∧ f p = some s' := by
  unfold onProcess at h
  split at h
  · cases h
  · next p hp => exact ⟨p, hp, h⟩

theorem Owns.step {e : Event} (h : Owns s) (hstep : s.step e = some s') : Owns s' := by
  cases e with
  | construct name pid sig =>
      simp only [Processes.step] at hstep
      split at hstep
      · cases hstep
      · next hnot =>
          obtain rfl := Option.some.inj hstep
          refine h.construct ?_ name sig
          simp only [Bool.or_eq_true, not_or, Option.isSome_iff_ne_none, not_not] at hnot
          exact hnot.2
  | move i =>
      obtain ⟨o, hi, -, hstep⟩ := onObject_eq_some hstep
      split at hstep
      · obtain rfl := Option.some.inj hstep
        exact h.abort
      · obtain rfl := Option.some.inj hstep
        exact h.move hi
  | waitable i =>
      obtain ⟨o, hi, -, hstep⟩ := onObject_eq_some hstep
      obtain rfl := Option.some.inj hstep
      obtain ⟨howns, hobjects⟩ := h.waitable hi
      exact howns.finish_same hi hobjects
  | wait i nonblocking =>
      obtain ⟨o, hi, hnone, hstep⟩ := onObject_eq_some hstep
      obtain ⟨r, hw, rfl⟩ := Option.map_eq_some_iff.mp hstep
      rcases wait_cases hw with ⟨e, he, hs⟩ | ⟨p, c, hholds, hp, hc, rfl⟩
      · have howns : Owns r.2 := by
          rcases hs with hs | ⟨hholds, hs⟩
          · rw [hs]
            exact h
          · rw [hs]
            exact h.record (List.mem_of_getElem? hi) hholds
        refine howns.finish fun a ha => ?_
        rw [he] at ha
        cases ha
      · have hrecord := h.record (List.mem_of_getElem? hi) hholds
        have hwaited := hrecord.waited (s := s.record o) hi hholds hp hc (d := none) (by simp)
          (by simp)
        rw [← hnone] at hwaited
        exact hwaited
  | signal i sig permitted =>
      obtain ⟨o, hi, -, hstep⟩ := onObject_eq_some hstep
      obtain rfl := Option.some.inj hstep
      obtain ⟨howns, hobjects, -⟩ := h.signal hi sig permitted
      exact howns.finish_same hi hobjects
  | resume i permitted =>
      obtain ⟨o, hi, -, hstep⟩ := onObject_eq_some hstep
      obtain rfl := Option.some.inj hstep
      obtain ⟨howns, hobjects, -⟩ := h.resume hi permitted
      exact howns.finish_same hi hobjects
  | destroy i =>
      obtain ⟨o, hi, -, hstep⟩ := onObject_eq_some hstep
      obtain rfl := Option.some.inj hstep
      refine h.setDestructor hi ?_ ?_
      · unfold begin
        split <;> simp
      · unfold begin
        split <;> simp
  | destructor i permitted =>
      simp only [Processes.step] at hstep
      split at hstep
      · cases hstep
      · next o hi =>
          split at hstep
          · cases hstep
          · obtain ⟨r, hr, rfl⟩ := Option.map_eq_some_iff.mp hstep
            exact h.destruct hi hr
  | spawn pid =>
      simp only [Processes.step] at hstep
      split at hstep
      · cases hstep
      · next hnot =>
          obtain rfl := Option.some.inj hstep
          refine h.start ?_ false
          rwa [Option.isSome_iff_ne_none, not_not] at hnot
  | ends pid t =>
      obtain ⟨p, hp, hstep⟩ := onProcess_eq_some hstep
      split at hstep
      · cases hstep
      · next stopped report hstate =>
          obtain rfl := Option.some.inj hstep
          have hnoted := h.note hp (fun t' ht' => by rw [hstate] at ht'; cases ht') t
          refine hnoted.touch hp rfl rfl (fun o _ _ _ hf => ⟨fun report' hreport => ?_, hf.sent⟩)
            fun t' ht' => ?_
          · cases hreport
          · obtain rfl := ProcessState.zombie.inj ht'
            exact Function.update_self ..
  | reaped pid =>
      obtain ⟨p, hp, hstep⟩ := onProcess_eq_some hstep
      split at hstep
      · next hours _ =>
          obtain rfl := Option.some.inj hstep
          refine h.remove hp fun o ho hholds heq => ?_
          obtain ⟨q, hq, hserial, hours', -⟩ := h.owner o ho hholds
          obtain rfl := h.one_pid pid o.pid p q hp hq (heq.trans hserial.symm)
          obtain rfl := Option.some.inj (hp.symm.trans hq)
          rw [hours'] at hours
          cases hours
      · cases hstep
  | changes pid c =>
      obtain ⟨p, hp, hstep⟩ := onProcess_eq_some hstep
      split at hstep
      · cases hstep
      · split at hstep
        · cases hstep
        · obtain rfl := Option.some.inj hstep
          refine h.touch hp rfl rfl (fun o _ _ _ hf => hf.change c) fun t ht => ?_
          cases c <;> cases ht

theorem owns_initial : Owns initial := by
  refine ⟨?_, ?_, ?_, ?_, ?_, ?_, ?_, ?_, ?_, ?_⟩ <;> simp [initial]

end

/-! ## The promises -/

/-- Every `kill` and `waitid` has reached the process that its object was made for; an
object that has not seen its process end finds it under its pid, and one that has knows
how. -/
structure Faithful (s : Processes) : Prop where
  calls : ∀ c ∈ s.calls, c.target = some c.serial
  present : ∀ o ∈ s.objects, Holds o →
    ∃ p, s.table o.pid = some p ∧ p.serial = o.serial ∧ p.ours = true
  knows : ∀ o ∈ s.objects, o.terminated = true → s.Knows o

/-- **No pid is used after its process has gone.** In every run, in whatever order and on
whatever objects the methods are called, whatever the processes do, wherever a destructor
is and however the kernel gives the numbers again. -/
theorem pids_are_faithful (events : List Event) : Always step Faithful initial events := by
  refine always_of_eachStep (I := Owns) (fun s h => ⟨h.calls, fun o ho hholds => ?_, h.knows⟩)
    (fun s e s' h hstep _ => h.step hstep) owns_initial (eachStep_true ..)
  obtain ⟨p, hp, hserial, hours, -⟩ := h.owner o ho hholds
  exact ⟨p, hp, hserial, hours⟩

/-- A destructor that cannot go on waits for a process that is not stopped and has been sent
its signal. -/
def WaitsForEnding (s : Processes) : Prop :=
  ∀ (i : Nat) o, s.objects[i]? = some o → o.destructor = some .wait → s.wait false o = none →
    ∃ p, s.table o.pid = some p ∧ p.serial = o.serial ∧ p.state = .alive false none ∧
      o.gracefulTerminationSignal ∈ p.signals

/-- **A destructor does not wait in vain.** In every run: where the `wait` of a destructor
blocks, its process is running and has got the signal to end, even if it was stopped or went
on at any time before. -/
theorem destructor_waits_for_ending (events : List Event) :
    Always step WaitsForEnding initial events := by
  refine always_of_eachStep (I := Owns) (fun s h i o hi hd hblocks => ?_)
    (fun s e s' h hstep _ => h.step hstep) owns_initial (eachStep_true ..)
  unfold Processes.wait at hblocks
  cases hwaits : waits o with
  | error e =>
      rw [hwaits] at hblocks
      cases hblocks
  | ok u =>
      obtain ⟨p, hp, hserial, hours, hf⟩ :=
        h.owner o (List.mem_of_getElem? hi) ((waits_eq_ok o).mp hwaits)
      refine ⟨p, hp, hserial, ?_, hf.sent hd⟩
      simp only [hwaits, hp, hours, if_true] at hblocks
      unfold KernelProcess.waitid at hblocks
      cases hstate : p.state with
      | zombie t => simp [hstate] at hblocks
      | alive stopped report =>
          cases report with
          | some c => cases c <;> simp [hstate] at hblocks
          | none =>
              cases stopped with
              | false => rfl
              | true =>
                  rcases hf.stopped none hstate with hreport | ⟨-, -, -, hnot⟩
                  · cases hreport
                  · exact absurd hd hnot

end Processes

end Mahimahi
