import Mathlib.Data.List.Basic
import Mahimahi.Machine
import Mahimahi.Run

/-!
# Child processes and the event loop

The system is the event loop, its children and the kernel between them. The
kernel keeps, for every child, what `waitid` would report, and one pending
flag for all `SIGCHLD`s. Children change state at any time, also while the
loop is inside `handle_signal`, so the search of `handle_signal` is one
event for each turn of its `for` (`visit`).

`Promise` is what the loop owes its children while it polls. The search
leaves at the first child that has ended, so a child further on is seen only
when another `SIGCHLD` follows; where the loop goes on after that child,
which happens for a child that ended with its continue status, none need
follow (`Loses`). `promise_always_iff` says that nothing else loses a child.
-/

namespace Mahimahi

/-! ## The kernel's side -/

/-- What `waitid` reports of an ended process: `si_status`, and whether
`si_code` is `CLD_EXITED` or one of `CLD_KILLED` and `CLD_DUMPED`. -/
structure Termination where
  onSignal : Bool
  status : Nat
  deriving DecidableEq, Repr

/-- What `waitid` can report of a process. -/
inductive StateChange where
  | terminated (t : Termination)
  | stopped
  | continued
  deriving DecidableEq, Repr

/-- What a process that is alive has to report. -/
inductive JobChange where
  | stopped
  | continued
  deriving DecidableEq, Repr

/-- A child, as the kernel has it. A report of a live process is there once;
a later change replaces it. -/
inductive KernelChild where
  | alive (change : Option JobChange)
  | dead (t : Termination)
  deriving DecidableEq, Repr

namespace KernelChild

/-- `waitid` with `WNOHANG`; `none` stands for a zero `si_pid`. -/
def waitid : KernelChild → Option StateChange
  | alive none => none
  | alive (some .stopped) => some .stopped
  | alive (some .continued) => some .continued
  | dead t => some (.terminated t)

/-- What is left to report after a `waitid` without `WNOWAIT`. -/
def waited : KernelChild → KernelChild
  | alive _ => alive none
  | dead t => dead t

def isDead : KernelChild → Bool
  | alive _ => false
  | dead _ => true

end KernelChild

/-! ## ChildProcess -/

/-- `ChildProcess`: the members that change, and `name_`. -/
structure ChildProcess where
  name : Bytes
  running : Bool
  terminated : Bool
  exitStatus : Nat
  diedOnSignal : Bool
  deriving DecidableEq, Repr

namespace ChildProcess

/-- The constructor, in the parent. -/
def start (name : Bytes) : ChildProcess where
  name := name
  running := true
  terminated := false
  exitStatus := 0
  diedOnSignal := false

/-- The state that `wait` leaves, given the change it is told of. -/
def wait (proc : ChildProcess) : StateChange → ChildProcess
  | .terminated t =>
      { proc with
        terminated := true
        exitStatus := t.status
        diedOnSignal := proc.diedOnSignal || t.onSignal }
  | .stopped => { proc with running := false }
  | .continued => { proc with running := true }

/-- `throw_exception`. -/
def exception (proc : ChildProcess) : Fault :=
  .runtimeErrorWith "" (ascii "`" ++ proc.name ++ ascii "': process "
    ++ ascii (if proc.diedOnSignal then "died on signal " else "exited with failure status ")
    ++ ascii (toString proc.exitStatus))

end ChildProcess

/-- An element of `child_processes_`, with the process it stands for. The
continue status of a child that was not given one is -1. -/
structure Child where
  continueStatus : Int
  process : ChildProcess
  kernel : KernelChild
  deriving DecidableEq, Repr

/-! ## EventLoop -/

/-- The signals `handle_signal` tells apart. -/
inductive Signal where
  | chld
  | cont
  | hup
  | term
  | quit
  | int
  | other
  deriving DecidableEq, Repr

/-- Where the loop is: in `poll`, in the search of `handle_signal` with the
children before `next` behind it, or at its end. -/
inductive Phase where
  | polling
  | handling (next : Nat)
  | exited (status : Nat)
  | thrown (f : Fault)
  deriving DecidableEq, Repr

structure EventLoop where
  childProcesses : List Child
  sigchldPending : Bool
  phase : Phase
  deriving DecidableEq, Repr

inductive Event where
  /-- `add_child_process` (with -1) or `add_special_child_process`. -/
  | addChild (continueStatus : Int) (name : Bytes)
  /-- Child `i` ends. -/
  | terminates (i : Nat) (t : Termination)
  /-- Child `i` stops, or goes on after it had stopped. -/
  | changes (i : Nat) (change : JobChange)
  /-- The loop reads a signal. -/
  | reads (sig : Signal)
  /-- One turn of the search for children that are waitable. -/
  | visit
  /-- Another action's callback runs: it lets the loop go on, or makes it
  exit with a status, or throws. -/
  | otherAction (result : Except Fault (Option Nat))

namespace EventLoop

def initial : EventLoop := ⟨[], false, .polling⟩

/-- A child ends or changes state: the kernel raises `SIGCHLD`. -/
def childChanges (s : EventLoop) (i : Nat) (c : Child) (kernel : KernelChild) : EventLoop :=
  { s with
    childProcesses := s.childProcesses.set i { c with kernel := kernel }
    sigchldPending := true }

/-- The part of `handle_signal` up to the search. For `SIGCONT`, `resume`
sends a signal to the children that were seen to stop; what they then do is
an event of its own. -/
def handleSignal (s : EventLoop) : Signal → EventLoop
  | .cont => s
  | .chld =>
      if s.childProcesses.isEmpty then
        { s with
          sigchldPending := false
          phase := .thrown (.runtimeError "received SIGCHLD without any managed children") }
      else
        { s with sigchldPending := false, phase := .handling 0 }
  | .hup | .term | .quit | .int => { s with phase := .exited 0 }
  | .other => { s with phase := .thrown (.runtimeError "EventLoop: unknown signal") }

/-- `all_of( …, terminated() )`. -/
def allTerminated (children : List Child) : Bool := children.all fun c => c.process.terminated

/-- Where the search goes when `proc`, now one of `children`, has been waited
for and has terminated. -/
def afterTermination (children : List Child) (continueStatus : Int) (proc : ChildProcess) : Phase :=
  if proc.exitStatus ≠ 0 ∧ (proc.exitStatus : Int) ≠ continueStatus then .thrown proc.exception
  else if allTerminated children then .exited 0
  else if (proc.exitStatus : Int) = continueStatus then .polling
  else .exited 0

/-- A turn of the search at the `i`-th child. The two calls of `waitid` are
one step: a change between them only replaces what the second one reports.
`raise( SIGSTOP )` suspends the loop and leaves its state as it is. -/
def visitChild (s : EventLoop) (i : Nat) (c : Child) : EventLoop :=
  if c.process.terminated then { s with phase := .handling (i + 1) }
  else
    match c.kernel.waitid with
    | none => { s with phase := .handling (i + 1) }
    | some change =>
        let proc := c.process.wait change
        let children := s.childProcesses.set i
          { c with process := proc, kernel := c.kernel.waited }
        { s with
          childProcesses := children
          phase :=
            if proc.terminated then afterTermination children c.continueStatus proc
            else .handling (i + 1) }

def step (s : EventLoop) : Event → Option EventLoop
  | .addChild continueStatus name =>
      if s.phase = .polling then
        some { s with
          childProcesses := s.childProcesses ++ [⟨continueStatus, .start name, .alive none⟩] }
      else none
  | .terminates i t =>
      match s.childProcesses[i]? with
      | some c => if c.kernel.isDead then none else some (s.childChanges i c (.dead t))
      | none => none
  | .changes i change =>
      match s.childProcesses[i]? with
      | some c =>
          if c.kernel.isDead then none else some (s.childChanges i c (.alive (some change)))
      | none => none
  | .reads sig =>
      if s.phase = .polling ∧ (sig = .chld → s.sigchldPending = true) then
        some (s.handleSignal sig)
      else none
  | .visit =>
      match s.phase with
      | .handling i =>
          match s.childProcesses[i]? with
          | some c => some (s.visitChild i c)
          | none => some { s with phase := .polling }
      | _ => none
  | .otherAction result =>
      if s.phase = .polling then
        match result with
        | .ok none => some s
        | .ok (some status) => some { s with phase := .exited status }
        | .error f => some { s with phase := .thrown f }
      else none

/-! ## What the loop owes its children -/

/-- A child whose end, if it has come, is known to the loop. -/
def Marked (c : Child) : Prop := c.kernel.isDead = true → c.process.terminated = true

instance (c : Child) : Decidable (Marked c) := inferInstanceAs (Decidable (_ → _))

/-- While the loop polls with no `SIGCHLD` pending, it knows of every child
that has terminated, and not all of its children have. -/
structure Promise (s : EventLoop) : Prop where
  marked : s.phase = .polling → s.sigchldPending = false → ∀ c ∈ s.childProcesses, Marked c
  exits : s.phase = .polling → s.sigchldPending = false → s.childProcesses ≠ [] →
    ¬ ∀ c ∈ s.childProcesses, c.kernel.isDead = true

instance (s : EventLoop) : Decidable s.Promise :=
  decidable_of_iff
    ((s.phase = .polling → s.sigchldPending = false → ∀ c ∈ s.childProcesses, Marked c) ∧
      (s.phase = .polling → s.sigchldPending = false → s.childProcesses ≠ [] →
        ¬ ∀ c ∈ s.childProcesses, c.kernel.isDead = true))
    ⟨fun h => ⟨h.1, h.2⟩, fun h => ⟨h.marked, h.exits⟩⟩

/-- The search stands at a child that has ended with its continue status, a
child further on has ended too and is not known to have, and no `SIGCHLD`
has come since the search began. -/
def Loses (s : EventLoop) : Prop :=
  ∃ i c t, s.phase = .handling i ∧ s.childProcesses[i]? = some c ∧ c.process.terminated = false ∧
    c.kernel = .dead t ∧ (t.status : Int) = c.continueStatus ∧ s.sigchldPending = false ∧
    ∃ j c', i < j ∧ s.childProcesses[j]? = some c' ∧ c'.kernel.isDead = true ∧
      c'.process.terminated = false

/-- How many children from the front the loop has looked at since it last
read `SIGCHLD`. -/
def reached (s : EventLoop) : Nat :=
  match s.phase with
  | .polling => s.childProcesses.length
  | .handling i => i
  | .exited _ | .thrown _ => 0

def isOver (s : EventLoop) : Bool :=
  match s.phase with
  | .polling | .handling _ => false
  | .exited _ | .thrown _ => true

/-- What holds in every state, as long as no turn of the search `Loses`. -/
structure Inv (s : EventLoop) : Prop where
  marked : s.sigchldPending = false → ∀ j c, j < s.reached → s.childProcesses[j]? = some c →
    Marked c
  waiting : s.isOver = false → s.childProcesses ≠ [] → allTerminated s.childProcesses = false

theorem allTerminated_set {children : List Child} {i : Nat} {c c' : Child}
    (hc : children[i]? = some c) (hsame : c'.process.terminated = c.process.terminated) :
    allTerminated (children.set i c') = allTerminated children := by
  induction children generalizing i with
  | nil => cases hc
  | cons d ds ih =>
      cases i with
      | zero =>
          obtain rfl : d = c := by simpa using hc
          simp [allTerminated, hsame]
      | succ i => simpa [allTerminated] using congrArg _ (ih (by simpa using hc))

theorem allTerminated_eq_false {children : List Child} {j : Nat} {c : Child}
    (hc : children[j]? = some c) (hrun : c.process.terminated = false) :
    allTerminated children = false := by
  simp only [allTerminated, List.all_eq_false]
  exact ⟨c, List.mem_of_getElem? hc, by simp [hrun]⟩

theorem Inv.promise {s : EventLoop} (h : s.Inv) : s.Promise := by
  have hmarked : s.phase = .polling → s.sigchldPending = false →
      ∀ c ∈ s.childProcesses, Marked c := by
    intro hp hs c hc
    obtain ⟨j, hj, rfl⟩ := List.getElem_of_mem hc
    exact h.marked hs j _ (by simpa [reached, hp] using hj) (List.getElem?_eq_getElem hj)
  refine ⟨hmarked, fun hp hs hne hall => ?_⟩
  have hrun := h.waiting (by simp [isOver, hp]) hne
  simp only [allTerminated, List.all_eq_false] at hrun
  obtain ⟨c, hc, hterm⟩ := hrun
  exact hterm (hmarked hp hs c hc (hall c hc))

theorem inv_initial : initial.Inv :=
  ⟨by simp [initial], by simp [initial]⟩

/-! ## One lemma for each kind of event -/

theorem Inv.childChanges {s : EventLoop} (h : s.Inv) {i : Nat} {c : Child}
    (hc : s.childProcesses[i]? = some c) (kernel : KernelChild) :
    (s.childChanges i c kernel).Inv := by
  refine ⟨by simp [EventLoop.childChanges], fun hover hne => ?_⟩
  have hset : allTerminated (s.childChanges i c kernel).childProcesses
      = allTerminated s.childProcesses := allTerminated_set hc rfl
  rw [hset]
  exact h.waiting hover (by simpa [EventLoop.childChanges] using hne)

theorem Inv.addChild {s : EventLoop} (h : s.Inv) (hp : s.phase = .polling)
    (continueStatus : Int) (name : Bytes) :
    ({ s with childProcesses :=
        s.childProcesses ++ [⟨continueStatus, .start name, .alive none⟩] } : EventLoop).Inv := by
  constructor
  · intro hs j c hj hc
    rcases Nat.lt_or_ge j s.childProcesses.length with hlt | hge
    · refine h.marked hs j c (by simpa [reached, hp] using hlt) ?_
      simpa [List.getElem?_append_left hlt] using hc
    · have hc' := hc
      rw [List.getElem?_append_right hge] at hc'
      obtain rfl := List.mem_singleton.mp (List.mem_of_getElem? hc')
      simp [Marked, KernelChild.isDead]
  · intro _ _
    simp [allTerminated, ChildProcess.start]

theorem Inv.over {s : EventLoop} (h : s.isOver = true) : s.Inv := by
  refine ⟨fun _ j c hj _ => absurd hj ?_, by simp [h]⟩
  unfold isOver at h
  unfold reached
  split <;> simp_all

theorem Inv.handleSignal {s : EventLoop} (h : s.Inv) (hp : s.phase = .polling) (sig : Signal) :
    (s.handleSignal sig).Inv := by
  cases sig with
  | cont => exact h
  | chld =>
      simp only [EventLoop.handleSignal]
      split
      · exact .over rfl
      · next hne =>
          refine ⟨by simp [reached], fun _ hne' => h.waiting (by simp [isOver, hp]) hne'⟩
  | hup | term | quit | int | other => exact .over rfl

theorem Inv.passed {s : EventLoop} (h : s.Inv) {i : Nat} {c : Child} (hp : s.phase = .handling i)
    (hc : s.childProcesses[i]? = some c) (hm : Marked c) :
    ({ s with phase := .handling (i + 1) } : EventLoop).Inv := by
  refine ⟨fun hs j c' hj hc' => ?_, fun _ hne => h.waiting (by simp [isOver, hp]) hne⟩
  rcases Nat.lt_succ_iff_lt_or_eq.mp hj with hlt | rfl
  · exact h.marked hs j c' (by simpa [reached, hp] using hlt) hc'
  · obtain rfl : c = c' := Option.some.inj (hc.symm.trans hc')
    exact hm

theorem Inv.learned {s : EventLoop} (h : s.Inv) {i : Nat} {c c' : Child}
    (hp : s.phase = .handling i) (hc : s.childProcesses[i]? = some c)
    (hdead : c'.kernel.isDead = false) (hsame : c'.process.terminated = c.process.terminated) :
    ({ s with
        childProcesses := s.childProcesses.set i c'
        phase := .handling (i + 1) } : EventLoop).Inv := by
  constructor
  · intro hs j d hj hd
    have hd' : (s.childProcesses.set i c')[j]? = some d := hd
    rw [List.getElem?_set] at hd'
    split at hd'
    · split at hd'
      · cases hd'
        simp [Marked, hdead]
      · cases hd'
    · next hij =>
        have hj' : j < i + 1 := hj
        exact h.marked hs j d (by simp only [reached, hp]; omega) hd'
  · intro _ hne
    have hset := allTerminated_set hc hsame
    refine hset.trans (h.waiting (by simp [isOver, hp]) ?_)
    intro hnil
    simp [hnil] at hc

theorem Inv.ended {s : EventLoop} (h : s.Inv) {i : Nat} {c c' : Child} {t : Termination}
    (hp : s.phase = .handling i) (hc : s.childProcesses[i]? = some c)
    (hrun : c.process.terminated = false) (hdead : c.kernel = .dead t)
    (hterm : c'.process.terminated = true) (hstat : c'.process.exitStatus = t.status)
    (hloses : ¬ s.Loses) :
    ({ s with
        childProcesses := s.childProcesses.set i c'
        phase := afterTermination (s.childProcesses.set i c') c.continueStatus c'.process }
      : EventLoop).Inv := by
  unfold afterTermination
  split
  · exact .over rfl
  · split
    · exact .over rfl
    · next hall =>
        split
        · next hcont =>
            refine ⟨fun hs j d hj hd => ?_, fun _ _ => by simpa using hall⟩
            have hd' : (s.childProcesses.set i c')[j]? = some d := hd
            rw [List.getElem?_set] at hd'
            split at hd'
            · split at hd'
              · cases hd'
                exact fun _ => hterm
              · cases hd'
            · next hij =>
                rcases Nat.lt_or_ge j i with hlt | hge
                · exact h.marked hs j d (by simpa [reached, hp] using hlt) hd'
                · intro hdd
                  by_contra hunmarked
                  exact hloses ⟨i, c, t, hp, hc, hrun, hdead, hstat ▸ hcont, hs, j, d, by omega, hd', hdd,
                    by simpa using hunmarked⟩
        · exact .over rfl

theorem Inv.visitChild {s : EventLoop} (h : s.Inv) {i : Nat} {c : Child}
    (hp : s.phase = .handling i) (hc : s.childProcesses[i]? = some c) (hloses : ¬ s.Loses) :
    (s.visitChild i c).Inv := by
  unfold EventLoop.visitChild
  split
  · next hterm => exact h.passed hp hc fun _ => hterm
  · next hrun =>
      have hrun : c.process.terminated = false := by simpa using hrun
      cases hk : c.kernel with
      | alive change =>
          cases change with
          | none => exact h.passed hp hc (by simp [Marked, hk, KernelChild.isDead])
          | some change =>
              cases change with
              | stopped | continued =>
                  simp only [KernelChild.waitid, ChildProcess.wait, hrun]
                  exact h.learned hp hc rfl hrun.symm
      | dead t =>
          simp only [KernelChild.waitid, ChildProcess.wait]
          exact h.ended hp hc hrun hk rfl rfl hloses

theorem Inv.step {s s' : EventLoop} {e : Event} (h : s.Inv) (hs : s.step e = some s')
    (hloses : e = .visit → ¬ s.Loses) : s'.Inv := by
  cases e with
  | addChild continueStatus name =>
      simp only [EventLoop.step, Option.ite_none_right_eq_some, Option.some.injEq] at hs
      obtain ⟨hp, rfl⟩ := hs
      exact h.addChild hp continueStatus name
  | terminates i t =>
      simp only [EventLoop.step] at hs
      split at hs
      · next c hc =>
          split at hs
          · cases hs
          · cases hs
            exact h.childChanges hc _
      · cases hs
  | changes i change =>
      simp only [EventLoop.step] at hs
      split at hs
      · next c hc =>
          split at hs
          · cases hs
          · cases hs
            exact h.childChanges hc _
      · cases hs
  | reads sig =>
      simp only [EventLoop.step, Option.ite_none_right_eq_some, Option.some.injEq] at hs
      obtain ⟨⟨hp, -⟩, rfl⟩ := hs
      exact h.handleSignal hp sig
  | visit =>
      simp only [EventLoop.step] at hs
      split at hs
      · next i hp =>
          split at hs
          · next c hc =>
              cases hs
              exact h.visitChild hp hc (hloses rfl)
          · next hnone =>
              cases hs
              refine ⟨fun hs j c _ hc => ?_, fun _ hne => h.waiting (by simp [isOver, hp]) hne⟩
              have hlen : j < s.childProcesses.length := (List.getElem?_eq_some_iff.mp hc).1
              have hi := List.getElem?_eq_none_iff.mp hnone
              exact h.marked hs j c (by simp only [reached, hp]; omega) hc
      · cases hs
  | otherAction result =>
      simp only [EventLoop.step, Option.ite_none_right_eq_some] at hs
      obtain ⟨-, hs⟩ := hs
      split at hs
      · cases hs; exact h
      · cases hs; exact .over rfl
      · cases hs; exact .over rfl

/-- A turn that `Loses` breaks the promise at once. -/
theorem not_promise_of_loses {s s' : EventLoop} (hloses : s.Loses) (hs : s.step .visit = some s') :
    ¬ s'.Promise := by
  obtain ⟨i, c, t, hp, hc, hrun, hk, hstat, hpend, j, c', hij, hc', hdead, hrun'⟩ := hloses
  simp only [EventLoop.step, hp, hc, Option.some.injEq] at hs
  subst hs
  have hj : ∀ d : Child, (s.childProcesses.set i d)[j]? = some c' := fun d => by
    rw [List.getElem?_set, if_neg (by omega), hc']
  have hall : ∀ d : Child, allTerminated (s.childProcesses.set i d) = false :=
    fun d => allTerminated_eq_false (hj d) hrun'
  intro hpromise
  have hphase : (s.visitChild i c).phase = .polling := by
    simp [EventLoop.visitChild, hrun, hk, KernelChild.waitid, ChildProcess.wait, afterTermination,
      hall, hstat]
  have hmem : c' ∈ (s.visitChild i c).childProcesses := by
    simp only [EventLoop.visitChild, hrun, hk, KernelChild.waitid]
    exact List.mem_of_getElem? (hj _)
  have hsig : (s.visitChild i c).sigchldPending = false := by
    simpa [EventLoop.visitChild, hrun, hk, KernelChild.waitid] using hpend
  have := hpromise.marked hphase hsig c' hmem hdead
  simp [hrun'] at this

/-! ## The whole run -/

/-- The loop keeps its promise all along a run exactly when no turn of the
search in that run loses a child. -/
theorem promise_always_iff (events : List Event) :
    Always step Promise initial events ↔
      EachStep step (fun s e => e = .visit → ¬ s.Loses) initial events :=
  always_iff_eachStep (fun _ h => h.promise) (fun _ _ _ h hs hG => h.step hs hG)
    (fun _ _ _ _ hs hpromise he hloses => not_promise_of_loses hloses (he ▸ hs) hpromise)
    inv_initial

/-- The two children of `mm-link --once` end, each with its continue status,
before the loop reads the one `SIGCHLD` that stands for both. -/
def bothEnd : List Event :=
  [.addChild 77 (ascii "packetshell"), .addChild 77 (ascii "downlink"), .terminates 0 ⟨false, 77⟩,
    .terminates 1 ⟨false, 77⟩, .reads .chld, .visit]

theorem bothEnd_loses : ¬ Always step Promise initial bothEnd := by
  decide +kernel

end EventLoop

end Mahimahi
