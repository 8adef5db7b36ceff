import Mathlib.Data.List.Basic
import Mahimahi.Machine

/-!
# Giving up privileges

The shells are installed setuid root. They look at what belongs to the user while
`TemporarilyUnprivileged` is in scope, and they run the user's command after
`drop_privileges`. The first is meant to be taken back and the second is not, and what tells
them apart is an identity that neither function mentions: the saved one, which the kernel
keeps for each process. `seteuid` leaves it alone, `setreuid` does not.

`IdCall` are the calls of the kernel, with its rule about who may set what. Once the three
identities are one that is not root, every call either fails or changes nothing
(`Ids.settled`), and only a program that is set to someone else brings another identity;
`dropped_for_good_iff` is then a matter of which branch `drop_privileges` takes.
-/

namespace Mahimahi

/-! ## The kernel -/

/-- The identities of a process: those of its user, or those of its group. -/
structure Ids where
  real : Nat
  effective : Nat
  saved : Nat
  deriving DecidableEq, Repr

/-- `setuid`, `seteuid`, `setreuid` and `setresuid`, or the same for the group; `none` stands
for -1. -/
inductive IdCall where
  | set (id : Nat)
  | sete (id : Nat)
  | setre (real effective : Option Nat)
  | setres (real effective saved : Option Nat)
  deriving DecidableEq, Repr

namespace Ids

def same (id : Nat) : Ids := ⟨id, id, id⟩

/-- What a process without privileges may ask for. -/
def asked (x : Option Nat) (allowed : List Nat) : Bool := x.all fun id => allowed.contains id

def call (privileged : Bool) (ids : Ids) : IdCall → Option Ids
  | .set id =>
      if privileged then some (same id)
      else if asked (some id) [ids.real, ids.saved] then some { ids with effective := id }
      else none
  | .sete id =>
      if privileged || asked (some id) [ids.real, ids.effective, ids.saved] then
        some { ids with effective := id }
      else none
  | .setre real effective =>
      if privileged || (asked real [ids.real, ids.effective] &&
          asked effective [ids.real, ids.effective, ids.saved]) then
        some {
          real := real.getD ids.real
          effective := effective.getD ids.effective
          saved :=
            if real.isSome || (effective.isSome && effective != some ids.real) then
              effective.getD ids.effective
            else ids.saved }
      else none
  | .setres real effective saved =>
      if privileged || ([real, effective, saved].all fun x =>
          asked x [ids.real, ids.effective, ids.saved]) then
        some ⟨real.getD ids.real, effective.getD ids.effective, saved.getD ids.saved⟩
      else none

end Ids

structure Credentials where
  user : Ids
  group : Ids
  deriving DecidableEq, Repr

/-- What a program can do to its credentials. `exec` gives it the identities that the new
program is set to, if it is set to any, and saves the effective ones. -/
inductive CredentialCall where
  | user (c : IdCall)
  | group (c : IdCall)
  | exec (setUser setGroup : Option Nat)
  deriving DecidableEq, Repr

/-- No program is started that is set to a user or a group. -/
def CredentialCall.Plain : CredentialCall → Prop
  | exec setUser setGroup => setUser = none ∧ setGroup = none
  | user _ | group _ => True

namespace Credentials

def privileged (c : Credentials) : Bool := c.user.effective == 0

def call (c : Credentials) : CredentialCall → Option Credentials
  | .user u => (c.user.call c.privileged u).map fun user => { c with user := user }
  | .group g => (c.group.call c.privileged g).map fun group => { c with group := group }
  | .exec setUser setGroup =>
      let euid := setUser.getD c.user.effective
      let egid := setGroup.getD c.group.effective
      some ⟨⟨c.user.real, euid, euid⟩, ⟨c.group.real, egid, egid⟩⟩

/-- After all the calls, of which some may fail. -/
def after (c : Credentials) (calls : List CredentialCall) : Credentials :=
  calls.foldl (fun c call => (c.call call).getD c) c

/-- `SystemCall( attempt, … )`. -/
def systemCall (attempt : String) (result : Option Credentials) : Except Fault Credentials :=
  match result with
  | some c => .ok c
  | none => .error (.systemError attempt)

/-! ## The functions -/

/-- "Change real group id if necessary." -/
def changeGroup (c : Credentials) : Except Fault Credentials :=
  if c.group.real ≠ c.group.effective then
    systemCall "setregid" (c.call (.group (.setre (some c.group.real) (some c.group.real))))
  else .ok c

/-- "Change real user id if necessary." -/
def changeUser (c : Credentials) : Except Fault Credentials :=
  if c.user.real ≠ c.user.effective then
    systemCall "setreuid" (c.call (.user (.setre (some c.user.real) (some c.user.real))))
  else .ok c

/-- "Verify that the changes were successful. If not, abort": calls that are made to see that
they fail. -/
def verified (orig c : Credentials) : Bool :=
  !(decide (orig.group.real ≠ orig.group.effective) &&
      ((c.call (.group (.sete orig.group.effective))).isSome ||
        c.group.effective != orig.group.real)) &&
    !(decide (orig.user.real ≠ orig.user.effective) &&
      ((c.call (.user (.sete orig.user.effective))).isSome ||
        c.user.effective != orig.user.real))

/-- `drop_privileges`; `none` stands for `_exit( EXIT_FAILURE )`. -/
def dropPrivileges (c : Credentials) : Except Fault (Option Credentials) := do
  let c₁ ← c.changeGroup
  let c₂ ← c₁.changeUser
  return if c.verified c₂ then some c₂ else none

/-- `assert_not_root`. -/
def assertNotRoot (c : Credentials) : Except Fault Unit :=
  if c.user.effective = 0 ∨ c.group.effective = 0 then
    .error (.runtimeError "BUG: privileges not dropped in sensitive region")
  else .ok ()

/-- The constructor of `TemporarilyUnprivileged`. -/
def enter (c : Credentials) : Except Fault Credentials := do
  let c ← systemCall "setegid" (c.call (.group (.sete c.group.real)))
  let c ← systemCall "seteuid" (c.call (.user (.sete c.user.real)))
  c.assertNotRoot
  return c

/-- Its destructor, with what the constructor has remembered of `orig`. -/
def leave (orig c : Credentials) : Except Fault Credentials := do
  let c ← systemCall "seteuid" (c.call (.user (.sete orig.user.effective)))
  systemCall "setegid" (c.call (.group (.sete orig.group.effective)))

end Credentials

/-- What a shell finds when it is started: its arguments, whether `/dev/null` can be opened,
whether there is an environment, and what is in `/proc/sys/net/ipv4/ip_forward`. -/
structure Surroundings where
  argv : List String
  devNull : Bool
  environ : Bool
  ipForward : Option String
  deriving DecidableEq, Repr

/-- `check_requirements`. -/
def Surroundings.checkRequirements (p : Surroundings) (c : Credentials) : Except Fault Unit :=
  match p.argv with
  | [] => .error (.runtimeError "missing argv[ 0 ]: argc <= 0")
  | argv₀ :: _ =>
      if !p.devNull then .error (.systemError "open /dev/null")
      else if c.user.effective ≠ 0 then
        .error (.runtimeError (argv₀ ++ ": needs to be installed setuid root"))
      else if c.user.real = 0 ∨ c.group.real = 0 then
        .error (.runtimeError (argv₀ ++ ": please run as non-root"))
      else if p.environ then
        .error (.runtimeError "BUG: environment not cleared in sensitive region")
      else
        match p.ipForward with
        | none => .error (.systemError "open /proc/sys/net/ipv4/ip_forward")
        | some text =>
            if text ≠ "1\n" then
              .error (.runtimeError (argv₀ ++ ": Please run \"sudo sysctl -w " ++
                "net.ipv4.ip_forward=1\" to enable IP forwarding"))
            else .ok ()

/-- What a function does with its privileges: scopes, one behind the other, each with what is
inside. -/
inductive Scopes where
  | done
  | scope (inside rest : Scopes)

/-- The credentials that a scope has met with, has had inside and has left behind. -/
structure ScopeRecord where
  before : Credentials
  inside : Credentials
  after : Credentials
  deriving DecidableEq, Repr

namespace Scopes

/-- The credentials at the end, and the records of the scopes. -/
def run : Scopes → Credentials → Except Fault (Credentials × List ScopeRecord)
  | done, c => .ok (c, [])
  | scope inside rest, c => do
      let c₁ ← c.enter
      let (c₂, seen) ← inside.run c₁
      let c₃ ← Credentials.leave c c₂
      let (c₄, seen') ← rest.run c₃
      return (c₄, ⟨c, c₁, c₃⟩ :: seen ++ seen')

end Scopes

/-- A shell until it runs the command of the user: the records of its scopes, and what it is
left with. -/
def Surroundings.shell (p : Surroundings) (scopes : Scopes) (c : Credentials) :
    Except Fault (List ScopeRecord × Option Credentials) := do
  p.checkRequirements c
  let (c, seen) ← scopes.run c
  let c ← c.dropPrivileges
  return (seen, c)

/-! ## Nothing comes back -/

namespace Ids

theorem getD_of_asked {id : Nat} {x : Option Nat} {allowed : List Nat}
    (hx : asked x allowed = true) (hall : ∀ y ∈ allowed, y = id) : x.getD id = id := by
  cases x with
  | none => rfl
  | some y =>
      have hy : y ∈ allowed := by simpa [asked] using hx
      exact hall y hy

/-- Without privileges, identities that are all the same stay so. -/
theorem settled {id : Nat} {ids : Ids} (c : IdCall) (h : (same id).call false c = some ids) :
    ids = same id := by
  have hall₂ : ∀ y ∈ [id, id], y = id := by simp
  have hall₃ : ∀ y ∈ [id, id, id], y = id := by simp
  cases c with
  | set new =>
      by_cases hasked : asked (some new) [id, id] = true
      · obtain rfl : new = id := getD_of_asked hasked hall₂
        simpa [call, same, hasked] using h.symm
      · simp [call, same, hasked] at h
  | sete new =>
      by_cases hasked : asked (some new) [id, id, id] = true
      · obtain rfl : new = id := getD_of_asked hasked hall₃
        simpa [call, same, hasked] using h.symm
      · simp [call, same, hasked] at h
  | setre real effective =>
      by_cases hasked : asked real [id, id] = true ∧ asked effective [id, id, id] = true
      · have hreal := getD_of_asked hasked.1 hall₂
        have heffective := getD_of_asked hasked.2 hall₃
        simpa [call, same, hasked, hreal, heffective] using h.symm
      · simp [call, same, hasked] at h
  | setres real effective saved =>
      by_cases hasked : asked real [id, id, id] = true ∧ asked effective [id, id, id] = true ∧
          asked saved [id, id, id] = true
      · have hreal := getD_of_asked hasked.1 hall₃
        have heffective := getD_of_asked hasked.2.1 hall₃
        have hsaved := getD_of_asked hasked.2.2 hall₃
        simpa [call, same, hasked, hreal, heffective, hsaved] using h.symm
      · simp [call, same, hasked] at h

end Ids

namespace Credentials

/-- The credentials of an ordinary user and nothing else. -/
def Dropped (uid gid : Nat) (c : Credentials) : Prop :=
  c.user = Ids.same uid ∧ c.group = Ids.same gid

theorem Dropped.call {uid gid : Nat} {c c' : Credentials} (hdropped : Dropped uid gid c)
    (huid : uid ≠ 0) {a : CredentialCall} (ha : a.Plain) (h : c.call a = some c') :
    Dropped uid gid c' := by
  obtain ⟨huser, hgroup⟩ := hdropped
  have hplain : c.privileged = false := by simp [privileged, huser, Ids.same, huid]
  cases a with
  | user u =>
      simp only [Credentials.call, hplain, huser, Option.map_eq_some_iff] at h
      obtain ⟨ids, hids, rfl⟩ := h
      exact ⟨Ids.settled u hids, hgroup⟩
  | group g =>
      simp only [Credentials.call, hplain, hgroup, Option.map_eq_some_iff] at h
      obtain ⟨ids, hids, rfl⟩ := h
      exact ⟨huser, Ids.settled g hids⟩
  | exec setUser setGroup =>
      obtain ⟨rfl, rfl⟩ := ha
      cases h
      exact ⟨by rw [huser]; rfl, by rw [hgroup]; rfl⟩

theorem Dropped.after {uid gid : Nat} (huid : uid ≠ 0) {calls : List CredentialCall}
    (hplain : ∀ a ∈ calls, a.Plain) :
    ∀ {c : Credentials}, Dropped uid gid c → Dropped uid gid (c.after calls) := by
  induction calls with
  | nil => exact fun h => h
  | cons a calls ih =>
      intro c hdropped
      have hnext : Dropped uid gid ((c.call a).getD c) := by
        cases hcall : c.call a with
        | none => exact hdropped
        | some c' => exact hdropped.call huid (hplain a List.mem_cons_self) hcall
      exact ih (fun b hb => hplain b (List.mem_cons_of_mem _ hb)) hnext

end Credentials

/-! ## What the functions leave -/

namespace Ids

/-- As after `exec`: there is nothing to fall back on but what is in force. -/
def Fresh (ids : Ids) : Prop := ids.saved = ids.effective

theorem Fresh.eq_same {ids : Ids} (hfresh : ids.Fresh) (h : ids.real = ids.effective) :
    ids = same ids.real := by
  obtain ⟨real, effective, saved⟩ := ids
  simp only [Fresh] at hfresh h
  subst hfresh h
  rfl

/-- Anyone may set the real and the effective identity to the real one; the saved one goes
with them. -/
@[simp] theorem call_setre_real (privileged : Bool) (ids : Ids) :
    ids.call privileged (.setre (some ids.real) (some ids.real)) = some (same ids.real) := by
  simp [call, asked, same]

theorem call_sete_back {ids : Ids} (privileged : Bool)
    (h : ids.effective = ids.real ∨ ids.effective = ids.saved) :
    call privileged { ids with effective := ids.real } (.sete ids.effective) = some ids := by
  obtain ⟨real, effective, saved⟩ := ids
  simp only at h
  rcases h with rfl | rfl <;> simp [call, asked]

theorem isSome_call_sete_same (privileged : Bool) (id new : Nat) :
    ((same id).call privileged (.sete new)).isSome = (privileged || new == id) := by
  by_cases hnew : new = id <;> cases privileged <;> simp [call, same, asked, hnew]

end Ids

namespace Credentials

theorem changeGroup_eq {c : Credentials} (hgroup : c.group.Fresh) :
    c.changeGroup = .ok { c with group := Ids.same c.group.real } := by
  unfold changeGroup
  split
  · simp [systemCall, call]
  · rename_i h
    rw [← hgroup.eq_same (not_not.mp h)]

theorem changeUser_eq {c : Credentials} (huser : c.user.Fresh) :
    c.changeUser = .ok { c with user := Ids.same c.user.real } := by
  unfold changeUser
  split
  · simp [systemCall, call]
  · rename_i h
    rw [← huser.eq_same (not_not.mp h)]

/-- The calls that should fail succeed if the user is root. -/
theorem verified_same (orig : Credentials) :
    orig.verified ⟨Ids.same orig.user.real, Ids.same orig.group.real⟩ =
      (orig.user.real != 0 || (orig.group.real == orig.group.effective &&
        orig.user.real == orig.user.effective)) := by
  obtain ⟨⟨uid, euid, suid⟩, gid, egid, sgid⟩ := orig
  simp only [verified, call, privileged, Option.isSome_map, Ids.isSome_call_sete_same]
  rw [Bool.eq_iff_iff]
  simp only [Ids.same, bne_self_eq_false, Bool.or_false, Bool.and_eq_true, Bool.or_eq_true,
    Bool.not_eq_true', Bool.and_eq_false_iff, Bool.or_eq_false_iff, decide_eq_false_iff_not,
    beq_iff_eq, bne_iff_ne, beq_eq_false_iff_ne]
  omega

theorem dropPrivileges_eq {c : Credentials} (huser : c.user.Fresh) (hgroup : c.group.Fresh) :
    c.dropPrivileges = .ok
      (if c.verified ⟨Ids.same c.user.real, Ids.same c.group.real⟩ then
        some ⟨Ids.same c.user.real, Ids.same c.group.real⟩ else none) := by
  have hchange : changeUser { c with group := Ids.same c.group.real } =
      .ok ⟨Ids.same c.user.real, Ids.same c.group.real⟩ := changeUser_eq huser
  simp only [dropPrivileges, changeGroup_eq hgroup, hchange, bind, Except.bind, pure, Except.pure]

/-- `drop_privileges` gives them up for good exactly where there is a user to go back to:
nothing that is tried afterwards brings them back, but for a program that is itself set to a
user or a group. -/
theorem dropped_for_good_iff {c : Credentials} (huser : c.user.Fresh) (hgroup : c.group.Fresh) :
    (∃ c', c.dropPrivileges = .ok (some c') ∧
      ∀ calls : List CredentialCall, (∀ a ∈ calls, a.Plain) →
        Dropped c.user.real c.group.real (c'.after calls)) ↔ c.user.real ≠ 0 := by
  rw [dropPrivileges_eq huser hgroup, verified_same]
  constructor
  · rintro ⟨c', hc', hdropped⟩ hroot
    -- root may become anyone
    have hnow : c'.user = Ids.same 0 := hroot ▸ (hdropped [] (by simp)).1
    have hthen := (hdropped [.user (.set 1)] (by simp [CredentialCall.Plain])).1
    simp [after, call, privileged, hnow, hroot, Ids.call, Ids.same] at hthen
  · intro huid
    refine ⟨⟨Ids.same c.user.real, Ids.same c.group.real⟩, by simp [huid], fun calls hplain => ?_⟩
    exact Dropped.after huid hplain ⟨rfl, rfl⟩

/-- A program that is set to root, started by user 1000. -/
theorem dropped_for_good_iff_setuid :
    ∃ c', dropPrivileges ⟨⟨1000, 0, 0⟩, ⟨1000, 1000, 1000⟩⟩ = .ok (some c') ∧
      ∀ calls : List CredentialCall, (∀ a ∈ calls, a.Plain) → Dropped 1000 1000 (c'.after calls) :=
  let c : Credentials := ⟨⟨1000, 0, 0⟩, ⟨1000, 1000, 1000⟩⟩
  (dropped_for_good_iff (c := c) rfl rfl).mpr (by decide)

/-- A program that is set to root brings it back. -/
example : call ⟨Ids.same 1000, Ids.same 100⟩ (.exec (some 0) none)
    = some ⟨⟨1000, 0, 0⟩, Ids.same 100⟩ := rfl

/-- What is in force in a scope. -/
def lowered (c : Credentials) : Credentials :=
  ⟨{ c.user with effective := c.user.real }, { c.group with effective := c.group.real }⟩

/-- What is in force can be set again from any scope. -/
structure Returnable (c : Credentials) : Prop where
  user : c.user.effective = c.user.real ∨ c.user.effective = c.user.saved
  group : c.group.effective = c.group.real ∨ c.group.effective = c.group.saved
  uid : c.user.real ≠ 0
  gid : c.group.real ≠ 0

theorem Returnable.lowered {c : Credentials} (h : c.Returnable) : c.lowered.Returnable :=
  ⟨.inl rfl, .inl rfl, h.uid, h.gid⟩

theorem Returnable.enter {c : Credentials} (h : c.Returnable) : c.enter = .ok c.lowered := by
  have huid := h.uid
  have hgid := h.gid
  simp [Credentials.enter, systemCall, call, Ids.call, Ids.asked, assertNotRoot,
    Credentials.lowered, huid, hgid]

theorem Returnable.leave {c : Credentials} (h : c.Returnable) :
    Credentials.leave c c.lowered = .ok c := by
  have hseteuid : c.lowered.call (.user (.sete c.user.effective)) =
      some ⟨c.user, c.lowered.group⟩ := by
    simp only [call, Credentials.lowered, Ids.call_sete_back _ h.user, Option.map_some]
  have hsetegid : call ⟨c.user, c.lowered.group⟩ (.group (.sete c.group.effective)) = some c := by
    simp only [call, Credentials.lowered, Ids.call_sete_back _ h.group, Option.map_some]
  simp only [Credentials.leave, hseteuid, systemCall, bind, Except.bind, hsetegid]

end Credentials

/-- Scopes may be nested and may follow each other: each ends with what it began with, and
what it has inside is the user's. -/
theorem Scopes.run_eq (scopes : Scopes) :
    ∀ {c : Credentials}, c.Returnable → ∃ seen, scopes.run c = .ok (c, seen) ∧
      ∀ d ∈ seen, d.inside = c.lowered ∧ d.after = d.before := by
  induction scopes with
  | done => exact fun _ => ⟨[], rfl, by simp⟩
  | scope inside rest ihInside ihRest =>
      intro c h
      obtain ⟨seen, hinside, hseen⟩ := ihInside h.lowered
      obtain ⟨seen', hrest, hseen'⟩ := ihRest h
      refine ⟨⟨c, c.lowered, c⟩ :: seen ++ seen', ?_, ?_⟩
      · simp only [run, h.enter, hinside, h.leave, hrest, bind, Except.bind, pure, Except.pure]
      · intro d hd
        rcases List.mem_append.mp hd with hd | hd
        · rcases List.mem_cons.mp hd with rfl | hd
          · exact ⟨rfl, rfl⟩
          · exact hseen d hd
        · exact hseen' d hd

theorem Surroundings.checkRequirements_ok {p : Surroundings} {c : Credentials}
    (h : p.checkRequirements c = .ok ()) :
    c.user.effective = 0 ∧ c.user.real ≠ 0 ∧ c.group.real ≠ 0 := by
  simp only [checkRequirements] at h
  split at h
  · cases h
  split at h
  · cases h
  split at h
  · cases h
  rename_i heuid
  split at h
  · cases h
  rename_i hreal
  exact ⟨not_not.mp heuid, not_or.mp hreal⟩

/-- A shell whose requirements are met comes as far as the command of the user. What it did in
scopes it did as the user, each scope ended with what it began with, and the command cannot
become anyone else, but by a program that is set to a user or a group. -/
theorem shell_gives_up_privileges {p : Surroundings} {c : Credentials} (scopes : Scopes)
    (huser : c.user.Fresh) (hgroup : c.group.Fresh) (hcheck : p.checkRequirements c = .ok ()) :
    ∃ seen c', p.shell scopes c = .ok (seen, some c') ∧
      (∀ d ∈ seen, d.inside.user.effective = c.user.real ∧
        d.inside.group.effective = c.group.real ∧ d.after = d.before) ∧
      ∀ calls : List CredentialCall, (∀ a ∈ calls, a.Plain) →
        Credentials.Dropped c.user.real c.group.real (c'.after calls) := by
  obtain ⟨-, huid, hgid⟩ := Surroundings.checkRequirements_ok hcheck
  have hreturnable : c.Returnable := ⟨.inr huser.symm, .inr hgroup.symm, huid, hgid⟩
  obtain ⟨seen, hrun, hseen⟩ := scopes.run_eq hreturnable
  refine ⟨seen, ⟨Ids.same c.user.real, Ids.same c.group.real⟩, ?_, ?_, fun calls hplain => ?_⟩
  · have hdrop := Credentials.dropPrivileges_eq huser hgroup
    rw [Credentials.verified_same, bne_iff_ne.mpr huid, Bool.true_or, if_pos rfl] at hdrop
    simp only [Surroundings.shell, hcheck, hrun, hdrop, bind, Except.bind, pure, Except.pure]
  · intro d hd
    obtain ⟨hinside, hafter⟩ := hseen d hd
    rw [hinside]
    exact ⟨rfl, rfl, hafter⟩
  · exact Credentials.Dropped.after huid hplain ⟨rfl, rfl⟩

/-- Two scopes, one in the other. -/
theorem shell_gives_up_privileges_nested :
    ∃ seen c', Surroundings.shell ⟨["mm-delay"], true, false, some "1\n"⟩
        (.scope (.scope .done .done) .done) ⟨⟨1000, 0, 0⟩, ⟨100, 100, 100⟩⟩ =
        .ok (seen, some c') ∧
      (∀ d ∈ seen, d.inside.user.effective = 1000 ∧ d.inside.group.effective = 100 ∧
        d.after = d.before) ∧
      ∀ calls : List CredentialCall, (∀ a ∈ calls, a.Plain) →
        Credentials.Dropped 1000 100 (c'.after calls) :=
  shell_gives_up_privileges (p := ⟨["mm-delay"], true, false, some "1\n"⟩)
    (c := ⟨⟨1000, 0, 0⟩, ⟨100, 100, 100⟩⟩) (.scope (.scope .done .done) .done) rfl rfl
    (by decide)

end Mahimahi
