import Mahimahi.DelayQueue
import Mahimahi.TextLines

/-!
# The rules file

`parse_rules` reads a line, cuts it into columns, and stores what they say
under protocol, address and port; a later line with the same key takes the
place of an earlier one.

An `Entry` is what a line says, by the form that the lines have: the delays
of the two directions, and then perhaps a limit and a second delay for the
forward direction, and then perhaps the same for the reverse direction. The
table says the same as the file (`parse_rules_faithful_iff`) as long as
three things do not show: `proto()` returns the port, the limit and second
delay of the reverse direction are taken from the columns of the forward
direction, and `atol` goes only half as far as `uint64_t`.
-/

namespace Mahimahi

/-! ## std::map -/

section

variable {α β : Type} [BEq α] [LawfulBEq α]

/-- `f( m[k] )`, for an `f` that changes its argument: an entry that is not
there is made first. -/
def update (k : α) (f : β → β) (made : β) : List (α × β) → List (α × β)
  | [] => [(k, f made)]
  | (k', v) :: m => if k == k' then (k', f v) :: m else (k', v) :: update k f made m

theorem lookup_update_self (k : α) (f : β → β) (made : β) : ∀ m : List (α × β),
    (update k f made m).lookup k = some (f ((m.lookup k).getD made))
  | [] => by simp [update]
  | (k', v) :: m => by
      by_cases h : (k == k') = true
      · simp [update, h, List.lookup_cons]
      · simp [update, h, List.lookup_cons, lookup_update_self k f made m]

theorem lookup_update_ne {k j : α} (hj : j ≠ k) (f : β → β) (made : β) : ∀ m : List (α × β),
    (update k f made m).lookup j = m.lookup j
  | [] => by simp [update, hj]
  | (k', v) :: m => by
      by_cases h : (k == k') = true
      · obtain rfl := eq_of_beq h
        simp [update, List.lookup_cons, beq_false_of_ne hj]
      · simp [update, h, List.lookup_cons, lookup_update_ne hj f made m]

end

/-! ## Rules

The member `_proto` is written by every constructor and read by none of the
functions, so `DelayRule` is without it. -/

/-- `numeric_limits<uint64_t>::max()`: a limit that is never reached. -/
def never : Nat := 2 ^ 64 - 1

namespace DelayRule

/-- The constructor without limits. -/
def ofDelays (_proto ip port fwdDelay revDelay : Nat) : DelayRule where
  ip := ip
  port := port
  fwdDelay := fwdDelay
  revDelay := revDelay
  fwdLim := never
  fwdAltDelay := fwdDelay
  revLim := never
  revAltDelay := revDelay

/-- The constructor with a limit for the forward direction. -/
def ofFwdLim (_proto ip port fwdDelay revDelay fwdLim fwdAltDelay : Nat) : DelayRule where
  ip := ip
  port := port
  fwdDelay := fwdDelay
  revDelay := revDelay
  fwdLim := fwdLim
  fwdAltDelay := fwdAltDelay
  revLim := never
  revAltDelay := revDelay

/-- The constructor with a limit for each direction. -/
def ofLims (_proto ip port fwdDelay revDelay fwdLim fwdAltDelay revLim revAltDelay : Nat) :
    DelayRule where
  ip := ip
  port := port
  fwdDelay := fwdDelay
  revDelay := revDelay
  fwdLim := fwdLim
  fwdAltDelay := fwdAltDelay
  revLim := revLim
  revAltDelay := revAltDelay

/-- `proto()`, which returns `_port` as a `uint8_t`. -/
def proto (rule : DelayRule) : Nat := rule.port % 2 ^ 8

/-- `DelayRule()`. -/
def empty : DelayRule := ofDelays 0 0 0 0 0

end DelayRule

/-- `rules[proto][ip][port] = rule`. -/
def storeRule (proto ip port : Nat) (rule : DelayRule) (rules : DelayRules) : DelayRules :=
  update proto (update ip (update port (fun _ => rule) .empty) []) [] rules

/-- The rule stored under a protocol, an address and a port. -/
def storedRule (rules : DelayRules) (proto ip port : Nat) : Option DelayRule :=
  ((rules.lookup proto).bind fun ipRules => ipRules.lookup ip).bind fun portRules =>
    portRules.lookup port

/-! ## Numbers and addresses -/

/-- `atoi`: what `strtol` gives, as an `int`. -/
def atoi (s : Bytes) : Int := i32 (strtol s 10).value

/-- `atol`. -/
def atol (s : Bytes) : Int := (strtol s 10).value

/-- A signed value as a `uint32_t`. -/
def uint32 (z : Int) : Nat := (z % 2 ^ 32).toNat

/-- A signed value as a `uint64_t`. -/
def uint64 (z : Int) : Nat := (z % 2 ^ 64).toNat

/-- `c_str()`, as a function that stops at the first NUL sees it. -/
def cStr (s : Bytes) : Bytes := s.takeWhile (· ≠ 0)

/-- One part of an address: a decimal number up to 255 without leading zeros. -/
def octet (s : Bytes) : Option Nat :=
  if s ≠ [] ∧ s.all (isDigitOf 10) ∧ (s.length = 1 ∨ s.head? ≠ some 48) ∧ digitsValue 10 s < 2 ^ 8
  then some (digitsValue 10 s) else none

/-- `inet_pton` for `AF_INET`: the four parts are the bytes of the result in
memory. It returns 0 where this is `none`; the negative value is for other
families. -/
def inetPton (s : Bytes) : Option Nat :=
  match s.splitOn 46 with
  | [a, b, c, d] => do
      return (← octet a) + 2 ^ 8 * (← octet b) + 2 ^ 16 * (← octet c) + 2 ^ 24 * (← octet d)
  | _ => none

/-! ## parse_rules -/

/-- `cols.at( i )`. -/
def columnAt (cols : List Bytes) (i : Nat) : Except Fault Bytes :=
  match cols[i]? with
  | some s => .ok s
  | none => .error .outOfRange

/-- The body of the loop of `parse_rules`. -/
def parseRule (ruleNum : Nat) (line : Bytes) (rules : DelayRules) : Except Fault DelayRules := do
  let cols := columns line
  let numCols := cols.length
  if numCols < 5 ∨ 9 < numCols then
    throw (.runtimeErrorWith "Failed to parse rule#"
      (decimal ruleNum ++ ascii ":" ++ ascii " Invalid number of fields!"))
  let proto := uint32 (atoi (← columnAt cols 0))
  if 255 < proto then
    throw (.runtimeErrorWith "Invalid protocol number '"
      (decimal proto ++ ascii "'" ++ ascii " in rule #" ++ decimal ruleNum ++ ascii "!"))
  let addr ← columnAt cols 1
  let some ipv4 := inetPton (cStr addr)
    | throw (.runtimeErrorWith "IPv4 address '" (addr ++ ascii "' not in presentation format!"))
  let port := uint32 (atoi (← columnAt cols 2))
  if 65535 < port then
    throw (.runtimeErrorWith "Invalid port number '"
      (decimal port ++ ascii "'" ++ ascii " in rule #" ++ decimal ruleNum ++ ascii "!"))
  let fwdDelay := uint64 (atol (← columnAt cols 3))
  let revDelay := uint64 (atol (← columnAt cols 4))
  if 7 ≤ numCols then
    let fwdLim := uint64 (atol (← columnAt cols 5))
    let fwdAltDelay := uint64 (atol (← columnAt cols 6))
    if numCols = 9 then
      -- the columns of the forward direction once more
      let revLim := uint64 (atol (← columnAt cols 5))
      let revAltDelay := uint64 (atol (← columnAt cols 6))
      return storeRule proto ipv4 port
        (.ofLims proto ipv4 port fwdDelay revDelay fwdLim fwdAltDelay revLim revAltDelay) rules
    else
      return storeRule proto ipv4 port
        (.ofFwdLim proto ipv4 port fwdDelay revDelay fwdLim fwdAltDelay) rules
  else
    return storeRule proto ipv4 port (.ofDelays proto ipv4 port fwdDelay revDelay) rules

/-- The loop, with the number of the last rule read. -/
def parseLines : Nat → DelayRules → List Bytes → Except Fault DelayRules
  | _, rules, [] => .ok rules
  | ruleNum, rules, line :: rest => do
      let ruleNum := u32 (ruleNum + 1)
      let rules ← parseRule ruleNum line rules
      parseLines ruleNum rules rest

/-- `files` has the contents of each file that can be opened. -/
def parseRules (files : Bytes → Option Bytes) (rulesFile : Bytes) : Except Fault DelayRules :=
  match files rulesFile with
  | none => .error (.runtimeErrorWith "Rules file '" (rulesFile ++ ascii "' does not exist!"))
  | some text => parseLines 0 [] (lines text)

theorem storedRule_storeRule (proto ip port : Nat) (rule : DelayRule) (rules : DelayRules) :
    storedRule (storeRule proto ip port rule rules) proto ip port = some rule := by
  simp [storedRule, storeRule, lookup_update_self]

theorem storedRule_storeRule_ne {proto ip port proto' ip' port' : Nat}
    (h : (proto', ip', port') ≠ (proto, ip, port)) (rule : DelayRule) (rules : DelayRules) :
    storedRule (storeRule proto ip port rule rules) proto' ip' port'
      = storedRule rules proto' ip' port' := by
  simp only [storedRule, storeRule]
  by_cases hproto : proto' = proto
  · subst hproto
    rw [lookup_update_self]
    by_cases hip : ip' = ip
    · subst hip
      have hport : port' ≠ port := fun hport => h (by rw [hport])
      simp only [Option.bind_some, lookup_update_self, lookup_update_ne hport]
      cases rules.lookup proto' with
      | none => simp
      | some ipRules => cases hrules : ipRules.lookup ip' <;> simp [hrules]
    · simp only [Option.bind_some, lookup_update_ne hip]
      cases rules.lookup proto' <;> simp
  · rw [lookup_update_ne hproto]

/-! ## Rules stand under their own address and port -/

/-- Every rule of the table says the address and the port that it is stored under. -/
def Keyed (rules : DelayRules) : Prop :=
  ∀ proto ip port rule, storedRule rules proto ip port = some rule → rule.ip = ip ∧ rule.port = port

/-- The rule of a line with the columns `f` and `r` for the delays and `rest`
behind them. -/
inductive DelayRule.OfColumns (proto ip port : Nat) (f r : Bytes) : List Bytes → DelayRule → Prop
  | delays {rest} : rest.length < 2 →
      OfColumns proto ip port f r rest
        (.ofDelays proto ip port (uint64 (atol f)) (uint64 (atol r)))
  | fwdLim {l d rest} : rest.length < 2 →
      OfColumns proto ip port f r (l :: d :: rest)
        (.ofFwdLim proto ip port (uint64 (atol f)) (uint64 (atol r)) (uint64 (atol l))
          (uint64 (atol d)))
  | lims {l d l' d'} :
      OfColumns proto ip port f r [l, d, l', d']
        (.ofLims proto ip port (uint64 (atol f)) (uint64 (atol r)) (uint64 (atol l))
          (uint64 (atol d)) (uint64 (atol l)) (uint64 (atol d)))

/-- What a line that is read has in its columns, and what is stored for it. -/
theorem parseRule_cases {ruleNum : Nat} {line : Bytes} {rules rules' : DelayRules}
    (h : parseRule ruleNum line rules = .ok rules') :
    ∃ p a o f r rest ip rule, columns line = p :: a :: o :: f :: r :: rest ∧
      inetPton (cStr a) = some ip ∧
      rule.OfColumns (uint32 (atoi p)) ip (uint32 (atoi o)) f r rest ∧
      rules' = storeRule (uint32 (atoi p)) ip (uint32 (atoi o)) rule rules := by
  simp only [parseRule] at h
  by_cases hcols : (columns line).length < 5 ∨ 9 < (columns line).length
  · simp [hcols] at h
  rw [if_neg hcols] at h
  obtain ⟨p, a, o, f, r, rest, hline⟩ : ∃ p a o f r rest,
      columns line = p :: a :: o :: f :: r :: rest := by
    match hc : columns line with
    | p :: a :: o :: f :: r :: rest => exact ⟨p, a, o, f, r, rest, rfl⟩
    | [] | [_] | [_, _] | [_, _, _] | [_, _, _, _] => simp [hc] at hcols
  simp only [hline, columnAt, List.getElem?_cons_zero, List.getElem?_cons_succ, ok_bind] at h
  by_cases hproto : 255 < uint32 (atoi p)
  · simp [hproto] at h
  rw [if_neg hproto] at h
  cases haddr : inetPton (cStr a) with
  | none => simp [haddr] at h
  | some ip =>
      simp only [haddr] at h
      by_cases hport : 65535 < uint32 (atoi o)
      · simp [hport] at h
      rw [if_neg hport] at h
      refine ⟨p, a, o, f, r, rest, ip, ?_⟩
      by_cases hlims : 7 ≤ (p :: a :: o :: f :: r :: rest).length
      case neg =>
        rw [if_neg hlims] at h
        refine ⟨_, hline, haddr, .delays ?_, (Except.ok.inj h).symm⟩
        simp only [List.length_cons] at hlims
        omega
      rw [if_pos hlims] at h
      obtain ⟨l, d, rest, rfl⟩ : ∃ l d rest', rest = l :: d :: rest' := by
        match rest with
        | l :: d :: rest => exact ⟨l, d, rest, rfl⟩
        | [] | [_] => simp at hlims
      simp only [List.getElem?_cons_zero, List.getElem?_cons_succ, ok_bind] at h
      by_cases hboth : (p :: a :: o :: f :: r :: l :: d :: rest).length = 9
      · rw [if_pos hboth] at h
        obtain ⟨l', d', rfl⟩ := List.length_eq_two.mp (by simpa using hboth)
        exact ⟨_, hline, haddr, .lims, (Except.ok.inj h).symm⟩
      · rw [if_neg hboth] at h
        refine ⟨_, hline, haddr, .fwdLim ?_, (Except.ok.inj h).symm⟩
        rw [hline] at hcols
        simp only [List.length_cons] at hcols hboth
        omega

/-- A line that is read stores one rule, under its own address and port. -/
theorem parseRule_stores {ruleNum : Nat} {line : Bytes} {rules rules' : DelayRules}
    (h : parseRule ruleNum line rules = .ok rules') :
    ∃ proto rule, rules' = storeRule proto rule.ip rule.port rule rules := by
  obtain ⟨p, a, o, f, r, rest, ip, rule, -, -, hrule, rfl⟩ := parseRule_cases h
  refine ⟨uint32 (atoi p), rule, ?_⟩
  cases hrule <;> rfl

theorem keyed_storeRule {proto : Nat} {rule : DelayRule} {rules : DelayRules} (h : Keyed rules) :
    Keyed (storeRule proto rule.ip rule.port rule rules) := by
  intro proto' ip port rule' hrule
  by_cases hkey : (proto', ip, port) = (proto, rule.ip, rule.port)
  · obtain ⟨rfl, rfl, rfl⟩ : proto' = proto ∧ ip = rule.ip ∧ port = rule.port := by simpa using hkey
    rw [storedRule_storeRule] at hrule
    obtain rfl := Option.some.inj hrule
    exact ⟨rfl, rfl⟩
  · rw [storedRule_storeRule_ne hkey] at hrule
    exact h _ _ _ _ hrule

theorem keyed_parseLines : ∀ {text : List Bytes} {ruleNum : Nat} {rules rules' : DelayRules},
    Keyed rules → parseLines ruleNum rules text = .ok rules' → Keyed rules'
  | [], _, _, _, hkeyed, h => by
      cases h
      exact hkeyed
  | line :: text, ruleNum, rules, rules', hkeyed, h => by
      simp only [parseLines, bind_eq_ok] at h
      obtain ⟨rules₁, hline, hrest⟩ := h
      obtain ⟨proto, rule, rfl⟩ := parseRule_stores hline
      exact keyed_parseLines (keyed_storeRule hkeyed) hrest

theorem keyed_parseRules {files : Bytes → Option Bytes} {rulesFile : Bytes} {rules : DelayRules}
    (h : parseRules files rulesFile = .ok rules) : Keyed rules := by
  rw [parseRules] at h
  split at h
  · cases h
  · exact keyed_parseLines (fun _ _ _ _ hrule => by cases hrule) h

/-! ## What a line says -/

/-- The columns behind the delays. -/
inductive LimitFields where
  | none
  | fwd (lim altDelay : Nat)
  | both (fwdLim fwdAltDelay revLim revAltDelay : Nat)
  deriving DecidableEq, Repr

/-- What a line of a rules file says. -/
structure Entry where
  proto : Nat
  ip : Nat
  port : Nat
  fwdDelay : Nat
  revDelay : Nat
  limits : LimitFields
  deriving DecidableEq, Repr

/-- A part of an address in dotted decimal, up to 255 and without leading zeros. -/
structure IsOctet (s : Bytes) (n : Nat) : Prop where
  number : IsNumber 10 s
  value : digitsValue 10 s = n
  range : n < 2 ^ 8
  canonical : s.length = 1 ∨ s.head? ≠ some 48

/-- An address in dotted decimal. In memory its first part comes first. -/
def IsAddress (s : Bytes) (ip : Nat) : Prop :=
  ∃ a b c d na nb nc nd, s = [46].intercalate [a, b, c, d] ∧ IsOctet a na ∧ IsOctet b nb ∧
    IsOctet c nc ∧ IsOctet d nd ∧ ip = na + 2 ^ 8 * nb + 2 ^ 16 * nc + 2 ^ 24 * nd

/-- A decimal number below `bound`. -/
structure IsDecimal (bound : Nat) (s : Bytes) (n : Nat) : Prop where
  number : IsNumber 10 s
  value : digitsValue 10 s = n
  range : n < bound

namespace LimitFields

/-- The columns `cols` behind the delays say `limits`. -/
def Stands : LimitFields → List Bytes → Prop
  | .none, cols => cols = []
  | .fwd lim altDelay, cols => ∃ l d, cols = [l, d] ∧ IsDecimal (2 ^ 64) l lim ∧
      IsDecimal (2 ^ 64) d altDelay
  | .both fwdLim fwdAltDelay revLim revAltDelay, cols => ∃ l d l' d', cols = [l, d, l', d'] ∧
      IsDecimal (2 ^ 64) l fwdLim ∧ IsDecimal (2 ^ 64) d fwdAltDelay ∧
      IsDecimal (2 ^ 64) l' revLim ∧ IsDecimal (2 ^ 64) d' revAltDelay

/-- The numbers in the columns. -/
def values : LimitFields → List Nat
  | .none => []
  | .fwd lim altDelay => [lim, altDelay]
  | .both fwdLim fwdAltDelay revLim revAltDelay => [fwdLim, fwdAltDelay, revLim, revAltDelay]

/-- The two directions have the same limit and the same second delay. -/
def Alike : LimitFields → Prop
  | .both fwdLim fwdAltDelay revLim revAltDelay => revLim = fwdLim ∧ revAltDelay = fwdAltDelay
  | _ => True

end LimitFields

namespace Entry

/-- What the table has a rule under. -/
def key (e : Entry) : Nat × Nat × Nat := (e.proto, e.ip, e.port)

/-- The fields of a line that says `e`, every number in the range of its member. -/
def Stands (e : Entry) (cols : List Bytes) : Prop :=
  ∃ p a o f r rest, cols = p :: a :: o :: f :: r :: rest ∧ IsDecimal (2 ^ 8) p e.proto ∧
    IsAddress a e.ip ∧ IsDecimal (2 ^ 16) o e.port ∧ IsDecimal (2 ^ 64) f e.fwdDelay ∧
    IsDecimal (2 ^ 64) r e.revDelay ∧ e.limits.Stands rest

/-- The limit of the forward direction. -/
def fwdLim (e : Entry) : Nat :=
  match e.limits with
  | .none => never
  | .fwd lim _ => lim
  | .both lim _ _ _ => lim

/-- The delay from that limit on. -/
def fwdAltDelay (e : Entry) : Nat :=
  match e.limits with
  | .none => e.fwdDelay
  | .fwd _ altDelay => altDelay
  | .both _ altDelay _ _ => altDelay

/-- The limit of the reverse direction. -/
def revLim (e : Entry) : Nat :=
  match e.limits with
  | .both _ _ lim _ => lim
  | _ => never

/-- The delay from that limit on. -/
def revAltDelay (e : Entry) : Nat :=
  match e.limits with
  | .both _ _ _ altDelay => altDelay
  | _ => e.revDelay

/-- The accessors of the rule return what the line says. -/
structure IsRule (e : Entry) (rule : DelayRule) : Prop where
  proto : rule.proto = e.proto
  ip : rule.ip = e.ip
  port : rule.port = e.port
  fwdDelay : rule.fwdDelay = e.fwdDelay
  revDelay : rule.revDelay = e.revDelay
  fwdLim : rule.fwdLim = e.fwdLim
  fwdAltDelay : rule.fwdAltDelay = e.fwdAltDelay
  revLim : rule.revLim = e.revLim
  revAltDelay : rule.revAltDelay = e.revAltDelay

/-- A line on which the three slips do not show. -/
structure Regular (e : Entry) : Prop where
  proto : e.proto = e.port % 2 ^ 8
  alike : e.limits.Alike
  small : ∀ n ∈ e.fwdDelay :: e.revDelay :: e.limits.values, n < 2 ^ 63

end Entry

/-- The lines of the text say the entries, one each. -/
def IsRulesFile (text : Bytes) (entries : List Entry) : Prop :=
  List.Forall₂ (fun line e => ∃ fs, Fields line fs ∧ Entry.Stands e fs) (lines text) entries

/-- `e` is the last of the entries with its key. -/
def IsLast (e : Entry) (entries : List Entry) : Prop :=
  ∃ before after, entries = before ++ e :: after ∧ ∀ e' ∈ after, e'.key ≠ e.key

/-- For every key that occurs, the table has the rule of the last line. -/
def Says (rules : DelayRules) (entries : List Entry) : Prop :=
  ∀ e, IsLast e entries → ∃ rule, storedRule rules e.proto e.ip e.port = some rule ∧ e.IsRule rule

/-! ## Reading what a line says -/

theorem uint32_atoi {bound n : Nat} {s : Bytes} (h : IsDecimal bound s n) (hbound : bound ≤ 2 ^ 16) :
    uint32 (atoi s) = n := by
  obtain ⟨hnumber, rfl, hrange⟩ := h
  simp only [uint32, atoi, strtol_number (by omega) hnumber, i32]
  have : ((min (digitsValue 10 s) (2 ^ 63 - 1) : Nat) : Int) = digitsValue 10 s := by
    rw [Nat.min_eq_left (by omega)]
  rw [this, Int.bmod_eq_of_le (by omega) (by omega)]
  omega

/-- What `atol` makes of a number. -/
def atolValue (n : Nat) : Nat := min n (2 ^ 63 - 1)

theorem atolValue_eq_self {n : Nat} : atolValue n = n ↔ n < 2 ^ 63 := by
  simp only [atolValue]
  omega

theorem uint64_atol {bound n : Nat} {s : Bytes} (h : IsDecimal bound s n) :
    uint64 (atol s) = atolValue n := by
  obtain ⟨hnumber, rfl, -⟩ := h
  simp only [uint64, atol, strtol_number (by omega) hnumber, atolValue]
  omega

theorem isDigitOf_ne {c : UInt8} (h : isDigitOf 10 c = true) : c ≠ 46 ∧ c ≠ 0 := by
  constructor <;> rintro rfl <;> simp [isDigitOf, digitValue] at h

theorem octet_eq_some {s : Bytes} {n : Nat} : octet s = some n ↔ IsOctet s n := by
  constructor
  · intro h
    rw [octet] at h
    split at h
    · next hs =>
        obtain ⟨hne, hdigits, hcanonical, hrange⟩ := hs
        obtain rfl := Option.some.inj h
        exact ⟨⟨hne, List.all_eq_true.mp hdigits⟩, rfl, hrange, hcanonical⟩
    · cases h
  · rintro ⟨hnumber, rfl, hrange, hcanonical⟩
    rw [octet, if_pos]
    exact ⟨hnumber.nonempty, List.all_eq_true.mpr hnumber.digits, hcanonical, hrange⟩

theorem IsAddress.cStr {s : Bytes} {ip : Nat} (h : IsAddress s ip) : cStr s = s := by
  obtain ⟨a, b, c, d, na, nb, nc, nd, rfl, ha, hb, hc, hd, -⟩ := h
  refine List.takeWhile_eq_self_iff.mpr fun x hx => ?_
  have hdigit {t : Bytes} {n : Nat} (ht : IsOctet t n) (hx : x ∈ t) : x ≠ 0 :=
    (isDigitOf_ne (ht.number.digits x hx)).2
  have : x ∈ a ∨ x = 46 ∨ x ∈ b ∨ x = 46 ∨ x ∈ c ∨ x = 46 ∨ x ∈ d := by
    simpa [List.intercalate] using hx
  have hne : x ≠ 0 := by
    rcases this with h | rfl | h | rfl | h | rfl | h
    · exact hdigit ha h
    · decide
    · exact hdigit hb h
    · decide
    · exact hdigit hc h
    · decide
    · exact hdigit hd h
  simpa using hne

theorem inetPton_eq_some {s : Bytes} {ip : Nat} : inetPton s = some ip ↔ IsAddress s ip := by
  constructor
  · intro h
    rw [inetPton] at h
    split at h
    · next a b c d hsplit =>
        have hs : s = [46].intercalate [a, b, c, d] := by rw [← hsplit, List.intercalate_splitOn]
        obtain ⟨na, ha, nb, hb, nc, hc, nd, hd, hip⟩ :
            ∃ na, octet a = some na ∧ ∃ nb, octet b = some nb ∧ ∃ nc, octet c = some nc ∧
              ∃ nd, octet d = some nd ∧ na + 2 ^ 8 * nb + 2 ^ 16 * nc + 2 ^ 24 * nd = ip := by
          simpa [Option.bind_eq_some_iff] using h
        rw [octet_eq_some] at ha hb hc hd
        exact ⟨a, b, c, d, na, nb, nc, nd, hs, ha, hb, hc, hd, hip.symm⟩
    · cases h
  · rintro ⟨a, b, c, d, na, nb, nc, nd, rfl, ha, hb, hc, hd, rfl⟩
    have hdot {t : Bytes} {n : Nat} (ht : IsOctet t n) : 46 ∉ t := fun hmem =>
      (isDigitOf_ne (ht.number.digits 46 hmem)).1 rfl
    have hsplit : ([46].intercalate [a, b, c, d]).splitOn 46 = [a, b, c, d] := by
      refine List.splitOn_intercalate 46 ?_ (by simp)
      simp [hdot ha, hdot hb, hdot hc, hdot hd]
    rw [← octet_eq_some] at ha hb hc hd
    simp only [inetPton, hsplit, ha, hb, hc, hd]
    rfl

/-- The rule that is stored for a line. -/
def Entry.stored (e : Entry) : DelayRule :=
  let fwdDelay := atolValue e.fwdDelay
  let revDelay := atolValue e.revDelay
  match e.limits with
  | .none => .ofDelays e.proto e.ip e.port fwdDelay revDelay
  | .fwd lim altDelay =>
      .ofFwdLim e.proto e.ip e.port fwdDelay revDelay (atolValue lim) (atolValue altDelay)
  | .both lim altDelay _ _ =>
      .ofLims e.proto e.ip e.port fwdDelay revDelay (atolValue lim) (atolValue altDelay)
        (atolValue lim) (atolValue altDelay)

theorem parseRule_of_stands {line : Bytes} {fs : List Bytes} {e : Entry} (hfs : Fields line fs)
    (h : e.Stands fs) (ruleNum : Nat) (rules : DelayRules) :
    parseRule ruleNum line rules = .ok (storeRule e.proto e.ip e.port e.stored rules) := by
  obtain ⟨p, a, o, f, r, rest, rfl, hp, ha, ho, hf, hr, hrest⟩ := h
  have hproto : ¬ 255 < e.proto := by
    have := hp.range
    omega
  have hport : ¬ 65535 < e.port := by
    have := ho.range
    omega
  have hp' := uint32_atoi hp (by omega)
  have ho' := uint32_atoi ho (by omega)
  have ha' : inetPton (cStr a) = some e.ip := by rw [ha.cStr, inetPton_eq_some.mpr ha]
  obtain ⟨proto, ip, port, fwdDelay, revDelay, limits⟩ := e
  cases limits with
  | none =>
      cases hrest
      simp [parseRule, columns_of_fields hfs, columnAt, hp', hproto, ha', ho', hport,
        uint64_atol hf, uint64_atol hr, Entry.stored]
  | fwd lim altDelay =>
      obtain ⟨l, d, rfl, hl, hd⟩ := hrest
      simp [parseRule, columns_of_fields hfs, columnAt, hp', hproto, ha', ho', hport,
        uint64_atol hf, uint64_atol hr, uint64_atol hl, uint64_atol hd, Entry.stored]
  | both fwdLim fwdAltDelay revLim revAltDelay =>
      obtain ⟨l, d, l', d', rfl, hl, hd, -, -⟩ := hrest
      simp [parseRule, columns_of_fields hfs, columnAt, hp', hproto, ha', ho', hport,
        uint64_atol hf, uint64_atol hr, uint64_atol hl, uint64_atol hd, Entry.stored]

/-- The rule that is stored is the rule of the line where the line is regular,
and nowhere else. -/
theorem Entry.isRule_stored_iff (e : Entry) : e.IsRule e.stored ↔ e.Regular := by
  obtain ⟨proto, ip, port, fwdDelay, revDelay, limits⟩ := e
  constructor
  · rintro ⟨hproto, -, -, hfwd, hrev, hlim, halt, hlim', halt'⟩
    cases limits with
    | none =>
        have hf : fwdDelay < 2 ^ 63 := atolValue_eq_self.mp hfwd
        have hr : revDelay < 2 ^ 63 := atolValue_eq_self.mp hrev
        exact ⟨hproto.symm, trivial, by simpa [LimitFields.values] using ⟨hf, hr⟩⟩
    | fwd lim altDelay =>
        have hf : fwdDelay < 2 ^ 63 := atolValue_eq_self.mp hfwd
        have hr : revDelay < 2 ^ 63 := atolValue_eq_self.mp hrev
        have hl : lim < 2 ^ 63 := atolValue_eq_self.mp hlim
        have ha : altDelay < 2 ^ 63 := atolValue_eq_self.mp halt
        exact ⟨hproto.symm, trivial, by simpa [LimitFields.values] using ⟨hf, hr, hl, ha⟩⟩
    | both lim altDelay lim' altDelay' =>
        have hf : fwdDelay < 2 ^ 63 := atolValue_eq_self.mp hfwd
        have hr : revDelay < 2 ^ 63 := atolValue_eq_self.mp hrev
        have hl : lim < 2 ^ 63 := atolValue_eq_self.mp hlim
        have ha : altDelay < 2 ^ 63 := atolValue_eq_self.mp halt
        obtain rfl : lim' = lim := hlim'.symm.trans hlim
        obtain rfl : altDelay' = altDelay := halt'.symm.trans halt
        exact ⟨hproto.symm, ⟨rfl, rfl⟩,
          by simpa [LimitFields.values] using ⟨hf, hr, hl, ha, hl, ha⟩⟩
  · rintro ⟨hproto, halike, hsmall⟩
    have hvalue : ∀ n ∈ fwdDelay :: revDelay :: limits.values, atolValue n = n :=
      fun n hn => atolValue_eq_self.mpr (hsmall n hn)
    have hf := hvalue fwdDelay (by simp)
    have hr := hvalue revDelay (by simp)
    cases limits with
    | none => exact ⟨hproto.symm, rfl, rfl, hf, hr, rfl, hf, rfl, hr⟩
    | fwd lim altDelay =>
        have hl := hvalue lim (by simp [LimitFields.values])
        have ha := hvalue altDelay (by simp [LimitFields.values])
        exact ⟨hproto.symm, rfl, rfl, hf, hr, hl, ha, rfl, hr⟩
    | both lim altDelay lim' altDelay' =>
        obtain ⟨rfl, rfl⟩ := halike
        have hl := hvalue lim' (by simp [LimitFields.values])
        have ha := hvalue altDelay' (by simp [LimitFields.values])
        exact ⟨hproto.symm, rfl, rfl, hf, hr, hl, ha, hl, ha⟩

/-! ## The form can be decided -/

instance (bound : Nat) (s : Bytes) (n : Nat) : Decidable (IsDecimal bound s n) :=
  decidable_of_iff ((s ≠ [] ∧ s.all (isDigitOf 10) = true) ∧ digitsValue 10 s = n ∧ n < bound)
    ⟨fun ⟨⟨hne, hdigits⟩, hvalue, hrange⟩ => ⟨⟨hne, List.all_eq_true.mp hdigits⟩, hvalue, hrange⟩,
      fun ⟨⟨hne, hdigits⟩, hvalue, hrange⟩ => ⟨⟨hne, List.all_eq_true.mpr hdigits⟩, hvalue, hrange⟩⟩

instance (s : Bytes) (ip : Nat) : Decidable (IsAddress s ip) :=
  decidable_of_iff _ inetPton_eq_some

instance : ∀ (limits : LimitFields) (cols : List Bytes), Decidable (limits.Stands cols)
  | .none, cols => inferInstanceAs (Decidable (cols = []))
  | .fwd lim altDelay, cols =>
      match cols with
      | [l, d] => decidable_of_iff (IsDecimal (2 ^ 64) l lim ∧ IsDecimal (2 ^ 64) d altDelay)
          (by simp [LimitFields.Stands])
      | [] | [_] | _ :: _ :: _ :: _ => isFalse (by simp [LimitFields.Stands])
  | .both fwdLim fwdAltDelay revLim revAltDelay, cols =>
      match cols with
      | [l, d, l', d'] => decidable_of_iff
          (IsDecimal (2 ^ 64) l fwdLim ∧ IsDecimal (2 ^ 64) d fwdAltDelay ∧
            IsDecimal (2 ^ 64) l' revLim ∧ IsDecimal (2 ^ 64) d' revAltDelay)
          (by simp [LimitFields.Stands])
      | [] | [_] | [_, _] | [_, _, _] | _ :: _ :: _ :: _ :: _ :: _ =>
          isFalse (by simp [LimitFields.Stands])

instance (e : Entry) : ∀ cols : List Bytes, Decidable (e.Stands cols)
  | p :: a :: o :: f :: r :: rest => decidable_of_iff
      (IsDecimal (2 ^ 8) p e.proto ∧ IsAddress a e.ip ∧ IsDecimal (2 ^ 16) o e.port ∧
        IsDecimal (2 ^ 64) f e.fwdDelay ∧ IsDecimal (2 ^ 64) r e.revDelay ∧ e.limits.Stands rest)
      (by simp [Entry.Stands])
  | [] | [_] | [_, _] | [_, _, _] | [_, _, _, _] => isFalse (by simp [Entry.Stands])

instance (text : Bytes) (entries : List Entry) : Decidable (IsRulesFile text entries) :=
  decidable_of_iff (List.Forall₂ (fun line e => Entry.Stands e (columns line)) (lines text) entries)
    (by simp [IsRulesFile, fields_iff])

/-! ## The table -/

/-- The table after the entries, one stored after the other. -/
def storeEntries (rules : DelayRules) (entries : List Entry) : DelayRules :=
  entries.foldl (fun rules e => storeRule e.proto e.ip e.port e.stored rules) rules

theorem parseLines_of_entries {text : List Bytes} {entries : List Entry}
    (h : List.Forall₂ (fun line e => ∃ fs, Fields line fs ∧ Entry.Stands e fs) text entries)
    (ruleNum : Nat) (rules : DelayRules) :
    parseLines ruleNum rules text = .ok (storeEntries rules entries) := by
  induction h generalizing ruleNum rules with
  | nil => rfl
  | cons hline _ ih =>
      obtain ⟨fs, hfs, hstands⟩ := hline
      simp only [parseLines, parseRule_of_stands hfs hstands, ok_bind, ih]
      rfl

theorem storedRule_storeEntries_of_ne {proto ip port : Nat} : ∀ {entries : List Entry}
    (rules : DelayRules), (∀ e ∈ entries, e.key ≠ (proto, ip, port)) →
    storedRule (storeEntries rules entries) proto ip port = storedRule rules proto ip port
  | [], _, _ => rfl
  | e :: entries, rules, h => by
      have hne : (proto, ip, port) ≠ (e.proto, e.ip, e.port) :=
        (h e (List.mem_cons_self ..)).symm
      have ih := storedRule_storeEntries_of_ne (storeRule e.proto e.ip e.port e.stored rules)
        fun e' he' => h e' (List.mem_cons_of_mem _ he')
      exact ih.trans (storedRule_storeRule_ne hne ..)

/-- The last entry with a key has its rule in the table. -/
theorem storedRule_storeEntries_of_isLast {entries : List Entry} {e : Entry}
    (h : IsLast e entries) (rules : DelayRules) :
    storedRule (storeEntries rules entries) e.proto e.ip e.port = some e.stored := by
  obtain ⟨before, after, rfl, hafter⟩ := h
  have hsplit : storeEntries rules (before ++ e :: after)
      = storeEntries (storeRule e.proto e.ip e.port e.stored (storeEntries rules before)) after := by
    simp [storeEntries]
  rw [hsplit, storedRule_storeEntries_of_ne _ hafter, storedRule_storeRule]

/-- A file whose lines have the form is parsed, and the table has the rule of
the last line for every key if and only if the slips show on none of these. -/
theorem parse_rules_faithful_iff (files : Bytes → Option Bytes) (rulesFile text : Bytes)
    (entries : List Entry) (hfile : files rulesFile = some text)
    (hform : IsRulesFile text entries) :
    ∃ rules, parseRules files rulesFile = .ok rules ∧
      (Says rules entries ↔ ∀ e, IsLast e entries → e.Regular) := by
  refine ⟨storeEntries [] entries, ?_, ?_⟩
  · simp only [parseRules, hfile, parseLines_of_entries hform]
  · have hrule (e : Entry) (he : IsLast e entries) :
        (∃ rule, storedRule (storeEntries [] entries) e.proto e.ip e.port = some rule ∧
          e.IsRule rule) ↔ e.Regular := by
      rw [← e.isRule_stored_iff, storedRule_storeEntries_of_isLast he]
      simp
    exact forall₂_congr hrule

theorem isLast_nil (e : Entry) : ¬ IsLast e [] := by
  rintro ⟨before, after, h, -⟩
  cases before <;> cases h

theorem isLast_cons {e x : Entry} {entries : List Entry} :
    IsLast e (x :: entries) ↔
      (x = e ∧ ∀ e' ∈ entries, e'.key ≠ e.key) ∨ IsLast e entries := by
  constructor
  · rintro ⟨before, after, h, hafter⟩
    cases before with
    | nil =>
        obtain ⟨rfl, rfl⟩ := List.cons.inj h
        exact .inl ⟨rfl, hafter⟩
    | cons y before => exact .inr ⟨before, after, (List.cons.inj h).2, hafter⟩
  · rintro (⟨rfl, hafter⟩ | ⟨before, after, rfl, hafter⟩)
    · exact ⟨[], entries, rfl, hafter⟩
    · exact ⟨x :: before, after, rfl, hafter⟩

/-- A line with different limits in the two directions, which the last line takes back. -/
def threeRules : Bytes :=
  ascii "6 10.0.0.1 6 10 20 1500 30 3000 40\n" ++ ascii "17 10.0.0.1 273 5 5\n"
    ++ ascii "6 10.0.0.1 6 10 20 1500 30 1500 30\n"

/-- What the three lines say. -/
def threeEntries : List Entry :=
  [⟨6, 0x0100000a, 6, 10, 20, .both 1500 30 3000 40⟩, ⟨17, 0x0100000a, 273, 5, 5, .none⟩,
    ⟨6, 0x0100000a, 6, 10, 20, .both 1500 30 1500 30⟩]

theorem parse_rules_faithful_iff_threeRules :
    ∃ rules, parseRules (fun _ => some threeRules) (ascii "rules") = .ok rules ∧
      Says rules threeEntries := by
  obtain ⟨rules, hparsed, hsays⟩ := parse_rules_faithful_iff (fun _ => some threeRules)
    (ascii "rules") threeRules threeEntries rfl (by decide +kernel)
  refine ⟨rules, hparsed, hsays.mpr fun e he => ?_⟩
  simp only [threeEntries, isLast_cons, isLast_nil, or_false] at he
  obtain ⟨rfl, hafter⟩ | ⟨rfl, -⟩ | ⟨rfl, -⟩ := he
  · -- the last line has the key of the first
    exact absurd rfl (hafter ⟨6, 0x0100000a, 6, 10, 20, .both 1500 30 1500 30⟩ (by simp))
  · exact ⟨by decide, trivial, by decide⟩
  · exact ⟨by decide, ⟨rfl, rfl⟩, by decide⟩

/-- A rule for port 443, and one with different limits in the two directions. -/
def twoRules : Bytes :=
  ascii "6 10.0.0.1 443 10 20\n" ++ ascii "6 10.0.0.1 6 10 20 1500 30 3000 40\n"

/-- What the two lines say. -/
def twoEntries : List Entry :=
  [⟨6, 0x0100000a, 443, 10, 20, .none⟩, ⟨6, 0x0100000a, 6, 10, 20, .both 1500 30 3000 40⟩]

/-- The rule of the first line gives 187 as its protocol, the rule of the second
the limit and the second delay of the other direction. -/
theorem twoRules_not_said : IsRulesFile twoRules twoEntries ∧
    ∃ rules, parseRules (fun _ => some twoRules) (ascii "rules") = .ok rules ∧
      (storedRule rules 6 0x0100000a 443).map DelayRule.proto = some 187 ∧
      (storedRule rules 6 0x0100000a 6).map (fun rule => (rule.revLim, rule.revAltDelay))
        = some (1500, 30) ∧
      ¬ Says rules twoEntries := by
  have hform : IsRulesFile twoRules twoEntries := by decide +kernel
  refine ⟨hform, storeEntries [] twoEntries, ?_, by decide +kernel, by decide +kernel, fun h => ?_⟩
  · simp only [parseRules, parseLines_of_entries hform]
  · have hlast : IsLast ⟨6, 0x0100000a, 443, 10, 20, .none⟩ twoEntries :=
      ⟨[], _, rfl, by simp [Entry.key]⟩
    obtain ⟨rule, hrule, hsays⟩ := h _ hlast
    rw [storedRule_storeEntries_of_isLast hlast] at hrule
    obtain rfl := Option.some.inj hrule
    exact absurd hsays.proto (by decide)

end Mahimahi
