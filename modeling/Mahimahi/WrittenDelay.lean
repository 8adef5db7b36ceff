import Mahimahi.DelayTiming

/-!
# Delays as they are written

A delay comes from the command line or from a column of the rules file. It is
read as a `long`, which has a sign, kept as a `uint64_t`, which has none, and
added to the clock in 64 bits. What comes out is the sum of the two as integers,
modulo `2 ^ 64` (`le_release_iff`): a minus sign takes the release time back, as
long as there is enough to take from.

To say which text that is for a packet, the table is followed back to the file.
Under every key it has the rule of the last line with that key
(`storedRule_parseLines`), so the state before the call names a line, and in it
a column (`delayText`).
-/

namespace Mahimahi

/-! ## A signed number as a delay -/

/-- Added to a clock reading, the number does not lead back behind it: it is not
negative, or so far below 0 that the sum comes out at the end of `uint64_t`. -/
def LeadsOn (now : Nat) (z : Int) : Prop := 0 ≤ z ∨ (now : Int) < -z

instance (now : Nat) (z : Int) : Decidable (LeadsOn now z) := inferInstanceAs (Decidable (_ ∨ _))

theorem le_release_iff {now : Nat} (hnow : now < 2 ^ 32) (s : Bytes) :
    now ≤ u64 (now + uint64 (atol s)) ↔ LeadsOn now (atol s) := by
  obtain ⟨hlow, hhigh⟩ : -2 ^ 63 ≤ atol s ∧ atol s < 2 ^ 63 := strtol_range s 10
  generalize atol s = z at hlow hhigh ⊢
  unfold LeadsOn u64 uint64
  rcases Int.lt_or_le z 0 with hneg | hpos
  · have hmod : (z % 2 ^ 64).toNat = 2 ^ 64 - z.natAbs := by omega
    rw [hmod]
    omega
  · have hmod : (z % 2 ^ 64).toNat = z.toNat := by omega
    have hsum : now + z.toNat < 2 ^ 64 := by omega
    rw [hmod, Nat.mod_eq_of_lt hsum]
    omega

theorem myatoi_atol {s : Bytes} {z : Int} (h : myatoi s 10 = .ok z) : z = atol s :=
  (myatoi_eq_ok_iff.mp h).2.2.2.symm

/-! ## The rules file, line by line -/

/-- What the rule of a line is stored under. -/
def lineKey (line : Bytes) : Option (Nat × Nat × Nat) :=
  match columns line with
  | proto :: addr :: port :: _ =>
      (inetPton (cStr addr)).map fun ipv4 => (uint32 (atoi proto), ipv4, uint32 (atoi port))
  | _ => none

/-- The last line with the key. -/
def lineFor (text : List Bytes) (key : Nat × Nat × Nat) : Option Bytes :=
  text.reverse.find? fun line => lineKey line = some key

theorem lineFor_cons (line : Bytes) (text : List Bytes) (key : Nat × Nat × Nat) :
    lineFor (line :: text) key =
      (lineFor text key).or (if lineKey line = some key then some line else none) := by
  simp only [lineFor, List.reverse_cons, List.find?_append, List.find?_singleton,
    decide_eq_true_eq]

/-- The column of the first delay. -/
def delayColumn (uplink : Bool) : Nat := if uplink then 3 else 4

/-- The column that decides for a rule that has carried `bytes` before. Both
directions have the limit in column 5 and the second delay in column 6. -/
def columnAfter (uplink : Bool) (bytes : Nat) (cols : List Bytes) : Nat :=
  if (if uplink then 7 ≤ cols.length else cols.length = 9) ∧ uint64 (atol (cols.getD 5 [])) ≤ bytes
  then 6 else delayColumn uplink

/-- The rule has its delays from the columns. -/
structure DelayRule.HasColumns (rule : DelayRule) (cols : List Bytes) : Prop where
  delay : ∀ uplink, rule.delay uplink = uint64 (atol (cols.getD (delayColumn uplink) []))
  delayAfter : ∀ uplink bytes, rule.delayAfter uplink bytes
    = uint64 (atol (cols.getD (columnAfter uplink bytes cols) []))

theorem DelayRule.OfColumns.hasColumns {proto ip port : Nat} {p a o f r : Bytes}
    {rest : List Bytes} {rule : DelayRule} (h : rule.OfColumns proto ip port f r rest) :
    rule.HasColumns (p :: a :: o :: f :: r :: rest) := by
  refine ⟨fun uplink => ?_, fun uplink bytes => ?_⟩
  · cases h <;> cases uplink <;> rfl
  · unfold columnAfter
    cases h with
    | delays hrest =>
        have hno : ¬ (if uplink then 7 ≤ (p :: a :: o :: f :: r :: rest).length
            else (p :: a :: o :: f :: r :: rest).length = 9) := by
          cases uplink <;> simp <;> omega
        rw [if_neg fun h => hno h.1]
        -- the second delay is the first once more
        cases uplink <;> simp [delayAfter, delay, altDelay, ofDelays, delayColumn]
    | @fwdLim l d rest hrest =>
        have hno : ¬ rest.length = 2 := by omega
        by_cases hover : uint64 (atol l) ≤ bytes
        · have hlim : ¬ bytes < uint64 (atol l) := Nat.not_lt.mpr hover
          cases uplink <;>
            simp [delayAfter, delay, altDelay, lim, ofFwdLim, delayColumn, hno, hover, hlim]
        · have hlim : bytes < uint64 (atol l) := Nat.lt_of_not_le hover
          cases uplink <;>
            simp [delayAfter, delay, altDelay, lim, ofFwdLim, delayColumn, hno, hover, hlim]
    | @lims l d l' d' =>
        by_cases hover : uint64 (atol l) ≤ bytes
        · have hlim : ¬ bytes < uint64 (atol l) := Nat.not_lt.mpr hover
          cases uplink <;> simp [delayAfter, altDelay, lim, ofLims, hover, hlim]
        · have hlim : bytes < uint64 (atol l) := Nat.lt_of_not_le hover
          cases uplink <;> simp [delayAfter, delay, lim, ofLims, delayColumn, hover, hlim]

theorem parseRule_line {ruleNum : Nat} {line : Bytes} {rules rules' : DelayRules}
    (h : parseRule ruleNum line rules = .ok rules') :
    ∃ proto ip port rule, lineKey line = some (proto, ip, port) ∧
      rule.HasColumns (columns line) ∧ rules' = storeRule proto ip port rule rules := by
  obtain ⟨p, a, o, f, r, rest, ip, rule, hcols, hip, hrule, rfl⟩ := parseRule_cases h
  refine ⟨uint32 (atoi p), ip, uint32 (atoi o), rule, by simp [lineKey, hcols, hip], ?_, rfl⟩
  rw [hcols]
  exact hrule.hasColumns

/-- Every key that occurs is stored with the rule of its last line, and the other
keys are as they were. -/
theorem storedRule_parseLines {proto ip port : Nat} : ∀ {text : List Bytes} {ruleNum : Nat}
    {rules rules' : DelayRules}, parseLines ruleNum rules text = .ok rules' →
    (lineFor text (proto, ip, port) = none ∧
      storedRule rules' proto ip port = storedRule rules proto ip port) ∨
    ∃ line rule, lineFor text (proto, ip, port) = some line ∧
      storedRule rules' proto ip port = some rule ∧ rule.HasColumns (columns line)
  | [], _, _, _, h => by
      cases h
      exact .inl ⟨rfl, rfl⟩
  | line :: text, ruleNum, rules, rules', h => by
      simp only [parseLines, bind_eq_ok] at h
      obtain ⟨rules₁, hline, hrest⟩ := h
      obtain ⟨proto₁, ip₁, port₁, rule, hkey, hrule, rfl⟩ := parseRule_line hline
      rw [lineFor_cons, hkey]
      rcases storedRule_parseLines hrest with ⟨hnone, hstored⟩ | ⟨last, rule', hlast, hstored, hrule'⟩
      · rw [hstored, hnone, Option.none_or]
        by_cases hsame : (proto, ip, port) = (proto₁, ip₁, port₁)
        · cases hsame
          exact .inr ⟨line, rule, by simp, storedRule_storeRule .., hrule⟩
        · refine .inl ⟨?_, storedRule_storeRule_ne hsame ..⟩
          rw [if_neg fun h => hsame (Option.some.inj h).symm]
      · rw [hlast, Option.some_or]
        exact .inr ⟨last, rule', rfl, hstored, hrule'⟩

/-! ## The text of a packet's delay -/

namespace AdvDelayQueue

variable {K : ReleaseQueue} {q q' : AdvDelayQueue K} {arg frame : Bytes} {text : List Bytes}

/-- The text of the delay that applies to the packet: a column of the line whose
rule selects it, or the argument if none does. -/
def delayText (arg : Bytes) (text : List Bytes) (q : AdvDelayQueue K) (frame : Bytes) : Bytes :=
  match selector q.rules q.uplink frame with
  | none => arg
  | some (proto, ip, port) =>
      let cols := columns ((lineFor text (proto, ip, port)).getD [])
      -- only a TCP rule under a port counts bytes, and switches
      if proto = ipprotoTcp ∧ port ≠ DelayRule.wildcardPort
      then cols.getD (columnAfter q.uplink (q.byteCounters ip port) cols) []
      else cols.getD (delayColumn q.uplink) []

/-- The queue has its delays from the argument and the lines. -/
structure ReadFrom (arg : Bytes) (text : List Bytes) (q : AdvDelayQueue K) : Prop where
  delay : q.delayMs = uint64 (atol arg)
  rules : parseLines 0 [] text = .ok q.rules

theorem ReadFrom.keyed (h : q.ReadFrom arg text) : Keyed q.rules :=
  keyed_parseLines (fun _ _ _ _ hrule => by cases hrule) h.rules

theorem ReadFrom.stored (h : q.ReadFrom arg text) {proto ip port : Nat} {rule : DelayRule}
    (hrule : storedRule q.rules proto ip port = some rule) :
    rule.HasColumns (columns ((lineFor text (proto, ip, port)).getD [])) := by
  rcases storedRule_parseLines h.rules with ⟨-, hstored⟩ | ⟨line, rule', hline, hstored, hcols⟩
  · rw [hrule] at hstored
    cases hstored
  · obtain rfl : rule' = rule := Option.some.inj (hstored.symm.trans hrule)
    rw [hline]
    exact hcols

/-- The delay that `get_delay_for` finds is the number in that text. -/
theorem ReadFrom.getDelayFor {sz d : Nat} (h : q.ReadFrom arg text)
    (hd : q.getDelayFor frame sz = .ok (d, q')) :
    d = uint64 (atol (q.delayText arg text frame)) := by
  have hnot (hnone : ∀ proto ip p, ¬ Selects q.rules q.uplink frame proto ip p) :
      selector q.rules q.uplink frame = none := by
    cases hs : selector q.rules q.uplink frame with
    | none => rfl
    | some key => exact absurd (selector_eq_some.mp hs) (hnone _ _ _)
  rcases getDelayFor_found hd with ⟨proto, hversion, hproto, hfound⟩ | ⟨hversion, rfl, -⟩
  case inr =>
    rw [delayText, hnot fun proto ip p hselects => hversion hselects.version]
    exact h.delay
  cases hfound with
  | none hnone =>
      rw [delayText, hnot fun proto' ip p hselects => ?_]
      · exact h.delay
      · obtain rfl := Except.ok.inj (hselects.protocol.symm.trans hproto)
        exact hnone ip p hselects
  | wildcard hselects hrule =>
      rw [delayText, selector_eq_some.mpr hselects]
      dsimp only
      rw [if_neg fun hport => hport.2 rfl]
      exact (h.stored hrule).delay _
  | @tcp ip p rule htcp hport hselects hrule =>
      rw [delayText, selector_eq_some.mpr hselects]
      dsimp only
      obtain ⟨rfl, rfl⟩ := h.keyed _ _ _ _ hrule
      rw [if_pos ⟨htcp, hport⟩]
      exact (h.stored hrule).delayAfter _ _
  | @udp ip p rule hudp hselects hrule =>
      rw [delayText, selector_eq_some.mpr hselects]
      dsimp only
      rw [if_neg fun htcp => ?_]
      · exact (h.stored hrule).delay _
      · exact absurd (hudp.symm.trans htcp.1) (by decide)

theorem ReadFrom.of_same (h : q.ReadFrom arg text) (hdelay : q'.delayMs = q.delayMs)
    (hrules : q'.rules = q.rules) : q'.ReadFrom arg text where
  delay := hdelay.trans h.delay
  rules := by rw [hrules, h.rules]

end AdvDelayQueue

/-! ## Runs of calls -/

/-- The queue after calls that all return. -/
def afterCalls {Q : Type} [FerryQueue Q] : List FerryCall → Q → Except Fault Q
  | [], q => .ok q
  | .readPacket now contents :: calls, q => do
      let q ← FerryQueue.readPacket now contents q
      afterCalls calls q
  | .writePackets clock :: calls, q => do
      let (_, q) ← FerryQueue.writePackets clock q
      afterCalls calls q

/-- What every call that returns keeps, a run keeps. -/
theorem afterCalls_invariant {Q : Type} [FerryQueue Q] {I : Q → Prop}
    (hread : ∀ now contents q q', I q → FerryQueue.readPacket now contents q = .ok q' → I q')
    (hwrite : ∀ clock q written q', I q → FerryQueue.writePackets clock q = .ok (written, q') →
      I q') : ∀ {calls : List FerryCall} {q q' : Q}, I q → afterCalls calls q = .ok q' → I q'
  | [], _, _, hq, h => by
      cases h
      exact hq
  | .readPacket now contents :: calls, q, q', hq, h => by
      obtain ⟨q₁, hcall, hrest⟩ := bind_eq_ok.mp h
      exact afterCalls_invariant hread hwrite (hread now contents q q₁ hq hcall) hrest
  | .writePackets clock :: calls, q, q', hq, h => by
      obtain ⟨⟨written, q₁⟩, hcall, hrest⟩ := bind_eq_ok.mp h
      exact afterCalls_invariant hread hwrite (hwrite clock q written q₁ hq hcall) hrest

theorem DelayQueue.afterCalls_delayMs {calls : List FerryCall} {q q' : DelayQueue}
    (h : afterCalls calls q = .ok q') : q'.delayMs = q.delayMs := by
  refine afterCalls_invariant (I := fun q' => q'.delayMs = q.delayMs)
    (fun now contents q₁ q₂ hq hcall => ?_) (fun clock q₁ written q₂ hq hcall => ?_) rfl h
  · cases hcall
    exact hq
  · obtain ⟨⟨written', left⟩, -, hcall⟩ := bind_eq_ok.mp hcall
    cases hcall
    exact hq

theorem AdvDelayQueue.ReadFrom.afterCalls {K : ReleaseQueue} {q q' : AdvDelayQueue K} {arg : Bytes}
    {text : List Bytes} {calls : List FerryCall} (h : q.ReadFrom arg text)
    (hcalls : afterCalls calls q = .ok q') : q'.ReadFrom arg text := by
  refine afterCalls_invariant (fun now contents q₁ q₂ hq hcall => ?_)
    (fun clock q₁ written q₂ hq hcall => ?_) h hcalls
  · obtain ⟨-, d, q₃, hdelay, rfl⟩ := readPacket_cases hcall
    obtain ⟨hdelayMs, hrules, -⟩ := getDelayFor_frame hdelay
    exact hq.of_same hdelayMs hrules
  · obtain ⟨⟨written', left⟩, -, hcall⟩ := bind_eq_ok.mp hcall
    cases hcall
    exact hq.of_same rfl rfl

/-! ## Command lines -/

/-- `main` of mm-delay, up to the start of the shell: the queues of the uplink and
of the downlink. -/
def delayShell : List Bytes → Except Fault (DelayQueue × DelayQueue)
  | _ :: delay :: _ => do
      let delayMs := uint64 (← myatoi delay 10)
      return (.initial delayMs, .initial delayMs)
  | argv => throw (.runtimeErrorWith "Usage: "
      (argv.headD [] ++ ascii " delay-milliseconds [command...]"))

/-- `main` of mm-adv-delay, likewise. -/
def advDelayShell (K : ReleaseQueue) (files : Bytes → Option Bytes) :
    List Bytes → Except Fault (AdvDelayQueue K × AdvDelayQueue K)
  | _ :: delay :: rulesFile :: _ :: _ => do
      let delayMs := uint64 (← myatoi delay 10)
      let rules ← parseRules files rulesFile
      return (.initial K delayMs rules true, .initial K delayMs rules false)
  | argv => throw (.runtimeErrorWith "Usage: "
      (argv.headD [] ++ ascii " delay-milliseconds rule-file out-path-prefix [command...]"))

theorem delayShell_eq_ok {argv : List Bytes} {uplink downlink : DelayQueue}
    (h : delayShell argv = .ok (uplink, downlink)) :
    ∀ q ∈ [uplink, downlink], q.delayMs = uint64 (atol (argv.getD 1 [])) := by
  match argv, h with
  | _ :: delay :: _, h =>
      obtain ⟨z, hz, h⟩ := bind_eq_ok.mp h
      cases h
      intro q hq
      simp only [List.mem_cons, List.not_mem_nil, or_false, or_self] at hq
      rw [hq, myatoi_atol hz]
      rfl
  | [], h | [_], h => cases h

theorem advDelayShell_eq_ok {K : ReleaseQueue} {files : Bytes → Option Bytes} {argv : List Bytes}
    {uplink downlink : AdvDelayQueue K}
    (h : advDelayShell K files argv = .ok (uplink, downlink)) :
    ∀ q ∈ [uplink, downlink],
      q.ReadFrom (argv.getD 1 []) (lines ((files (argv.getD 2 [])).getD [])) := by
  match argv, h with
  | _ :: delay :: rulesFile :: _ :: _, h =>
      obtain ⟨z, hz, h⟩ := bind_eq_ok.mp h
      obtain ⟨rules, hrules, h⟩ := bind_eq_ok.mp h
      cases h
      have hdelay : uint64 z = uint64 (atol delay) := by rw [myatoi_atol hz]
      have hlines : parseLines 0 [] (lines ((files rulesFile).getD [])) = .ok rules := by
        unfold parseRules at hrules
        cases hfile : files rulesFile with
        | none => simp [hfile] at hrules
        | some text => simpa [hfile] using hrules
      intro q hq
      simp only [List.mem_cons, List.not_mem_nil, or_false] at hq
      rcases hq with rfl | rfl
      · exact ⟨hdelay, hlines⟩
      · exact ⟨hdelay, hlines⟩
  | [], h | [_], h | [_, _], h | [_, _, _], h => cases h

/-! ## Release times -/

/-- A call at `now` has put the packet into the queue, with a release time that
is not before. -/
def QueuedFrom (now : Nat) (contents : Bytes) (before after : List DelayPktPair) : Prop :=
  ∃ release, after.Perm ((release, contents) :: before) ∧ now ≤ release

theorem queuedFrom_iff {now release : Nat} {contents : Bytes} {before after : List DelayPktPair}
    (h : after.Perm ((release, contents) :: before)) :
    QueuedFrom now contents before after ↔ now ≤ release := by
  constructor
  · rintro ⟨release', h', hle⟩
    have hsum := ((h.symm.trans h').map Prod.fst).sum_nat
    simp only [List.map_cons, List.sum_cons] at hsum
    omega
  · intro hle
    exact ⟨release, h, hle⟩

/-- **Which delays send packets back in time.** Each packet that a queue of
mm-delay or of mm-adv-delay reads is queued with a release time no earlier than
the reading, exactly when the number of its delay, as written in the argument or
in the rules file, leads on from there. -/
theorem release_not_early_iff (K : ReleaseQueue) (files : Bytes → Option Bytes)
    (argv : List Bytes) :
    (∀ uplink downlink, delayShell argv = .ok (uplink, downlink) →
      ∀ q₀ ∈ [uplink, downlink], ∀ calls q, afterCalls calls q₀ = .ok q →
      ∀ now < 2 ^ 32, ∀ contents,
        (QueuedFrom now contents q.packetQueue (q.readPacket now contents).packetQueue ↔
          LeadsOn now (atol (argv.getD 1 [])))) ∧
    ∀ uplink downlink, advDelayShell K files argv = .ok (uplink, downlink) →
      ∀ q₀ ∈ [uplink, downlink], ∀ calls q, afterCalls calls q₀ = .ok q →
      ∀ now < 2 ^ 32, ∀ contents q', q.readPacket now contents = .ok q' →
        (QueuedFrom now contents (K.elements q.packetQueue) (K.elements q'.packetQueue) ↔
          LeadsOn now (atol (q.delayText (argv.getD 1 [])
            (lines ((files (argv.getD 2 [])).getD [])) contents))) := by
  refine ⟨fun uplink downlink hshell q₀ hq₀ calls q hcalls now hnow contents => ?_,
    fun uplink downlink hshell q₀ hq₀ calls q hcalls now hnow contents q' hread => ?_⟩
  · have hdelay := DelayQueue.afterCalls_delayMs hcalls
    rw [delayShell_eq_ok hshell q₀ hq₀] at hdelay
    have hqueued : (q.readPacket now contents).packetQueue.Perm
        ((u64 (now + q.delayMs), contents) :: q.packetQueue) := List.perm_append_singleton _ _
    rw [queuedFrom_iff hqueued, hdelay, le_release_iff hnow]
  · have hq := (advDelayShell_eq_ok hshell q₀ hq₀).afterCalls hcalls
    obtain ⟨-, d, q₁, hdelay, rfl⟩ := AdvDelayQueue.readPacket_cases hread
    have hcounted : (q.counted contents).ReadFrom (argv.getD 1 [])
        (lines ((files (argv.getD 2 [])).getD [])) := hq.of_same rfl rfl
    have hd := hcounted.getDelayFor hdelay
    obtain ⟨-, -, hpackets⟩ := AdvDelayQueue.getDelayFor_frame hdelay
    have hqueued : (K.elements (K.emplace (u64 (now + d), contents) q₁.packetQueue)).Perm
        ((u64 (now + d), contents) :: K.elements q.packetQueue) := by
      rw [hpackets]
      exact K.emplace_perm ..
    rw [queuedFrom_iff hqueued, hd, le_release_iff hnow]
    rfl

/-- A rule with negative delays. -/
def negativeRule : Bytes := ascii "6 10.0.0.1 443 -5 -5\n"

/-- A delay of 20 ms leads on. One of -5 ms leads back from 7 ms, and from 4 ms it comes
out beyond the range of a signed number. -/
theorem release_not_early_iff_negativeRule :
    (∃ uplink downlink q, delayShell [ascii "mm-delay", ascii "20"] = .ok (uplink, downlink) ∧
      afterCalls [.readPacket 3 [69]] uplink = .ok q ∧
      QueuedFrom 7 [96] q.packetQueue (q.readPacket 7 [96]).packetQueue) ∧
    ∃ uplink downlink q q', advDelayShell (Heap.queue Prod.fst) (fun _ => some negativeRule)
        [ascii "mm-adv-delay", ascii "10", ascii "rules", ascii "out"] = .ok (uplink, downlink) ∧
      uplink.readPacket 7 LoggedQueue.toServer = .ok q ∧
      ¬ QueuedFrom 7 LoggedQueue.toServer ((Heap.queue Prod.fst).elements uplink.packetQueue)
        ((Heap.queue Prod.fst).elements q.packetQueue) ∧
      uplink.readPacket 4 LoggedQueue.toServer = .ok q' ∧
      QueuedFrom 4 LoggedQueue.toServer ((Heap.queue Prod.fst).elements uplink.packetQueue)
        ((Heap.queue Prod.fst).elements q'.packetQueue) := by
  refine ⟨⟨_, _, _, rfl, rfl, ?_⟩, _, _, _, _, rfl, rfl, fun hqueued => ?_, rfl, ?_⟩
  · have hiff := (release_not_early_iff (Heap.queue Prod.fst) (fun _ => none)
      [ascii "mm-delay", ascii "20"]).1 _ _ rfl _ (List.mem_cons_self ..) [.readPacket 3 [69]] _ rfl
    exact (hiff 7 (by decide) [96]).mpr (by decide +kernel)
  · have hiff := (release_not_early_iff (Heap.queue Prod.fst) (fun _ => some negativeRule)
      [ascii "mm-adv-delay", ascii "10", ascii "rules", ascii "out"]).2 _ _ rfl _
      (List.mem_cons_self ..) [] _ rfl
    exact absurd ((hiff 7 (by decide) _ _ rfl).mp hqueued) (by decide +kernel)
  · have hiff := (release_not_early_iff (Heap.queue Prod.fst) (fun _ => some negativeRule)
      [ascii "mm-adv-delay", ascii "10", ascii "rules", ascii "out"]).2 _ _ rfl _
      (List.mem_cons_self ..) [] _ rfl
    exact (hiff 4 (by decide) _ _ rfl).mpr (by decide +kernel)

/-- With `mm-delay -1` a packet read at 1 ms has the release time 0, and under the
rule one read at 7 ms has the release time 2. -/
theorem negative_delay_goes_back :
    (∃ uplink downlink, delayShell [ascii "mm-delay", ascii "-1"] = .ok (uplink, downlink) ∧
      ¬ QueuedFrom 1 [69] uplink.packetQueue (uplink.readPacket 1 [69]).packetQueue) ∧
    ∃ uplink downlink q, advDelayShell (Heap.queue Prod.fst) (fun _ => some negativeRule)
        [ascii "mm-adv-delay", ascii "10", ascii "rules", ascii "out"] = .ok (uplink, downlink) ∧
      uplink.readPacket 7 LoggedQueue.toServer = .ok q ∧
      ¬ QueuedFrom 7 LoggedQueue.toServer ((Heap.queue Prod.fst).elements uplink.packetQueue)
        ((Heap.queue Prod.fst).elements q.packetQueue) := by
  refine ⟨⟨_, _, rfl, ?_⟩, _, _, _, rfl, rfl, ?_⟩
  · have hqueued : ([(0, [69])] : List DelayPktPair).Perm [(0, [69])] := .refl _
    exact fun h => absurd ((queuedFrom_iff hqueued).mp h) (by decide)
  · have hqueued : ([(2, LoggedQueue.toServer)] : List DelayPktPair).Perm
        [(2, LoggedQueue.toServer)] := .refl _
    exact fun h => absurd ((queuedFrom_iff hqueued).mp h) (by decide)

end Mahimahi
