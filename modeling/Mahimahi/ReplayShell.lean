import Mathlib.Data.List.Lex
import Mathlib.Data.List.Zip
import Mahimahi.DelayRule
import Mahimahi.OrderedSet
import Mahimahi.ReplayServer
import Mahimahi.ThroughputGraph

/-!
# The servers of a replay

`replayshell` reads the files of a recording once, before anything is asked of it, and makes
a network for them: an interface for each IP that was recorded, a web server for each address
with its port, and a file that tells the name server the IP of each host. The web servers run
`replayserver`, which can only answer where a server listens and a name leads to it.

The addresses come from the files as text and are looked up again, so what matters of the
look-up is that it undoes how an address is written (`NumericHosts`).
-/

namespace Mahimahi

/-! ## Addresses -/

/-- `in_addr`: the four bytes in memory, in the order in which they are written. -/
structure InAddr where
  a : UInt8
  b : UInt8
  c : UInt8
  d : UInt8
  deriving DecidableEq, Repr

namespace InAddr

def octets (ip : InAddr) : List Nat := [ip.a.toNat, ip.b.toNat, ip.c.toNat, ip.d.toNat]

/-- Dotted decimal, as `getnameinfo` writes it. -/
def text (ip : InAddr) : Bytes := [46].intercalate (ip.octets.map decimal)

theorem octets_injective : Function.Injective octets := by
  rintro ⟨a, b, c, d⟩ ⟨a', b', c', d'⟩ h
  simp only [octets, List.cons.injEq, UInt8.toNat_inj, and_true] at h
  obtain ⟨rfl, rfl, rfl, rfl⟩ := h
  rfl

end InAddr

/-- `sockaddr_in`. -/
structure SockaddrIn where
  ip : InAddr
  port : UInt16
  deriving Repr

namespace SockaddrIn

/-- The bytes in memory, without the zeros at the end: the family, the port with its high
byte first, and the address. -/
def raw (s : SockaddrIn) : List Nat :=
  [2, 0, s.port.toNat / 256, s.port.toNat % 256] ++ s.ip.octets

theorem raw_injective : Function.Injective raw := by
  rintro ⟨ip, port⟩ ⟨ip', port'⟩ h
  simp only [raw, List.cons_append, List.nil_append, List.cons.injEq, true_and] at h
  obtain ⟨hhigh, hlow, hip⟩ := h
  obtain rfl := InAddr.octets_injective hip
  have hport : port.toNat = port'.toNat := by omega
  rw [UInt16.toNat_inj.mp hport]

/-- `operator<` compares the memory, byte after byte. -/
instance : LinearOrder SockaddrIn := LinearOrder.lift' raw raw_injective

/-- What `ip` and `port` return. -/
def address (s : SockaddrIn) : Address := ⟨s.ip.text, s.port.toNat⟩

end SockaddrIn

/-- `getaddrinfo` for numeric hosts. Whatever else it takes, it takes an address as it is
written. -/
structure NumericHosts where
  numeric : Bytes → Option InAddr
  numeric_text : ∀ ip, numeric ip.text = some ip

/-- `Address( ip, port )`, from an `ip` that need not be one and a `port` of 32 bits. -/
def NumericHosts.address (G : NumericHosts) (ip : Bytes) (port : Nat) : Except Fault SockaddrIn :=
  match G.numeric ip with
  | some a => .ok ⟨a, port.toUInt16⟩
  | none => .error (.runtimeErrorWith "getaddrinfo("
      (ip ++ ascii ":" ++ decimal (port % 2 ^ 16) ++ ascii ", numeric)"))

/-! ## replayshell -/

/-- What is collected of the records: `unique_ip`, `unique_ip_and_port` and
`hostname_to_ip`. -/
structure Collected where
  uniqueIp : List SockaddrIn
  uniqueIpAndPort : List SockaddrIn
  hostnameToIp : List (Bytes × SockaddrIn)

/-- The loop over the files of the directory. -/
def collect (G : NumericHosts) : List RecordFile → Collected → Except Fault Collected
  | [], c => .ok c
  | file :: files, c =>
      if (find (ascii "save") file.name).isSome then
        match file.parsed with
        | none =>
            .error (.runtimeErrorWith "" (file.name ++ ascii ": invalid HTTP request/response"))
        | some protobuf => do
            let address ← G.address protobuf.ip protobuf.port
            let ip ← G.address address.ip.text 0
            let request : HTTPRequest := .ofProtobuf protobuf.request
            let host ← request.getHeaderValue (ascii "Host")
            collect G files {
              uniqueIp := OrderedSet.emplace ip c.uniqueIp
              uniqueIpAndPort := OrderedSet.emplace address c.uniqueIpAndPort
              hostnameToIp := c.hostnameToIp ++ [(host, address)] }
      else collect G files c

/-- What the shell makes: the dummy interfaces with their names, the web servers, and the
file for dnsmasq. -/
structure ReplayNetwork where
  sharded : List (Bytes × SockaddrIn)
  servers : List SockaddrIn
  dnsmasqHosts : Bytes
  nameservers : List (Bytes × SockaddrIn)

/-- The interfaces, counted from 0. -/
def named (interfaceName : String) (addrs : List SockaddrIn) : List (Bytes × SockaddrIn) :=
  addrs.zipIdx.map fun p => (ascii interfaceName ++ decimal p.2, p.1)

/-- A line of the file: the address and the name. -/
def hostsLine (mapping : Bytes × SockaddrIn) : Bytes :=
  mapping.2.ip.text ++ ascii " " ++ mapping.1

/-- `main` of `replayshell`, from the listing of the directory to the start of dnsmasq;
`nameservers` are those of the system. -/
def replayShell (G : NumericHosts) (nameservers : List SockaddrIn) (files : List RecordFile) :
    Except Fault ReplayNetwork := do
  let c ← collect G files ⟨[], [], []⟩
  return {
    sharded := named "sharded" c.uniqueIp
    servers := c.uniqueIpAndPort
    dnsmasqHosts := (c.hostnameToIp.map hostsLine).flatMap (· ++ [10])
    nameservers := named "nameserver" nameservers }

/-! ## A recorded address comes back -/

namespace NumericHosts

variable (G : NumericHosts)

include G in
theorem text_injective : Function.Injective InAddr.text := fun ip ip' h =>
  Option.some.inj ((G.numeric_text ip).symm.trans (h ▸ G.numeric_text ip'))

include G in
theorem address_injective : Function.Injective SockaddrIn.address := by
  rintro ⟨ip, port⟩ ⟨ip', port'⟩ h
  obtain ⟨htext, hnumber⟩ := Address.mk.inj h
  have hip : ip = ip' := G.text_injective htext
  have hport : port = port' := UInt16.toNat_inj.mp hnumber
  rw [hip, hport]

theorem address_text (ip : InAddr) (port : Nat) :
    G.address ip.text port = .ok ⟨ip, port.toUInt16⟩ := by
  rw [address, G.numeric_text]

/-- What `ip` and `port` have returned is taken back. -/
theorem address_address (s : SockaddrIn) : G.address s.address.ip s.address.port = .ok s := by
  have hport : s.port.toNat.toUInt16 = s.port := UInt16.ofNat_toNat
  rw [SockaddrIn.address, G.address_text, hport]

end NumericHosts

theorem canonical_decimal :
    ∀ n < 2 ^ 8, (decimal n).length = 1 ∨ (decimal n).head? ≠ some 48 := by
  decide +kernel

theorem isOctet_decimal (n : UInt8) : IsOctet (decimal n.toNat) n.toNat :=
  ⟨isNumber_decimal _, digitsValue_decimal _, n.toNat_lt, canonical_decimal _ n.toNat_lt⟩

theorem toUInt8_of_mod {n : Nat} {b : UInt8} (h : n % 2 ^ 8 = b.toNat) : n.toUInt8 = b :=
  UInt8.toNat_inj.mp ((UInt8.toNat_ofNat ..).trans h)

/-- `inet_pton` takes dotted decimal and nothing else. -/
def NumericHosts.pton : NumericHosts where
  numeric t := (inetPton t).map fun n =>
    ⟨n.toUInt8, (n / 2 ^ 8).toUInt8, (n / 2 ^ 16).toUInt8, (n / 2 ^ 24).toUInt8⟩
  numeric_text ip := by
    have haddress : inetPton ip.text = some (ip.a.toNat + 2 ^ 8 * ip.b.toNat +
        2 ^ 16 * ip.c.toNat + 2 ^ 24 * ip.d.toNat) :=
      inetPton_eq_some.mpr ⟨_, _, _, _, _, _, _, _, rfl, isOctet_decimal ip.a, isOctet_decimal ip.b,
        isOctet_decimal ip.c, isOctet_decimal ip.d, rfl⟩
    obtain ⟨ha, hb, hc, hd⟩ := And.intro ip.a.toNat_lt
      (And.intro ip.b.toNat_lt (And.intro ip.c.toNat_lt ip.d.toNat_lt))
    rw [haddress, Option.map_some, toUInt8_of_mod (b := ip.a) (by omega),
      toUInt8_of_mod (b := ip.b) (by omega), toUInt8_of_mod (b := ip.c) (by omega),
      toUInt8_of_mod (b := ip.d) (by omega)]

theorem isField_text (ip : InAddr) : IsField ip.text := by
  have htext : ip.text = decimal ip.a.toNat ++ 46 :: (decimal ip.b.toNat ++
      46 :: (decimal ip.c.toNat ++ 46 :: decimal ip.d.toNat)) := by
    simp [InAddr.text, InAddr.octets, List.intercalate]
  have hdot : isSpace 46 = false := by decide
  rw [htext]
  refine ⟨by simp, fun c hc => ?_⟩
  simp only [List.mem_append, List.mem_cons] at hc
  rcases hc with h | rfl | h | rfl | h | rfl | h
  · exact (Record.isField_decimal _).2 c h
  · exact hdot
  · exact (Record.isField_decimal _).2 c h
  · exact hdot
  · exact (Record.isField_decimal _).2 c h
  · exact hdot
  · exact (Record.isField_decimal _).2 c h

/-! ## What is collected -/

/-- The host that the client has asked for. -/
def Exchange.host (x : Exchange) : Option Bytes := x.response.request.headerOf (ascii "Host")

def Collected.note (host : Bytes) (s : SockaddrIn) (c : Collected) : Collected where
  uniqueIp := OrderedSet.emplace ⟨s.ip, 0⟩ c.uniqueIp
  uniqueIpAndPort := OrderedSet.emplace s c.uniqueIpAndPort
  hostnameToIp := c.hostnameToIp ++ [(host, s)]

theorem HTTPMessage.getHeaderValue_eq {X : Type} (headerName : Bytes) (m : HTTPMessage X) :
    m.getHeaderValue headerName = match m.headerOf headerName with
      | some value => .ok value
      | none => .error (.runtimeErrorWith "HTTPMessage header not found: " headerName) := by
  rw [getHeaderValue, headerOf]
  cases m.headers.find? fun header => equivalentStrings header.key headerName <;> rfl

theorem collect_cons (G : NumericHosts) {file : RecordFile} {x : Exchange} {s : SockaddrIn}
    (hsaved : x.SavedIn file) (hserver : x.server = s.address) (files : List RecordFile)
    (c : Collected) :
    collect G (file :: files) c = match x.host with
      | some host => collect G files (c.note host s)
      | none => .error (.runtimeErrorWith "HTTPMessage header not found: " (ascii "Host")) := by
  obtain ⟨record, hsave, hname, hparsed⟩ := hsaved
  simp only [save, bind_eq_ok, pure_eq_ok, Except.ok.injEq] at hsave
  obtain ⟨request, hrequest, response, -, rfl⟩ := hsave
  have haddress : G.address x.server.ip x.server.port = .ok s := by
    rw [hserver]
    exact G.address_address s
  have hip : G.address s.ip.text 0 = .ok ⟨s.ip, 0⟩ := G.address_text s.ip 0
  have hhost : (.ofProtobuf request : HTTPRequest).headerOf (ascii "Host") = x.host := by
    rw [(HTTPMessage.toProtobuf_eq_ok hrequest).2]
    rfl
  simp only [collect, hname, if_true, hparsed, haddress, hip, ok_bind,
    HTTPMessage.getHeaderValue_eq, hhost]
  cases x.host with
  | some host => rfl
  | none => rfl

/-- What the loop makes of `c`, on the files of `xs`. -/
structure Collects (xs : List Exchange) (c c' : Collected) : Prop where
  ips : ∀ s, s ∈ c'.uniqueIp ↔
    (s.port = 0 ∧ ∃ x ∈ xs, x.server.ip = s.ip.text) ∨ s ∈ c.uniqueIp
  addresses : ∀ s, s ∈ c'.uniqueIpAndPort ↔
    (∃ x ∈ xs, x.server = s.address) ∨ s ∈ c.uniqueIpAndPort
  ipsSorted : OrderedSet.Sorted c.uniqueIp → OrderedSet.Sorted c'.uniqueIp
  addressesSorted : OrderedSet.Sorted c.uniqueIpAndPort → OrderedSet.Sorted c'.uniqueIpAndPort
  mappings : c'.hostnameToIp.map (fun m => (some m.1, m.2.address)) =
    c.hostnameToIp.map (fun m => (some m.1, m.2.address)) ++ xs.map fun x => (x.host, x.server)

variable {files : List RecordFile} {xs : List Exchange} {c c' : Collected}

theorem Collects.nil : Collects [] c c where
  ips s := by simp
  addresses s := by simp
  ipsSorted := id
  addressesSorted := id
  mappings := by simp

theorem Collects.cons (G : NumericHosts) {x : Exchange} {host : Bytes} {s : SockaddrIn}
    (hserver : x.server = s.address) (hhost : x.host = some host)
    (h : Collects xs (c.note host s) c') : Collects (x :: xs) c c' where
  ips t := by
    have hip : x.server.ip = t.ip.text ↔ t.ip = s.ip := by
      rw [hserver]
      exact ⟨fun heq => (G.text_injective heq).symm, fun heq => by rw [heq]; rfl⟩
    have ht : t = ⟨s.ip, 0⟩ ↔ t.port = 0 ∧ t.ip = s.ip := by
      obtain ⟨ip, port⟩ := t
      simp [and_comm]
    rw [h.ips, Collected.note, OrderedSet.mem_emplace, ht, List.exists_mem_cons_iff, hip,
      and_or_left, or_assoc]
    exact or_left_comm
  addresses t := by
    have ht : x.server = t.address ↔ t = s := by
      rw [hserver]
      exact ⟨fun heq => (G.address_injective heq).symm, fun heq => by rw [heq]⟩
    rw [h.addresses, Collected.note, OrderedSet.mem_emplace, List.exists_mem_cons_iff, ht, or_assoc]
    exact or_left_comm
  ipsSorted hsorted := h.ipsSorted hsorted.emplace
  addressesSorted hsorted := h.addressesSorted hsorted.emplace
  mappings := by
    rw [h.mappings, Collected.note, List.map_append, List.append_assoc]
    simp [hhost, hserver]

/-- The loop comes to its end where every request has a host. -/
theorem collect_saved (G : NumericHosts) (hsaved : List.Forall₂ Exchange.SavedIn files xs)
    (hserver : ∀ x ∈ xs, ∃ s : SockaddrIn, x.server = s.address)
    (hhost : ∀ x ∈ xs, x.host.isSome = true) :
    ∀ c, ∃ c', collect G files c = .ok c' ∧ Collects xs c c' := by
  induction hsaved with
  | nil => exact fun c => ⟨c, rfl, .nil⟩
  | @cons file x files xs hfile _ ih =>
      intro c
      obtain ⟨s, hs⟩ := hserver x List.mem_cons_self
      obtain ⟨host, hx⟩ := Option.isSome_iff_exists.mp (hhost x List.mem_cons_self)
      obtain ⟨c', hcollect, hcollects⟩ := ih (fun y hy => hserver y (List.mem_cons_of_mem _ hy))
        (fun y hy => hhost y (List.mem_cons_of_mem _ hy)) (c.note host s)
      refine ⟨c', ?_, hcollects.cons G hs hx⟩
      rw [collect_cons G hfile hs, hx]
      exact hcollect

theorem hosts_of_collect (G : NumericHosts) (hsaved : List.Forall₂ Exchange.SavedIn files xs)
    (hserver : ∀ x ∈ xs, ∃ s : SockaddrIn, x.server = s.address) :
    ∀ {c}, collect G files c = .ok c' → ∀ x ∈ xs, x.host.isSome = true := by
  induction hsaved with
  | nil => exact fun _ x hx => by cases hx
  | @cons file x files xs hfile _ ih =>
      intro c hcollect y hy
      obtain ⟨s, hs⟩ := hserver x List.mem_cons_self
      rw [collect_cons G hfile hs] at hcollect
      cases hx : x.host with
      | none =>
          rw [hx] at hcollect
          cases hcollect
      | some host =>
          rw [hx] at hcollect
          rcases List.mem_cons.mp hy with rfl | hy
          · rw [hx]
            rfl
          · exact ih (fun z hz => hserver z (List.mem_cons_of_mem _ hz)) hcollect y hy

/-! ## The network -/

theorem named_snd (interfaceName : String) (addrs : List SockaddrIn) :
    (named interfaceName addrs).map Prod.snd = addrs := by
  rw [named, List.map_map]
  exact List.zipIdx_map_fst 0 addrs

theorem named_fst (interfaceName : String) (addrs : List SockaddrIn) :
    (named interfaceName addrs).map Prod.fst =
      (List.range' 0 addrs.length).map fun i => ascii interfaceName ++ decimal i := by
  rw [← List.zipIdx_map_snd 0 addrs, named, List.map_map, List.map_map]
  rfl

theorem nodup_named (interfaceName : String) (addrs : List SockaddrIn) :
    ((named interfaceName addrs).map Prod.fst).Nodup := by
  rw [named_fst]
  refine List.Nodup.map (fun i j h => ?_) (List.nodup_range' ..)
  have hij := congrArg (digitsValue 10) (List.append_cancel_left h)
  rwa [digitsValue_decimal, digitsValue_decimal] at hij

/-- The file is read as it is written: on each line the address and the name. -/
theorem columns_hostsLines {mappings : List (Bytes × SockaddrIn)}
    (hfield : ∀ m ∈ mappings, IsField m.1) :
    (lines ((mappings.map hostsLine).flatMap (· ++ [10]))).map columns =
      mappings.map fun m => [m.2.ip.text, m.1] := by
  have hcolumns : ∀ m ∈ mappings, columns (hostsLine m) = [m.2.ip.text, m.1] := by
    intro m hm
    have hjoined : hostsLine m = joinSpaces [m.2.ip.text, m.1] := by
      simp [hostsLine, joinSpaces, ascii]
    rw [hjoined]
    refine columns_join fun f hf => ?_
    rcases List.mem_pair.mp hf with rfl | rfl
    · exact isField_text _
    · exact hfield m hm
  have hnewline : ∀ line ∈ mappings.map hostsLine, 10 ∉ line := by
    intro line hline hmem
    obtain ⟨m, hm, rfl⟩ := List.mem_map.mp hline
    have hspace : isSpace 10 = true := by decide
    rcases List.mem_append.mp hmem with hmem | hmem
    · rcases List.mem_append.mp hmem with hmem | hmem
      · exact absurd ((isField_text _).2 10 hmem) (by simp [hspace])
      · exact absurd hmem (by decide)
    · exact absurd ((hfield m hm).2 10 hmem) (by simp [hspace])
  rw [lines_flatMap hnewline, List.map_map]
  exact List.map_congr_left hcolumns

/-- Each recorded address has one web server and each recorded IP one of the interfaces that
are sharded, and there are no others but one for each nameserver; no two interfaces share a
name; the file has a line for each exchange, and where the hosts are words, dnsmasq reads the
address and the host of it there. -/
structure ReplayNetwork.Serves (network : ReplayNetwork) (nameservers : List SockaddrIn)
    (xs : List Exchange) : Prop where
  serversOnce : network.servers.Nodup
  servers : ∀ s, s ∈ network.servers ↔ ∃ x ∈ xs, x.server = s.address
  interfacesOnce : (network.sharded.map Prod.snd).Nodup
  interfaces : ∀ s, s ∈ network.sharded.map Prod.snd ↔
    s.port = 0 ∧ ∃ x ∈ xs, x.server.ip = s.ip.text
  besides : network.nameservers.map Prod.snd = nameservers
  names : ((network.sharded ++ network.nameservers).map Prod.fst).Nodup
  file : network.dnsmasqHosts = xs.flatMap fun x =>
    x.server.ip ++ ascii " " ++ x.host.getD [] ++ [10]
  hosts : (∀ x ∈ xs, ∀ host, x.host = some host → IsField host) →
    (lines network.dnsmasqHosts).map columns = xs.map fun x => x.server.ip :: x.host.toList

theorem Collects.hosts_eq (h : Collects xs ⟨[], [], []⟩ c) :
    c.hostnameToIp.map (fun m => (some m.1, m.2.address)) = xs.map fun x => (x.host, x.server) := by
  simpa using h.mappings

theorem Collects.serves (h : Collects xs ⟨[], [], []⟩ c) (nameservers : List SockaddrIn) :
    ReplayNetwork.Serves {
      sharded := named "sharded" c.uniqueIp
      servers := c.uniqueIpAndPort
      dnsmasqHosts := (c.hostnameToIp.map hostsLine).flatMap (· ++ [10])
      nameservers := named "nameserver" nameservers } nameservers xs where
  serversOnce := (h.addressesSorted .nil).nodup
  servers s := by simpa using h.addresses s
  interfacesOnce := by
    rw [named_snd]
    exact (h.ipsSorted .nil).nodup
  interfaces s := by
    rw [named_snd]
    simpa using h.ips s
  besides := named_snd ..
  names := by
    rw [List.map_append]
    refine List.nodup_append.mpr ⟨nodup_named .., nodup_named .., fun x hx y hy heq => ?_⟩
    rw [named_fst] at hx hy
    obtain ⟨i, -, rfl⟩ := List.mem_map.mp hx
    obtain ⟨j, -, rfl⟩ := List.mem_map.mp hy
    have hhead : some (115 : UInt8) = some 110 := congrArg List.head? heq
    exact absurd hhead (by decide)
  file := by
    calc (c.hostnameToIp.map hostsLine).flatMap (· ++ [10])
        = (c.hostnameToIp.map fun m => (some m.1, m.2.address)).flatMap
            (fun p => p.2.ip ++ ascii " " ++ p.1.getD [] ++ [10]) := by
          rw [List.flatMap_map, List.flatMap_map]
          rfl
      _ = xs.flatMap fun x => x.server.ip ++ ascii " " ++ x.host.getD [] ++ [10] := by
          rw [h.hosts_eq, List.flatMap_map]
  hosts hfields := by
    have hfield : ∀ m ∈ c.hostnameToIp, IsField m.1 := by
      intro m hm
      have hmem := List.mem_map_of_mem (f := fun m => (some m.1, m.2.address)) hm
      rw [h.hosts_eq] at hmem
      obtain ⟨x, hx, heq⟩ := List.mem_map.mp hmem
      exact hfields x hx m.1 (Prod.mk.inj heq).1
    rw [columns_hostsLines hfield]
    calc c.hostnameToIp.map (fun m => [m.2.ip.text, m.1])
        = (c.hostnameToIp.map fun m => (some m.1, m.2.address)).map
            (fun p => p.2.ip :: p.1.toList) := by
          rw [List.map_map]
          rfl
      _ = xs.map fun x => x.server.ip :: x.host.toList := by
          rw [h.hosts_eq, List.map_map]
          rfl

/-- **A replay serves what was recorded.** Of any files that `save` has written, whatever
servers they come from: `replayshell` makes its network, and it is the one that serves the
exchanges, if and only if every recorded request has a host; otherwise it ends with an
exception. -/
theorem replay_shell_serves_iff (G : NumericHosts) (nameservers : List SockaddrIn)
    (files : List RecordFile) (xs : List Exchange)
    (hsaved : List.Forall₂ Exchange.SavedIn files xs)
    (hserver : ∀ x ∈ xs, ∃ s : SockaddrIn, x.server = s.address) :
    ((∃ network, replayShell G nameservers files = .ok network ∧ network.Serves nameservers xs) ↔
        ∀ x ∈ xs, x.host.isSome = true) ∧
      ((∃ x ∈ xs, x.host = none) → ∃ e, replayShell G nameservers files = .error e) := by
  have hhosts : ∀ network, replayShell G nameservers files = .ok network →
      ∀ x ∈ xs, x.host.isSome = true := by
    intro network hshell
    obtain ⟨c, hcollect, -⟩ := bind_eq_ok.mp hshell
    exact hosts_of_collect G hsaved hserver hcollect
  refine ⟨⟨fun ⟨network, hshell, _⟩ => hhosts network hshell, fun hhost => ?_⟩, ?_⟩
  · obtain ⟨c, hcollect, hcollects⟩ := collect_saved G hsaved hserver hhost ⟨[], [], []⟩
    exact ⟨_, by rw [replayShell, hcollect]; rfl, hcollects.serves nameservers⟩
  · rintro ⟨x, hx, hnone⟩
    cases hshell : replayShell G nameservers files with
    | error e => exact ⟨e, rfl⟩
    | ok network =>
        have hsome := hhosts network hshell x hx
        rw [hnone] at hsome
        cases hsome

/-- A recorded exchange with the host `host`, from a port of 10.0.0.1. -/
def servedExchange (host : String) (port : Nat) : Exchange :=
  let x := Exchange.plain "GET / HTTP/1.1" "a"
  { x with
    server := ⟨ascii "10.0.0.1", port⟩
    response := { x.response with
      derived := ⟨{ x.response.request with headers := [⟨ascii "Host", ascii host⟩] }, none⟩ } }

theorem replay_shell_serves_iff_two :
    ∃ network, replayShell .pton [⟨⟨127, 0, 0, 1⟩, 53⟩]
        [.ofExchange (servedExchange "a.com" 80), .ofExchange (servedExchange "b.com" 443)]
          = .ok network ∧
      network.Serves [⟨⟨127, 0, 0, 1⟩, 53⟩]
        [servedExchange "a.com" 80, servedExchange "b.com" 443] := by
  refine (replay_shell_serves_iff .pton [⟨⟨127, 0, 0, 1⟩, 53⟩]
    [.ofExchange (servedExchange "a.com" 80), .ofExchange (servedExchange "b.com" 443)]
    [servedExchange "a.com" 80, servedExchange "b.com" 443]
    (.cons ⟨_, rfl, rfl, rfl⟩ (.cons ⟨_, rfl, rfl, rfl⟩ .nil)) fun x hx => ?_).1.mpr
    (by decide +kernel)
  rcases List.mem_pair.mp hx with rfl | rfl
  · exact ⟨⟨⟨10, 0, 0, 1⟩, 80⟩, by decide +kernel⟩
  · exact ⟨⟨⟨10, 0, 0, 1⟩, 443⟩, by decide +kernel⟩

end Mahimahi
