import SakhtarWg.Iptables
import SakhtarWg.Fallible

/-!
# The firewall compiler

Gateway policy and egress guard as application-owned chains. Rule bodies are the
texts handed to `iptables-restore`.
-/

namespace SakhtarWg.Firewall
open Text Netip Fallible

def ownerComment : String := "sakhtar-wg:owned:v1"

def filterChain : String := "SAKHTAR_WG_FORWARD"
def natChain : String := "SAKHTAR_WG_POSTROUTING"
def mangleChain : String := "SAKHTAR_WG_FORWARD"
def outputChain : String := "SAKHTAR_WG_OUTPUT"

structure TunnelPolicy where
  interface : String
  destinations : List String
  deriving DecidableEq

structure Policy where
  clientCIDRs : List String
  tunnels : List TunnelPolicy
  deriving DecidableEq

structure Chain where
  table : String
  hook : String
  name : String
  comment : String
  rules : List String
  deriving DecidableEq

structure Ruleset where
  chains : List Chain
  deriving DecidableEq

def validInterface (name : String) : Except String Unit :=
  require (name ≠ "" && !containsAny name [' ', '\t', '\r', '\n', '"', '\''])
    ("invalid interface name " ++ quote name)

/-- The set of masked prefixes, in ascending text order. -/
def canonicalPrefixes (raw : List String) : Except String (List String) := do
  let set ← raw.foldlM insertPrefix []
  return sortStrings set
where
  insertPrefix (set : List String) (item : String) : Except String (List String) :=
    match parsePrefix item with
    | some p => do
      require p.addr.is4 (quote item ++ " is not an IPv4 prefix")
      return set.insert p.masked.string
    | none => .error (quote item ++ " is not an IPv4 prefix")

/-! ## Rule texts -/

def owner : String := "-m comment --comment " ++ ownerComment

def forwardRule (client destination iface : String) : String :=
  "-s " ++ client ++ " -d " ++ destination ++ " -o " ++ iface ++ " " ++ owner ++ " -j ACCEPT"

def returnRule (client destination iface : String) : String :=
  "-s " ++ destination ++ " -d " ++ client ++ " -i " ++ iface ++
    " -m conntrack --ctstate RELATED,ESTABLISHED " ++ owner ++ " -j ACCEPT"

def masqueradeRule (client destination iface : String) : String :=
  "-s " ++ client ++ " -d " ++ destination ++ " -o " ++ iface ++ " " ++ owner ++ " -j MASQUERADE"

def clampRule (client destination iface : String) : String :=
  "-s " ++ client ++ " -d " ++ destination ++ " -o " ++ iface ++
    " -p tcp -m tcp --tcp-flags SYN,RST SYN " ++ owner ++ " -j TCPMSS --clamp-mss-to-pmtu"

def sourceDropRule (client : String) : String := "-s " ++ client ++ " " ++ owner ++ " -j DROP"

def targetDropRule (client : String) : String := "-d " ++ client ++ " " ++ owner ++ " -j DROP"

def destinationDropRule (destination iface : String) : String :=
  "-d " ++ destination ++ " -o " ++ iface ++ " -m comment --comment " ++ ownerComment ++ " -j DROP"

/-! ## Rule texts by word -/

theorem forwardRule_eq (c d i : String) : forwardRule c d i = unwords ["-s", c, "-d", d, "-o", i,
    "-m", "comment", "--comment", ownerComment, "-j", "ACCEPT"] := by
  apply String.toList_inj.mp
  unfold forwardRule owner
  simp only [String.toList_append, unwords_toList_cons, unwords_toList_singleton]
  simp

theorem returnRule_eq (c d i : String) : returnRule c d i = unwords ["-s", d, "-d", c, "-i", i,
    "-m", "conntrack", "--ctstate", "RELATED,ESTABLISHED", "-m", "comment", "--comment",
    ownerComment, "-j", "ACCEPT"] := by
  apply String.toList_inj.mp
  unfold returnRule owner
  simp only [String.toList_append, unwords_toList_cons, unwords_toList_singleton]
  simp

theorem masqueradeRule_eq (c d i : String) : masqueradeRule c d i = unwords ["-s", c, "-d", d,
    "-o", i, "-m", "comment", "--comment", ownerComment, "-j", "MASQUERADE"] := by
  apply String.toList_inj.mp
  unfold masqueradeRule owner
  simp only [String.toList_append, unwords_toList_cons, unwords_toList_singleton]
  simp

theorem clampRule_eq (c d i : String) : clampRule c d i = unwords ["-s", c, "-d", d, "-o", i,
    "-p", "tcp", "-m", "tcp", "--tcp-flags", "SYN,RST", "SYN", "-m", "comment", "--comment",
    ownerComment, "-j", "TCPMSS", "--clamp-mss-to-pmtu"] := by
  apply String.toList_inj.mp
  unfold clampRule owner
  simp only [String.toList_append, unwords_toList_cons, unwords_toList_singleton]
  simp

theorem sourceDropRule_eq (c : String) : sourceDropRule c =
    unwords ["-s", c, "-m", "comment", "--comment", ownerComment, "-j", "DROP"] := by
  apply String.toList_inj.mp
  unfold sourceDropRule owner
  simp only [String.toList_append, unwords_toList_cons, unwords_toList_singleton]
  simp

theorem targetDropRule_eq (c : String) : targetDropRule c =
    unwords ["-d", c, "-m", "comment", "--comment", ownerComment, "-j", "DROP"] := by
  apply String.toList_inj.mp
  unfold targetDropRule owner
  simp only [String.toList_append, unwords_toList_cons, unwords_toList_singleton]
  simp

theorem destinationDropRule_eq (d i : String) : destinationDropRule d i =
    unwords ["-d", d, "-o", i, "-m", "comment", "--comment", ownerComment, "-j", "DROP"] := by
  apply String.toList_inj.mp
  unfold destinationDropRule
  simp only [String.toList_append, unwords_toList_cons, unwords_toList_singleton]
  simp

/-! ## Compile -/

/-- The accumulators of the loop over tunnels. -/
structure Build where
  filter : List String
  nat : List String
  mangle : List String
  seenInterface : List String
  destinationOwners : List (Prefix × String)
  destinationDrops : List String

def Build.empty : Build := ⟨[], [], [], [], [], []⟩

/-- One destination of a tunnel: it may not overlap a destination of another one. -/
def Build.claim (iface : String) (b : Build) (destination : String) : Except String Build :=
  match parsePrefix destination with
  -- `MustParsePrefix` panics here; canonical texts always parse
  | none => .error ("netip.ParsePrefix(" ++ quote destination ++ "): unable to parse")
  | some p =>
    match b.destinationOwners.find? fun o => o.2 ≠ iface && o.1.overlaps p with
    | some o => .error ("destination " ++ p.string ++ " on " ++ iface ++ " overlaps " ++
        o.1.string ++ " on " ++ o.2)
    | none => .ok { b with
        destinationOwners := b.destinationOwners ++ [(p, iface)]
        destinationDrops := b.destinationDrops ++ [destinationDropRule destination iface] }

/-- One permitted client, destination and interface. -/
def Build.permit (iface : String) (b : Build) (tuple : String × String) : Build :=
  { b with
    filter := b.filter ++ [forwardRule tuple.1 tuple.2 iface, returnRule tuple.1 tuple.2 iface]
    nat := b.nat ++ [masqueradeRule tuple.1 tuple.2 iface]
    mangle := b.mangle ++ [clampRule tuple.1 tuple.2 iface] }

def Build.tunnel (clients : List String) (b : Build) (t : TunnelPolicy) :
    Except String Build := do
  validInterface t.interface
  require (t.interface ∉ b.seenInterface) ("duplicate tunnel interface " ++ quote t.interface)
  let destinations ← (canonicalPrefixes t.destinations).mapError
    fun e => "tunnel " ++ t.interface ++ " destinations: " ++ e
  let b ← destinations.foldlM (Build.claim t.interface)
    { b with seenInterface := b.seenInterface ++ [t.interface] }
  return (clients ×ˢ destinations).foldl (Build.permit t.interface) b

/-- Terminal drops follow the sorted accepts, clients first. -/
def terminalDrops (clients : List String) : List String :=
  clients.flatMap fun c => [sourceDropRule c, targetDropRule c]

def assemble (clients : List String) (b : Build) : Ruleset :=
  ⟨[⟨"filter", "FORWARD", filterChain, ownerComment ++ ":filter-forward",
      sortStrings b.filter ++ terminalDrops clients ++ sortStrings b.destinationDrops⟩,
    ⟨"nat", "POSTROUTING", natChain, ownerComment ++ ":nat-postrouting", sortStrings b.nat⟩,
    ⟨"mangle", "FORWARD", mangleChain, ownerComment ++ ":mangle-forward",
      sortStrings b.mangle⟩]⟩

def compile (policy : Policy) : Except String Ruleset := do
  let clients ← (canonicalPrefixes policy.clientCIDRs).mapError fun e => "client CIDRs: " ++ e
  let tunnels := policy.tunnels.insertionSort (·.interface ≤ ·.interface)
  let b ← tunnels.foldlM (Build.tunnel clients) Build.empty
  return assemble clients b

/-! ## The egress guard -/

/-- Sockets carrying `mark` under `mask` must leave through `interface`. -/
structure MarkGuard where
  interface : String
  mark : BitVec 32
  mask : BitVec 32
  deriving DecidableEq

/-- The mask is shown only when it is not full. -/
def markSelector (mark mask : BitVec 32) : String :=
  if mask = ~~~0#32 then hex mark.toNat else hex mark.toNat ++ "/" ++ hex mask.toNat

def loopbackRule : String := "-o lo " ++ owner ++ " -j RETURN"

def guardRule (g : MarkGuard) : String :=
  "! -o " ++ g.interface ++ " -m mark --mark " ++ markSelector g.mark g.mask ++ " " ++ owner ++
    " -j REJECT --reject-with icmp-port-unreachable"

theorem loopbackRule_eq : loopbackRule =
    unwords ["-o", "lo", "-m", "comment", "--comment", ownerComment, "-j", "RETURN"] := by
  apply String.toList_inj.mp
  unfold loopbackRule owner
  simp only [String.toList_append, unwords_toList_cons, unwords_toList_singleton]
  simp

theorem guardRule_eq (g : MarkGuard) : guardRule g = unwords ["!", "-o", g.interface, "-m", "mark",
    "--mark", markSelector g.mark g.mask, "-m", "comment", "--comment", ownerComment, "-j",
    "REJECT", "--reject-with", "icmp-port-unreachable"] := by
  apply String.toList_inj.mp
  unfold guardRule owner
  simp only [String.toList_append, unwords_toList_cons, unwords_toList_singleton]
  simp

/-- One guard, with the interface of the guard sorted just before it. -/
def appendGuard (acc : List String × Option String) (g : MarkGuard) :
    Except String (List String × Option String) := do
  validInterface g.interface
  require (acc.2 ≠ some g.interface) ("duplicate tunnel interface " ++ quote g.interface)
  require (g.mark ≠ 0 ∧ g.mask ≠ 0 ∧ g.mark &&& g.mask = g.mark)
    ("tunnel " ++ g.interface ++ ": mark " ++ hex g.mark.toNat ++ "/" ++ hex g.mask.toNat ++
      " cannot select its own traffic")
  return (acc.1 ++ [guardRule g], some g.interface)

def outputChainWith (rules : List String) : Chain :=
  ⟨"filter", "OUTPUT", outputChain, ownerComment ++ ":filter-output", rules⟩

def compileEgressGuard (guards : List MarkGuard) : Except String Chain :=
  if guards = [] then .ok (outputChainWith [])
  else do
    let sorted := guards.insertionSort (·.interface ≤ ·.interface)
    let acc ← sorted.foldlM appendGuard ([loopbackRule], none)
    return outputChainWith acc.1

/-! ## The restore transaction -/

def Chain.restoreInput (c : Chain) : String :=
  "*" ++ c.table ++ "\n" ++ ":" ++ c.name ++ " - [0:0]\n" ++ "-F " ++ c.name ++ "\n" ++
    String.join (c.rules.map fun rule => "-A " ++ c.name ++ " " ++ rule ++ "\n") ++ "COMMIT\n"

def Ruleset.restoreInput (r : Ruleset) : String := String.join (r.chains.map Chain.restoreInput)

end SakhtarWg.Firewall
