/-
# `LightningNode.Node.StartupArgs` — the command line and the RPC credentials

`args.rs`.  The arguments after the program's name, in order:

    [user:password@]host:port   storage path   [port]   [network]   [name addr*]

Where the first has no credentials they are looked for in the environment, in a
`.env` file and in bitcoind's cookie file.  `SocketAddress::from_str` is a
parameter, and so is what the operating system has to say: `Env`.
-/
import LightningNode.HexUtils
import LightningNode.Lib.Text
import Mathlib.Data.List.GetD

namespace LightningNode

open Conc Text

namespace StartupArgs

/-- How the parser ends without a configuration: `Err(())`, or a panic. -/
inductive Stop where
  | err
  | panicked
  deriving DecidableEq

abbrev Startup := Except Stop

/-- The networks `args.rs` tells apart. -/
inductive Network where
  | bitcoin
  | testnet
  | regtest
  | signet
  deriving DecidableEq

structure LdkUserInfo (A : Type) where
  bitcoindRpcUsername : String
  bitcoindRpcPassword : String
  bitcoindRpcHost : String
  bitcoindRpcPort : UInt16
  ldkStorageDirPath : String
  ldkPeerListeningPort : UInt16
  ldkAnnouncedListenAddr : List A
  ldkAnnouncedNodeName : Vector UInt8 32
  network : Network
  deriving DecidableEq

/-- What the operating system answers: `env::var(..).ok()`, `env::home_dir()` and
`fs::read_to_string(..).ok()`. -/
structure Env where
  var : String → Option String
  homeDir : Option String
  readToString : String → Option String

/-- `parse::<u16>()` -/
def parseU16 (s : String) : Option UInt16 := (parseUnsigned UInt16.size s).map UInt16.ofNat

/-- `bytes[..s.len()].copy_from_slice(s.as_bytes())`, where `bytes` was zero. -/
def copyFromSlice (s : String) : Vector UInt8 32 :=
  .ofFn fun i => (utf8 s).getD i 0

variable {A : Type} (socketAddr : String → Option A) (env : Env)

/-- `get_config_info` -/
def getConfigInfo : Startup (LdkUserInfo A) :=
  match socketAddr "0.0.0.0:9733" with
  | none => .error .panicked
  | some addr => .ok
      { bitcoindRpcUsername := "polaruser"
        bitcoindRpcPassword := "polarpass"
        bitcoindRpcHost := "lightning.ngrok.app"
        bitcoindRpcPort := 80
        ldkStorageDirPath := "./"
        ldkPeerListeningPort := 9733
        ldkAnnouncedListenAddr := [addr]
        ldkAnnouncedNodeName := copyFromSlice "Programming Lightning Workshop"
        network := .regtest }

/-! ## Credentials; a `Result<_, ()>` is an `Option` -/

/-- `parse_rpc_auth` -/
def parseRpcAuth (rpcAuth : String) : Option (String × String) :=
  match split ':' rpcAuth with
  | [username, password] => some (username, password)
  | _ => none

/-- `Path::join` -/
def joinPath (dir path : String) : String :=
  if path.toList.head? = some '/' then path
  else if dir = "" ∨ dir.toList.getLast? = some '/' then dir ++ path
  else dir ++ "/" ++ path

def defaultBitcoinDatadir : String := ".bitcoin"

/-- `get_cookie_path` -/
def getCookiePath (dataDir : Option (String × Bool)) (network : Option Network)
    (cookieFileName : Option String) : Option String :=
  let dataDirPath := match dataDir with
    | some (dir, true) => env.homeDir.map (joinPath · dir)
    | some (dir, false) => some dir
    | none => env.homeDir.map (joinPath · defaultBitcoinDatadir)
  let withNet := match network with
    | some .testnet => dataDirPath.map (joinPath · "testnet3")
    | some .regtest => dataDirPath.map (joinPath · "regtest")
    | some .signet => dataDirPath.map (joinPath · "signet")
    | _ => dataDirPath
  withNet.map (joinPath · (cookieFileName.getD ".cookie"))

/-- `get_rpc_auth_from_cookie` -/
def getRpcAuthFromCookie (dataDir : Option (String × Bool)) (network : Option Network)
    (cookieFileName : Option String) : Option (String × String) := do
  let cookiePath ← getCookiePath env dataDir network cookieFileName
  let cookieContents ← env.readToString cookiePath
  parseRpcAuth cookieContents

/-- `get_rpc_auth_from_env_vars` -/
def getRpcAuthFromEnvVars : Option (String × String) :=
  match env.var "RPC_USER", env.var "RPC_PASSWORD" with
  | some username, some password => some (username, password)
  | _, _ => none

/-- The loop of `parse_env_file`; a later line replaces an earlier one. -/
def parseEnvLines : List String → (String → Option String) → Option (String → Option String)
  | [], map => some map
  | line :: lines, map =>
      match splitn2 '=' line with
      | [key, value] => parseEnvLines lines fun k => if k = key then some value else map k
      | _ => none

/-- `parse_env_file` -/
def parseEnvFile (envFileName : Option String) : Option (String → Option String) := do
  let contents ← env.readToString (envFileName.getD ".env")
  parseEnvLines (lines contents) fun _ => none

/-- `get_rpc_auth_from_env_file` -/
def getRpcAuthFromEnvFile (envFileName : Option String) : Option (String × String) := do
  let map ← parseEnvFile env envFileName
  match map "RPC_USER", map "RPC_PASSWORD" with
  | some username, some password => some (username, password)
  | _, _ => none

/-! ## The arguments -/

/-- Lines 57 to 63: host and port; a bad port panics. -/
def rpcPath (hostPort : String) : Startup (String × UInt16) :=
  match split ':' hostPort with
  | [host, port] =>
      match parseU16 port with
      | some port => .ok (host, port)
      | none => .error .panicked
  | _ => .error .err

/-- Lines 67 to 82: the listening port, and `arg_idx`. -/
def peerListeningPort (args : List String) : UInt16 × Nat :=
  match args[3]? with
  | some p =>
      match parseU16 p with
      | some port => (port, 4)
      | none => (9735, 3)
  | none => (9735, 3)

/-- Lines 83 to 91. -/
def networkArg (args : List String) (argIdx : Nat) : Startup Network :=
  match args[argIdx]? with
  | some net =>
      if net = "testnet" then .ok .testnet
      else if net = "regtest" then .ok .regtest
      else if net = "signet" then .ok .signet
      else .error .panicked
  | none => .ok .testnet

/-- Lines 93 to 107, of the parts of the first argument. -/
def rpcAuth (parts : List String) (network : Network) : Startup (String × String) :=
  let auth := match parts with
    | [_] =>
        (getRpcAuthFromEnvVars env).or
          ((getRpcAuthFromEnvFile env none).or (getRpcAuthFromCookie env none (some network) none))
    | [_, auth] => parseRpcAuth auth
    | _ => none
  match auth with
  | some auth => .ok auth
  | none => .error .err

/-- Lines 109 to 120: the name, and `arg_idx`. -/
def nodeName (args : List String) (argIdx : Nat) : Startup (Vector UInt8 32 × Nat) :=
  match args[argIdx + 1]? with
  | some s =>
      if s.utf8ByteSize > 32 then .error .panicked
      else .ok (copyFromSlice s, argIdx + 1)
  | none => .ok (Vector.replicate 32 0, argIdx)

/-- The loop of lines 122 to 134. -/
def listenAddrs (args : List String) (argIdx : Nat) : Startup (List A) :=
  match _h : args[argIdx + 1]? with
  | some s =>
      match socketAddr s with
      | some sa => (listenAddrs args (argIdx + 1)).map (sa :: ·)
      | none => .error .panicked
  | none => .ok []
termination_by args.length - argIdx
decreasing_by
  obtain ⟨hlt, _⟩ := List.getElem?_eq_some_iff.mp _h
  omega

/-- `parse_startup_args` from line 54 on, with the first two arguments taken. -/
def parseArgs (args : List String) (bitcoindRpcInfo ldkStorageDirPath : String) :
    Startup (LdkUserInfo A) := do
  let parts := rsplitn2 '@' bitcoindRpcInfo
  let (host, rpcPort) ← rpcPath (parts.headD "")
  let (port, argIdx) := peerListeningPort args
  let network ← networkArg args argIdx
  let (username, password) ← rpcAuth env parts network
  let (name, argIdx) ← nodeName args argIdx
  let addrs ← listenAddrs socketAddr args argIdx
  return {
    bitcoindRpcUsername := username
    bitcoindRpcPassword := password
    bitcoindRpcHost := host
    bitcoindRpcPort := rpcPort
    ldkStorageDirPath := ldkStorageDirPath
    ldkPeerListeningPort := port
    ldkAnnouncedListenAddr := addrs
    ldkAnnouncedNodeName := name
    network := network }

/-- `parse_startup_args` -/
def parseStartupArgs (args : List String) : Startup (LdkUserInfo A) :=
  if args[1]? = some "workshop" then getConfigInfo socketAddr
  else
    match args with
    | _ :: bitcoindRpcInfo :: ldkStorageDirPath :: _ =>
        parseArgs socketAddr env args bitcoindRpcInfo ldkStorageDirPath
    | _ => .error .err

/-! ## Configurations, and how they are written down -/

/-- The word a network is given by; `bitcoin` has none. -/
def Network.word : Network → String
  | .bitcoin => "bitcoin"
  | .testnet => "testnet"
  | .regtest => "regtest"
  | .signet => "signet"

structure NodeName where
  text : String
  short : text.utf8ByteSize ≤ 32

structure ListenAddr (socketAddr : String → Option A) where
  text : String
  addr : A
  accepted : socketAddr text = some addr

/-- All but the credentials.  A name comes after a network only, and addresses
after a name. -/
structure NodeArgs (socketAddr : String → Option A) where
  host : String
  host_colon : ':' ∉ host.toList
  host_at : '@' ∉ host.toList
  rpcPort : UInt16
  storagePath : String
  listeningPort : Option UInt16
  rest : Option ({net : Network // net ≠ .bitcoin} ×
    Option (NodeName × List (ListenAddr socketAddr)))

/-- The bytes of a name and zeros after them. -/
def NodeName.padded (name : NodeName) : Vector UInt8 32 where
  toArray := (utf8 name.text ++ List.replicate (32 - name.text.utf8ByteSize) 0).toArray
  size_toArray := by
    have h := name.short
    simp only [List.size_toArray, List.length_append, length_utf8, List.length_replicate]
    omega

namespace NodeArgs

variable {socketAddr} (a : NodeArgs socketAddr)

def hostPort : String := a.host ++ .singleton ':' ++ a.rpcPort.toNat.repr

def restWords : List String :=
  match a.rest with
  | none => []
  | some (net, none) => [net.1.word]
  | some (net, some (name, addrs)) => net.1.word :: name.text :: addrs.map (·.text)

/-- The arguments after the first one. -/
def words : List String :=
  a.storagePath :: (a.listeningPort.toList.map (·.toNat.repr) ++ a.restWords)

def network : Network :=
  match a.rest with
  | none => .testnet
  | some (net, _) => net.1

def named : Option (NodeName × List (ListenAddr socketAddr)) := a.rest.bind (·.2)

/-- The configuration that is meant, with the credentials. -/
def info (username password : String) : LdkUserInfo A where
  bitcoindRpcUsername := username
  bitcoindRpcPassword := password
  bitcoindRpcHost := a.host
  bitcoindRpcPort := a.rpcPort
  ldkStorageDirPath := a.storagePath
  ldkPeerListeningPort := a.listeningPort.getD 9735
  ldkAnnouncedListenAddr := a.named.elim [] (·.2.map (·.addr))
  ldkAnnouncedNodeName := a.named.elim (Vector.replicate 32 0) (·.1.padded)
  network := a.network

end NodeArgs

/-! ### Each part is read back -/

variable {socketAddr}

@[simp] theorem parseU16_repr (p : UInt16) : parseU16 p.toNat.repr = some p := by
  rw [parseU16, parseUnsigned_repr p.toNat_lt]
  simp

theorem repr_no_char {n : Nat} {c : Char} (h : c.isDigit = false) : c ∉ n.repr.toList := by
  rw [Nat.toList_repr]
  intro hc
  have hd := Nat.isDigit_of_mem_toDigits (by decide) (by decide) hc
  exact Bool.false_ne_true (h.symm.trans hd)

theorem rpcPath_hostPort (a : NodeArgs socketAddr) : rpcPath a.hostPort = .ok (a.host, a.rpcPort) := by
  rw [rpcPath, NodeArgs.hostPort, split_two a.host_colon (repr_no_char (by decide))]
  simp only [parseU16_repr]

theorem hostPort_no_at (a : NodeArgs socketAddr) : '@' ∉ a.hostPort.toList := by
  have hp : '@' ∉ a.rpcPort.toNat.repr.toList := repr_no_char (by decide)
  rw [NodeArgs.hostPort, String.toList_append, String.toList_append]
  simp only [List.mem_append, not_or]
  exact ⟨⟨a.host_at, by decide⟩, hp⟩

theorem copyFromSlice_eq (name : NodeName) : copyFromSlice name.text = name.padded := by
  refine Vector.ext fun i hi => ?_
  have hlen := length_utf8 name.text
  simp only [copyFromSlice, NodeName.padded, Vector.getElem_ofFn, Vector.getElem_mk,
    List.getElem_toArray]
  by_cases h : i < (utf8 name.text).length
  · rw [List.getElem_append_left h, List.getD_eq_getElem _ _ h]
  · rw [List.getElem_append_right (by omega), List.getElem_replicate,
      List.getD_eq_default _ _ (by omega)]

/-- The arguments from `i` on. -/
theorem getElem?_of_drop {args ws : List String} {i : Nat} (h : args.drop i = ws) (k : Nat) :
    args[i + k]? = ws[k]? := by
  rw [← h, List.getElem?_drop]

theorem listenAddrs_ok {args : List String} (addrs : List (ListenAddr socketAddr)) :
    ∀ {i}, args.drop (i + 1) = addrs.map (·.text) →
      listenAddrs socketAddr args i = .ok (addrs.map (·.addr)) := by
  induction addrs with
  | nil =>
      intro i h
      have hi : args[i + 1]? = none := getElem?_of_drop h 0
      rw [listenAddrs]
      split
      · rename_i s hs
        rw [hi] at hs
        cases hs
      · rfl
  | cons x xs ih =>
      intro i h
      have hi : args[i + 1]? = some x.text := getElem?_of_drop h 0
      have hrest : args.drop (i + 1 + 1) = xs.map (·.text) := by
        rw [← List.drop_drop, h, List.map_cons, List.drop_one, List.tail_cons]
      rw [listenAddrs]
      split
      · rename_i s hs
        obtain rfl := Option.some.inj (hi.symm.trans hs)
        simp only [x.accepted, ih hrest]
        rfl
      · rename_i hs
        rw [hi] at hs
        cases hs

/-- A network is not taken for a port. -/
theorem parseU16_word (net : Network) : parseU16 net.word = none := by
  cases net <;> decide

/-- The position of the network, past the program, the first two arguments and
the port if there is one. -/
def NodeArgs.networkIdx (a : NodeArgs socketAddr) : Nat := 3 + a.listeningPort.toList.length

variable (a : NodeArgs socketAddr) (program rpcInfo : String)

theorem drop_networkIdx : (program :: rpcInfo :: a.words).drop a.networkIdx = a.restWords := by
  rw [NodeArgs.words, NodeArgs.networkIdx]
  cases a.listeningPort with
  | none => rfl
  | some p => rfl

theorem peerListeningPort_words :
    peerListeningPort (program :: rpcInfo :: a.words) =
      (a.listeningPort.getD 9735, a.networkIdx) := by
  rw [peerListeningPort, NodeArgs.networkIdx, NodeArgs.words]
  cases a.listeningPort with
  | some p => simp
  | none =>
      rw [NodeArgs.restWords]
      match a.rest with
      | none => rfl
      | some (net, none) => simp [parseU16_word]
      | some (net, some (name, addrs)) => simp [parseU16_word]

theorem networkArg_word (net : Network) (h : net ≠ .bitcoin) (args : List String) (i : Nat)
    (hi : args[i]? = some net.word) : networkArg args i = .ok net := by
  rw [networkArg, hi]
  cases net with
  | bitcoin => exact absurd rfl h
  | testnet => rfl
  | regtest => rfl
  | signet => rfl

/-- The network, the name and the addresses, from the position of the network. -/
theorem rest_ok {args : List String} {i : Nat} (h : args.drop i = a.restWords) :
    networkArg args i = .ok a.network ∧
    ∃ j, nodeName args i = .ok (a.named.elim (Vector.replicate 32 0) (·.1.padded), j) ∧
      listenAddrs socketAddr args j = .ok (a.named.elim [] (·.2.map (·.addr))) := by
  have hword := getElem?_of_drop h
  rw [NodeArgs.network, NodeArgs.named]
  rw [NodeArgs.restWords] at h hword
  match hrest : a.rest with
  | none =>
      rw [hrest] at h hword
      refine ⟨by rw [networkArg, show args[i]? = none from hword 0], i, ?_, ?_⟩
      · rw [nodeName, show args[i + 1]? = none from hword 1]
        rfl
      · refine listenAddrs_ok [] ?_
        rw [← List.drop_drop, h]
        rfl
  | some (net, none) =>
      rw [hrest] at h hword
      refine ⟨networkArg_word _ net.2 _ _ (hword 0), i, ?_, ?_⟩
      · rw [nodeName, show args[i + 1]? = none from hword 1]
        rfl
      · refine listenAddrs_ok [] ?_
        rw [← List.drop_drop, h]
        rfl
  | some (net, some (name, addrs)) =>
      rw [hrest] at h hword
      refine ⟨networkArg_word _ net.2 _ _ (hword 0), i + 1, ?_, ?_⟩
      · have hshort : ¬ name.text.utf8ByteSize > 32 := by
          have := name.short
          omega
        rw [nodeName, show args[i + 1]? = some name.text from hword 1]
        simp only [if_neg hshort, copyFromSlice_eq]
        rfl
      · refine listenAddrs_ok addrs ?_
        rw [Nat.add_assoc, ← List.drop_drop, h]
        rfl

@[simp] theorem ok_bind {α β : Type} (x : α) (f : α → Startup β) : (Except.ok x >>= f) = f x := rfl

/-- Whatever the first argument gives as credentials, all else is read back. -/
theorem parse_render (env : Env) {auth : List String}
    (hparts : rsplitn2 '@' rpcInfo = a.hostPort :: auth) (hinfo : rpcInfo ≠ "workshop") :
    parseStartupArgs socketAddr env (program :: rpcInfo :: a.words) =
      (rpcAuth env (a.hostPort :: auth) a.network).map fun c => a.info c.1 c.2 := by
  obtain ⟨hnet, j, hname, haddrs⟩ := rest_ok a (drop_networkIdx a program rpcInfo)
  have hwork : ¬ (program :: rpcInfo :: a.words)[1]? = some "workshop" :=
    fun h => hinfo (Option.some.inj h)
  have hargs : parseStartupArgs socketAddr env (program :: rpcInfo :: a.words) =
      parseArgs socketAddr env (program :: rpcInfo :: a.words) rpcInfo a.storagePath :=
    if_neg hwork
  rw [hargs, parseArgs, hparts, List.headD_cons, rpcPath_hostPort, peerListeningPort_words]
  simp only [ok_bind, hnet]
  cases rpcAuth env (a.hostPort :: auth) a.network with
  | error e => rfl
  | ok c =>
    simp only [ok_bind, hname, haddrs]
    rfl

/-! ## The grammar -/

/-- `user:password` -/
def credentials (username password : String) : String := username ++ .singleton ':' ++ password

/-- The first argument with credentials in it. -/
def NodeArgs.rpcUrl (username password : String) : String :=
  credentials username password ++ .singleton '@' ++ a.hostPort

theorem rsplitn2_rpcUrl (username password : String) :
    rsplitn2 '@' (a.rpcUrl username password) = [a.hostPort, credentials username password] :=
  rsplitn2_two (hostPort_no_at a)

theorem ne_workshop_of_colon {s : String} (h : ':' ∈ s.toList) : s ≠ "workshop" := by
  rintro rfl
  exact absurd h (by decide)

theorem hostPort_ne_workshop : a.hostPort ≠ "workshop" :=
  ne_workshop_of_colon (by simp [NodeArgs.hostPort])

theorem rpcUrl_ne_workshop (username password : String) :
    a.rpcUrl username password ≠ "workshop" :=
  ne_workshop_of_colon (by simp [NodeArgs.rpcUrl, credentials])

theorem parseRpcAuth_credentials {username password : String} (hu : ':' ∉ username.toList)
    (hp : ':' ∉ password.toList) :
    parseRpcAuth (credentials username password) = some (username, password) := by
  rw [parseRpcAuth, credentials, split_two hu hp]

/-- A colon in the password is one too many. -/
theorem parseRpcAuth_colon {username password : String} (hp : ':' ∈ password.toList) :
    parseRpcAuth (credentials username password) = none := by
  have hlen := length_split_ne_two (s := username) hp
  unfold parseRpcAuth credentials
  split
  · rename_i u p heq
    rw [heq] at hlen
    exact absurd rfl hlen
  · rfl

/-- Arguments written in the documented order are read back as the configuration
they were written from. -/
theorem startup_args_read_back (a : NodeArgs socketAddr) (env : Env)
    (program username password : String) (hu : ':' ∉ username.toList)
    (hp : ':' ∉ password.toList) :
    parseStartupArgs socketAddr env (program :: a.rpcUrl username password :: a.words) =
      .ok (a.info username password) := by
  rw [parse_render a _ _ env (rsplitn2_rpcUrl a _ _) (rpcUrl_ne_workshop a _ _), rpcAuth]
  simp only [parseRpcAuth_credentials hu hp]
  rfl

/-- Addresses are kept as they are written. -/
def anyAddr : String → Option String := some

/-- All arguments given. -/
def fullArgs : NodeArgs anyAddr where
  host := "127.0.0.1"
  host_colon := by decide
  host_at := by decide
  rpcPort := 18443
  storagePath := "/data"
  listeningPort := some 9736
  rest := some (⟨.regtest, by decide⟩, some (⟨"node", by decide⟩,
    [⟨"1.2.3.4:9736", _, rfl⟩, ⟨"5.6.7.8:9736", _, rfl⟩]))

theorem startup_args_read_back_all :
    parseStartupArgs anyAddr ⟨fun _ => none, none, fun _ => none⟩
      ["ldk", "u@x:p@x@127.0.0.1:18443", "/data", "9736", "regtest", "node", "1.2.3.4:9736",
        "5.6.7.8:9736"] = .ok (fullArgs.info "u@x" "p@x") :=
  startup_args_read_back fullArgs ⟨fun _ => none, none, fun _ => none⟩ "ldk" "u@x" "p@x"
    (by decide) (by decide)

/-! ## Four ways to give the credentials -/

/-- A `.env` file: one `key=value` a line. -/
structure EnvFile where
  entries : List (String × String)
  keys_ok : ∀ e ∈ entries, '=' ∉ e.1.toList ∧ OneLine e.1
  values_ok : ∀ e ∈ entries, OneLine e.2

namespace EnvFile

def line (e : String × String) : String := e.1 ++ .singleton '=' ++ e.2

def contents (f : EnvFile) : String := String.join ((f.entries.map line).map (· ++ "\n"))

/-- The value the file gives for a key: that of the last line of the key. -/
def value (f : EnvFile) (key : String) : Option String :=
  (f.entries.reverse.find? (·.1 = key)).map (·.2)

end EnvFile

/-- A user name without `:`, `@` and line terminators, and a password without
line terminators. -/
structure Credentials where
  username : String
  password : String
  username_ne : username ≠ ""
  username_ok : ':' ∉ username.toList ∧ '@' ∉ username.toList ∧ OneLine username
  password_ne : password ≠ ""
  password_ok : OneLine password

/-- The environment variables do not give credentials. -/
def Env.NoVars (env : Env) : Prop := env.var "RPC_USER" = none ∨ env.var "RPC_PASSWORD" = none

/-- Each of the four ways, given alone, has the parser use the credentials `c`. -/
structure WaysAgree (a : NodeArgs socketAddr) (program : String) (c : Credentials) : Prop where
  url : ∀ env, parseStartupArgs socketAddr env
      (program :: a.rpcUrl c.username c.password :: a.words) = .ok (a.info c.username c.password)
  envVars : ∀ env, env.var "RPC_USER" = some c.username →
    env.var "RPC_PASSWORD" = some c.password →
    parseStartupArgs socketAddr env (program :: a.hostPort :: a.words) =
      .ok (a.info c.username c.password)
  envFile : ∀ env (f : EnvFile), env.NoVars → env.readToString ".env" = some f.contents →
    f.value "RPC_USER" = some c.username → f.value "RPC_PASSWORD" = some c.password →
    parseStartupArgs socketAddr env (program :: a.hostPort :: a.words) =
      .ok (a.info c.username c.password)
  cookie : ∀ env path, env.NoVars → env.readToString ".env" = none →
    getCookiePath env none (some a.network) none = some path →
    env.readToString path = some (credentials c.username c.password) →
    parseStartupArgs socketAddr env (program :: a.hostPort :: a.words) =
      .ok (a.info c.username c.password)

/-- The lines are read into the map from the last one's point of view. -/
theorem parseEnvLines_entries (entries : List (String × String)) :
    ∀ map, (∀ e ∈ entries, '=' ∉ e.1.toList) →
      parseEnvLines (entries.map EnvFile.line) map = some fun k =>
        ((entries.reverse.find? (·.1 = k)).map (·.2)).or (map k) := by
  induction entries with
  | nil => exact fun map _ => rfl
  | cons e es ih =>
      intro map h
      obtain ⟨he, hes⟩ := List.forall_mem_cons.mp h
      rw [List.map_cons, parseEnvLines, EnvFile.line, splitn2_two he]
      simp only [ih _ hes, List.reverse_cons, List.find?_append]
      congr 1
      funext k
      cases es.reverse.find? (·.1 = k) with
      | some x => rfl
      | none =>
          by_cases hk : e.1 = k
          · simp [hk]
          · simp [hk, Ne.symm hk]

theorem getRpcAuthFromEnvFile_contents {env : Env} {f : EnvFile} {username password : String}
    (hfile : env.readToString ".env" = some f.contents) (hu : f.value "RPC_USER" = some username)
    (hp : f.value "RPC_PASSWORD" = some password) :
    getRpcAuthFromEnvFile env none = some (username, password) := by
  have hlines : lines f.contents = f.entries.map EnvFile.line := by
    refine lines_join _ fun l hl => ?_
    obtain ⟨e, he, rfl⟩ := List.mem_map.mp hl
    have hk := (f.keys_ok e he).2
    have hv := f.values_ok e he
    simp [OneLine, EnvFile.line, hk.1, hk.2, hv.1, hv.2]
  have hmap : parseEnvFile env none = some fun k => (f.value k).or none := by
    rw [parseEnvFile, Option.getD_none, hfile]
    show parseEnvLines (lines f.contents) _ = _
    rw [hlines, parseEnvLines_entries _ _ fun e he => (f.keys_ok e he).1]
    rfl
  rw [getRpcAuthFromEnvFile, hmap]
  simp [hu, hp]

theorem getRpcAuthFromEnvVars_none {env : Env} (h : env.NoVars) :
    getRpcAuthFromEnvVars env = none := by
  unfold getRpcAuthFromEnvVars
  obtain h | h := h
  · rw [h]
  · rw [h]
    cases env.var "RPC_USER" <;> rfl

/-- Without credentials in the first argument, those found elsewhere are used. -/
theorem parse_hostPort (a : NodeArgs socketAddr) (program : String) (env : Env)
    {username password : String}
    (h : (getRpcAuthFromEnvVars env).or ((getRpcAuthFromEnvFile env none).or
      (getRpcAuthFromCookie env none (some a.network) none)) = some (username, password)) :
    parseStartupArgs socketAddr env (program :: a.hostPort :: a.words) =
      .ok (a.info username password) := by
  rw [parse_render a _ _ env (rsplitn2_one (hostPort_no_at a)) (hostPort_ne_workshop a), rpcAuth]
  simp only [h]
  rfl

/-- In the first argument a password with a colon is refused. -/
theorem url_refused (a : NodeArgs socketAddr) (program : String) (env : Env)
    {username password : String} (hp : ':' ∈ password.toList) :
    parseStartupArgs socketAddr env (program :: a.rpcUrl username password :: a.words) =
      .error .err := by
  rw [parse_render a _ _ env (rsplitn2_rpcUrl a _ _) (rpcUrl_ne_workshop a _ _), rpcAuth]
  simp only [parseRpcAuth_colon hp]
  rfl

/-- The four ways agree exactly on the passwords without a colon. -/
theorem ways_agree_iff (a : NodeArgs socketAddr) (program : String) (c : Credentials) :
    WaysAgree a program c ↔ ':' ∉ c.password.toList := by
  constructor
  · intro h hcolon
    have hurl := h.url ⟨fun _ => none, none, fun _ => none⟩
    rw [url_refused a program _ hcolon] at hurl
    cases hurl
  · intro hp
    have hauth := parseRpcAuth_credentials c.username_ok.1 hp
    refine ⟨?_, ?_, ?_, ?_⟩
    · intro env
      exact startup_args_read_back a env program _ _ c.username_ok.1 hp
    · intro env hu hpw
      refine parse_hostPort a program env ?_
      simp [getRpcAuthFromEnvVars, hu, hpw]
    · intro env f hno hfile hu hpw
      refine parse_hostPort a program env ?_
      rw [getRpcAuthFromEnvVars_none hno, getRpcAuthFromEnvFile_contents hfile hu hpw]
      rfl
    · intro env path hno hfile hpath hcookie
      refine parse_hostPort a program env ?_
      have hnone : getRpcAuthFromEnvFile env none = none := by
        rw [getRpcAuthFromEnvFile, parseEnvFile, Option.getD_none, hfile]
        rfl
      rw [getRpcAuthFromEnvVars_none hno, hnone, getRpcAuthFromCookie, hpath]
      show env.readToString path >>= _ = _
      rw [hcookie]
      exact hauth

/-- A password as `rpcauth` may well have it. -/
def withColon : Credentials :=
  ⟨"alice", "pa:ss", by decide, by decide, by decide, by decide⟩

/-- The first argument is refused, where the environment variables would do. -/
theorem colon_in_password : ¬ WaysAgree fullArgs "ldk" withColon := by
  intro h
  have hurl := h.url ⟨fun _ => none, none, fun _ => none⟩
  rw [url_refused fullArgs "ldk" _ (by decide)] at hurl
  cases hurl

end StartupArgs

end LightningNode
