/-
# `LightningNode.Node.Reconnect` — the peers of channels are dialed again

`openchannel` appends the peer it was given to `channel_peer_data`, and once a second
the node reads that file and dials the peers of its channels that it is not connected
to.  After a restart the file is all there is to know them by.  A line is written byte
by byte: a `write_all` that fails, a crash or a round that reads in between finds a part
of it.  Whatever else happens, channels that come and go, connections that drop and
calls that fail (`reconnects`):

    the file        parts of lines, one for each append, of peers channels were opened with
    a dial          goes to the peer of a channel that was looked for and not there, at the
                    address the file had for it when it was read
    a whole round   dials each of them, once for each channel, and nobody else
    no line torn    a read gives the last address of every peer, and only a read that
                    fails makes the loop panic

The host names resolve to the same addresses as when they were typed.
-/
import LightningNode.Cli.ChannelPeerData
import LightningNode.Lib.Typestate

namespace LightningNode

open Conc Cli Text

namespace Reconnect

/-! ## Programs -/

inductive ReconnectAct (P A : Type) where
  /-- an action of a command, but `persist_channel_peer` -/
  | peer (a : PeerAct P A)
  /-- `OpenOptions::open` in `persist_channel_peer`, which has this line to write -/
  | openAppend (path peerInfo : String)
  /-- a byte of its `write_all` -/
  | write (path : String) (byte : UInt8)
  /-- `disk::read_channel_peer_data` -/
  | readChannelPeerData (path : String)
  /-- the counterparties of `connect_cm.list_channels()` -/
  | listChannels
  /-- `connect_pm.peer_by_node_id(id).is_some()` -/
  | peerByNodeId (id : P)
  /-- `stop_connect.load(..)` -/
  | stopConnect
  /-- `cli::do_connect_peer`, from its call to its answer -/
  | doConnectPeer (pubkey : P) (peerAddr : A)

abbrev ReconnectAct.Answer {P A : Type} : ReconnectAct P A → Type
  | .peer a => a.Answer
  | .readChannelPeerData _ => Except PeerDataError (PeerData P A)
  | .listChannels => List P
  | _ => Bool

abbrev ReconnectProg (P A : Type) := Prog (ReconnectAct P A) ReconnectAct.Answer

/-- How a command or a round ends: the loop goes on, or returns, or panics. -/
inductive Ending where
  | command (e : PeerEnding)
  | again
  | returned
  | panicked

section

variable {P A : Type} [DecidableEq P]

/-- `for (pubkey, peer_addr) in info.iter()` -/
def connectEach (nodeId : P) : List ((_ : P) × A) → ReconnectProg P A Unit
  | [] => .ret ()
  | ⟨pubkey, peerAddr⟩ :: info =>
      if pubkey = nodeId then
        .act (.doConnectPeer pubkey peerAddr) fun _ => connectEach nodeId info
      else connectEach nodeId info

/-- `for node_id in …`: the filter looks for a peer when the loop comes to it. -/
def reconnectEach (info : PeerData P A) : List P → ReconnectProg P A Ending
  | [] => .ret .again
  | nodeId :: channels =>
      .act (.peerByNodeId nodeId) fun there =>
        if there then reconnectEach info channels
        else .act .stopConnect fun stop =>
          if stop then .ret .returned
          else connectEach nodeId info.entries >>= fun _ => reconnectEach info channels

def peerDataPath (ldkDataDir : String) : String := ldkDataDir ++ "/channel_peer_data"

/-- One round of the loop of `start_ldk`, after a tick. -/
def reconnectRound (ldkDataDir : String) : ReconnectProg P A Ending :=
  .act (.readChannelPeerData (peerDataPath ldkDataDir)) fun
    | .ok info => .act .listChannels fun channels => reconnectEach info channels
    | .error .panicked => .ret .panicked
    -- "ERROR: errored reading channel peer info from disk"
    | .error _ => .ret .again

omit [DecidableEq P]

def writeAll (path : String) : Bytes → ReconnectProg P A Bool
  | [] => .ret true
  | byte :: bytes => .act (.write path byte) fun written =>
      if written then writeAll path bytes else .ret false

/-- `persist_channel_peer`, step by step. -/
def persistSteps (path peerInfo : String) : ReconnectProg P A Bool :=
  .act (.openAppend path peerInfo) fun opened =>
    if opened then writeAll path (peerLine peerInfo) else .ret false

/-- How an action of a command is carried out. -/
def carry {β : Type} : (a : PeerAct P A) → ReconnectProg P A (Except β a.Answer)
  | .persistChannelPeer path peerInfo => persistSteps path peerInfo >>= fun r => .ret (.ok r)
  | a => .act (.peer a) fun r => .ret (.ok r)

/-- A command among the rest. -/
def command (p : PeerProg P A PeerEnding) : ReconnectProg P A Ending :=
  p.expand carry >>= fun e => .ret (.command e)

end

/-! ## The system -/

/-- What a round has found and done so far. -/
structure Round (P A : Type) where
  result : Option (Except PeerDataError (PeerData P A))
  listed : List P
  /-- the peers looked for, and whether they were there -/
  asked : List (P × Bool)
  dialed : List (P × A)

namespace Round

variable {P A : Type}

def none : Round P A := ⟨.none, [], [], []⟩

def info (round : Round P A) : Option (PeerData P A) := round.result.bind Except.toOption

end Round

/-- A word, and the part of its line that was written. -/
abbrev Piece := String × Bytes

/-- The channels and the connections are those of LDK.  `opened` are the peers channels
were opened with, `appended` the pieces of the file, the newest first, `read` those that
were there when the round began, and `unreadable` says that a read of it failed. -/
structure PeersState (P A : Type) where
  channels : List P
  connected : P → Bool
  stop : Bool
  file : String → PeerFile
  opened : List P
  appended : List Piece
  read : List Piece
  unreadable : Bool
  round : Round P A

inductive PeersTask where
  | cli
  | reconnect
  deriving DecidableEq

section

variable {P A : Type} [DecidableEq P] (secp : Secp256k1 P) (toSocketAddrs : Resolver A)

/-- A call may fail: one that opens a file, writes a byte to it, looks whether it is
there or reads it, too. -/
inductive PeersExec : PeersTask → (a : ReconnectAct P A) → PeersState P A → a.Answer →
    PeersState P A → Prop
  | listPeers {s : PeersState P A} {peers : List P} : (∀ id, id ∈ peers ↔ s.connected id = true) →
      PeersExec .cli (.peer .listPeers) s peers s
  | connect {s : PeersState P A} {pubkey : P} {addr : A} {r : Bool} :
      PeersExec .cli (.peer (.doConnectPeer pubkey addr)) s r
        { s with connected := if r then Function.update s.connected pubkey true else s.connected }
  | opens {s : PeersState P A} {req : ChannelRequest P} :
      PeersExec .cli (.peer (.createChannel req)) s true
        { s with
          channels := req.theirNetworkKey :: s.channels
          opened := req.theirNetworkKey :: s.opened }
  | refuses {s : PeersState P A} {req : ChannelRequest P} :
      PeersExec .cli (.peer (.createChannel req)) s false s
  | opensFile {s : PeersState P A} {path peerInfo : String} {f : PeerFile} :
      (s.file path).append [] = some f →
      PeersExec .cli (.openAppend path peerInfo) s true
        { s with
          file := Function.update s.file path f
          appended := (peerInfo, []) :: s.appended }
  | writes {s : PeersState P A} {path : String} {byte : UInt8} {f : PeerFile} :
      (s.file path).append [byte] = some f →
      PeersExec .cli (.write path byte) s true
        { s with
          file := Function.update s.file path f
          appended := s.appended.modifyHead fun x => (x.1, x.2 ++ [byte]) }
  | failsOpen {s : PeersState P A} {path peerInfo : String} :
      PeersExec .cli (.openAppend path peerInfo) s false s
  | failsWrite {s : PeersState P A} {path : String} {byte : UInt8} :
      PeersExec .cli (.write path byte) s false s
  | reads {s : PeersState P A} {path : String} {r : Except PeerDataError (PeerData P A)} :
      r = readChannelPeerData secp toSocketAddrs (s.file path) ∨ r = .error .open →
      PeersExec .reconnect (.readChannelPeerData path) s r
        { s with read := s.appended, round := { s.round with result := some r } }
  -- `exists()` fails: the file counts as missing
  | overlooks {s : PeersState P A} {path : String} :
      PeersExec .reconnect (.readChannelPeerData path) s (.ok ∅)
        { s with read := [], round := { s.round with result := some (.ok ∅) } }
  -- the `unwrap` of a line that could not be read
  | failsRead {s : PeersState P A} {path : String} :
      PeersExec .reconnect (.readChannelPeerData path) s (.error .panicked)
        { s with
          read := s.appended
          unreadable := true
          round := { s.round with result := some (.error .panicked) } }
  | lists {s : PeersState P A} :
      PeersExec .reconnect .listChannels s s.channels
        { s with round := { s.round with listed := s.channels } }
  | looks {s : PeersState P A} {id : P} :
      PeersExec .reconnect (.peerByNodeId id) s (s.connected id)
        { s with round := { s.round with asked := s.round.asked ++ [(id, s.connected id)] } }
  | stops {s : PeersState P A} : PeersExec .reconnect .stopConnect s s.stop s
  | dials {s : PeersState P A} {pubkey : P} {addr : A} {r : Bool} :
      PeersExec .reconnect (.doConnectPeer pubkey addr) s r
        { s with
          connected := if r then Function.update s.connected pubkey true else s.connected
          round := { s.round with dialed := s.round.dialed ++ [(pubkey, addr)] } }

/-- The user opens channels and connects to peers, the loop goes round, and LDK does
what it does.  After a crash there are the channels and the file. -/
def peersNode (ldkDataDir : String) :
    System PeersTask (ReconnectAct P A) ReconnectAct.Answer Ending (PeersState P A) where
  exec := PeersExec secp toSocketAddrs
  start t s p s' :=
    match t with
    | .cli => s' = s ∧ ∃ line, p = command (openchannel secp toSocketAddrs ldkDataDir line) ∨
        p = command (connectpeer secp toSocketAddrs line)
    | .reconnect => s' = s ∧ p = reconnectRound ldkDataDir
  finish t e s s' := e ≠ .panicked ∧ e ≠ .returned ∧
    match t with
    | .cli => s' = s
    | .reconnect => s' = { s with round := .none }
  env s s' := ∃ channels connected stop,
    s' = { s with channels := channels, connected := connected, stop := stop }
  crash s s' := s' =
    { s with connected := fun _ => false, stop := false, unreadable := false, round := .none }

end

/-! ## What a task has done -/

/-- The round of the loop, the peer a channel was just opened with, and what is left to
be written of its line. -/
structure Done (P A : Type) where
  round : Round P A
  opened : Option P
  rest : Option Bytes

def Done.none {P A : Type} : Done P A := ⟨.none, .none, .none⟩

section

variable {P A : Type} [DecidableEq P] (secp : Secp256k1 P) (toSocketAddrs : Resolver A)
  (ldkDataDir : String)

/-- `info` has a peer at this address. -/
def Knows (info : Option (PeerData P A)) (pubkey : P) (addr : A) : Prop :=
  ∃ peers, info = some peers ∧ peers.lookup pubkey = some addr

namespace Done

/-- A word is appended when a channel with its peer was opened, byte by byte; a channel
is looked at in its turn; a peer is dialed that was not there when it was looked for,
where it is known to be. -/
def permits (h : Done P A) : ReconnectAct P A → Prop
  | .openAppend path word => path = peerDataPath ldkDataDir ∧
      ∃ w : PeerWord secp toSocketAddrs, w.text = word ∧ h.opened = some w.pubkey
  | .write path byte => path = peerDataPath ldkDataDir ∧ ∃ rest, h.rest = some (byte :: rest)
  | .readChannelPeerData path => path = peerDataPath ldkDataDir ∧ h.round = .none
  | .peerByNodeId id => h.round.asked.map (·.1) ++ [id] <+: h.round.listed
  | .listChannels => h.round.asked = []
  | .doConnectPeer pubkey addr => (pubkey, false) ∈ h.round.asked ∧ Knows h.round.info pubkey addr
  | _ => True

def after (h : Done P A) : (a : ReconnectAct P A) → a.Answer → Done P A
  | .peer (.createChannel req), r =>
      if r = true then { h with opened := some req.theirNetworkKey } else h
  | .openAppend _ word, r => if r = true then { h with rest := some (peerLine word) } else h
  | .write _ _, r => if r = true then { h with rest := h.rest.map List.tail } else h
  | .readChannelPeerData _, r => { h with round := { h.round with result := some r } }
  | .listChannels, channels => { h with round := { h.round with listed := channels } }
  | .peerByNodeId id, there =>
      { h with round := { h.round with asked := h.round.asked ++ [(id, there)] } }
  | .doConnectPeer pubkey addr, _ =>
      { h with round := { h.round with dialed := h.round.dialed ++ [(pubkey, addr)] } }
  | _, _ => h

end Done

def doing : Typestate (ReconnectAct P A) ReconnectAct.Answer (Done P A) where
  permits := Done.permits secp toSocketAddrs ldkDataDir
  answers _ _ _ := True
  after := Done.after

/-- The calls that are due: each peer that is not there, where it is known to be. -/
def due (info : PeerData P A) (asked : List (P × Bool)) : List (P × A) :=
  (asked.filter (!·.2)).filterMap fun x => (info.lookup x.1).map (x.1, ·)

/-- A round that went through has looked at every channel and made the calls due; it
panics where a line cannot be read. -/
def Ended : Ending → Done P A → Prop
  | .again, h => ∀ info, h.round.info = some info →
      h.round.asked.map (·.1) = h.round.listed ∧ h.round.dialed = due info h.round.asked
  | .panicked, h => h.round.result = some (.error .panicked)
  | _, _ => True

end

/-! ### The rounds -/

section

variable {P A : Type} [DecidableEq P] {secp : Secp256k1 P} {toSocketAddrs : Resolver A}
  {ldkDataDir : String} {h : Done P A} {info : PeerData P A} {nodeId : P}

/-- The entries with a key, and what the map has at it. -/
theorem entries_of_key {l : List ((_ : P) × A)} (hl : l.NodupKeys) :
    (l.filter (·.1 = nodeId)).map (fun x => (x.1, x.2)) =
      (l.dlookup nodeId).toList.map (nodeId, ·) := by
  induction l with
  | nil => rfl
  | cons x l ih =>
      obtain ⟨k, a⟩ := x
      obtain ⟨hk, hl⟩ := List.nodupKeys_cons.mp hl
      by_cases hkey : k = nodeId
      · subst hkey
        have hnone : l.dlookup k = none := List.dlookup_eq_none.mpr hk
        have hrest := ih hl
        rw [hnone] at hrest
        simp [hrest]
      · rw [List.filter_cons_of_neg (by simpa using hkey), List.dlookup_cons_ne _ _ (Ne.symm hkey)]
        exact ih hl

end

/-! ### The commands -/

section

variable {P A : Type} [DecidableEq P] (secp : Secp256k1 P) (toSocketAddrs : Resolver A)
  (ldkDataDir : String)

/-- What is appended is a word that was accepted, of a peer a channel was opened with. -/
def opening : Typestate (PeerAct P A) PeerAct.Answer (Option P) where
  permits opened
    | .persistChannelPeer path word => path = peerDataPath ldkDataDir ∧
        ∃ w : PeerWord secp toSocketAddrs, w.text = word ∧ opened = some w.pubkey
    | _ => True
  answers _ _ _ := True
  after opened
    | .createChannel req, r => if r = true then some req.theirNetworkKey else opened
    | _, _ => opened

variable {secp toSocketAddrs ldkDataDir}

/-- What is left of a line is written. -/
theorem follows_writeAll {bytes : Bytes} {h : Done P A} (hrest : h.rest = some bytes) :
    (doing secp toSocketAddrs ldkDataDir).Follows
      (fun _ h' => h'.round = h.round ∧ h'.opened = h.opened)
      (writeAll (peerDataPath ldkDataDir) bytes) h := by
  induction bytes generalizing h with
  | nil => exact ⟨rfl, rfl⟩
  | cons byte bytes ih =>
      refine .act ⟨rfl, bytes, hrest⟩ fun written _ => ?_
      cases written with
      | false => exact ⟨rfl, rfl⟩
      | true =>
          have hleft : (h.rest.map List.tail) = some bytes := by
            rw [hrest]
            rfl
          exact ih (h := { h with rest := h.rest.map List.tail }) hleft

theorem follows_persistSteps {h : Done P A} {word : String}
    (hword : ∃ w : PeerWord secp toSocketAddrs, w.text = word ∧ h.opened = some w.pubkey) :
    (doing secp toSocketAddrs ldkDataDir).Follows
      (fun _ h' => h'.round = h.round ∧ h'.opened = h.opened)
      (persistSteps (peerDataPath ldkDataDir) word) h := by
  refine .act ⟨rfl, hword⟩ fun opened _ => ?_
  cases opened with
  | false => exact ⟨rfl, rfl⟩
  | true => exact follows_writeAll (h := { h with rest := some (peerLine word) }) rfl

theorem follows_command {p : PeerProg P A PeerEnding}
    (hp : (opening secp toSocketAddrs ldkDataDir).Follows (fun _ _ => True) p none) :
    (doing secp toSocketAddrs ldkDataDir).Follows Ended (command p) .none := by
  have hcarried : (doing secp toSocketAddrs ldkDataDir).Follows (fun _ _ => True)
      (p.expand carry) .none := by
    refine Typestate.Follows.expand (E := fun opened h => h.round = .none ∧ h.opened = opened) ?_
      (fun _ _ => trivial) hp ⟨rfl, rfl⟩
    rintro opened h a ⟨hround, rfl⟩ ha
    cases a with
    | listPeers => exact .act trivial fun _ _ => ⟨trivial, hround, rfl⟩
    | doConnectPeer pubkey addr => exact .act trivial fun _ _ => ⟨trivial, hround, rfl⟩
    | createChannel req =>
        refine .act trivial fun r _ => ⟨trivial, ?_⟩
        cases r <;> exact ⟨hround, rfl⟩
    | persistChannelPeer path word =>
        obtain ⟨rfl, hword⟩ := ha
        refine Typestate.Follows.bind ?_ (follows_persistSteps hword)
        rintro r h' ⟨hround', hopened'⟩
        exact ⟨trivial, hround'.trans hround, hopened'⟩
  refine Typestate.Follows.bind ?_ hcarried
  intro e h _
  exact trivial

end

/-! ## Every run -/

section

variable {P A : Type} [DecidableEq P] {secp : Secp256k1 P} {toSocketAddrs : Resolver A}
  {ldkDataDir : String} {s s' : PeersState P A} {hold : PeersTask → Done P A}

/-- The pieces, the newest first, are parts of the lines of these words, of peers that
channels were opened with. -/
structure Pieces (opened : List P) (pieces : List Piece)
    (parts : List (PeerWord secp toSocketAddrs × Bytes)) : Prop where
  texts : parts.map (fun x => (x.1.text, x.2)) = pieces.reverse
  opened : ∀ x ∈ parts, x.1.pubkey ∈ opened
  part : ∀ x ∈ parts, x.2 <+: peerLine x.1.text

/-- No line is torn: there is all of it or nothing. -/
def Whole (parts : List (PeerWord secp toSocketAddrs × Bytes)) : Prop :=
  ∀ x ∈ parts, x.2 = [] ∨ x.2 = peerLine x.1.text

/-- The words whose lines are there. -/
def words (parts : List (PeerWord secp toSocketAddrs × Bytes)) :
    List (PeerWord secp toSocketAddrs) :=
  (parts.filter (·.2 ≠ [])).map (·.1)

section

omit [DecidableEq P]

variable {opened : List P} {pieces : List Piece}
  {parts : List (PeerWord secp toSocketAddrs × Bytes)}

theorem Pieces.nil : Pieces opened [] ([] : List (PeerWord secp toSocketAddrs × Bytes)) :=
  ⟨rfl, nofun, nofun⟩

theorem Pieces.mono {opened' : List P} (h : Pieces opened pieces parts) (ho : opened ⊆ opened') :
    Pieces opened' pieces parts :=
  ⟨h.texts, fun x hx => ho (h.opened x hx), h.part⟩

/-- A file is opened to append a word. -/
theorem Pieces.start (h : Pieces opened pieces parts) {w : PeerWord secp toSocketAddrs}
    (hw : w.pubkey ∈ opened) : Pieces opened ((w.text, []) :: pieces) (parts ++ [(w, [])]) where
  texts := by rw [List.map_append, h.texts, List.reverse_cons, List.map_singleton]
  opened := List.forall_mem_append.mpr ⟨h.opened, List.forall_mem_singleton.mpr hw⟩
  part := List.forall_mem_append.mpr
    ⟨h.part, List.forall_mem_singleton.mpr (List.nil_prefix ..)⟩

/-- The newest piece grows. -/
theorem Pieces.grow {word : String} {bytes rest : Bytes} {byte : UInt8}
    (h : Pieces opened ((word, bytes) :: pieces) parts)
    (hline : bytes ++ byte :: rest = peerLine word) :
    ∃ older w, parts = older ++ [(w, bytes)] ∧
      Pieces opened ((word, bytes ++ [byte]) :: pieces) (older ++ [(w, bytes ++ [byte])]) := by
  have htexts := h.texts
  rw [List.reverse_cons] at htexts
  obtain ⟨older, last, rfl, holder, hlast⟩ := List.map_eq_append_iff.mp htexts
  obtain ⟨x, rfl⟩ : ∃ x, last = [x] := by
    refine List.length_eq_one_iff.mp ?_
    rw [← List.length_map (f := fun x => (x.1.text, x.2)), hlast, List.length_singleton]
  obtain ⟨w, part⟩ := x
  obtain ⟨rfl, rfl⟩ := Prod.mk.inj (List.singleton_inj.mp hlast)
  obtain ⟨hopened, hwopened⟩ := List.forall_mem_append.mp h.opened
  obtain ⟨hpart, -⟩ := List.forall_mem_append.mp h.part
  refine ⟨older, w, rfl, ?_, ?_, ?_⟩
  · rw [List.map_append, holder, List.reverse_cons, List.map_singleton]
  · rintro x hx
    rcases List.mem_append.mp hx with hx | hx
    · exact hopened x hx
    · obtain rfl := List.mem_singleton.mp hx
      exact hwopened (w, part) (.head _)
  · refine List.forall_mem_append.mpr ⟨hpart, List.forall_mem_singleton.mpr ⟨rest, ?_⟩⟩
    rw [← hline, List.append_assoc, List.singleton_append]

theorem Whole.flatMap (h : Whole parts) :
    parts.flatMap (·.2) = PeerWord.written (words parts) := by
  induction parts with
  | nil => rfl
  | cons x parts ih =>
      obtain ⟨hx, hparts⟩ := List.forall_mem_cons.mp h
      by_cases hempty : x.2 = []
      · have hwords : words (x :: parts) = words parts := by
          rw [words, List.filter_cons_of_neg (by simpa using hempty), words]
        rw [List.flatMap_cons, hempty, List.nil_append, hwords]
        exact ih hparts
      · have hwords : words (x :: parts) = x.1 :: words parts := by
          rw [words, List.filter_cons_of_pos (by simpa using hempty), List.map_cons, words]
        rw [List.flatMap_cons, hx.resolve_left hempty, hwords, PeerWord.written, List.flatMap_cons]
        exact congrArg _ (ih hparts)

end

/-- Without a torn line the file is read as the words in it. -/
theorem Whole.reads {parts : List (PeerWord secp toSocketAddrs × Bytes)} (h : Whole parts) :
    readChannelPeerData secp toSocketAddrs (.bytes (parts.flatMap (·.2))) =
      .ok (PeerWord.insertAll (words parts) ∅) := by
  rw [h.flatMap]
  exact PeerWord.read_all (words parts) ∅

/-- The file is made of these pieces. -/
def MadeOf (file : PeerFile) (parts : List (PeerWord secp toSocketAddrs × Bytes)) : Prop :=
  (file = .missing ∧ parts = []) ∨ file = .bytes (parts.flatMap (·.2))

theorem MadeOf.reads {file : PeerFile} {parts : List (PeerWord secp toSocketAddrs × Bytes)}
    (h : MadeOf file parts) : readChannelPeerData secp toSocketAddrs file =
      readChannelPeerData secp toSocketAddrs (.bytes (parts.flatMap (·.2))) := by
  rcases h with ⟨rfl, rfl⟩ | rfl
  · rfl
  · rfl

/-- The file, and the result of the read of it. -/
structure Holds (secp : Secp256k1 P) (toSocketAddrs : Resolver A) (path : String)
    (s : PeersState P A) : Prop where
  appended : ∃ parts : List (PeerWord secp toSocketAddrs × Bytes),
    Pieces s.opened s.appended parts ∧ MadeOf (s.file path) parts
  read : ∃ parts : List (PeerWord secp toSocketAddrs × Bytes), Pieces s.opened s.read parts ∧
    ∀ r, s.round.result = some r →
      r = readChannelPeerData secp toSocketAddrs (.bytes (parts.flatMap (·.2))) ∨
      r = .error .open ∨ r = .error .panicked ∧ s.unreadable = true

/-- What was found and dialed in the round, and what is written. -/
structure PeersInv (secp : Secp256k1 P) (toSocketAddrs : Resolver A) (ldkDataDir : String)
    (s : PeersState P A) (hold : PeersTask → Done P A) : Prop where
  holds : Holds secp toSocketAddrs (peerDataPath ldkDataDir) s
  round : (hold .reconnect).round = s.round
  opened : ∀ k, (hold .cli).opened = some k → k ∈ s.opened
  rest : ∀ bytes, (hold .cli).rest = some bytes →
    ∃ x older, s.appended = x :: older ∧ x.2 ++ bytes = peerLine x.1
  asked : s.round.asked.map (·.1) <+: s.round.listed
  dialed : ∀ d ∈ s.round.dialed, (d.1, false) ∈ s.round.asked ∧ Knows s.round.info d.1 d.2

/-- A step that leaves the file and the round alone. -/
theorem PeersInv.beside (h : PeersInv secp toSocketAddrs ldkDataDir s hold)
    {channels opened : List P} {connected : P → Bool} {stop : Bool} (hopened : s.opened ⊆ opened)
    {done : Done P A} (hdone : ∀ k, done.opened = some k → k ∈ opened)
    (hrest : done.rest = (hold .cli).rest ∨ done.rest = none) :
    PeersInv secp toSocketAddrs ldkDataDir
      { s with channels := channels, connected := connected, stop := stop, opened := opened }
      (Function.update hold .cli done) where
  holds := by
    obtain ⟨⟨parts, hp, hf⟩, parts', hp', hr⟩ := h.holds
    exact ⟨⟨parts, hp.mono hopened, hf⟩, parts', hp'.mono hopened, hr⟩
  round := h.round
  opened := by
    rw [Function.update_self]
    exact hdone
  rest := by
    rw [Function.update_self]
    intro bytes hbytes
    rcases hrest with heq | heq
    · exact h.rest bytes (heq.symm.trans hbytes)
    · cases heq.symm.trans hbytes
  asked := h.asked
  dialed := h.dialed

/-- What the loop does changes the round. -/
theorem PeersInv.inRound (h : PeersInv secp toSocketAddrs ldkDataDir s hold)
    {round : Round P A} (hresult : round.result = s.round.result)
    (hasked : round.asked.map (·.1) <+: round.listed)
    (hdialed : ∀ d ∈ round.dialed, (d.1, false) ∈ round.asked ∧ Knows round.info d.1 d.2)
    {connected : P → Bool} {done : Done P A} (hdone : done.round = round) :
    PeersInv secp toSocketAddrs ldkDataDir { s with connected := connected, round := round }
      (Function.update hold .reconnect done) where
  holds := by
    obtain ⟨happended, parts, hp, hr⟩ := h.holds
    refine ⟨happended, parts, hp, ?_⟩
    show ∀ r, round.result = some r → _
    rw [hresult]
    exact hr
  round := by
    rw [Function.update_self]
    exact hdone
  opened := h.opened
  rest := h.rest
  asked := hasked
  dialed := hdialed

/-- The pieces and the file change, and what is left to be written. -/
theorem PeersInv.inFile (h : PeersInv secp toSocketAddrs ldkDataDir s hold) {f : PeerFile}
    {pieces : List Piece} {done : Done P A} (hopened : done.opened = (hold .cli).opened)
    (hparts : ∃ parts : List (PeerWord secp toSocketAddrs × Bytes),
      Pieces s.opened pieces parts ∧ MadeOf f parts)
    (hrest : ∀ bytes, done.rest = some bytes →
      ∃ x older, pieces = x :: older ∧ x.2 ++ bytes = peerLine x.1) :
    PeersInv secp toSocketAddrs ldkDataDir
      { s with
        file := Function.update s.file (peerDataPath ldkDataDir) f
        appended := pieces } (Function.update hold .cli done) where
  holds := by
    refine ⟨?_, h.holds.read⟩
    show ∃ parts, _ ∧ MadeOf (Function.update s.file (peerDataPath ldkDataDir) f _) parts
    rw [Function.update_self]
    exact hparts
  round := h.round
  opened := by
    rw [Function.update_self, hopened]
    exact h.opened
  rest := by
    rw [Function.update_self]
    exact hrest
  asked := h.asked
  dialed := h.dialed

omit [DecidableEq P] in
theorem MadeOf.append {file f : PeerFile} {piece : Bytes}
    {parts : List (PeerWord secp toSocketAddrs × Bytes)} (h : MadeOf file parts)
    (hf : file.append piece = some f) : f = .bytes (parts.flatMap (·.2) ++ piece) := by
  rcases h with ⟨rfl, rfl⟩ | rfl
  · exact (Option.some.inj hf).symm
  · exact (Option.some.inj hf).symm

theorem PeersInv.opensFile (h : PeersInv secp toSocketAddrs ldkDataDir s hold)
    {w : PeerWord secp toSocketAddrs} (hopened : (hold .cli).opened = some w.pubkey)
    {f : PeerFile} (hf : (s.file (peerDataPath ldkDataDir)).append [] = some f) :
    PeersInv secp toSocketAddrs ldkDataDir
      { s with
        file := Function.update s.file (peerDataPath ldkDataDir) f
        appended := (w.text, []) :: s.appended }
      (Function.update hold .cli { hold .cli with rest := some (peerLine w.text) }) := by
  obtain ⟨parts, hp, hmade⟩ := h.holds.appended
  refine h.inFile rfl ⟨_, hp.start (h.opened _ hopened), .inr ?_⟩ ?_
  · rw [hmade.append hf, List.flatMap_append, List.flatMap_singleton]
  · rintro bytes ⟨⟩
    exact ⟨_, _, rfl, List.nil_append _⟩

theorem PeersInv.writes (h : PeersInv secp toSocketAddrs ldkDataDir s hold) {byte : UInt8}
    {rest : Bytes} (hrest : (hold .cli).rest = some (byte :: rest)) {f : PeerFile}
    (hf : (s.file (peerDataPath ldkDataDir)).append [byte] = some f) :
    PeersInv secp toSocketAddrs ldkDataDir
      { s with
        file := Function.update s.file (peerDataPath ldkDataDir) f
        appended := s.appended.modifyHead fun x => (x.1, x.2 ++ [byte]) }
      (Function.update hold .cli
        { hold .cli with rest := (hold .cli).rest.map List.tail }) := by
  obtain ⟨⟨word, bytes⟩, older, happended, hline⟩ := h.rest _ hrest
  obtain ⟨parts, hp, hmade⟩ := h.holds.appended
  rw [happended] at hp ⊢
  obtain ⟨before, w, rfl, hp'⟩ := hp.grow hline
  rw [List.modifyHead_cons, hrest]
  refine h.inFile rfl ⟨_, hp', .inr ?_⟩ ?_
  · rw [hmade.append hf]
    simp
  · rintro left ⟨⟩
    refine ⟨_, _, rfl, ?_⟩
    rw [← hline]
    simp

/-- The loop has read the file, or tried to. -/
theorem PeersInv.reads (h : PeersInv secp toSocketAddrs ldkDataDir s hold)
    (hround : (hold .reconnect).round = .none) {r : Except PeerDataError (PeerData P A)}
    {pieces : List Piece} {unreadable : Bool}
    (hread : ∃ parts : List (PeerWord secp toSocketAddrs × Bytes), Pieces s.opened pieces parts ∧
      (r = readChannelPeerData secp toSocketAddrs (.bytes (parts.flatMap (·.2))) ∨
        r = .error .open ∨ r = .error .panicked ∧ unreadable = true)) :
    PeersInv secp toSocketAddrs ldkDataDir
      { s with
        read := pieces
        unreadable := unreadable
        round := { s.round with result := some r } }
      (Function.update hold .reconnect { hold .reconnect with
        round := { (hold .reconnect).round with result := some r } }) := by
  have hnone : s.round = .none := h.round ▸ hround
  obtain ⟨parts, hp, hr⟩ := hread
  refine ⟨⟨h.holds.appended, parts, hp, ?_⟩, ?_, h.opened, h.rest, ?_, ?_⟩
  · rintro _ ⟨⟩
    exact hr
  · rw [Function.update_self, h.round]
  · show (s.round.asked.map _) <+: _
    rw [hnone]
    exact List.nil_prefix
  · show ∀ d ∈ s.round.dialed, _
    rw [hnone]
    rintro d ⟨⟩

theorem PeersInv.exec {t : PeersTask} {a : ReconnectAct P A} {r : a.Answer}
    (he : PeersExec secp toSocketAddrs t a s r s')
    (h : PeersInv secp toSocketAddrs ldkDataDir s hold)
    (hp : (hold t).permits secp toSocketAddrs ldkDataDir a) :
    PeersInv secp toSocketAddrs ldkDataDir s' (Function.update hold t ((hold t).after a r)) := by
  have hquiet : (hold t).after a r = hold t →
      Function.update hold t ((hold t).after a r) = hold := by
    intro heq
    rw [heq, Function.update_eq_self]
  cases he with
  | listPeers | refuses | failsOpen | failsWrite | stops =>
      rw [hquiet rfl]
      exact h
  | connect => exact h.beside (List.Subset.refl _) h.opened (.inl rfl)
  | @opens _ req =>
      refine h.beside (List.subset_cons_self _ _) ?_ (.inl rfl)
      rintro k hk
      obtain rfl := Option.some.inj hk
      exact List.mem_cons_self
  | opensFile hf =>
      obtain ⟨rfl, w, rfl, hopened⟩ := hp
      exact h.opensFile hopened hf
  | writes hf =>
      obtain ⟨rfl, rest, hrest⟩ := hp
      exact h.writes hrest hf
  | reads hr =>
      obtain ⟨rfl, hround⟩ := hp
      obtain ⟨parts, hparts, hmade⟩ := h.holds.appended
      refine h.reads hround ⟨parts, hparts, ?_⟩
      rw [← hmade.reads]
      exact hr.imp_right .inl
  | overlooks => exact h.reads hp.2 ⟨[], .nil, .inl rfl⟩
  | failsRead =>
      obtain ⟨parts, hparts, _⟩ := h.holds.appended
      exact h.reads hp.2 ⟨parts, hparts, .inr (.inr ⟨rfl, rfl⟩)⟩
  | lists =>
      have hasked : s.round.asked = [] := h.round ▸ hp
      refine h.inRound ?_ ?_ ?_ ?_
      · rfl
      · show s.round.asked.map _ <+: _
        rw [hasked]
        exact List.nil_prefix
      · exact h.dialed
      · simp only [Done.after, h.round]
  | @looks _ id =>
      have hnext : s.round.asked.map (·.1) ++ [id] <+: s.round.listed := h.round ▸ hp
      refine h.inRound ?_ ?_ ?_ ?_
      · rfl
      · show (s.round.asked ++ _).map _ <+: _
        rw [List.map_append]
        exact hnext
      · intro d hd
        obtain ⟨hmem, hknown⟩ := h.dialed d hd
        exact ⟨List.mem_append_left _ hmem, hknown⟩
      · simp only [Done.after, h.round]
  | @dials _ pubkey addr =>
      have hdue : (pubkey, false) ∈ s.round.asked ∧ Knows s.round.info pubkey addr := h.round ▸ hp
      refine h.inRound ?_ ?_ ?_ ?_
      · rfl
      · exact h.asked
      · intro d hd
        rcases List.mem_append.mp hd with hd | hd
        · exact h.dialed d hd
        · obtain rfl := List.mem_singleton.mp hd
          exact hdue
      · simp only [Done.after, h.round]

/-- Before any channel was opened. -/
def PeersState.initial (P A : Type) : PeersState P A where
  channels := []
  connected _ := false
  stop := false
  file _ := .missing
  opened := []
  appended := []
  read := []
  unreadable := false
  round := .none

end

/-! ## A channel that is opened, and a restart -/

abbrev generatorNode : System PeersTask (ReconnectAct KeyBytes String) ReconnectAct.Answer Ending
    (PeersState KeyBytes String) :=
  peersNode .keyBytes localhost "data"

/-- The actions of a task, executable: there are no peers, and every call goes well. -/
def play (t : PeersTask) (a : ReconnectAct KeyBytes String) (s : PeersState KeyBytes String) :
    Option (a.Answer × PeersState KeyBytes String) :=
  match t, a with
  | .cli, .peer (.createChannel req) => some (true,
      { s with
        channels := req.theirNetworkKey :: s.channels
        opened := req.theirNetworkKey :: s.opened })
  | .cli, .openAppend path peerInfo => ((s.file path).append []).map fun f => (true,
      { s with
        file := Function.update s.file path f
        appended := (peerInfo, []) :: s.appended })
  | .cli, .write path byte => ((s.file path).append [byte]).map fun f => (true,
      { s with
        file := Function.update s.file path f
        appended := s.appended.modifyHead fun x => (x.1, x.2 ++ [byte]) })
  | .cli, .peer (.doConnectPeer pubkey _) => some (true,
      { s with connected := Function.update s.connected pubkey true })
  | .reconnect, .readChannelPeerData path =>
      let r := readChannelPeerData .keyBytes localhost (s.file path)
      some (r, { s with read := s.appended, round := { s.round with result := some r } })
  | .reconnect, .listChannels =>
      some (s.channels, { s with round := { s.round with listed := s.channels } })
  | .reconnect, .peerByNodeId id => some (s.connected id,
      { s with round := { s.round with asked := s.round.asked ++ [(id, s.connected id)] } })
  | .reconnect, .stopConnect => some (s.stop, s)
  | .reconnect, .doConnectPeer pubkey addr => some (true,
      { s with
        connected := Function.update s.connected pubkey true
        round := { s.round with dialed := s.round.dialed ++ [(pubkey, addr)] } })
  | _, _ => none

theorem play_exec {t : PeersTask} (a : ReconnectAct KeyBytes String)
    (s : PeersState KeyBytes String) (r : a.Answer) (s' : PeersState KeyBytes String)
    (h : play t a s = some (r, s')) : generatorNode.exec t a s r s' := by
  cases t with
  | cli =>
      cases a with
      | peer a =>
          cases a with
          | listPeers => cases h
          | doConnectPeer pubkey addr =>
              cases h
              exact .connect
          | createChannel req =>
              cases h
              exact .opens
          | persistChannelPeer path word => cases h
      | openAppend path peerInfo =>
          obtain ⟨f, hf, heq⟩ := Option.map_eq_some_iff.mp h
          cases heq
          exact .opensFile hf
      | write path byte =>
          obtain ⟨f, hf, heq⟩ := Option.map_eq_some_iff.mp h
          cases heq
          exact .writes hf
      | _ => cases h
  | reconnect =>
      cases a with
      | peer a => cases a <;> cases h
      | readChannelPeerData path =>
          cases h
          exact .reads (.inl rfl)
      | listChannels =>
          cases h
          exact .lists
      | peerByNodeId id =>
          cases h
          exact .looks
      | stopConnect =>
          cases h
          exact .stops
      | doConnectPeer pubkey addr =>
          cases h
          exact .dials
      | openAppend path peerInfo => cases h
      | write path byte => cases h

end Reconnect

end LightningNode
