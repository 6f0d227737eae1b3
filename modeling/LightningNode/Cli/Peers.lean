/-
# `LightningNode.Cli.Peers` — connecting to a peer, opening a channel

The arms `openchannel` and `connectpeer` of `poll_for_user_input`, as programs
over what they ask of the `PeerManager`, the `ChannelManager` and the disk.

    openchannel pubkey@host:port amount flag*

A flag is taken from the words one after another, the last of a kind counts.  A
word that is no flag is reported by a `println!` and a `continue`, which is that
of the loop over the words: the channel is opened all the same.
-/
import LightningNode.Cli.PeerInfo
import LightningNode.Lib.Program

namespace LightningNode

open Conc Text

namespace Cli

/-- `parse::<u64>()` -/
def parseU64 (s : String) : Option UInt64 := (parseUnsigned UInt64.size s).map UInt64.ofNat

/-- The fields of a `UserConfig` that `open_channel` sets. -/
structure ChannelConfig where
  theirToSelfDelay : UInt16
  announceForForwarding : Bool
  negotiateAnchorsZeroFeeHtlcTx : Bool
  deriving DecidableEq

/-- The arguments of `create_channel`; the temporary id is `None`. -/
structure ChannelRequest (P : Type) where
  theirNetworkKey : P
  channelValueSatoshis : UInt64
  pushMsat : UInt64
  userChannelId : Nat
  overrideConfig : ChannelConfig
  deriving DecidableEq

inductive PeerAct (P A : Type) where
  /-- the keys in `peer_manager.list_peers()` -/
  | listPeers
  /-- `do_connect_peer`, from its call to its answer -/
  | doConnectPeer (pubkey : P) (addr : A)
  | createChannel (request : ChannelRequest P)
  /-- `disk::persist_channel_peer` -/
  | persistChannelPeer (path peerInfo : String)
  deriving DecidableEq

/-- The peers, or whether the call was `Ok`. -/
abbrev PeerAct.Answer {P A : Type} : PeerAct P A → Type
  | .listPeers => List P
  | _ => Bool

abbrev PeerProg (P A : Type) := Prog (PeerAct P A) PeerAct.Answer

variable {P A : Type}

/-! ## What is asked for -/

/-- The peers are `peers`, a call is answered in any way; what is done is kept,
last one first. -/
def asking (peers : List P) : (a : PeerAct P A) → List (PeerAct P A) → a.Answer →
    List (PeerAct P A) → Prop
  | .listPeers, done, r, done' => r = peers ∧ done' = .listPeers :: done
  | .doConnectPeer pubkey addr, done, _, done' => done' = .doConnectPeer pubkey addr :: done
  | .createChannel request, done, _, done' => done' = .createChannel request :: done
  | .persistChannelPeer path peerInfo, done, _, done' =>
      done' = .persistChannelPeer path peerInfo :: done

theorem asking_total (peers : List P) (a : PeerAct P A) (done : List (PeerAct P A)) :
    ∃ r done', asking peers a done r done' := by
  cases a with
  | listPeers => exact ⟨peers, _, rfl, rfl⟩
  | doConnectPeer pubkey addr => exact ⟨true, _, rfl⟩
  | createChannel request => exact ⟨true, _, rfl⟩
  | persistChannelPeer path peerInfo => exact ⟨true, _, rfl⟩

def PeerAct.created : PeerAct P A → Option (ChannelRequest P)
  | .createChannel request => some request
  | _ => none

def PeerAct.persisted : PeerAct P A → Option String
  | .persistChannelPeer _ peerInfo => some peerInfo
  | _ => none

/-! ## Programs -/

/-- What `open_channel` asks the `ChannelManager` for. -/
def channelRequest (peerPubkey : P) (channelAmtSat : UInt64)
    (announceForForwarding withAnchors : Bool) : ChannelRequest P where
  theirNetworkKey := peerPubkey
  channelValueSatoshis := channelAmtSat
  pushMsat := 0
  userChannelId := 0
  overrideConfig := ⟨2016, announceForForwarding, withAnchors⟩

/-- `open_channel` -/
def openChannel (peerPubkey : P) (channelAmtSat : UInt64)
    (announceForForwarding withAnchors : Bool) : PeerProg P A Bool :=
  .act (.createChannel (channelRequest peerPubkey channelAmtSat announceForForwarding withAnchors))
    fun created => .ret created

theorem openChannel_ends {peers : List P} {pubkey : P} {sat : UInt64}
    {announceChannel withAnchors : Bool} {done : List (PeerAct P A)} :
    Ends (asking peers) (openChannel pubkey sat announceChannel withAnchors) done fun _ done' =>
      done' = .createChannel (channelRequest pubkey sat announceChannel withAnchors) :: done := by
  refine .act fun r done' he => ?_
  obtain rfl := he
  exact .ret rfl

variable [DecidableEq P]

/-- `connect_peer_if_necessary` -/
def connectPeerIfNecessary (pubkey : P) (peerAddr : A) : PeerProg P A Bool :=
  .act .listPeers fun peers =>
    if pubkey ∈ peers then .ret true
    else .act (.doConnectPeer pubkey peerAddr) fun connected => .ret connected

/-- `announce_channel` and `with_anchors`. -/
structure ChannelFlags where
  announceChannel : Bool
  withAnchors : Bool

/-- The loop `while let Some(word) = words.next()`. -/
def readFlags : List String → ChannelFlags → ChannelFlags
  | [], flags => flags
  | word :: words, flags =>
      if word = "--public" ∨ word = "--public=true" then
        readFlags words { flags with announceChannel := true }
      else if word = "--public=false" then
        readFlags words { flags with announceChannel := false }
      else if word = "--with-anchors" ∨ word = "--with-anchors=true" then
        readFlags words { flags with withAnchors := true }
      else if word = "--with-anchors=false" then
        readFlags words { flags with withAnchors := false }
      else
        -- the `continue` is that of this loop
        readFlags words flags

/-- How the two commands end. -/
inductive PeerEnding where
  | usage
  | badPeer (e : PeerInfoError)
  | badAmount
  | notConnected
  | connected
  | refused
  | opened
  deriving DecidableEq

variable (secp : Secp256k1 P) (toSocketAddrs : Resolver A)

/-- The arm `openchannel`, on a line that starts with this word. -/
def openchannel (ldkDataDir line : String) : PeerProg P A PeerEnding :=
  match (splitWhitespace line).tail with
  | peerPubkeyAndIpAddr :: channelValueSat :: words =>
      match parsePeerInfo secp toSocketAddrs peerPubkeyAndIpAddr with
      | .error e => return .badPeer e
      | .ok (pubkey, peerAddr) =>
          match parseU64 channelValueSat with
          | none => return .badAmount
          | some chanAmtSat => do
              if ← connectPeerIfNecessary pubkey peerAddr then
                let flags := readFlags words ⟨false, false⟩
                if ← openChannel pubkey chanAmtSat flags.announceChannel flags.withAnchors then
                  let _ ← Prog.perform
                    (.persistChannelPeer (ldkDataDir ++ "/channel_peer_data") peerPubkeyAndIpAddr)
                  return .opened
                else return .refused
              else return .notConnected
  | _ => return .usage

/-- The arm `connectpeer`. -/
def connectpeer (line : String) : PeerProg P A PeerEnding :=
  match (splitWhitespace line).tail with
  | [] => return .usage
  | peerPubkeyAndIpAddr :: _ =>
      match parsePeerInfo secp toSocketAddrs peerPubkeyAndIpAddr with
      | .error e => return .badPeer e
      | .ok (pubkey, peerAddr) => do
          if ← connectPeerIfNecessary pubkey peerAddr then return .connected
          else return .notConnected

/-! ## The flags -/

inductive FlagKind where
  | announce
  | anchors
  deriving DecidableEq

/-- The six flags. -/
def flagOf (word : String) : Option (FlagKind × Bool) :=
  [("--public", .announce, true), ("--public=true", .announce, true),
    ("--public=false", .announce, false), ("--with-anchors", .anchors, true),
    ("--with-anchors=true", .anchors, true), ("--with-anchors=false", .anchors, false)].lookup word

def IsFlag (word : String) : Prop := (flagOf word).isSome

instance (word : String) : Decidable (IsFlag word) := inferInstanceAs (Decidable (_ = true))

/-- The value of the last flag of the kind, or `d`. -/
def lastFlag (kind : FlagKind) (words : List String) (d : Bool) : Bool :=
  (((words.filterMap flagOf).filter (·.1 = kind)).getLast?.map Prod.snd).getD d

/-- The variables after one more word. -/
def ChannelFlags.set (flags : ChannelFlags) : Option (FlagKind × Bool) → ChannelFlags
  | some (.announce, b) => { flags with announceChannel := b }
  | some (.anchors, b) => { flags with withAnchors := b }
  | none => flags

theorem readFlags_cons (word : String) (words : List String) (flags : ChannelFlags) :
    readFlags (word :: words) flags = readFlags words (flags.set (flagOf word)) := by
  rw [readFlags]
  split_ifs with h₁ h₂ h₃ h₄
  · rcases h₁ with rfl | rfl <;> rfl
  · subst h₂
    rfl
  · rcases h₃ with rfl | rfl <;> rfl
  · subst h₄
    rfl
  · have hnone : flagOf word = none := by
      rw [not_or] at h₁ h₃
      simp only [flagOf, List.lookup_cons, beq_false_of_ne h₁.1, beq_false_of_ne h₁.2,
        beq_false_of_ne h₂, beq_false_of_ne h₃.1, beq_false_of_ne h₃.2, beq_false_of_ne h₄,
        List.lookup_nil]
    rw [hnone]
    rfl

/-- The same, of one variable. -/
def FlagKind.set (kind : FlagKind) (d : Bool) : Option (FlagKind × Bool) → Bool
  | some (k, b) => if k = kind then b else d
  | none => d

theorem lastFlag_cons (kind : FlagKind) (word : String) (words : List String) (d : Bool) :
    lastFlag kind (word :: words) d = lastFlag kind words (kind.set d (flagOf word)) := by
  unfold lastFlag
  cases hw : flagOf word with
  | none =>
      rw [List.filterMap_cons_none hw]
      rfl
  | some f =>
      obtain ⟨k, b⟩ := f
      rw [List.filterMap_cons_some hw, FlagKind.set]
      by_cases hk : k = kind
      · rw [List.filter_cons_of_pos (by simpa using hk), List.getLast?_cons, if_pos hk]
        cases ((words.filterMap flagOf).filter (·.1 = kind)).getLast? <;> rfl
      · rw [List.filter_cons_of_neg (by simpa using hk), if_neg hk]

/-- The loop leaves each variable at the last flag of its kind; a word that is no
flag makes no difference. -/
theorem readFlags_eq (words : List String) (flags : ChannelFlags) :
    readFlags words flags = ⟨lastFlag .announce words flags.announceChannel,
      lastFlag .anchors words flags.withAnchors⟩ := by
  induction words generalizing flags with
  | nil => rfl
  | cons word words ih =>
      rw [readFlags_cons, ih, lastFlag_cons, lastFlag_cons]
      cases flagOf word with
      | none => rfl
      | some f =>
          obtain ⟨k, b⟩ := f
          cases k <;> rfl

variable {secp toSocketAddrs} {ldkDataDir line peerWord amountWord : String} {words : List String}
variable {pubkey : P} {addr : A} {sat : UInt64} {peers : List P}

/-- A connected peer is not connected again. -/
theorem connectPeerIfNecessary_ends (hconnected : pubkey ∈ peers) {done : List (PeerAct P A)} :
    Ends (asking peers) (connectPeerIfNecessary pubkey addr) done fun connected done' =>
      connected = true ∧ done' = .listPeers :: done := by
  refine .act fun r done' he => ?_
  obtain ⟨rfl, rfl⟩ := he
  show Ends _ (if pubkey ∈ r then _ else _) _ _
  rw [if_pos hconnected]
  exact .ret ⟨rfl, rfl⟩

/-- With the peer connected, one channel is asked for, whatever the words are. -/
theorem openchannel_creates
    (hline : splitWhitespace line = "openchannel" :: peerWord :: amountWord :: words)
    (hpeer : parsePeerInfo secp toSocketAddrs peerWord = .ok (pubkey, addr))
    (hamount : parseU64 amountWord = some sat) (hconnected : pubkey ∈ peers) :
    Ends (asking peers) (openchannel secp toSocketAddrs ldkDataDir line) [] fun _ done =>
      done.filterMap PeerAct.created = [channelRequest pubkey sat (lastFlag .announce words false)
        (lastFlag .anchors words false)] := by
  simp only [openchannel, hline, List.tail_cons, hpeer, hamount, readFlags_eq]
  refine .bind _ (connectPeerIfNecessary_ends hconnected) fun connected done hc => ?_
  obtain ⟨rfl, rfl⟩ := hc
  rw [if_pos rfl]
  refine .bind _ openChannel_ends fun created done hc => ?_
  obtain rfl := hc
  cases created with
  | false => exact .ret rfl
  | true =>
      rw [if_pos rfl]
      refine .act fun r done he => ?_
      obtain rfl := he
      exact .ret rfl

/-- A line does as its flags say, for a peer that is connected: with nothing but
flags one channel is asked for, as the last of each kind has it; with any other
word none is, and no peer is written down. -/
structure HonoursFlags (peers : List P) (command : PeerProg P A PeerEnding) (pubkey : P)
    (sat : UInt64) (words : List String) : Prop where
  flags : (∀ word ∈ words, IsFlag word) → ∀ ending done, Runs (asking peers) command [] ending done →
    done.filterMap PeerAct.created = [channelRequest pubkey sat (lastFlag .announce words false)
      (lastFlag .anchors words false)]
  others : (∃ word ∈ words, ¬ IsFlag word) → ∀ ending done,
    Runs (asking peers) command [] ending done →
    done.filterMap PeerAct.created = [] ∧ done.filterMap PeerAct.persisted = []

omit [DecidableEq P] in
/-- A channel that is asked for with such a word there. -/
theorem not_honours {command : PeerProg P A PeerEnding} {request : ChannelRequest P}
    (hcreates : Ends (asking peers) command [] fun _ done =>
      done.filterMap PeerAct.created = [request])
    (hother : ∃ word ∈ words, ¬ IsFlag word) : ¬ HonoursFlags peers command pubkey sat words := by
  intro h
  obtain ⟨ending, done, hr⟩ := runs_total (asking_total peers) command []
  have hnone := (h.others hother ending done hr).1
  rw [hcreates ending done hr] at hnone
  cases hnone

/-- `openchannel` does as its flags say if and only if there is no other word. -/
theorem openchannel_honours_iff
    (hline : splitWhitespace line = "openchannel" :: peerWord :: amountWord :: words)
    (hpeer : parsePeerInfo secp toSocketAddrs peerWord = .ok (pubkey, addr))
    (hamount : parseU64 amountWord = some sat) (hconnected : pubkey ∈ peers) :
    HonoursFlags peers (openchannel secp toSocketAddrs ldkDataDir line) pubkey sat words ↔
      ∀ word ∈ words, IsFlag word := by
  have hcreates : Ends (asking peers) (openchannel secp toSocketAddrs ldkDataDir line) [] _ :=
    openchannel_creates hline hpeer hamount hconnected
  constructor
  · intro h
    by_contra hnot
    exact not_honours hcreates (by simpa using hnot) h
  · intro hall
    refine ⟨fun _ => hcreates, ?_⟩
    rintro ⟨word, hw, hno⟩
    exact absurd (hall word hw) hno

/-! ### Two lines -/

/-- An IPv4 address with its port stands for itself. -/
def localhost : Resolver String := fun s => if s = "127.0.0.1:9735" then some [s] else none

/-- The key of the generator, at this host. -/
def generatorPeer : String :=
  "0279be667ef9dcbbac55a06295ce870b07029bfcdb2dce28d959f2815b16f81798@127.0.0.1:9735"

theorem parse_generatorPeer :
    parsePeerInfo .keyBytes localhost generatorPeer = .ok (.generator, "127.0.0.1:9735") := by
  rfl

theorem openchannel_honours_public :
    HonoursFlags [KeyBytes.generator] (openchannel .keyBytes localhost "data"
      ("openchannel " ++ generatorPeer ++ " 20000 --public=false --public")) .generator 20000
      ["--public=false", "--public"] := by
  have hline : splitWhitespace ("openchannel " ++ generatorPeer ++ " 20000 --public=false --public") =
      ["openchannel", generatorPeer, "20000", "--public=false", "--public"] := by
    decide +kernel
  exact (openchannel_honours_iff hline parse_generatorPeer (by decide) (.head _)).mpr (by decide)

/-- A mistyped flag: the channel is asked for, and private. -/
theorem mistyped_flag_opens :
    ¬ HonoursFlags [KeyBytes.generator] (openchannel .keyBytes localhost "data"
      ("openchannel " ++ generatorPeer ++ " 20000 --pubic")) .generator 20000 ["--pubic"] := by
  have hline : splitWhitespace ("openchannel " ++ generatorPeer ++ " 20000 --pubic") =
      ["openchannel", generatorPeer, "20000", "--pubic"] := by
    decide +kernel
  have hamount : parseU64 "20000" = some 20000 := by decide
  exact not_honours (openchannel_creates hline parse_generatorPeer hamount (.head _)) (by decide)

end Cli

end LightningNode
