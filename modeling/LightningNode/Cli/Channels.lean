/-
# `LightningNode.Cli.Channels` — commands that name a channel or a key

The arms `closechannel`, `forceclosechannel` and `keysend` of
`poll_for_user_input` up to the call they make, and the key that `listchannels`
prints.  Ids and keys are typed in hexadecimal:

    closechannel, forceclosechannel    a channel id of 32 bytes, a key of any form
    keysend, connectpeer               a key of 66 digits
-/
import LightningNode.Cli.Peers

namespace LightningNode

open Conc Text

namespace Cli

variable {P : Type} (secp : Secp256k1 P)

/-! ## Programs -/

/-- The calls of the `ChannelManager` that close a channel. -/
inductive CloseCall (P : Type) where
  | closeChannel (channelId : Vector UInt8 32) (counterpartyNodeId : P)
  | forceCloseBroadcastingLatestTxn (channelId : Vector UInt8 32) (counterpartyNodeId : P)
      (errorMessage : String)

/-- `[0; 32]` after `copy_from_slice`, of 32 bytes. -/
def channelIdOf (channelIdVec : Bytes) : Option (Vector UInt8 32) :=
  if h : channelIdVec.length = 32 then some ⟨channelIdVec.toArray, h⟩ else none

/-- The two arms that close a channel, on the words after the first: what is
printed, or the call that is made. -/
def closeArm (usageChannel usagePeer : String) (call : Vector UInt8 32 → P → CloseCall P) :
    List String → Except String (CloseCall P)
  | [] => .error usageChannel
  | channelIdStr :: words =>
      match (toVec channelIdStr).bind channelIdOf with
      | none => .error "ERROR: couldn't parse channel_id"
      | some channelId =>
          match words with
          | [] => .error usagePeer
          | peerPubkeyStr :: _ =>
              match (toVec peerPubkeyStr).bind secp.fromSlice with
              | none => .error "ERROR: couldn't parse peer_pubkey"
              | some peerPubkey => .ok (call channelId peerPubkey)

def closechannel : List String → Except String (CloseCall P) :=
  closeArm secp
    "ERROR: closechannel requires a channel ID: `closechannel <channel_id> <peer_pubkey>`"
    "ERROR: closechannel requires a peer pubkey: `closechannel <channel_id> <peer_pubkey>`"
    .closeChannel

def forceclosechannel : List String → Except String (CloseCall P) :=
  closeArm secp
    "ERROR: forceclosechannel requires a channel ID: `forceclosechannel <channel_id> <peer_pubkey>`"
    "ERROR: forceclosechannel requires a peer pubkey: `forceclosechannel <channel_id> <peer_pubkey>`"
    fun channelId peerPubkey =>
      .forceCloseBroadcastingLatestTxn channelId peerPubkey "Manually force-closed"

/-- The arm `keysend`: the key and the amount, or what is printed.  After the
last text comes the error of `parse`. -/
def keysendArgs : List String → Except String (P × UInt64)
  | [] => .error
      "ERROR: keysend requires a destination pubkey: `keysend <dest_pubkey> <amt_msat>`"
  | dest :: words =>
      match toCompressedPubkey secp dest with
      | none => .error "ERROR: couldn't parse destination pubkey"
      | some destPubkey =>
          match words with
          | [] => .error
              "ERROR: keysend requires an amount in millisatoshis: `keysend <dest_pubkey> <amt_msat>`"
          | amtMsatStr :: _ =>
              match parseU64 amtMsatStr with
              | none => .error "ERROR: couldn't parse amount_msat: "
              | some amtMsat => .ok (destPubkey, amtMsat)

/-- The key of the other side, as `list_channels` prints it. -/
def listedPubkey (counterparty : P) : String := hexStr (secp.serialize counterparty).toList

/-! ## Channel ids -/

variable {secp}

theorem channelIdOf_length {v : Bytes} {id : Vector UInt8 32} (h : channelIdOf v = some id) :
    v.length = 32 := by
  unfold channelIdOf at h
  split at h
  · assumption
  · cases h

/-- An arm that does not turn the channel id down has read digits, in 32 pairs. -/
theorem closeArm_accepts {usageChannel usagePeer s : String} {words : List String}
    {call : Vector UInt8 32 → P → CloseCall P}
    (h : closeArm secp usageChannel usagePeer call (s :: words) ≠
      .error "ERROR: couldn't parse channel_id") :
    (∀ c ∈ s.toList, IsHexDigit c) ∧ s.length / 2 = 32 := by
  cases hid : (toVec s).bind channelIdOf with
  | none => exact absurd (by simp only [closeArm, hid]) h
  | some id =>
      obtain ⟨v, hv, hlen⟩ := Option.bind_eq_some_iff.mp hid
      obtain ⟨hs, rfl⟩ := toVec_eq_some.mp hv
      refine ⟨hs, ?_⟩
      rw [← String.length_toList, ← length_pairBytes]
      exact channelIdOf_length hlen

/-- `s` is read as what it is: a byte string, if it is an even number of digits,
and a channel id, if it is 64 of them. -/
structure ReadsExactly (secp : Secp256k1 P) (s : String) : Prop where
  decodes : ∀ v, toVec s = some v ↔
    (s.length % 2 = 0 ∧ ∀ c ∈ s.toList, IsHexDigit c) ∧ v = pairBytes s.toList
  lower : ∀ v, toVec s = some v → hexStr v = s.toLower
  channel : ∀ words,
    closechannel secp (s :: words) ≠ .error "ERROR: couldn't parse channel_id" ∨
      forceclosechannel secp (s :: words) ≠ .error "ERROR: couldn't parse channel_id" →
    s.length = 64 ∧ ∀ c ∈ s.toList, IsHexDigit c

/-- Every text is read exactly, but for an odd number of digits. -/
theorem reads_exactly_iff (s : String) :
    ReadsExactly secp s ↔ ¬ (s.length % 2 = 1 ∧ ∀ c ∈ s.toList, IsHexDigit c) := by
  constructor
  · rintro h ⟨hodd, hs⟩
    have heven := ((h.decodes _).mp (toVec_digits hs)).1.1
    omega
  · intro hno
    have heven : (∀ c ∈ s.toList, IsHexDigit c) → s.length % 2 = 0 := by
      intro hs
      have hne : s.length % 2 ≠ 1 := fun hodd => hno ⟨hodd, hs⟩
      omega
    refine ⟨?_, ?_, ?_⟩
    · intro v
      rw [toVec_eq_some]
      exact and_congr_left fun _ => ⟨fun hs => ⟨heven hs, hs⟩, And.right⟩
    · intro v hv
      obtain ⟨hs, rfl⟩ := toVec_eq_some.mp hv
      have hlower : s.toLower = s.map Char.toLower := rfl
      refine String.toList_inj.mp ?_
      rw [hexStr_pairBytes (heven hs) hs, hlower, String.toList_map]
    · rintro words (h | h)
      · obtain ⟨hs, hlen⟩ := closeArm_accepts h
        exact ⟨by have := heven hs; omega, hs⟩
      · obtain ⟨hs, hlen⟩ := closeArm_accepts h
        exact ⟨by have := heven hs; omega, hs⟩

/-- One digit too many: the last one is dropped, and a channel force-closed. -/
theorem malformed_id_closes :
    ¬ ReadsExactly Secp256k1.keyBytes (String.ofList (List.replicate 65 '0')) := by
  have hcloses : forceclosechannel .keyBytes [String.ofList (List.replicate 65 '0'),
      "0279be667ef9dcbbac55a06295ce870b07029bfcdb2dce28d959f2815b16f81798"] =
      .ok (.forceCloseBroadcastingLatestTxn (.replicate 32 0) .generator "Manually force-closed") := by
    rfl
  intro h
  have hlen := (h.channel _ (.inr (hcloses.trans_ne nofun))).1
  exact absurd hlen (by decide)

/-! ## Keys -/

/-- A prefix of the digits leaves the loop in a state whose next round is exact. -/
theorem toVec_exact {s : String} {v : Bytes} (h : toVec s = some v) {before after : List UInt8}
    {c : UInt8} (hs : utf8 s = before ++ c :: after) :
    ∃ loop, HexLoop.init.rounds 0 before = some loop ∧ loop.Exact c := by
  obtain ⟨last, hlast, _⟩ := Option.map_eq_some_iff.mp h
  rw [hs, HexLoop.rounds_append] at hlast
  obtain ⟨loop, hloop, _⟩ := Option.bind_eq_some_iff.mp hlast
  exact ⟨loop, hloop, (HexLoop.Waits.init.rounds hloop).exact c⟩

theorem no_at_in_digits {s : String} (h : ∀ c ∈ s.toList, IsHexDigit c) : '@' ∉ s.toList :=
  fun hat => absurd (h _ hat) (by decide)

/-- Bytes written in hexadecimal are read back, whatever the case of the digits,
with exact arithmetic in every round; so is a key, by `to_compressed_pubkey`, by
`keysend` and by `connectpeer`. -/
theorem hex_read_back (hundo : ∀ pubkey, secp.fromSlice (secp.serialize pubkey).toList = some pubkey) :
    (∀ v s, CaseVariant (hexStr v) s → toVec s = some v ∧
      ∀ before c after, utf8 s = before ++ c :: after →
        ∃ loop, HexLoop.init.rounds 0 before = some loop ∧ loop.Exact c) ∧
    ∀ pubkey, toCompressedPubkey secp (listedPubkey secp pubkey) = some pubkey ∧
      (∀ amtWord amt words, parseU64 amtWord = some amt →
        keysendArgs secp (listedPubkey secp pubkey :: amtWord :: words) = .ok (pubkey, amt)) ∧
      ∀ (A : Type) [DecidableEq P] (toSocketAddrs : Resolver A) addrStr addr line words,
        '@' ∉ addrStr.toList → (toSocketAddrs addrStr).bind List.head? = some addr →
        splitWhitespace line =
          "connectpeer" :: (listedPubkey secp pubkey ++ .singleton '@' ++ addrStr) :: words →
        connectpeer secp toSocketAddrs line = (do
          if ← connectPeerIfNecessary pubkey addr then return .connected
          else return .notConnected) := by
  refine ⟨?_, ?_⟩
  · intro v s hs
    have hread := toVec_hexStr hs
    exact ⟨hread, fun before c after h => toVec_exact hread h⟩
  · intro pubkey
    have hkey : toCompressedPubkey secp (listedPubkey secp pubkey) = some pubkey :=
      toCompressedPubkey_hexStr (hundo pubkey) (.refl _)
    refine ⟨hkey, ?_, ?_⟩
    · intro amtWord amt words hamt
      simp only [keysendArgs, hkey, hamt]
    · intro A _ toSocketAddrs addrStr addr line words haddr hresolve hline
      have hat : '@' ∉ (listedPubkey secp pubkey).toList :=
        no_at_in_digits (toVec_eq_some.mp (toVec_hexStr (.refl _))).1
      have hpeer := parsePeerInfo_join hat haddr hkey hresolve
      simp only [connectpeer, hline, List.tail_cons, hpeer]

theorem hex_read_back_generator :
    toVec "0F" = some [0x0f] ∧
      toCompressedPubkey .keyBytes (listedPubkey .keyBytes .generator) = some .generator := by
  have h := hex_read_back Secp256k1.keyBytes_fromSlice
  exact ⟨(h.1 [0x0f] "0F" (by decide)).1, (h.2 .generator).1⟩

end Cli

end LightningNode
