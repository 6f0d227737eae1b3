/-
# `LightningNode.Cli.PeerInfo` — `pubkey@host:port`

`parse_peer_info` of `cli.rs`.  The text is split at every `@`, and what comes
after a second one is not looked at.  The name is resolved before the key is
read:

    no `@`                          the text has the wrong format
    no address for the host         the address cannot be parsed
    no 66 digits of a valid key     the key cannot be parsed
-/
import LightningNode.HexUtils

namespace LightningNode

open Conc Text

namespace Cli

/-- The errors of `parse_peer_info`. -/
inductive PeerInfoError where
  | format
  | socketAddr
  | pubkey
  deriving DecidableEq

def PeerInfoError.text : PeerInfoError → String
  | .format =>
      "ERROR: incorrectly formatted peer info. Should be formatted as: `pubkey@host:port`"
  | .socketAddr => "ERROR: couldn't parse pubkey@host:port into a socket address"
  | .pubkey => "ERROR: unable to parse given pubkey for node"

/-- `to_socket_addrs` of a text, an error being `none`. -/
abbrev Resolver (A : Type) := String → Option (List A)

variable {P A : Type} (secp : Secp256k1 P) (toSocketAddrs : Resolver A)

/-- `parse_peer_info` -/
def parsePeerInfo (peerPubkeyAndIpAddr : String) : Except PeerInfoError (P × A) :=
  let pubkeyAndAddr := split '@' peerPubkeyAndIpAddr
  match pubkeyAndAddr[1]? with
  | none => .error .format
  | some peerAddrStr =>
      match (toSocketAddrs peerAddrStr).bind List.head? with
      | none => .error .socketAddr
      | some peerAddr =>
          match toCompressedPubkey secp (pubkeyAndAddr.headD "") with
          | none => .error .pubkey
          | some pubkey => .ok (pubkey, peerAddr)

variable {secp toSocketAddrs}

/-- What is parsed: a key of 66 digits, an address after the first `@`. -/
theorem parsePeerInfo_ok {s : String} {pubkey : P} {addr : A} :
    parsePeerInfo secp toSocketAddrs s = .ok (pubkey, addr) ↔
      ∃ addrStr, (split '@' s)[1]? = some addrStr ∧
        (toSocketAddrs addrStr).bind List.head? = some addr ∧
        toCompressedPubkey secp ((split '@' s).headD "") = some pubkey := by
  cases hs : (split '@' s)[1]? with
  | none => simp [parsePeerInfo, hs]
  | some addrStr =>
      cases ha : (toSocketAddrs addrStr).bind List.head? with
      | none => simp [parsePeerInfo, hs, ha]
      | some a =>
          cases hp : toCompressedPubkey secp ((split '@' s).headD "") with
          | none => simp only [parsePeerInfo, hs, ha, hp, reduceCtorEq, and_false, exists_false]
          | some p =>
              simp only [parsePeerInfo, hs, ha, hp, Except.ok.injEq, Prod.mk.injEq,
                Option.some.injEq, exists_eq_left', and_comm]

/-- The key and the address, with an `@` between them. -/
theorem parsePeerInfo_join {keyStr addrStr : String} {pubkey : P} {addr : A}
    (hkey : '@' ∉ keyStr.toList) (haddr : '@' ∉ addrStr.toList)
    (hp : toCompressedPubkey secp keyStr = some pubkey)
    (ha : (toSocketAddrs addrStr).bind List.head? = some addr) :
    parsePeerInfo secp toSocketAddrs (keyStr ++ .singleton '@' ++ addrStr) = .ok (pubkey, addr) := by
  have hsplit := split_two hkey haddr
  refine parsePeerInfo_ok.mpr ⟨addrStr, ?_, ha, ?_⟩
  · rw [hsplit]
    rfl
  · rw [hsplit]
    exact hp

end Cli

end LightningNode
