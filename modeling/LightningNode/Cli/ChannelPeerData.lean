/-
# `LightningNode.Cli.ChannelPeerData` — the peers channels were opened with

`persist_channel_peer` appends the word the user typed and a line feed to the
file `channel_peer_data`; `read_channel_peer_data` parses every line of it into
one map.  Nothing says that what is written can be read but that a word has no
white space in it and was accepted by `parse_peer_info` before (`PeerWord`).

    file missing              no peers
    line that is no text      a panic
    line that is no peer      an error, and no peer at all
    two lines with one key    the later address
-/
import LightningNode.Cli.Peers
import LightningNode.Lib.AssocList

namespace LightningNode

open Conc Text

namespace Cli

/-- What a path leads to: nothing, something that cannot be opened, or a file. -/
inductive PeerFile where
  | missing
  | closed
  | bytes (content : Bytes)
  deriving DecidableEq

/-- Why there are no peers. -/
inductive PeerDataError where
  | open
  | panicked
  | peerInfo (e : PeerInfoError)
  deriving DecidableEq

/-- Opened to append, with `create(true)`, and these bytes written. -/
def PeerFile.append : PeerFile → Bytes → Option PeerFile
  | .missing, piece => some (.bytes piece)
  | .closed, _ => none
  | .bytes content, piece => some (.bytes (content ++ piece))

/-- The line of `persist_channel_peer`. -/
def peerLine (peerInfo : String) : Bytes := utf8 (peerInfo ++ "\n")

/-- `persist_channel_peer` -/
def persistChannelPeer (file : PeerFile) (peerInfo : String) : Option PeerFile :=
  file.append (peerLine peerInfo)

variable {P A : Type} (secp : Secp256k1 P) (toSocketAddrs : Resolver A)

/-- A word of a line that `parse_peer_info` accepts. -/
structure PeerWord where
  text : String
  no_space : ∀ c ∈ text.toList, isWhitespace c = false
  pubkey : P
  addr : A
  accepted : parsePeerInfo secp toSocketAddrs text = .ok (pubkey, addr)

theorem PeerWord.oneLine {secp : Secp256k1 P} {toSocketAddrs : Resolver A}
    (w : PeerWord secp toSocketAddrs) : OneLine w.text :=
  oneLine_of_word w.no_space

variable [DecidableEq P]

/-- A `HashMap<PublicKey, SocketAddr>`. -/
abbrev PeerData (P A : Type) := AList fun _ : P => A

/-- The loop over `reader.lines()`. -/
def readPeerLines : List (Option String) → PeerData P A → Except PeerDataError (PeerData P A)
  | [], peerData => .ok peerData
  | none :: _, _ => .error .panicked
  | some line :: lines, peerData =>
      match parsePeerInfo secp toSocketAddrs line with
      | .ok (pubkey, socketAddr) => readPeerLines lines (peerData.insert pubkey socketAddr)
      | .error e => .error (.peerInfo e)

/-- `read_channel_peer_data` -/
def readChannelPeerData : PeerFile → Except PeerDataError (PeerData P A)
  | .missing => .ok ∅
  | .closed => .error .open
  | .bytes content => readPeerLines secp toSocketAddrs (bufLines content) ∅

/-! ## Words that are written -/

variable {secp toSocketAddrs}

namespace PeerWord

variable (words : List (PeerWord secp toSocketAddrs))

/-- The address of the last word with the key. -/
def lastAddr (pubkey : P) : Option A :=
  (words.filter (·.pubkey = pubkey)).getLast?.map (·.addr)

/-- The words written out. -/
def written : Bytes := words.flatMap fun w => peerLine w.text

/-- The words put into a map one after another. -/
def insertAll (peerData : PeerData P A) : PeerData P A :=
  words.foldl (fun m w => m.insert w.pubkey w.addr) peerData

omit [DecidableEq P] in
theorem persist_all (content : Bytes) :
    (words.map (·.text)).foldlM persistChannelPeer (.bytes content)
      = some (.bytes (content ++ written words)) := by
  induction words generalizing content with
  | nil => simp [written]
  | cons w words ih =>
      rw [List.map_cons, List.foldlM_cons]
      show (words.map (·.text)).foldlM persistChannelPeer (.bytes (content ++ peerLine w.text)) = _
      rw [ih, written, written, List.flatMap_cons, List.append_assoc]

/-- What was written is read as the words it was made of. -/
theorem read_all (peerData : PeerData P A) :
    readPeerLines secp toSocketAddrs (bufLines (written words)) peerData
      = .ok (insertAll words peerData) := by
  induction words generalizing peerData with
  | nil =>
      rw [written, List.flatMap_nil, bufLines_nil]
      rfl
  | cons w words ih =>
      rw [written, List.flatMap_cons, peerLine, bufLines_cons w.oneLine, readPeerLines, w.accepted]
      exact ih _

theorem lastAddr_cons (w : PeerWord secp toSocketAddrs) (pubkey : P) :
    lastAddr (w :: words) pubkey =
      (lastAddr words pubkey).or (if w.pubkey = pubkey then some w.addr else none) := by
  unfold lastAddr
  by_cases hw : w.pubkey = pubkey
  · rw [List.filter_cons_of_pos (by simpa using hw), List.getLast?_cons, if_pos hw]
    cases (words.filter (·.pubkey = pubkey)).getLast? <;> rfl
  · rw [List.filter_cons_of_neg (by simpa using hw), if_neg hw, Option.or_none]

theorem lookup_insertAll (peerData : PeerData P A) (pubkey : P) :
    (insertAll words peerData).lookup pubkey
      = (lastAddr words pubkey).or (peerData.lookup pubkey) := by
  induction words generalizing peerData with
  | nil => rfl
  | cons w words ih =>
      have hstep : insertAll (w :: words) peerData =
          insertAll words (peerData.insert w.pubkey w.addr) := rfl
      rw [hstep, ih, lastAddr_cons, AList.lookup_insert_ite, Option.or_assoc]
      by_cases hw : w.pubkey = pubkey
      · rw [if_pos hw, if_pos hw.symm, Option.some_or]
      · rw [if_neg hw, if_neg (Ne.symm hw), Option.none_or]

/-- There is a last word with the key if there is any. -/
theorem lastAddr_isSome (pubkey : P) :
    (lastAddr words pubkey).isSome ↔ ∃ w ∈ words, w.pubkey = pubkey := by
  rw [lastAddr, Option.isSome_map, Option.isSome_iff_ne_none, ne_eq, List.getLast?_eq_none_iff,
    List.filter_eq_nil_iff]
  simp

end PeerWord

open PeerWord

/-- What was appended to a file that was not there is read back: the keys of the
words, each with the address of the last word that has it.  A missing file has no
peers. -/
theorem channel_peers_read_back :
    readChannelPeerData secp toSocketAddrs .missing = .ok ∅ ∧
    ∀ words : List (PeerWord secp toSocketAddrs), ∃ file peerData,
      (words.map (·.text)).foldlM persistChannelPeer .missing = some file ∧
      readChannelPeerData secp toSocketAddrs file = .ok peerData ∧
      (∀ pubkey, pubkey ∈ peerData ↔ ∃ w ∈ words, w.pubkey = pubkey) ∧
      ∀ pubkey, peerData.lookup pubkey = lastAddr words pubkey := by
  refine ⟨rfl, fun words => ?_⟩
  obtain ⟨file, hfile, hread⟩ : ∃ file,
      (words.map (·.text)).foldlM persistChannelPeer .missing = some file ∧
      readChannelPeerData secp toSocketAddrs file = .ok (insertAll words ∅) := by
    cases words with
    | nil => exact ⟨.missing, rfl, rfl⟩
    | cons w words =>
        exact ⟨_, persist_all words (peerLine w.text), read_all (w :: words) ∅⟩
  have hlookup : ∀ pubkey, (insertAll words ∅).lookup pubkey = lastAddr words pubkey := by
    intro pubkey
    rw [lookup_insertAll, AList.lookup_empty, Option.or_none]
  refine ⟨file, _, hfile, hread, fun pubkey => ?_, hlookup⟩
  rw [← AList.lookup_isSome, hlookup, lastAddr_isSome]

/-! ## The words `openchannel` writes -/

theorem connectPeerIfNecessary_persists {peers : List P} {pubkey : P} {addr : A} :
    Ends (asking peers) (connectPeerIfNecessary pubkey addr) [] fun _ done =>
      done.filterMap PeerAct.persisted = [] := by
  refine .act fun r done he => ?_
  obtain ⟨rfl, rfl⟩ := he
  show Ends _ (if pubkey ∈ r then _ else _) _ _
  split
  · exact .ret rfl
  · refine .act fun connected done he => ?_
    obtain rfl := he
    exact .ret rfl

/-- What `openchannel` appends is a word of the line that was accepted. -/
theorem openchannel_persists {peers : List P} {ldkDataDir line : String} :
    Ends (asking peers) (openchannel secp toSocketAddrs ldkDataDir line) [] fun _ done =>
      ∀ text ∈ done.filterMap PeerAct.persisted, ∃ w : PeerWord secp toSocketAddrs, w.text = text := by
  unfold openchannel
  cases htail : (splitWhitespace line).tail with
  | nil => exact .ret nofun
  | cons peerWord words =>
      cases words with
      | nil => exact .ret nofun
      | cons amountWord words =>
          simp only
          cases hpeer : parsePeerInfo secp toSocketAddrs peerWord with
          | error e => exact .ret nofun
          | ok info =>
              have hword : ∃ w : PeerWord secp toSocketAddrs, w.text = peerWord := by
                have hmem : peerWord ∈ splitWhitespace line :=
                  List.mem_of_mem_tail (htail ▸ .head _)
                exact ⟨⟨peerWord, not_isWhitespace hmem, info.1, info.2, hpeer⟩, rfl⟩
              cases hamount : parseU64 amountWord with
              | none => exact .ret nofun
              | some sat =>
                  refine .bind _ connectPeerIfNecessary_persists fun connected done hc => ?_
                  cases connected with
                  | false =>
                      refine .ret ?_
                      rw [hc]
                      exact nofun
                  | true =>
                      refine .bind _ openChannel_ends fun created done' hd => ?_
                      obtain rfl := hd
                      cases created with
                      | false =>
                          refine .ret ?_
                          rw [List.filterMap_cons_none rfl, hc]
                          exact nofun
                      | true =>
                          refine .act fun r done' he => ?_
                          obtain rfl := he
                          refine .ret ?_
                          show ∀ text ∈ peerWord :: done.filterMap PeerAct.persisted, _
                          rw [hc]
                          exact List.forall_mem_singleton.mpr hword

end Cli

end LightningNode
