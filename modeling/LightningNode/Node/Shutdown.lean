/-
# `LightningNode.Node.Shutdown` — the end of `start_ldk` and the tasks that connect

Five kinds of tasks bring about connections with peers.

    accept loop        accepts a stream, tests the flag, spawns a task for it
    inbound tasks      hand their stream to the peer manager
    reconnect loop     tests the flag for each peer, then connects
    ConnectionNeeded   connect without testing the flag
    CLI                connects when told to by a command

The programs of the last three are those of `LightningNode.Cli.Peers` and
`LightningNode.Node.Reconnect`.  The shutdown waits for the CLI or the background
processor to end, sets the flag, disconnects all peers, and either makes a last
attempt to persist the `ChannelManager` or tells the background processor to stop.

A turn of a loop is a program; a loop that has returned is not started again.
-/
import LightningNode.Node.Reconnect

namespace LightningNode

open Conc Cli Text Reconnect

/-! ## Actions -/

/-- How `process_events_async` ended: `Ok(Ok(()))`, `Ok(Err(_))`, or the `Err` of the
join. -/
inductive BgExit where
  | ok
  | failed
  | joinError
  deriving DecidableEq

inductive NodeTask where
  | main
  | background
  | accept
  | inbound (n : Nat)
  | reconnect
  | needed (n : Nat)
  | cli
  deriving DecidableEq

inductive NodeAct (P A : Type) where
  /-- `tokio::select!` on the CLI (`none`) and the background processor -/
  | select
  /-- `stop_listen_connect.store(true, Ordering::Release)` -/
  | storeStop
  | disconnectAllPeers
  /-- the last-ditch `persister.write(..)` of the `ChannelManager` -/
  | writeManager
  /-- `bp_exit.is_closed()` -/
  | bpExitIsClosed
  /-- `bp_exit.send(())` -/
  | bpExitSend
  | awaitBackground
  /-- the whole of `process_events_async` -/
  | processEvents
  /-- `listener.accept().await` -/
  | accept
  /-- `stop_listen.load(Ordering::Acquire)` -/
  | loadStop
  | spawnInbound
  | setupInbound
  /-- an action of the reconnect loop, or of a call of `connect_peer_if_necessary` -/
  | peers (a : ReconnectAct P A)
  /-- an address of the event is resolved -/
  | toSocketAddrs (address : String)
  /-- a line is read, unless there is none -/
  | readCommand

abbrev NodeAct.Answer {P A : Type} : NodeAct P A → Type
  | .select => Option BgExit
  | .writeManager | .bpExitIsClosed | .bpExitSend | .loadStop => Bool
  | .awaitBackground | .processEvents => BgExit
  | .peers a => a.Answer
  | .toSocketAddrs _ => Option (List A)
  | .readCommand => Option String
  | _ => Unit

/-- How a program ended: for a loop, whether there is another turn. -/
inductive TaskEnd where
  | again
  | returned
  | panicked

abbrev NodeProg (P A : Type) := Prog (NodeAct P A) NodeAct.Answer

/-! ## Programs -/

section

variable {P A : Type}

/-- From `tokio::select!` to the end of `start_ldk`. -/
def shutdown : NodeProg P A TaskEnd :=
  .act .select fun bgRes =>
  .act .storeStop fun _ =>
  .act .disconnectAllPeers fun _ =>
  match bgRes with
  | some .joinError => .act .writeManager fun _ => .ret .panicked
  | _ => .act .bpExitIsClosed fun
      | true => .ret .returned
      | false => .act .bpExitSend fun
          | false => .ret .panicked
          | true => .act .awaitBackground fun
              | .ok => .ret .returned
              | _ => .ret .panicked

def backgroundProcessor : NodeProg P A TaskEnd :=
  .act .processEvents fun _ => .ret .returned

def acceptLoop : NodeProg P A TaskEnd :=
  .act .accept fun _ =>
  .act .loadStop fun
    | true => .ret .returned
    | false => .act .spawnInbound fun _ => .ret .again

def inboundTask : NodeProg P A TaskEnd :=
  .act .setupInbound fun _ => .ret .returned

/-- A program about peers, among the rest. -/
def onPeers {β : Type} (p : ReconnectProg P A β) : NodeProg P A β :=
  p.expand fun a => .act (.peers a) fun r => .ret (.ok r)

variable [DecidableEq P]

def reconnectLoop (ldkDataDir : String) : NodeProg P A TaskEnd :=
  onPeers (reconnectRound ldkDataDir) >>= fun
    | .returned => .ret .returned
    | .panicked => .ret .panicked
    | _ => .ret .again

/-- `for addr in sockaddrs` -/
def connectFirst (nodeId : P) (next : NodeProg P A TaskEnd) : List A → NodeProg P A TaskEnd
  | [] => next
  | addr :: addrs =>
      onPeers ((connectPeerIfNecessary nodeId addr).expand carry) >>= fun
        | true => .ret .returned
        | false => connectFirst nodeId next addrs

/-- `Event::ConnectionNeeded` -/
def connectionNeeded (nodeId : P) : List String → NodeProg P A TaskEnd
  | [] => .ret .returned
  | address :: addresses => .act (.toSocketAddrs address) fun
      | none => connectionNeeded nodeId addresses
      | some sockaddrs => connectFirst nodeId (connectionNeeded nodeId addresses) sockaddrs

/-- A turn of `poll_for_user_input`. -/
def pollForUserInput (secp : Secp256k1 P) (toSocketAddrs : Resolver A) (ldkDataDir : String) :
    NodeProg P A TaskEnd :=
  .act .readCommand fun
    | none => .ret .returned
    | some line =>
        match (splitWhitespace line).head? with
        | some "openchannel" =>
            onPeers (command (openchannel secp toSocketAddrs ldkDataDir line)) >>= fun _ =>
              .ret .again
        | some "connectpeer" =>
            onPeers (command (connectpeer secp toSocketAddrs line)) >>= fun _ => .ret .again
        | some "quit" | some "exit" => .ret .returned
        -- the other commands connect to nobody
        | _ => .ret .again

end

/-! ## The node -/

/-- How far a task is on its way to a connection: whether it has a stream that the flag
let past; and, for the reconnect loop, what it has read, whom it last looked for, and
which attempts the last test of the flag allowed and are not made yet. -/
structure Way (P A : Type) where
  passed : Bool
  info : Option (PeerData P A)
  asked : Option P
  allowed : List (P × A)

namespace Way

variable {P A : Type}

def none : Way P A := ⟨false, .none, .none, []⟩

/-- No connection is on its way. -/
def Clear (w : Way P A) : Prop := w.passed = false ∧ w.allowed = []

theorem none_clear : (none : Way P A).Clear := ⟨rfl, rfl⟩

variable [DecidableEq P]

/-- The attempts at the peer last looked for. -/
def due (w : Way P A) : List (P × A) :=
  match w.info, w.asked with
  | some info, some nodeId => (info.lookup nodeId).toList.map (nodeId, ·)
  | _, _ => []

def after (w : Way P A) : (a : NodeAct P A) → a.Answer → Way P A
  | .loadStop, stop => { w with passed := !stop }
  | .spawnInbound, _ | .setupInbound, _ => { w with passed := false }
  | .peers (.readChannelPeerData _), r => { w with info := r.toOption }
  | .peers (.peerByNodeId nodeId), _ => { w with asked := some nodeId }
  | .peers .stopConnect, stop => { w with allowed := if stop then [] else w.due }
  | .peers (.doConnectPeer _ _), _ => { w with allowed := w.allowed.tail }
  | _, _ => w

end Way

/-- The flag, the background processor's exit, the CLI's, the spawned inbound
tasks that have not started, and the loops that have returned; as history, what
`select!` gave, whether all peers were disconnected and the last-ditch write was
attempted, the ways to connections, and the number of connections established after
the peers were disconnected. -/
structure RunningNode (P A : Type) where
  stop : Bool
  background : Option BgExit
  told : Bool
  cliEnded : Bool
  spawned : List Nat
  returned : List NodeTask
  exited : Bool
  selected : Option (Option BgExit)
  disconnected : Bool
  attempted : Bool
  way : NodeTask → Way P A
  late : Nat

namespace RunningNode

variable {P A : Type}

def new : RunningNode P A :=
  ⟨false, none, false, false, [], [], false, none, false, false, fun _ => .none, 0⟩

def connected (s : RunningNode P A) : RunningNode P A :=
  { s with late := s.late + if s.disconnected then 1 else 0 }

def setWay (s : RunningNode P A) (t : NodeTask) (w : Way P A) : RunningNode P A :=
  { s with way := Function.update s.way t w }

/-- What an action does, whosever it is.  An attempt to connect that fails may have got as
far as a connection. -/
def Outcome : (a : NodeAct P A) → RunningNode P A → a.Answer → RunningNode P A → Prop
  | .select, s, r, s' =>
      ((r = none ∧ s.cliEnded = true) ∨ (r ≠ none ∧ s.background = r)) ∧
      s' = { s with selected := some r }
  | .storeStop, s, _, s' => s' = { s with stop := true }
  | .disconnectAllPeers, s, _, s' => s' = { s with disconnected := true }
  | .writeManager, s, _, s' => s' = { s with attempted := true }
  | .bpExitIsClosed, s, r, s' => r = s.background.isSome ∧ s' = s
  | .bpExitSend, s, r, s' => r = s.background.isNone ∧ s' = { s with told := true }
  | .awaitBackground, s, r, s' => s.background = some r ∧ s' = s
  | .processEvents, s, r, s' => s' = { s with background := some r }
  | .loadStop, s, r, s' | .peers .stopConnect, s, r, s' => r = s.stop ∧ s' = s
  | .spawnInbound, s, _, s' => ∃ n, s' = { s with spawned := n :: s.spawned }
  | .setupInbound, s, _, s' => s' = s.connected
  | .peers (.doConnectPeer _ _), s, r, s' | .peers (.peer (.doConnectPeer _ _)), s, r, s' =>
      s' = s.connected ∨ r = false ∧ s' = s
  | _, s, _, s' => s' = s

variable [DecidableEq P]

def Effect (t : NodeTask) (a : NodeAct P A) (s : RunningNode P A) (r : a.Answer)
    (s' : RunningNode P A) : Prop :=
  ∃ s₁, Outcome a s r s₁ ∧ s' = s₁.setWay t ((s.way t).after a r)

end RunningNode

section

variable {P A : Type} [DecidableEq P] (secp : Secp256k1 P) (toSocketAddrs : Resolver A)
  (ldkDataDir : String)

/-- The program a task runs next, and what its start does to the node. -/
def NodeTask.Starts : NodeTask → RunningNode P A → NodeProg P A TaskEnd → RunningNode P A → Prop
  | .main, _, _, _ => False
  | .background, s, p, s' => s.background = none ∧ p = backgroundProcessor ∧ s' = s
  | .accept, s, p, s' => .accept ∉ s.returned ∧ p = acceptLoop ∧ s' = s
  | .inbound n, s, p, s' => n ∈ s.spawned ∧ p = inboundTask ∧
      s' = { s.setWay (.inbound n) { Way.none with passed := true } with
        spawned := s.spawned.erase n }
  | .reconnect, s, p, s' => .reconnect ∉ s.returned ∧ p = reconnectLoop ldkDataDir ∧ s' = s
  | .needed _, s, p, s' => (∃ nodeId addresses, p = connectionNeeded nodeId addresses) ∧ s' = s
  | .cli, s, p, s' => s.cliEnded = false ∧
      p = pollForUserInput secp toSocketAddrs ldkDataDir ∧ s' = s

omit [DecidableEq P] in
/-- The task is done with its turn.  With `main` the process ends. -/
def NodeTask.Finishes : NodeTask → TaskEnd → RunningNode P A → RunningNode P A → Prop
  | .main, _, s, s' => s' = { s.setWay .main .none with exited := true }
  | .cli, out, s, s' => s' = { s.setWay .cli .none with
      cliEnded := s.cliEnded || match out with | .again => false | _ => true }
  | t, out, s, s' => s' = { s.setWay t .none with
      returned := match out with | .again => s.returned | _ => t :: s.returned }

/-- Nothing happens any more once the process has ended. -/
def shutdownNode : System NodeTask (NodeAct P A) NodeAct.Answer TaskEnd (RunningNode P A) where
  exec t a s r s' := s.exited = false ∧ RunningNode.Effect t a s r s'
  start t s p s' := s.exited = false ∧ t.Starts secp toSocketAddrs ldkDataDir s p s'
  finish t out s s' := s.exited = false ∧ t.Finishes out s s'
  env _ _ := False
  crash _ _ := False

end

/-- `start_ldk` has come to `tokio::select!`. -/
def running {P A : Type} : Config NodeTask (NodeAct P A) NodeAct.Answer TaskEnd (RunningNode P A) :=
  ⟨.new, fun t => if t = .main then some shutdown else none⟩

namespace RunningNode

variable {P A : Type}

/-- No connection after the peers were disconnected; and no end of the process
after a failure of the background processor without the last-ditch write. -/
def Clean (s : RunningNode P A) : Prop :=
  s.late = 0 ∧
    (s.exited = true → s.background = some .failed ∨ s.background = some .joinError →
      s.attempted = true)

/-- When the peers are disconnected, there is no stream that the flag let past, and the
reconnect loop has made the attempts it was allowed; afterwards there is no other attempt
to connect, that is one that does not test the flag; and the background processor fails in
no way but with an error of the join that `select!` is there to see. -/
def Timely (_ : NodeTask) : (a : NodeAct P A) → RunningNode P A → a.Answer → Prop
  | .disconnectAllPeers, s, _ => s.spawned = [] ∧ ∀ t, (s.way t).Clear
  | .peers (.peer (.doConnectPeer _ _)), s, _ => s.disconnected = false
  | .processEvents, s, r => r ≠ .failed ∧ (r = .joinError → s.selected = none)
  | .select, s, r => s.background = some .joinError → r = some .joinError
  | _, _, _ => True

end RunningNode

/-! ## What a task has done -/

/-- How far the shutdown has come. -/
inductive Stage where
  | none
  | waiting
  | selected (r : Option BgExit)
  | stopped (r : Option BgExit)
  | disconnected (r : Option BgExit)
  | attempted

def Stage.after {P A : Type} (g : Stage) : (a : NodeAct P A) → a.Answer → Stage
  | .select, r => .selected r
  | .storeStop, _ =>
      match g with
      | .selected r => .stopped r
      | _ => g
  | .disconnectAllPeers, _ =>
      match g with
      | .stopped r => .disconnected r
      | _ => g
  | .writeManager, _ => .attempted
  | _, _ => g

structure Course (P A : Type) where
  way : Way P A
  stage : Stage

namespace Course

variable {P A : Type}

def none : Course P A := ⟨.none, .none⟩

/-- What the flag has to let past, and the order of the shutdown. -/
def permits (h : Course P A) : NodeAct P A → Prop
  | .spawnInbound | .setupInbound => h.way.passed = true
  | .peers (.doConnectPeer _ _) => h.way.allowed ≠ []
  | .select => h.stage = .waiting
  | .storeStop => ∃ r, h.stage = .selected r
  | .disconnectAllPeers => ∃ r, h.stage = .stopped r
  | .writeManager => ∃ r, h.stage = .disconnected r
  | _ => True

/-- The shutdown ends without an error of the join, or with the last-ditch write. -/
def Ended (_ : TaskEnd) (h : Course P A) : Prop :=
  h.stage = .none ∨ (∃ r, r ≠ some .joinError ∧ h.stage = .disconnected r) ∨
    h.stage = .attempted

end Course

section

variable {P A : Type} [DecidableEq P]

def course : Typestate (NodeAct P A) NodeAct.Answer (Course P A) where
  permits := Course.permits
  answers _ _ _ := True
  after h a r := ⟨h.way.after a r, h.stage.after a r⟩

/-- The same of a program about peers: it dials when it was allowed to. -/
def flagged : Typestate (ReconnectAct P A) ReconnectAct.Answer (Way P A) where
  permits w
    | .doConnectPeer _ _ => w.allowed ≠ []
    | _ => True
  answers _ _ _ := True
  after w a r := w.after (.peers a) r

/-! ### The programs -/

theorem follows_onPeers {β : Type} {Q : β → Way P A → Prop} {p : ReconnectProg P A β} {w : Way P A}
    (hp : flagged.Follows Q p w) :
    course.Follows (fun x h => h.stage = .none ∧ Q x h.way) (onPeers p) ⟨w, .none⟩ := by
  refine Typestate.Follows.expand (E := fun w h => h = ⟨w, .none⟩) ?_ ?_ hp rfl
  · rintro w _ a rfl ha
    refine .act ?_ fun r _ => ⟨trivial, rfl⟩
    cases a with
    | doConnectPeer pubkey addr => exact ha
    | _ => exact trivial
  · rintro x w _ rfl hx
    exact ⟨rfl, hx⟩

variable {w : Way P A} {info : PeerData P A}

/-- The inner loop makes the attempts that were allowed. -/
theorem flagged_connectEach {nodeId : P} {entries : List ((_ : P) × A)} (hinfo : w.info = some info)
    (hallowed : w.allowed = (entries.filter (·.1 = nodeId)).map fun x => (x.1, x.2)) :
    flagged.Follows (fun _ w' => w'.info = some info ∧ w'.allowed = []) (connectEach nodeId entries)
      w := by
  induction entries generalizing w with
  | nil => exact ⟨hinfo, hallowed⟩
  | cons x entries ih =>
      obtain ⟨pubkey, peerAddr⟩ := x
      unfold connectEach
      by_cases hkey : pubkey = nodeId
      · rw [if_pos hkey]
        rw [List.filter_cons_of_pos (by simpa using hkey), List.map_cons] at hallowed
        refine .act ?_ fun _ _ => ih (by exact hinfo) ?_
        · show w.allowed ≠ []
          rw [hallowed]
          exact List.cons_ne_nil _ _
        · show w.allowed.tail = _
          rw [hallowed, List.tail_cons]
      · rw [if_neg hkey]
        rw [List.filter_cons_of_neg (by simpa using hkey)] at hallowed
        exact ih hinfo hallowed

theorem flagged_reconnectEach {channels : List P} (hinfo : w.info = some info) :
    flagged.Follows (fun _ _ => True) (reconnectEach info channels) w := by
  induction channels generalizing w with
  | nil => exact trivial
  | cons nodeId channels ih =>
      refine .act trivial fun there _ => ?_
      cases there with
      | true => exact ih (by exact hinfo)
      | false =>
          refine .act trivial fun stop _ => ?_
          cases stop with
          | true => exact trivial
          | false =>
              refine Typestate.Follows.bind (fun _ w' hw => ih hw.1)
                (flagged_connectEach (by exact hinfo) ?_)
              rw [entries_of_key info.nodupKeys]
              show Way.due { w with asked := some nodeId } = _
              rw [Way.due, hinfo]
              rfl

theorem flagged_reconnectRound {ldkDataDir : String} :
    flagged.Follows (fun _ _ => True) (reconnectRound (P := P) (A := A) ldkDataDir) w := by
  refine .act trivial fun r _ => ?_
  cases r with
  | error e => cases e <;> exact trivial
  | ok info => exact .act trivial fun channels _ => flagged_reconnectEach rfl

theorem flagged_writeAll {path : String} {bytes : Bytes} :
    flagged.Follows (fun _ w' => w' = w) (writeAll path bytes) w := by
  induction bytes with
  | nil => exact rfl
  | cons byte bytes ih =>
      refine .act trivial fun written _ => ?_
      cases written with
      | true => exact ih
      | false => exact rfl

/-- The calls of a command do not go by the flag. -/
theorem flagged_carry {β : Type} (a : PeerAct P A) :
    flagged.Follows (fun r w' => w' = w ∧ ∃ x, r = .ok x) (carry (β := β) a) w := by
  cases a with
  | persistChannelPeer path peerInfo =>
      refine .act trivial fun opened _ => ?_
      cases opened with
      | false => exact ⟨rfl, false, rfl⟩
      | true =>
          refine Typestate.Follows.bind ?_ flagged_writeAll
          rintro r _ rfl
          exact ⟨rfl, r, rfl⟩
  | _ => exact .act trivial fun r _ => ⟨rfl, r, rfl⟩

theorem flagged_expand {β : Type} (p : PeerProg P A β) :
    flagged.Follows (fun _ w' => w' = w) (p.expand carry) w := by
  induction p with
  | ret x => exact rfl
  | act a k ih =>
      rw [Prog.expand_act]
      refine Typestate.Follows.bind ?_ (flagged_carry a)
      rintro _ _ ⟨rfl, x, rfl⟩
      exact ih x

theorem follows_ended {β : Type} {p : ReconnectProg P A β} {f : β → NodeProg P A TaskEnd}
    (hp : flagged.Follows (fun _ _ => True) p w)
    (hf : ∀ x w', course.Follows Course.Ended (f x) ⟨w', .none⟩) :
    course.Follows Course.Ended (onPeers p >>= f) ⟨w, .none⟩ := by
  refine Typestate.Follows.bind ?_ (follows_onPeers hp)
  rintro x ⟨w', _⟩ ⟨rfl, _⟩
  exact hf x w'

theorem follows_ret {out : TaskEnd} : course.Follows Course.Ended (.ret out) ⟨w, .none⟩ := .inl rfl

theorem follows_reconnectLoop {ldkDataDir : String} :
    course.Follows Course.Ended (reconnectLoop (P := P) (A := A) ldkDataDir) ⟨w, .none⟩ := by
  refine follows_ended flagged_reconnectRound fun x w' => ?_
  cases x <;> exact follows_ret

theorem follows_command {p : PeerProg P A PeerEnding} :
    course.Follows Course.Ended (onPeers (command p) >>= fun _ => .ret .again) ⟨w, .none⟩ := by
  refine follows_ended ?_ fun _ _ => follows_ret
  refine Typestate.Follows.bind ?_ (flagged_expand p)
  intro e w' _
  exact trivial

theorem follows_connectFirst {nodeId : P} {next : NodeProg P A TaskEnd}
    (hnext : ∀ w, course.Follows Course.Ended next ⟨w, .none⟩) (addrs : List A) :
    course.Follows Course.Ended (connectFirst nodeId next addrs) ⟨w, .none⟩ := by
  induction addrs generalizing w with
  | nil => exact hnext w
  | cons addr addrs ih =>
      refine follows_ended ((flagged_expand _).mono fun _ _ _ => trivial) fun connected w' => ?_
      cases connected with
      | true => exact follows_ret
      | false => exact ih

theorem follows_connectionNeeded {nodeId : P} {addresses : List String} :
    course.Follows Course.Ended (connectionNeeded (A := A) nodeId addresses) ⟨w, .none⟩ := by
  induction addresses generalizing w with
  | nil => exact follows_ret
  | cons address addresses ih =>
      refine .act trivial fun r _ => ?_
      cases r with
      | none => exact ih
      | some sockaddrs => exact follows_connectFirst (fun _ => ih) sockaddrs

theorem follows_pollForUserInput {secp : Secp256k1 P} {toSocketAddrs : Resolver A}
    {ldkDataDir : String} :
    course.Follows Course.Ended (pollForUserInput secp toSocketAddrs ldkDataDir) ⟨w, .none⟩ := by
  refine .act trivial fun r _ => ?_
  cases r with
  | none => exact follows_ret
  | some line =>
      dsimp only
      split
      · exact follows_command
      · exact follows_command
      · exact follows_ret
      · exact follows_ret
      · exact follows_ret

theorem follows_acceptLoop : course.Follows Course.Ended (acceptLoop (P := P) (A := A)) .none := by
  refine .act trivial fun _ _ => .act trivial fun stop _ => ?_
  cases stop with
  | true => exact follows_ret
  | false => exact .act rfl fun _ _ => follows_ret

theorem follows_inboundTask (hpassed : w.passed = true) :
    course.Follows Course.Ended (inboundTask (P := P) (A := A)) ⟨w, .none⟩ :=
  .act hpassed fun _ _ => follows_ret

theorem follows_shutdown :
    course.Follows Course.Ended (shutdown (P := P) (A := A)) ⟨.none, .waiting⟩ := by
  refine .act rfl fun bgRes _ => .act ⟨bgRes, rfl⟩ fun _ _ => .act ⟨bgRes, rfl⟩ fun _ _ => ?_
  have hstop : bgRes ≠ some .joinError → (course (P := P) (A := A)).Follows Course.Ended
      (.act .bpExitIsClosed fun
        | true => .ret .returned
        | false => .act .bpExitSend fun
            | false => .ret .panicked
            | true => .act .awaitBackground fun
                | .ok => .ret .returned
                | _ => .ret .panicked) ⟨.none, .disconnected bgRes⟩ := by
    intro hne
    have hend : ∀ out, Course.Ended out (⟨.none, .disconnected bgRes⟩ : Course P A) :=
      fun _ => .inr (.inl ⟨bgRes, hne, rfl⟩)
    refine .act trivial fun closed _ => ?_
    cases closed with
    | true => exact hend _
    | false =>
        refine .act trivial fun sent _ => ?_
        cases sent with
        | false => exact hend _
        | true =>
            refine .act trivial fun result _ => ?_
            cases result <;> exact hend _
  cases bgRes with
  | none => exact hstop nofun
  | some result =>
      cases result with
      | ok | failed => exact hstop nofun
      | joinError => exact .act ⟨_, rfl⟩ fun _ _ => .inr (.inr rfl)

end

/-! ## What every step keeps -/

namespace RunningNode

section

variable {P A : Type} {s s' s₁ : RunningNode P A} {hold : NodeTask → Course P A} {t : NodeTask}

/-- Where the shutdown has come so far. -/
def At (s : RunningNode P A) : Stage → Prop
  | .none => s.exited = true
  | .waiting => s.selected = none ∧ s.disconnected = false
  | .selected r => s.selected = some r ∧ s.disconnected = false
  | .stopped r => s.selected = some r ∧ s.disconnected = false ∧ s.stop = true
  | .disconnected r => s.selected = some r
  | .attempted => (∃ r, s.selected = some r) ∧ s.attempted = true

structure Inv (s : RunningNode P A) (hold : NodeTask → Course P A) : Prop where
  way : ∀ t, (hold t).way = s.way t
  stop : s.disconnected = true → s.stop = true
  clear : s.disconnected = true → s.spawned = [] ∧ ∀ t, (s.way t).Clear
  late : s.late = 0
  failed : s.background ≠ some .failed
  join : ∀ r, s.selected = some r → s.background = some .joinError → r = some .joinError
  main : s.At (hold .main).stage
  others : ∀ t, t ≠ .main → (hold t).stage = .none
  exit : s.exited = true → ∃ r, s.selected = some r ∧ (r = some .joinError → s.attempted = true)

theorem Inv.clean (h : Inv s hold) : Clean s := by
  refine ⟨h.late, ?_⟩
  rintro hexit (hf | hj)
  · exact absurd hf h.failed
  · obtain ⟨r, hr, hattempted⟩ := h.exit hexit
    exact hattempted (h.join r hr hj)

/-- A task on its way to a connection: the peers are still connected. -/
theorem Inv.connected (h : Inv s hold) (ht : ¬ (s.way t).Clear) : s.disconnected = false :=
  Bool.eq_false_of_not_eq_true fun hd => ht ((h.clear hd).2 t)

theorem connected_eq (hd : s.disconnected = false) : s.connected = s := by
  have hlate : s.late + (if s.disconnected then 1 else 0) = s.late := by simp [hd]
  rw [RunningNode.connected, hlate]

/-- Nothing but the spawned streams and the ends of the loops is different. -/
def Beside (s s₁ : RunningNode P A) : Prop :=
  s₁ = { s with
    told := s₁.told, cliEnded := s₁.cliEnded, spawned := s₁.spawned, returned := s₁.returned }

/-- A step beside the shutdown. -/
theorem Inv.beside (h : Inv s hold) {w : Way P A} (hs : Beside (s.setWay t w) s')
    (hspawned : s.disconnected = true → s'.spawned = []) (hw : s.disconnected = true → w.Clear) :
    Inv s' (Function.update hold t ⟨w, (hold t).stage⟩) := by
  have hstage : ∀ u, (Function.update hold t ⟨w, (hold t).stage⟩ u).stage = (hold u).stage := by
    intro u
    by_cases hu : u = t
    · rw [hu, Function.update_self]
    · rw [Function.update_of_ne hu]
  rw [hs]
  refine ⟨fun u => ?_, h.stop, fun hd => ⟨hspawned hd, fun u => ?_⟩, h.late, h.failed, h.join, ?_,
    fun u hu => (hstage u).trans (h.others u hu), h.exit⟩
  · by_cases hu : u = t
    · subst hu
      simp only [setWay, Function.update_self]
    · simpa only [setWay, Function.update_of_ne hu] using h.way u
  · by_cases hu : u = t
    · subst hu
      simpa only [setWay, Function.update_self] using hw hd
    · simpa only [setWay, Function.update_of_ne hu] using (h.clear hd).2 u
  · rw [hstage]
    cases hg : (hold .main).stage <;> exact hg ▸ h.main

/-- A task other than the shutdown is done. -/
theorem Inv.rests (h : Inv s hold) (ht : t ≠ .main) (hs : Beside (s.setWay t .none) s')
    (hspawned : s.disconnected = true → s'.spawned = []) :
    Inv s' (Function.update hold t .none) := by
  have hb := h.beside hs hspawned fun _ => Way.none_clear
  rwa [h.others t ht] at hb

/-- A step of the shutdown. -/
theorem Inv.advance (h : Inv s hold) {g : Stage} (hway : s₁.way = s.way)
    (hstop : s₁.disconnected = true → s₁.stop = true)
    (hclear : s₁.disconnected = true → s₁.spawned = [] ∧ ∀ t, (s.way t).Clear)
    (hlate : s₁.late = 0) (hbackground : s₁.background = s.background)
    (hjoin : ∀ r, s₁.selected = some r → s.background = some .joinError → r = some .joinError)
    (hat : s₁.At g) (hexit : s₁.exited = false) :
    Inv (s₁.setWay .main (s.way .main)) (Function.update hold .main ⟨s.way .main, g⟩) := by
  have hsame : s₁.setWay .main (s.way .main) = s₁ := by
    rw [setWay, ← hway, Function.update_eq_self]
  rw [hsame]
  refine ⟨fun u => ?_, hstop, ?_, hlate, ?_, ?_, ?_, fun u hu => ?_, fun he => ?_⟩
  · rw [hway]
    by_cases hu : u = .main
    · rw [hu, Function.update_self]
    · rw [Function.update_of_ne hu, h.way]
  · rw [hway]
    exact hclear
  · rw [hbackground]
    exact h.failed
  · rw [hbackground]
    exact hjoin
  · rw [Function.update_self]
    exact hat
  · rw [Function.update_of_ne hu]
    exact h.others u hu
  · cases hexit.symm.trans he

/-- Whoever has a stage is the shutdown. -/
theorem Inv.mine (h : Inv s hold) (ht : (hold t).stage ≠ .none) : t = .main :=
  by_contra fun hne => ht (h.others t hne)

end

section

variable {P A : Type} [DecidableEq P] {s s' s₁ : RunningNode P A} {hold : NodeTask → Course P A}
  {t : NodeTask} {a : NodeAct P A} {r : a.Answer}

/-- Where nothing is on its way and the flag is set, nothing is on its way afterwards. -/
theorem clear_after (hw : (s.way t).Clear) (hstop : s.stop = true) (he : Outcome a s r s₁) :
    ((s.way t).after a r).Clear := by
  obtain ⟨hpassed, hallowed⟩ := hw
  cases a with
  | loadStop =>
      obtain ⟨rfl, _⟩ := he
      exact ⟨by rw [hstop]; rfl, hallowed⟩
  | spawnInbound | setupInbound => exact ⟨rfl, hallowed⟩
  | peers a =>
      cases a with
      | stopConnect =>
          obtain ⟨rfl, _⟩ := he
          exact ⟨hpassed, if_pos hstop⟩
      | doConnectPeer pubkey addr => exact ⟨hpassed, by rw [Way.after, hallowed]; rfl⟩
      | _ => exact ⟨hpassed, hallowed⟩
  | _ => exact ⟨hpassed, hallowed⟩

theorem Inv.exec (h : Inv s hold) (hexit : s.exited = false) (he : Effect t a s r s')
    (hok : Timely t a s r) (hp : (hold t).permits a) :
    Inv s' (Function.update hold t (course.after (hold t) a r)) := by
  obtain ⟨s₁, ho, rfl⟩ := he
  have hclear : s.disconnected = true → ((s.way t).after a r).Clear :=
    fun hd => clear_after ((h.clear hd).2 t) (h.stop hd) ho
  have hspawned : s.disconnected = true → s.spawned = [] := fun hd => (h.clear hd).1
  have hcourse : course.after (hold t) a r =
      ⟨(s.way t).after a r, (hold t).stage.after a r⟩ := by
    rw [← h.way t]
    rfl
  rw [hcourse]
  cases a with
  | select =>
      have hg : (hold t).stage = .waiting := hp
      obtain rfl := h.mine (t := t) (by rw [hg]; nofun)
      obtain ⟨_, hd⟩ : s.At .waiting := hg ▸ h.main
      obtain ⟨_, rfl⟩ := ho
      refine h.advance rfl h.stop (fun hd' => ?_) h.late rfl ?_ ⟨rfl, hd⟩ hexit
      · cases hd.symm.trans hd'
      · rintro _ ⟨⟩ hj
        exact hok hj
  | storeStop =>
      obtain ⟨x, hg⟩ := hp
      obtain rfl := h.mine (t := t) (by rw [hg]; nofun)
      obtain ⟨hx, hd⟩ : s.At (.selected x) := hg ▸ h.main
      obtain rfl := ho
      have hafter : (hold .main).stage.after .storeStop r = .stopped x := by
        rw [hg]
        rfl
      rw [hafter]
      exact h.advance rfl (fun _ => rfl) h.clear h.late rfl h.join ⟨hx, hd, rfl⟩ hexit
  | disconnectAllPeers =>
      obtain ⟨x, hg⟩ := hp
      obtain rfl := h.mine (t := t) (by rw [hg]; nofun)
      obtain ⟨hx, _, hstop⟩ : s.At (.stopped x) := hg ▸ h.main
      obtain rfl := ho
      have hafter : (hold .main).stage.after .disconnectAllPeers r = .disconnected x := by
        rw [hg]
        rfl
      rw [hafter]
      exact h.advance rfl (fun _ => hstop) (fun _ => hok) h.late rfl h.join hx hexit
  | writeManager =>
      obtain ⟨x, hg⟩ := hp
      obtain rfl := h.mine (t := t) (by rw [hg]; nofun)
      have hx : s.At (.disconnected x) := hg ▸ h.main
      obtain rfl := ho
      exact h.advance rfl h.stop h.clear h.late rfl h.join ⟨⟨x, hx⟩, rfl⟩ hexit
  | bpExitIsClosed | awaitBackground | loadStop =>
      obtain ⟨_, rfl⟩ := ho
      exact h.beside rfl hspawned hclear
  | bpExitSend =>
      obtain ⟨_, rfl⟩ := ho
      exact h.beside rfl hspawned hclear
  | accept | toSocketAddrs address | readCommand =>
      obtain rfl := ho
      exact h.beside rfl hspawned hclear
  | processEvents =>
      obtain rfl := ho
      obtain ⟨hfailed, hjoin⟩ := hok
      have hb := h.beside (show Beside (s.setWay t _) (s.setWay t _) from rfl) hspawned hclear
      refine ⟨hb.way, hb.stop, hb.clear, hb.late, ?_, ?_, hb.main, hb.others, hb.exit⟩
      · rintro ⟨⟩
        exact hfailed rfl
      · rintro x hx ⟨⟩
        cases (hjoin rfl).symm.trans hx
  | spawnInbound =>
      obtain ⟨n, rfl⟩ := ho
      have hd : s.disconnected = false :=
        h.connected (t := t) fun hw => Bool.false_ne_true (hw.1.symm.trans (h.way t ▸ hp))
      refine h.beside rfl (fun hd' => ?_) hclear
      cases hd.symm.trans hd'
  | setupInbound =>
      have hd : s.disconnected = false :=
        h.connected (t := t) fun hw => Bool.false_ne_true (hw.1.symm.trans (h.way t ▸ hp))
      obtain rfl : s₁ = s := ho.trans (connected_eq hd)
      exact h.beside rfl hspawned hclear
  | peers a =>
      have hsame : s₁ = s := by
        cases a with
        | doConnectPeer pubkey addr =>
            have hd : s.disconnected = false := h.connected (t := t) fun hw => hp (h.way t ▸ hw.2)
            exact ho.elim (fun he => he.trans (connected_eq hd)) (·.2)
        | stopConnect => exact ho.2
        | peer a =>
            cases a with
            | doConnectPeer pubkey addr =>
                exact ho.elim (fun he => he.trans (connected_eq hok)) (·.2)
            | _ => exact ho
        | _ => exact ho
      obtain rfl := hsame
      exact h.beside rfl hspawned hclear

variable {secp : Secp256k1 P} {toSocketAddrs : Resolver A} {ldkDataDir : String}
  {p : NodeProg P A TaskEnd} {out : TaskEnd}

theorem Inv.start (h : Inv s hold) (hst : t.Starts secp toSocketAddrs ldkDataDir s p s')
    (hidle : hold t = .none) :
    ∃ c, Inv s' (Function.update hold t c) ∧ course.Follows Course.Ended p c := by
  have hsame : Function.update hold t Course.none = hold := by
    rw [← hidle, Function.update_eq_self]
  cases t with
  | main => exact hst.elim
  | inbound n =>
      obtain ⟨hn, rfl, rfl⟩ := hst
      have hd : ¬ s.disconnected = true := fun hd => List.not_mem_nil ((h.clear hd).1 ▸ hn)
      refine ⟨⟨{ Way.none with passed := true }, (hold (.inbound n)).stage⟩, ?_, ?_⟩
      · exact h.beside rfl (fun hd' => absurd hd' hd) fun hd' => absurd hd' hd
      · rw [hidle]
        exact follows_inboundTask rfl
  | background =>
      obtain ⟨_, rfl, rfl⟩ := hst
      exact ⟨.none, hsame.symm ▸ h, .act trivial fun _ _ => follows_ret⟩
  | accept =>
      obtain ⟨_, rfl, rfl⟩ := hst
      exact ⟨.none, hsame.symm ▸ h, follows_acceptLoop⟩
  | reconnect =>
      obtain ⟨_, rfl, rfl⟩ := hst
      exact ⟨.none, hsame.symm ▸ h, follows_reconnectLoop⟩
  | needed n =>
      obtain ⟨⟨nodeId, addresses, rfl⟩, rfl⟩ := hst
      exact ⟨.none, hsame.symm ▸ h, follows_connectionNeeded⟩
  | cli =>
      obtain ⟨_, rfl, rfl⟩ := hst
      exact ⟨.none, hsame.symm ▸ h, follows_pollForUserInput⟩

omit [DecidableEq P] in
theorem Inv.finish (h : Inv s hold) (hexit : s.exited = false) (hst : t.Finishes out s s')
    (hend : Course.Ended out (hold t)) : Inv s' (Function.update hold t .none) := by
  have hclear : s.disconnected = true → s.spawned = [] := fun hd => (h.clear hd).1
  cases t with
  | main =>
      obtain rfl := hst
      have hb := h.beside (show Beside (s.setWay .main .none) (s.setWay .main .none) from rfl) hclear
        fun _ => Way.none_clear
      have hstage : ∀ u, (Function.update hold .main Course.none u).stage = .none := by
        intro u
        by_cases hu : u = .main
        · rw [hu, Function.update_self]
          rfl
        · rw [Function.update_of_ne hu, h.others u hu]
      refine ⟨fun u => ?_, hb.stop, hb.clear, hb.late, hb.failed, hb.join, ?_, fun u _ => hstage u,
        fun _ => ?_⟩
      · by_cases hu : u = .main
        · subst hu
          simp only [setWay, Function.update_self]
          rfl
        · simpa only [setWay, Function.update_of_ne hu] using h.way u
      · rw [hstage]
        rfl
      · have hat := h.main
        rcases hend with hg | ⟨x, hx, hg⟩ | hg
        · rw [hg] at hat
          cases hexit.symm.trans hat
        · rw [hg] at hat
          exact ⟨x, hat, fun hx' => absurd hx' hx⟩
        · rw [hg] at hat
          exact hat.1.imp fun x hx => ⟨hx, fun _ => hat.2⟩
  | background | accept | inbound n | reconnect | needed n | cli =>
      obtain rfl := hst
      refine h.rests ?_ rfl hclear
      intro heq
      cases heq

/-- The tasks keep to it in every run whose steps are timely. -/
theorem course_kept : course.Kept ((shutdownNode secp toSocketAddrs ldkDataDir).onlyIf Timely)
    Course.none Course.Ended Inv where
  exec := by
    rintro t a s r s' hold ⟨⟨hexit, he⟩, hok⟩ h hp
    exact ⟨trivial, h.exec hexit he hok hp⟩
  start := by
    rintro t s p s' hold ⟨_, hst⟩ h hidle
    exact h.start hst hidle
  finish := by
    rintro t out s s' hold ⟨hexit, hst⟩ h hend
    exact h.finish hexit hst hend
  env h := h.elim
  crash h := h.elim

theorem running_fits : course.Fits Course.none Course.Ended Inv
    (Function.update (fun _ => .none) .main ⟨.none, .waiting⟩) (running (P := P) (A := A)) where
  inv := by
    refine ⟨fun u => ?_, nofun, nofun, rfl, nofun, nofun, ?_, fun u hu => ?_, nofun⟩
    · by_cases hu : u = .main
      · rw [hu, Function.update_self]
        rfl
      · rw [Function.update_of_ne hu]
        rfl
    · rw [Function.update_self]
      exact ⟨rfl, rfl⟩
    · rw [Function.update_of_ne hu]
      rfl
  task u := by
    by_cases hu : u = .main
    · subst hu
      exact follows_shutdown
    · rw [Function.update_of_ne hu]
      show course.Task _ _ _ (if u = .main then _ else _)
      rw [if_neg hu]
      exact rfl

end

end RunningNode

section

variable {P A : Type} [DecidableEq P] {secp : Secp256k1 P} {toSocketAddrs : Resolver A}
  {ldkDataDir : String}

open RunningNode in
/-- As long as its steps are timely, a shutdown is clean. -/
theorem shutdown_clean
    {cfg : Config NodeTask (NodeAct P A) NodeAct.Answer TaskEnd (RunningNode P A)}
    (hr : ((shutdownNode secp toSocketAddrs ldkDataDir).onlyIf Timely).Reach running cfg) :
    Clean cfg.state := by
  obtain ⟨hold, hc⟩ := course_kept.fits running_fits hr
  exact hc.inv.clean

end

/-! ## Runs -/

abbrev plainNode : System NodeTask (NodeAct KeyBytes String) NodeAct.Answer TaskEnd
    (RunningNode KeyBytes String) :=
  shutdownNode .keyBytes localhost "data"

section

open RunningNode

/-- The reconnect loop tests the flag, connects to a peer and looks for the next; the CLI
ends, the peers are disconnected, and the loop returns at its next test. -/
theorem shutdown_clean_quit :
    ∃ cfg, (plainNode.onlyIf Timely).Reach running cfg ∧ cfg.state.exited = true ∧
      Clean cfg.state := by
  obtain ⟨cfg, hr, hexited⟩ :
      (plainNode.onlyIf Timely).Can running fun cfg => cfg.state.exited = true := by
    refine .step (.start (t := NodeTask.reconnect) rfl ⟨rfl, nofun, rfl, rfl⟩) ?_
    refine .step (.act (t := NodeTask.reconnect)
      (r := .ok ((∅ : PeerData KeyBytes String).insert .generator "127.0.0.1:9735")) rfl
      ⟨⟨rfl, _, rfl, rfl⟩, trivial⟩) ?_
    refine .step (.act (t := NodeTask.reconnect) (r := [KeyBytes.generator, KeyBytes.generator]) rfl
      ⟨⟨rfl, _, rfl, rfl⟩, trivial⟩) ?_
    refine .step (.act (t := NodeTask.reconnect) (r := false) rfl ⟨⟨rfl, _, rfl, rfl⟩, trivial⟩) ?_
    refine .step (.act (t := NodeTask.reconnect) (r := false) rfl
      ⟨⟨rfl, _, ⟨rfl, rfl⟩, rfl⟩, trivial⟩) ?_
    refine .step (.act (t := NodeTask.reconnect) (r := true) rfl
      ⟨⟨rfl, _, .inl rfl, rfl⟩, trivial⟩) ?_
    refine .step (.act (t := NodeTask.reconnect) (r := false) rfl ⟨⟨rfl, _, rfl, rfl⟩, trivial⟩) ?_
    refine .step (.start (t := NodeTask.cli) rfl ⟨rfl, rfl, rfl, rfl⟩) ?_
    refine .step (.start (t := NodeTask.background) rfl ⟨rfl, rfl, rfl, rfl⟩) ?_
    refine .step (.act (t := NodeTask.cli) (r := none) rfl ⟨⟨rfl, _, rfl, rfl⟩, trivial⟩) ?_
    refine .step (.finish (t := NodeTask.cli) rfl ⟨rfl, rfl⟩) ?_
    refine .step (.act (t := NodeTask.main) (r := none) rfl
      ⟨⟨rfl, _, ⟨.inl ⟨rfl, rfl⟩, rfl⟩, rfl⟩, nofun⟩) ?_
    refine .step (.act (t := NodeTask.main) (r := ()) rfl ⟨⟨rfl, _, rfl, rfl⟩, trivial⟩) ?_
    refine .step (.act (t := NodeTask.main) (r := ()) rfl ⟨⟨rfl, _, rfl, rfl⟩, rfl, ?_⟩) ?_
    · intro t
      cases t <;> exact ⟨rfl, rfl⟩
    refine .step (.act (t := NodeTask.reconnect) (r := true) rfl
      ⟨⟨rfl, _, ⟨rfl, rfl⟩, rfl⟩, trivial⟩) ?_
    refine .step (.act (t := NodeTask.main) rfl ⟨⟨rfl, _, ⟨rfl, rfl⟩, rfl⟩, trivial⟩) ?_
    refine .step (.act (t := NodeTask.main) rfl ⟨⟨rfl, _, ⟨rfl, rfl⟩, rfl⟩, trivial⟩) ?_
    refine .step (.act (t := NodeTask.background) (r := .ok) rfl
      ⟨⟨rfl, _, rfl, rfl⟩, nofun, nofun⟩) ?_
    refine .step (.act (t := NodeTask.main) rfl ⟨⟨rfl, _, ⟨rfl, rfl⟩, rfl⟩, trivial⟩) ?_
    exact .step (.finish (t := NodeTask.main) rfl ⟨rfl, rfl⟩) (.here rfl)
  exact ⟨cfg, hr, hexited, shutdown_clean hr⟩

/-- A stream accepted before the flag was set is handed to the peer manager after
the peers were disconnected; and the process ends after a write of the
background processor failed, with no attempt at another. -/
theorem shutdown_not_clean :
    (plainNode.Can running fun cfg => cfg.state.disconnected = true ∧ cfg.state.late = 1) ∧
    plainNode.Can running fun cfg => cfg.state.exited = true ∧
      cfg.state.background = some .failed ∧ cfg.state.attempted = false := by
  constructor
  · refine .step (.start (t := NodeTask.accept) rfl ⟨rfl, nofun, rfl, rfl⟩) ?_
    refine .step (.act (t := NodeTask.accept) (r := ()) rfl ⟨rfl, _, rfl, rfl⟩) ?_
    refine .step (.act (t := NodeTask.accept) rfl ⟨rfl, _, ⟨rfl, rfl⟩, rfl⟩) ?_
    refine .step (.act (t := NodeTask.accept) (r := ()) rfl ⟨rfl, _, ⟨0, rfl⟩, rfl⟩) ?_
    refine .step (.start (t := NodeTask.inbound 0) rfl ⟨rfl, List.mem_cons_self, rfl, rfl⟩) ?_
    refine .step (.start (t := NodeTask.cli) rfl ⟨rfl, rfl, rfl, rfl⟩) ?_
    refine .step (.act (t := NodeTask.cli) (r := none) rfl ⟨rfl, _, rfl, rfl⟩) ?_
    refine .step (.finish (t := NodeTask.cli) rfl ⟨rfl, rfl⟩) ?_
    refine .step (.act (t := NodeTask.main) (r := none) rfl
      ⟨rfl, _, ⟨.inl ⟨rfl, rfl⟩, rfl⟩, rfl⟩) ?_
    refine .step (.act (t := NodeTask.main) (r := ()) rfl ⟨rfl, _, rfl, rfl⟩) ?_
    refine .step (.act (t := NodeTask.main) (r := ()) rfl ⟨rfl, _, rfl, rfl⟩) ?_
    exact .step (.act (t := NodeTask.inbound 0) (r := ()) rfl ⟨rfl, _, rfl, rfl⟩)
      (.here ⟨rfl, rfl⟩)
  · refine .step (.start (t := NodeTask.background) rfl ⟨rfl, rfl, rfl, rfl⟩) ?_
    refine .step (.act (t := NodeTask.background) (r := .failed) rfl ⟨rfl, _, rfl, rfl⟩) ?_
    refine .step (.act (t := NodeTask.main) (r := some BgExit.failed) rfl
      ⟨rfl, _, ⟨.inr ⟨nofun, rfl⟩, rfl⟩, rfl⟩) ?_
    refine .step (.act (t := NodeTask.main) (r := ()) rfl ⟨rfl, _, rfl, rfl⟩) ?_
    refine .step (.act (t := NodeTask.main) (r := ()) rfl ⟨rfl, _, rfl, rfl⟩) ?_
    refine .step (.act (t := NodeTask.main) rfl ⟨rfl, _, ⟨rfl, rfl⟩, rfl⟩) ?_
    exact .step (.finish (t := NodeTask.main) rfl ⟨rfl, rfl⟩) (.here ⟨rfl, rfl, rfl⟩)

end

end LightningNode
