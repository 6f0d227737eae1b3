/-
# `LightningNode.Node.ChannelMonitors` — from the disk to the `ChainMonitor`

Steps 7 to 14 of `start_ldk`, up to what has nothing to do with monitors.

    7    all monitors are read from the disk
    11   the `manager` file is opened: the node is restarting if it could be
    12   the sweeper is read, or made
    13   restarting: manager, sweeper and monitors are synchronized
    14   the monitors that were synchronized are given to the `ChainMonitor`

A monitor stands for the object, whatever its state; reading the manager may
change that state, but hands back the same objects.
-/
import LightningNode.Lib.DiskCalls
import LightningNode.Lib.Program
import Mathlib.Data.List.Perm.Basic

namespace LightningNode

open Conc

variable {M BlockHash OutPoint : Type}

/-! ## Steps 7 to 14 -/

/-- `&dyn chain::Listen` -/
inductive ChainListener (M : Type) where
  | channelManager
  | outputSweeper
  | channelMonitor (monitor : M)

inductive StartAct (M BlockHash OutPoint : Type) where
  | readAllChannelMonitorsWithUpdates
  | getBestBlock
  | validateBestBlockHeader
  | openManager
  | readChannelManager (monitors : List M)
  | newChannelManager
  | readOutputSweeper
  | decodeOutputSweeper
  | synchronizeListeners (listeners : List (BlockHash × ChainListener M))
  | watchChannel (fundingOutpoint : OutPoint) (monitor : M)

/-- `none` and `false` are answers the program does not survive. -/
abbrev StartAct.Answer : StartAct M BlockHash OutPoint → Type
  | .readAllChannelMonitorsWithUpdates => Option (List (BlockHash × M))
  | .getBestBlock => Bool
  | .validateBestBlockHeader => Option BlockHash
  | .openManager | .readOutputSweeper => Except ErrorKind Unit
  | .readChannelManager _ => Option BlockHash
  | .newChannelManager => BlockHash
  | .decodeOutputSweeper => Option BlockHash
  | .synchronizeListeners _ => Bool
  | .watchChannel _ _ => Bool

/-- The step that panicked. -/
inductive StartPanic where
  | step (n : Nat)

abbrev StartProg (M BlockHash OutPoint α : Type) : Type :=
  Prog (StartAct M BlockHash OutPoint) StartAct.Answer (Except StartPanic α)

namespace StartNode

def step7 : StartProg M BlockHash OutPoint (List (BlockHash × M)) :=
  .act .readAllChannelMonitorsWithUpdates fun
    | none => .ret (.error (.step 7))
    | some channelmonitors => .act .getBestBlock fun
        | false => .ret (.error (.step 7))
        | true => .ret (.ok channelmonitors)

def step8 : StartProg M BlockHash OutPoint BlockHash :=
  .act .validateBestBlockHeader fun
    | none => .ret (.error (.step 8))
    | some polledChainTip => .ret (.ok polledChainTip)

/-- The block of the manager, and `restarting_node`. -/
def step11 (channelmonitors : List (BlockHash × M)) (polledChainTip : BlockHash) :
    StartProg M BlockHash OutPoint (BlockHash × Bool) :=
  .act .openManager fun
    | .ok () => .act (.readChannelManager (channelmonitors.map Prod.snd)) fun
        | none => .ret (.error (.step 11))
        | some channelManagerBlockhash => .ret (.ok (channelManagerBlockhash, true))
    -- any error at all: a fresh node is started
    | .error _ => .act .newChannelManager fun _ => .ret (.ok (polledChainTip, false))

def step12 (currentBestBlock : BlockHash) : StartProg M BlockHash OutPoint BlockHash :=
  .act .readOutputSweeper fun
    | .error .notFound => .ret (.ok currentBestBlock)
    | .ok () => .act .decodeOutputSweeper fun
        | none => .ret (.error (.step 12))
        | some sweeperBestBlock => .ret (.ok sweeperBestBlock)
    | .error _ => .ret (.error (.step 12))

/-- What is left in `chain_listener_channel_monitors`. -/
def step13 (getFundingTxo : M → OutPoint) (restartingNode : Bool)
    (channelmonitors : List (BlockHash × M))
    (channelManagerBlockhash sweeperBestBlock : BlockHash) :
    StartProg M BlockHash OutPoint (List (BlockHash × M × OutPoint)) :=
  if restartingNode then
    let chainListenerChannelMonitors :=
      channelmonitors.map fun x => (x.1, x.2, getFundingTxo x.2)
    let chainListeners :=
      [(channelManagerBlockhash, .channelManager), (sweeperBestBlock, .outputSweeper)] ++
        chainListenerChannelMonitors.map fun x => (x.1, .channelMonitor x.2.1)
    .act (.synchronizeListeners chainListeners) fun
      | true => .ret (.ok chainListenerChannelMonitors)
      | false => .ret (.error (.step 13))
  else .ret (.ok [])

def step14 : List (BlockHash × M × OutPoint) → StartProg M BlockHash OutPoint Unit
  | [] => .ret (.ok ())
  | (_, channelMonitor, fundingOutpoint) :: rest =>
      .act (.watchChannel fundingOutpoint channelMonitor) fun
        | true => step14 rest
        | false => .ret (.error (.step 14))

open Prog in
def steps (getFundingTxo : M → OutPoint) : StartProg M BlockHash OutPoint Unit :=
  andThen step7 fun channelmonitors =>
  andThen step8 fun polledChainTip =>
  andThen (step11 channelmonitors polledChainTip) fun manager =>
  andThen (step12 manager.1) fun sweeperBestBlock =>
  andThen (step13 getFundingTxo manager.2 channelmonitors manager.1 sweeperBestBlock) fun monitors =>
  step14 monitors

/-! ## What the steps did -/

/-- The two calls that matter for monitors. -/
inductive Event (M BlockHash OutPoint : Type) where
  | synchronized (listeners : List (BlockHash × ChainListener M))
  | watched (fundingOutpoint : OutPoint) (monitor : M)

/-- The monitors and the `manager` file on the disk, and what has been done. -/
structure Start (M BlockHash OutPoint : Type) where
  monitors : List (BlockHash × M)
  manager : Except ErrorKind Unit
  events : List (Event M BlockHash OutPoint)

/-- All but the two answers that come from the disk can be anything. -/
def Exec : (a : StartAct M BlockHash OutPoint) → Start M BlockHash OutPoint → a.Answer →
    Start M BlockHash OutPoint → Prop
  | .readAllChannelMonitorsWithUpdates, s, r, s' => (r = none ∨ r = some s.monitors) ∧ s' = s
  | .openManager, s, r, s' => r = s.manager ∧ s' = s
  | .synchronizeListeners listeners, s, _, s' =>
      s' = { s with events := s.events ++ [.synchronized listeners] }
  | .watchChannel fundingOutpoint monitor, s, _, s' =>
      s' = { s with events := s.events ++ [.watched fundingOutpoint monitor] }
  | _, s, _, s' => s' = s

/-- The monitors given to the `ChainMonitor`, in order. -/
def watched (events : List (Event M BlockHash OutPoint)) : List M :=
  events.filterMap fun
    | .watched _ monitor => some monitor
    | .synchronized _ => none

/-- Each of the monitors was given to the `ChainMonitor` once, under its funding
outpoint, and was synchronized before. -/
def AllWatched (getFundingTxo : M → OutPoint) (monitors : List M)
    (events : List (Event M BlockHash OutPoint)) : Prop :=
  (watched events).Perm monitors ∧
    ∀ before fundingOutpoint monitor after,
      events = before ++ .watched fundingOutpoint monitor :: after →
        fundingOutpoint = getFundingTxo monitor ∧
        ∃ listeners blockhash, .synchronized listeners ∈ before ∧
          (blockhash, .channelMonitor monitor) ∈ listeners

/-! ## One step at a time -/

section

variable {s s' : Start M BlockHash OutPoint}

theorem step7_ok {channelmonitors : List (BlockHash × M)}
    (h : Runs Exec step7 s (.ok channelmonitors) s') : channelmonitors = s.monitors ∧ s' = s := by
  obtain ⟨r, _, ⟨hr, rfl⟩, h⟩ := h
  rcases hr with rfl | rfl
  · exact nomatch h.1
  · obtain ⟨best, _, rfl, h⟩ := h
    cases best with
    | false => exact nomatch h.1
    | true => exact ⟨Except.ok.inj h.1, h.2⟩

theorem step8_ok {polledChainTip : BlockHash}
    (h : Runs Exec step8 s (.ok polledChainTip) s') : s' = s := by
  obtain ⟨r, _, rfl, h⟩ := h
  cases r with
  | none => exact nomatch h.1
  | some tip => exact h.2

theorem step11_ok {channelmonitors : List (BlockHash × M)} {tip : BlockHash}
    {manager : BlockHash × Bool}
    (h : Runs Exec (step11 channelmonitors tip) s (.ok manager) s') :
    s' = s ∧ manager.2 = s.manager.toBool := by
  obtain ⟨r, s₁, ⟨rfl, rfl⟩, h⟩ := h
  cases hm : s₁.manager with
  | ok u =>
      rw [hm] at h
      obtain ⟨r, _, rfl, h⟩ := h
      cases r with
      | none => exact nomatch h.1
      | some blockhash => exact ⟨h.2, congrArg Prod.snd (Except.ok.inj h.1)⟩
  | error e =>
      rw [hm] at h
      obtain ⟨_, _, rfl, h⟩ := h
      exact ⟨h.2, congrArg Prod.snd (Except.ok.inj h.1)⟩

theorem step12_ok {best sweeper : BlockHash}
    (h : Runs Exec (step12 best) s (.ok sweeper) s') : s' = s := by
  obtain ⟨r, _, rfl, h⟩ := h
  cases r with
  | ok u =>
      obtain ⟨r, _, rfl, h⟩ := h
      cases r with
      | none => exact nomatch h.1
      | some blockhash => exact h.2
  | error e =>
      cases e with
      | notFound => exact h.2
      | notADirectory | isADirectory | alreadyExists | invalidInput | other => exact nomatch h.1

variable {getFundingTxo : M → OutPoint}

/-- The steps that give a list of monitors to the `ChainMonitor`. -/
def watchAll (monitors : List (BlockHash × M × OutPoint)) : List (Event M BlockHash OutPoint) :=
  monitors.map fun x => .watched x.2.2 x.2.1

theorem step13_ok {restarting : Bool} {channelmonitors : List (BlockHash × M)}
    {manager sweeper : BlockHash} {monitors : List (BlockHash × M × OutPoint)}
    (h : Runs Exec (step13 getFundingTxo restarting channelmonitors manager sweeper) s
      (.ok monitors) s') :
    (restarting = false ∧ monitors = [] ∧ s' = s) ∨
    (restarting = true ∧ monitors = channelmonitors.map (fun x => (x.1, x.2, getFundingTxo x.2)) ∧
      ∃ listeners, s'.events = s.events ++ [.synchronized listeners] ∧
        ∀ x ∈ channelmonitors, (x.1, .channelMonitor x.2) ∈ listeners) := by
  cases restarting with
  | false => exact Or.inl ⟨rfl, Except.ok.inj h.1, h.2⟩
  | true =>
      obtain ⟨r, _, rfl, h⟩ := h
      cases r with
      | false => exact nomatch h.1
      | true =>
          obtain ⟨hm, rfl⟩ := h
          refine Or.inr ⟨rfl, Except.ok.inj hm, _, rfl, ?_⟩
          intro x hx
          refine List.mem_append_right _ (List.mem_map.mpr ⟨_, List.mem_map_of_mem hx, rfl⟩)

theorem step14_ok {monitors : List (BlockHash × M × OutPoint)} :
    ∀ {s : Start M BlockHash OutPoint}, Runs Exec (step14 monitors) s (.ok ()) s' →
      s'.events = s.events ++ watchAll monitors := by
  induction monitors with
  | nil =>
      intro s h
      rw [h.2]
      exact (List.append_nil _).symm
  | cons x monitors ih =>
      intro s h
      obtain ⟨r, _, rfl, h⟩ := h
      cases r with
      | false => exact nomatch h.1
      | true =>
          rw [ih h, List.append_assoc]
          rfl

/-- The steps together: what was done depends on whether the `manager` file could
be opened. -/
theorem steps_ok (h : Runs Exec (steps getFundingTxo) s (.ok ()) s') :
    (s.manager.toBool = false ∧ s'.events = s.events) ∨
    (s.manager.toBool = true ∧ ∃ listeners,
      (∀ x ∈ s.monitors, (x.1, .channelMonitor x.2) ∈ listeners) ∧
      s'.events = s.events ++ .synchronized listeners ::
        watchAll (s.monitors.map fun x => (x.1, x.2, getFundingTxo x.2))) := by
  obtain ⟨_, _, h₇, h⟩ := runs_andThen h
  obtain ⟨rfl, rfl⟩ := step7_ok h₇
  obtain ⟨_, _, h₈, h⟩ := runs_andThen h
  obtain rfl := step8_ok h₈
  obtain ⟨_, _, h₁₁, h⟩ := runs_andThen h
  obtain ⟨rfl, hmanager⟩ := step11_ok h₁₁
  obtain ⟨_, _, h₁₂, h⟩ := runs_andThen h
  obtain rfl := step12_ok h₁₂
  obtain ⟨_, _, h₁₃, h₁₄⟩ := runs_andThen h
  rcases step13_ok h₁₃ with ⟨hno, rfl, rfl⟩ | ⟨hyes, rfl, listeners, hevents, hall⟩
  · exact Or.inl ⟨hmanager ▸ hno, (step14_ok h₁₄).trans (List.append_nil _)⟩
  · refine Or.inr ⟨hmanager ▸ hyes, listeners, hall, ?_⟩
    rw [step14_ok h₁₄, hevents, List.append_assoc]
    rfl

end

/-! ## Every monitor -/

theorem watched_watchAll (monitors : List (BlockHash × M × OutPoint)) :
    watched (watchAll monitors) = monitors.map fun x => x.2.1 := by
  rw [watched, watchAll, List.filterMap_map]
  exact List.filterMap_eq_map ▸ rfl

/-- Synchronized first, then given one by one. -/
theorem allWatched_of_synchronized {getFundingTxo : M → OutPoint} {monitors : List (BlockHash × M)}
    {listeners : List (BlockHash × ChainListener M)}
    (hall : ∀ x ∈ monitors, (x.1, .channelMonitor x.2) ∈ listeners) :
    AllWatched getFundingTxo (monitors.map Prod.snd)
      (.synchronized listeners :: watchAll (monitors.map fun x => (x.1, x.2, getFundingTxo x.2))) := by
  constructor
  · show (watched (watchAll _)).Perm _
    rw [watched_watchAll, List.map_map]
    exact .refl _
  · intro before fundingOutpoint monitor after hsplit
    cases before with
    | nil => exact nomatch (List.cons.inj hsplit).1
    | cons e before =>
        obtain ⟨rfl, hrest⟩ := List.cons.inj hsplit
        have hmem : Event.watched fundingOutpoint monitor ∈
            watchAll (monitors.map fun x => (x.1, x.2, getFundingTxo x.2)) := by
          rw [hrest]
          simp
        simp only [watchAll, List.map_map, List.mem_map, Function.comp, Event.watched.injEq] at hmem
        obtain ⟨x, hx, rfl, rfl⟩ := hmem
        exact ⟨rfl, listeners, x.1, List.mem_cons_self, hall x hx⟩

end StartNode

open StartNode in
/-- A start that gets past step 14 has every monitor watched exactly if the
`manager` file could be opened or there are no monitors. -/
theorem monitors_watched {getFundingTxo : M → OutPoint} {s s' : Start M BlockHash OutPoint}
    (hs : s.events = []) (h : Runs Exec (steps getFundingTxo) s (.ok ()) s') :
    AllWatched getFundingTxo (s.monitors.map Prod.snd) s'.events ↔
      s.manager = .ok () ∨ s.monitors = [] := by
  rcases steps_ok h with ⟨hno, hevents⟩ | ⟨hyes, listeners, hall, hevents⟩
  · rw [hevents, hs]
    constructor
    · rintro ⟨hperm, _⟩
      exact Or.inr (List.map_eq_nil_iff.mp (List.nil_perm.mp hperm))
    · rintro (hok | hnil)
      · rw [hok] at hno
        cases hno
      · rw [hnil]
        refine ⟨.refl _, ?_⟩
        intro before fundingOutpoint monitor after hsplit
        exact absurd hsplit (by simp)
  · rw [hevents, hs]
    refine iff_of_true (allWatched_of_synchronized hall) (Or.inl ?_)
    cases hm : s.manager with
    | ok u => rfl
    | error e =>
        rw [hm] at hyes
        cases hyes

namespace StartNode

/-- The run in which everything succeeds; a manager that is read, or made, is at
block 0. -/
def smoothly : (a : StartAct Nat Nat Nat) → Start Nat Nat Nat → Option (a.Answer × Start Nat Nat Nat)
  | .readAllChannelMonitorsWithUpdates, s => some (some s.monitors, s)
  | .getBestBlock, s => some (true, s)
  | .validateBestBlockHeader, s => some (some 0, s)
  | .openManager, s => some (s.manager, s)
  | .readChannelManager _, s => some (some 0, s)
  | .newChannelManager, s => some (0, s)
  | .readOutputSweeper, s => some (.ok (), s)
  | .decodeOutputSweeper, s => some (some 0, s)
  | .synchronizeListeners listeners, s =>
      some (true, { s with events := s.events ++ [.synchronized listeners] })
  | .watchChannel fundingOutpoint monitor, s =>
      some (true, { s with events := s.events ++ [.watched fundingOutpoint monitor] })

theorem smoothly_exec (a : StartAct Nat Nat Nat) (s : Start Nat Nat Nat) (r : a.Answer)
    (s' : Start Nat Nat Nat) (h : smoothly a s = some (r, s')) : Exec a s r s' := by
  cases a with
  | readAllChannelMonitorsWithUpdates =>
      cases h
      exact ⟨Or.inr rfl, rfl⟩
  | openManager =>
      cases h
      exact ⟨rfl, rfl⟩
  | getBestBlock | validateBestBlockHeader | readChannelManager _ | newChannelManager
  | readOutputSweeper | decodeOutputSweeper | synchronizeListeners _ | watchChannel _ _ =>
      cases h
      rfl

end StartNode

open StartNode in
/-- One monitor, and a `manager` file that can be opened. -/
theorem monitors_watched_restart :
    ∃ s', Runs Exec (steps id) (⟨[(0, 7)], .ok (), []⟩ : Start Nat Nat Nat) (.ok ()) s' ∧
      AllWatched id [7] s'.events := by
  have h : Runs Exec (steps id) ⟨[(0, 7)], .ok (), []⟩ (.ok ()) _ := runs_of_run smoothly_exec rfl
  exact ⟨_, h, (monitors_watched rfl h).mpr (Or.inl rfl)⟩

open StartNode in
/-- One monitor, and a `manager` file that is missing, or cannot be opened. -/
theorem monitor_not_watched :
    (∃ s', Runs Exec (steps id) (⟨[(0, 7)], .error .notFound, []⟩ : Start Nat Nat Nat) (.ok ()) s' ∧
      watched s'.events = []) ∧
    ∃ s', Runs Exec (steps id) (⟨[(0, 7)], .error .other, []⟩ : Start Nat Nat Nat) (.ok ()) s' ∧
      watched s'.events = [] :=
  ⟨⟨_, runs_of_run smoothly_exec rfl, rfl⟩, ⟨_, runs_of_run smoothly_exec rfl, rfl⟩⟩

end LightningNode
