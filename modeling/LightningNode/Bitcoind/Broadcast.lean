/-
# `LightningNode.Bitcoind.Broadcast` — handing a package of transactions to the node

`broadcast_transactions` spawns one task for each transaction of the list.  A
task makes one `sendrawtransaction` call and logs what came of it; the runtime
runs the tasks in any order.

`bitcoind` takes a transaction into its mempool if every transaction it spends
is confirmed or in the mempool already, and nothing else is wrong with it.  A
transaction stands for itself here: its id, its bytes and its hex text say the
same.
-/
import LightningNode.Lib.Admission
import LightningNode.Lib.Tasks
import Mathlib.Data.List.Nodup
import Mathlib.Data.List.Perm.Basic
import Mathlib.Data.List.Range

namespace LightningNode

open Conc

variable {Tx : Type} [DecidableEq Tx]

/-- What `bitcoind` knows of transactions: the ones they spend, the confirmed
ones, and those it has no objection of its own to. -/
structure Bitcoind (Tx : Type) where
  spends : Tx → List Tx
  confirmed : Tx → Bool
  valid : Tx → Bool

namespace Bitcoind

def acceptance (b : Bitcoind Tx) : Admission Tx := ⟨b.spends, b.confirmed, b.valid⟩

/-- The mempool after the transactions are submitted one by one. -/
def submitAll (b : Bitcoind Tx) (mempool txs : List Tx) : List Tx :=
  b.acceptance.offerAll mempool txs

end Bitcoind

/-! ## The tasks -/

inductive BroadcastAct (Tx : Type) where
  | sendrawtransaction (tx : Tx)
  | logInfo
  | logError

/-- A call is answered by whether the transaction was accepted. -/
abbrev BroadcastAct.Answer : BroadcastAct Tx → Type
  | .sendrawtransaction _ => Bool
  | _ => Unit

/-- The task spawned for one transaction. -/
def sendTask (tx : Tx) : Prog (BroadcastAct Tx) BroadcastAct.Answer Unit :=
  .act (.sendrawtransaction tx) fun
    | true => .act .logInfo fun _ => .ret ()
    | false => .act .logError fun _ => .ret ()

/-- The mempool, and every submission so far with the number of its task. -/
structure Broadcasting (Tx : Type) where
  mempool : List Tx
  submitted : List (Nat × Tx)

namespace Broadcasting

def order (s : Broadcasting Tx) : List Tx := s.submitted.map Prod.snd

def step (b : Bitcoind Tx) (i : Nat) :
    (a : BroadcastAct Tx) → Broadcasting Tx → Option (a.Answer × Broadcasting Tx)
  | .sendrawtransaction tx, s =>
      let mempool := b.acceptance.offer s.mempool tx
      some (decide (tx ∈ mempool), ⟨mempool, s.submitted ++ [(i, tx)]⟩)
  | .logInfo, s => some ((), s)
  | .logError, s => some ((), s)

end Broadcasting

/-- The runtime, with `bitcoind` at the other end. -/
def broadcastRuntime (b : Bitcoind Tx) :
    System Nat (BroadcastAct Tx) BroadcastAct.Answer Unit (Broadcasting Tx) where
  exec i a s r s' := Broadcasting.step b i a s = some (r, s')
  start _ _ _ _ := False
  finish _ _ s s' := s' = s
  env _ _ := False
  crash _ _ := False

/-- `broadcast_transactions` has returned: the tasks are spawned, and none has
run. -/
def broadcastTransactions (mempool txs : List Tx) :
    Config Nat (BroadcastAct Tx) BroadcastAct.Answer Unit (Broadcasting Tx) :=
  ⟨⟨mempool, []⟩, fun i => txs[i]?.map sendTask⟩

/-! ## What the tasks keep -/

namespace Broadcasting

variable (b : Bitcoind Tx) (mempool txs : List Tx)

def Submitted (i : Nat) (s : Broadcasting Tx) : Prop := i ∈ s.submitted.map Prod.fst

structure Inv (s : Broadcasting Tx) : Prop where
  mempool : s.mempool = b.submitAll mempool s.order
  nodup : (s.submitted.map Prod.fst).Nodup
  task : ∀ e ∈ s.submitted, txs[e.1]? = some e.2

/-- Each task knows whether it has submitted its transaction. -/
def discipline : Discipline (broadcastRuntime b) where
  inv := Inv b mempool txs
  change _ _ := True
  rely i s s' := Submitted i s' ↔ Submitted i s
  change_refl _ := trivial
  change_trans _ _ := trivial
  rely_refl _ _ := Iff.rfl
  rely_trans h h' := h'.trans h

variable {b mempool txs}

theorem stable (i : Nat) (x : Prop) :
    (discipline b mempool txs).Stable i fun s => Submitted i s ↔ x :=
  fun _ _ _ _ hr h => hr.trans h

/-- The step of a task that has not submitted its transaction yet. -/
theorem Inv.submit {i : Nat} {tx : Tx} {s : Broadcasting Tx} (h : Inv b mempool txs s)
    (hi : txs[i]? = some tx) (hnew : ¬ Submitted i s) :
    Inv b mempool txs ⟨b.acceptance.offer s.mempool tx, s.submitted ++ [(i, tx)]⟩ where
  mempool := by
    show b.acceptance.offer s.mempool tx = b.submitAll mempool (order ⟨_, s.submitted ++ [(i, tx)]⟩)
    rw [order, List.map_append, Bitcoind.submitAll, Admission.offerAll_append, h.mempool]
    rfl
  nodup := by
    rw [List.map_append]
    refine List.Nodup.append h.nodup (List.nodup_singleton _) ?_
    rintro j hj hj'
    obtain rfl : j = i := by simpa using hj'
    exact hnew hj
  task := by
    intro e he
    rcases List.mem_append.mp he with he | he
    · exact h.task e he
    · obtain rfl : e = (i, tx) := by simpa using he
      exact hi

theorem log_rule {i : Nat} {a : BroadcastAct Tx} (ha : a = .logInfo ∨ a = .logError) :
    (discipline b mempool txs).Triple i (fun s => Submitted i s ↔ True) (.act a fun _ => .ret ())
      fun _ s => Submitted i s ↔ True := by
  refine .act (fun _ s => Submitted i s ↔ True) (stable i True) ?_
    fun _ => .ret (stable i True) fun _ _ h => h
  intro s hs h r s' he
  have hsame : s' = s := by
    rcases ha with rfl | rfl
    · cases he
      rfl
    · cases he
      rfl
  subst hsame
  exact ⟨hs, ⟨trivial, fun _ _ => Iff.rfl⟩, h⟩

theorem task_rule {i : Nat} {tx : Tx} (hi : txs[i]? = some tx) :
    (discipline b mempool txs).Triple i (fun s => Submitted i s ↔ False) (sendTask tx)
      fun _ s => Submitted i s ↔ True := by
  refine .act (fun _ s => Submitted i s ↔ True) (stable i False) ?_ ?_
  · rintro s hs hnew r s' he
    cases he
    refine ⟨hs.submit hi hnew.mp, ⟨trivial, ?_⟩, ?_⟩
    · intro j hj
      show Submitted j ⟨_, s.submitted ++ [(i, tx)]⟩ ↔ Submitted j s
      simp [Submitted, hj]
    · show Submitted i ⟨_, s.submitted ++ [(i, tx)]⟩ ↔ True
      simp [Submitted]
  · intro r
    cases r with
    | true => exact log_rule (.inl rfl)
    | false => exact log_rule (.inr rfl)

/-- A task of the list has submitted its transaction by the time it is gone. -/
def outline (b : Bitcoind Tx) (mempool txs : List Tx) : Outline (broadcastRuntime b) where
  toDiscipline := discipline b mempool txs
  idle i s := i < txs.length → (Submitted i s ↔ True)
  post i _ s := Submitted i s ↔ True
  idle_stable i s s' hi hi' hr h hlt := stable i True s s' hi hi' hr (h hlt)
  start_ok h := nomatch h
  finish_ok := by
    rintro i _ s _ rfl hs h
    exact ⟨hs, ⟨trivial, fun _ _ => Iff.rfl⟩, fun _ => h⟩
  env_ok h := nomatch h
  crash_ok h := nomatch h

theorem spawned (b : Bitcoind Tx) (mempool txs : List Tx) :
    (outline b mempool txs).Inv (broadcastTransactions mempool txs) where
  state := ⟨rfl, List.nodup_nil, fun _ he => nomatch he⟩
  task i := by
    show (outline b mempool txs).Holds _ i (txs[i]?.map sendTask)
    cases hi : txs[i]? with
    | none => exact fun hlt => absurd hlt (Nat.not_lt.mpr (List.getElem?_eq_none_iff.mp hi))
    | some tx =>
        exact task_rule hi _ ⟨rfl, List.nodup_nil, fun _ he => nomatch he⟩
          (iff_false_intro List.not_mem_nil)

/-- In the end each task has submitted its transaction once. -/
theorem Inv.order_perm {s : Broadcasting Tx} (h : Inv b mempool txs s)
    (hall : ∀ i, i < txs.length → Submitted i s) : s.order.Perm txs := by
  have hnum : (s.submitted.map Prod.fst).Perm (List.range txs.length) := by
    refine (List.perm_ext_iff_of_nodup h.nodup List.nodup_range).mpr fun i => ?_
    rw [List.mem_range]
    constructor
    · intro hi
      obtain ⟨e, he, rfl⟩ := List.mem_map.mp hi
      exact (List.getElem?_eq_some_iff.mp (h.task e he)).1
    · exact hall i
  have horder : s.order.map some = (s.submitted.map Prod.fst).map (txs[·]?) := by
    rw [order, List.map_map, List.map_map]
    exact List.map_congr_left fun e he => (h.task e he).symm
  have htxs : txs.map some = (List.range txs.length).map (txs[·]?) := by
    refine List.ext_getElem (by simp) fun i hi _ => ?_
    rw [List.length_map] at hi
    simp [hi]
  have hmap : (s.order.map some).Perm (txs.map some) := by
    rw [horder, htxs]
    exact hnum.map _
  exact (List.map_perm_map_iff fun _ _ h => Option.some.inj h).mp hmap

end Broadcasting

/-! ## What comes of a package -/

/-- Along a chain of the order in which the tasks submitted, all that the list
makes acceptable can be found. -/
def Bitcoind.InTime (b : Bitcoind Tx) (mempool txs order : List Tx) : Prop :=
  ∃ chain, chain.Sublist order ∧ b.acceptance.Chain mempool chain ∧
    ∀ tx, b.acceptance.Admissible mempool txs tx → tx ∉ mempool → tx ∈ chain

open Broadcasting in
/-- Once all tasks are done, each transaction has been submitted; and what is in
the mempool is what submitting the list in order gives exactly if the tasks
submitted in time. -/
theorem package_order {b : Bitcoind Tx} {mempool txs : List Tx} (hs : b.acceptance.Sorted txs)
    {cfg : Config Nat (BroadcastAct Tx) BroadcastAct.Answer Unit (Broadcasting Tx)}
    (hr : (broadcastRuntime b).Reach (broadcastTransactions mempool txs) cfg)
    (hdone : ∀ i, cfg.task i = none ∨ cfg.task i = some (.ret ())) :
    cfg.state.order.Perm txs ∧
      ((∀ tx, tx ∈ cfg.state.mempool ↔ tx ∈ b.submitAll mempool txs) ↔
        b.InTime mempool txs cfg.state.order) := by
  have hinv := ((spawned b mempool txs).reach _ hr).1
  have hi : Inv b mempool txs cfg.state := hinv.state
  have hall : ∀ i, i < txs.length → Submitted i cfg.state := by
    intro i hlt
    have htask := hinv.task i
    rcases hdone i with hnone | hret
    · rw [hnone] at htask
      exact (htask hlt).mpr trivial
    · rw [hret] at htask
      exact (Outline.Holds.returned (outline b mempool txs) hi htask).mpr trivial
  have hperm := hi.order_perm hall
  refine ⟨hperm, ?_⟩
  rw [hi.mempool]
  exact Admission.same_admitted_iff hs hperm.subset

/-! ## A parent and its child -/

namespace Broadcasting

/-- Transaction 1 spends transaction 0. -/
def parentAndChild : Bitcoind Nat :=
  ⟨fun tx => if tx = 1 then [0] else [], fun _ => false, fun _ => true⟩

theorem parentAndChild_sorted : parentAndChild.acceptance.Sorted [0, 1] := by
  intro before tx after hsplit p hp _
  have hp' : p ∈ if tx = 1 then [0] else [] := hp
  split_ifs at hp' with htx
  · subst htx
    obtain rfl : p = 0 := by simpa using hp'
    cases before with
    | nil => cases hsplit
    | cons x before =>
        obtain ⟨rfl, _⟩ := List.cons.inj hsplit
        exact List.mem_cons_self
  · exact absurd hp' List.not_mem_nil

/-- The runtime lets the tasks run one after another. -/
theorem can_run (order : List Nat) {cfg : Config Nat (BroadcastAct Nat) BroadcastAct.Answer Unit _}
    {Q : Config Nat (BroadcastAct Nat) BroadcastAct.Answer Unit (Broadcasting Nat) → Prop}
    (h : Q (order.foldl (fun cfg i => System.acts i (step parentAndChild i) 2 cfg) cfg)) :
    (broadcastRuntime parentAndChild).Can cfg Q := by
  induction order generalizing cfg with
  | nil => exact .here h
  | cons i order ih => exact .acts (t := i) (fun _ _ _ _ h => h) 2 (ih h)

end Broadcasting

open Broadcasting in
/-- The parent's task runs first. -/
theorem package_order_kept :
    ∃ cfg, (broadcastRuntime parentAndChild).Reach (broadcastTransactions [] [0, 1]) cfg ∧
      ∀ tx, tx ∈ cfg.state.mempool ↔ tx ∈ parentAndChild.submitAll [] [0, 1] := by
  obtain ⟨cfg, hr, hdone, horder⟩ : (broadcastRuntime parentAndChild).Can
      (broadcastTransactions [] [0, 1]) fun cfg =>
        (∀ i, cfg.task i = none ∨ cfg.task i = some (.ret ())) ∧ cfg.state.order = [0, 1] := by
    refine can_run [0, 1] ⟨?_, rfl⟩
    intro i
    match i with
    | 0 | 1 => exact Or.inr rfl
    | i + 2 => exact Or.inl rfl
  refine ⟨cfg, hr, (package_order parentAndChild_sorted hr hdone).2.mpr ?_⟩
  rw [horder]
  refine ⟨[0, 1], .refl _, ⟨by decide, by decide, trivial⟩, ?_⟩
  rintro tx ⟨htx, _, _⟩ _
  exact htx

open Broadcasting in
/-- The child's task runs first: the child is refused, and not sent again. -/
theorem child_before_parent :
    ∃ cfg, (broadcastRuntime parentAndChild).Reach (broadcastTransactions [] [0, 1]) cfg ∧
      (∀ i, cfg.task i = none ∨ cfg.task i = some (.ret ())) ∧
      parentAndChild.acceptance.Sorted [0, 1] ∧
      1 ∈ parentAndChild.submitAll [] [0, 1] ∧ 1 ∉ cfg.state.mempool := by
  refine can_run [1, 0] ⟨?_, parentAndChild_sorted, by decide, by decide⟩
  intro i
  match i with
  | 0 | 1 => exact Or.inr rfl
  | i + 2 => exact Or.inl rfl

end LightningNode
