/-
# `LightningNode.Wallet.OnChainWallet` — which addresses the wallet hands out

The BDK wallet keeps the index of the next address of its `External` keychain
in memory; revealing an address takes the index and stages the change, and only
`wallet.persist` writes what is staged to the database.

    get_address, get_change_script,       lock, reveal, unlock
    get_change_destination_script
    sync_wallet                           lock, ask Esplora, apply, persist, unlock
    new_from_seed                         load from the database, full_scan

The programs are the bodies of these functions up to the data that has nothing
to do with the index.  Any number of tasks call them; a restart loses all that
is in memory.  So no index is handed out twice where, at each stop, the next index
in memory had been persisted, or else the scan of the next start finds its
predecessor used on chain (`index_handed_out_once`).
-/
import LightningNode.Lib.Tasks
import Mathlib.Data.List.Nodup
import Mathlib.Data.List.Perm.Basic

namespace LightningNode

open Conc

/-! ## Programs -/

inductive WalletAct where
  /-- `self.inner.lock().unwrap()` -/
  | lock
  | unlock
  /-- `Connection::open(path_to_db).unwrap()` -/
  | openDb
  /-- `BdkWallet::load()`, else `BdkWallet::create(..)` -/
  | loadWallet
  /-- `client.full_scan(..)`; the last index of the keychain used on chain -/
  | clientFullScan
  /-- `client.sync(..)` -/
  | clientSync
  /-- `wallet.apply_update(..)` -/
  | applyUpdate (lastActive : Option Nat)
  /-- `wallet.persist(&mut db)` -/
  | persist
  /-- `reveal_next_address(KeychainKind::External)` -/
  | revealNextAddress

/-- Where the answer is a `Bool` it says whether the call succeeded. -/
abbrev WalletAct.Answer : WalletAct → Type
  | .lock | .unlock => Unit
  | .clientFullScan => Option (Option Nat)
  | .revealNextAddress => Nat
  | _ => Bool

/-- How a call ended: with the address or the script of an index, or not. -/
inductive WalletResult where
  | address (index : Nat)
  | script (index : Nat)
  | done
  | failed
  | panicked
  | started
  deriving DecidableEq

abbrev WalletProg := Prog WalletAct WalletAct.Answer

namespace OnChainWallet

/-- What the three functions that hand out addresses do. -/
def reveal (result : Nat → WalletResult) : WalletProg WalletResult :=
  .act .lock fun _ =>
  .act .revealNextAddress fun index =>
  .act .unlock fun _ => .ret (result index)

def getAddress : WalletProg WalletResult := reveal .address

def getChangeScript : WalletProg WalletResult := reveal .script

def getChangeDestinationScript : WalletProg WalletResult := reveal .script

/-- `apply_update(update)?`, `persist(&mut db)?` and the end of the guard. -/
def applyAndPersist (lastActive : Option Nat) : WalletProg WalletResult :=
  .act (.applyUpdate lastActive) fun
    | false => .act .unlock fun _ => .ret .failed
    | true => .act .persist fun
        | false => .act .unlock fun _ => .ret .failed
        | true => .act .unlock fun _ => .ret .done

def syncWallet : WalletProg WalletResult :=
  .act .lock fun _ =>
  .act .openDb fun
    | false => .ret .panicked
    | true => .act .clientSync fun
        | false => .act .unlock fun _ => .ret .failed
        | true => applyAndPersist none

def fullScan : WalletProg WalletResult :=
  .act .lock fun _ =>
  .act .openDb fun
    | false => .ret .panicked
    | true => .act .clientFullScan fun
        | none => .act .unlock fun _ => .ret .failed
        | some lastActive => applyAndPersist lastActive

/-- `new_from_seed`: whether the scan fails or not is not looked at. -/
def newFromSeed : WalletProg WalletResult :=
  .act .loadWallet fun
    | false => .ret .panicked
    | true => do
        match ← fullScan with
        | .panicked => return .panicked
        | _ => return .started

end OnChainWallet

/-! ## Runs -/

/-- The next index in memory and in the database; and as history, the next index there
was in memory when the process was last stopped, the indices revealed by calls under
way, and those returned. -/
structure OnChain where
  next : Nat
  persisted : Nat
  locked : Bool
  started : Bool
  lost : Nat
  revealed : List (Nat × Nat)
  returned : List Nat

namespace OnChain

/-- Before the first start. -/
def new : OnChain := ⟨0, 0, false, false, 0, [], []⟩

/-- The next index after one that was found used. -/
def above (lastActive : Option Nat) : Nat := lastActive.elim 0 (· + 1)

def Exec (t : Nat) : (a : WalletAct) → OnChain → a.Answer → OnChain → Prop
  | .lock, s, _, s' => s.locked = false ∧ s' = { s with locked := true }
  | .unlock, s, _, s' => s' = { s with locked := false }
  | .openDb, s, _, s' => s' = s
  | .loadWallet, s, r, s' =>
      (r = false ∧ s' = s) ∨ (r = true ∧ s' = { s with next := s.persisted })
  | .clientFullScan, s, _, s' => s' = s
  | .clientSync, s, _, s' => s' = s
  | .applyUpdate lastActive, s, r, s' =>
      (r = false ∧ s' = s) ∨
      (r = true ∧ s' = { s with next := max s.next (above lastActive) })
  | .persist, s, r, s' =>
      (r = false ∧ s' = s) ∨ (r = true ∧ s' = { s with persisted := s.next })
  | .revealNextAddress, s, r, s' =>
      r = s.next ∧ s' = { s with next := s.next + 1, revealed := (t, s.next) :: s.revealed }

/-- A call returns.  A panic ends the process instead. -/
def Finish (t : Nat) : WalletResult → OnChain → OnChain → Prop
  | .address i, s, s' | .script i, s, s' =>
      s' = { s with revealed := s.revealed.erase (t, i), returned := i :: s.returned }
  | .done, s, s' | .failed, s, s' => s' = s
  | .started, s, s' => s' = { s with started := true }
  | .panicked, _, _ => False

/-- The process is gone, and with it all that was in memory. -/
def stopped (s : OnChain) : OnChain :=
  { s with
    locked := false
    started := false
    lost := if s.started then s.next else s.lost
    revealed := [] }

end OnChain

open OnChainWallet in
/-- A node that is started any number of times: first `new_from_seed` alone, then
calls from any number of tasks. -/
def onChainWallet : System Nat WalletAct WalletAct.Answer WalletResult OnChain where
  exec := OnChain.Exec
  start t s p s' := s' = s ∧
    ((s.started = false ∧ t = 0 ∧ p = newFromSeed) ∨
     (s.started = true ∧
      (p = getAddress ∨ p = getChangeScript ∨ p = getChangeDestinationScript ∨ p = syncWallet)))
  finish := OnChain.Finish
  env _ _ := False
  crash s s' := s' = s.stopped

namespace OnChain

/-- At a start, the next index there was in memory at the stop had been persisted, or it is
no higher than the scan says, and the update is applied. -/
def Saved (_ : Nat) : (a : WalletAct) → OnChain → a.Answer → Prop
  | .clientFullScan, s, r => s.lost ≤ s.persisted ∨ s.lost ≤ above r.join
  | .applyUpdate _, s, r => s.started = true ∨ s.lost ≤ s.persisted ∨ r = true
  | _, _, _ => True

instance (t : Nat) : ∀ a s r, Decidable (Saved t a s r)
  | .clientFullScan, _, _ => inferInstanceAs (Decidable (_ ∨ _))
  | .applyUpdate _, _, _ => inferInstanceAs (Decidable (_ ∨ _ ∨ _ = _))
  | .lock, _, _ | .unlock, _, _ | .openDb, _, _ | .loadWallet, _, _ | .clientSync, _, _
  | .persist, _, _ | .revealNextAddress, _, _ => inferInstanceAs (Decidable True)

/-! ## What the calls keep -/

/-- All indices taken: by calls under way, and by calls that have returned. -/
def taken (s : OnChain) : List Nat := s.revealed.map Prod.snd ++ s.returned

structure Inv (s : OnChain) : Prop where
  nodup : s.taken.Nodup
  below : s.started = true → ∀ i ∈ s.taken, i < s.next
  stopped : s.started = false → s.revealed = [] ∧ ∀ i ∈ s.returned, i < s.lost

/-- A task relies on the process going on, and on its own index staying its own;
the first task starts the node alone. -/
def discipline : Discipline (onChainWallet.onlyIf Saved) where
  inv := Inv
  change _ _ := True
  rely t s s' := (s.started = true → s'.started = true) ∧
    (t = 0 → s.started = false → s' = s) ∧
    ∀ i, (t, i) ∈ s'.revealed ↔ (t, i) ∈ s.revealed
  change_refl _ := trivial
  change_trans _ _ := trivial
  rely_refl _ _ := ⟨id, fun _ _ => rfl, fun _ => Iff.rfl⟩
  rely_trans h h' := by
    refine ⟨h'.1 ∘ h.1, fun ht hs => ?_, fun i => (h'.2.2 i).trans (h.2.2 i)⟩
    obtain rfl := h.2.1 ht hs
    exact h'.2.1 ht hs

/-- A step that takes no index, and lowers the next one only while the node is
being started. -/
structure Frame (s s' : OnChain) : Prop where
  started : s'.started = s.started
  lost : s'.lost = s.lost
  revealed : s'.revealed = s.revealed
  returned : s'.returned = s.returned
  next : s.started = true → s.next ≤ s'.next

theorem Frame.inv {s s' : OnChain} (h : Frame s s') (hi : Inv s) : Inv s' := by
  have htaken : s'.taken = s.taken := by rw [taken, h.revealed, h.returned, taken]
  refine ⟨htaken ▸ hi.nodup, ?_, ?_⟩
  · intro hs i hmem
    have hs' : s.started = true := h.started ▸ hs
    exact Nat.lt_of_lt_of_le (hi.below hs' i (htaken ▸ hmem)) (h.next hs')
  · intro hs
    rw [h.revealed, h.returned, h.lost]
    exact hi.stopped (h.started ▸ hs)

theorem exec_frame {t : Nat} {a : WalletAct} {s s' : OnChain} {r : a.Answer}
    (h : Exec t a s r s') (ha : a ≠ .revealNextAddress)
    (hl : a = .loadWallet → s.started = false) : Frame s s' := by
  cases a with
  | lock =>
      obtain ⟨_, rfl⟩ := h
      exact ⟨rfl, rfl, rfl, rfl, fun _ => Nat.le_refl _⟩
  | unlock =>
      obtain rfl := h
      exact ⟨rfl, rfl, rfl, rfl, fun _ => Nat.le_refl _⟩
  | openDb | clientFullScan | clientSync =>
      obtain rfl := h
      exact ⟨rfl, rfl, rfl, rfl, fun _ => Nat.le_refl _⟩
  | loadWallet =>
      have hs := hl rfl
      rcases h with ⟨_, rfl⟩ | ⟨_, rfl⟩
      · exact ⟨rfl, rfl, rfl, rfl, fun _ => Nat.le_refl _⟩
      · exact ⟨rfl, rfl, rfl, rfl, fun hs' => nomatch hs.symm.trans hs'⟩
  | applyUpdate lastActive =>
      rcases h with ⟨_, rfl⟩ | ⟨_, rfl⟩
      · exact ⟨rfl, rfl, rfl, rfl, fun _ => Nat.le_refl _⟩
      · exact ⟨rfl, rfl, rfl, rfl, fun _ => Nat.le_max_left _ _⟩
  | persist =>
      rcases h with ⟨_, rfl⟩ | ⟨_, rfl⟩ <;> exact ⟨rfl, rfl, rfl, rfl, fun _ => Nat.le_refl _⟩
  | revealNextAddress => exact absurd rfl ha

/-- The task `t` runs while the node is up, and has revealed the index `x`, if any. -/
def Holding (t : Nat) (x : Option Nat) (s : OnChain) : Prop :=
  s.started = true ∧ ∀ i ∈ x, (t, i) ∈ s.revealed

/-- The task `t` starts the node, which has come to where `P` holds. -/
def Starting (t : Nat) (P : OnChain → Prop) (s : OnChain) : Prop :=
  t = 0 ∧ s.started = false ∧ P s

/-- What was persisted is in memory. -/
def Loaded (s : OnChain) : Prop := s.lost ≤ s.persisted → s.lost ≤ s.next

/-- The next index is as high as it was at the stop. -/
def Recovered (s : OnChain) : Prop := s.lost ≤ s.next

/-- What a call has established when it returns. -/
def Returned (t : Nat) : WalletResult → OnChain → Prop
  | .address i, s | .script i, s => Holding t (some i) s
  | .started, s => Starting t Recovered s
  | _, _ => True

section

variable {t : Nat} {x : Option Nat} {P : OnChain → Prop}

/-- The scan of a start that goes on has come to an end. -/
def Scanned (t : Nat) (out : WalletResult) (s : OnChain) : Prop :=
  out ≠ .panicked → Starting t Recovered s

theorem holding_stable : discipline.Stable t (Holding t x) := by
  rintro s s' _ _ ⟨hup, _, hrevealed⟩ ⟨hs, hx⟩
  exact ⟨hup hs, fun i hi => (hrevealed i).mpr (hx i hi)⟩

theorem starting_stable : discipline.Stable t (Starting t P) := by
  rintro s s' _ _ ⟨_, hsame, _⟩ ⟨ht, hs, hP⟩
  obtain rfl := hsame ht hs
  exact ⟨ht, hs, hP⟩

theorem scanned_stable {out : WalletResult} : discipline.Stable t (Scanned t out) :=
  fun s s' hi hi' hr h hout => starting_stable s s' hi hi' hr (h hout)

/-- Any action of a call but the one that takes the index. -/
theorem quiet_rule {a : WalletAct} {k : a.Answer → WalletProg WalletResult}
    {Q : WalletResult → OnChain → Prop} (ha : a ≠ .revealNextAddress) (hl : a ≠ .loadWallet)
    (hk : ∀ r, discipline.Triple t (Holding t x) (k r) Q) :
    discipline.Triple t (Holding t x) (.act a k) Q := by
  refine .act (fun _ => Holding t x) holding_stable ?_ hk
  rintro s hi ⟨hs, hx⟩ r s' ⟨he, _⟩
  have hf := exec_frame he ha fun h => absurd h hl
  refine ⟨hf.inv hi, ⟨trivial, ?_⟩, hf.started.trans hs, ?_⟩
  · intro u _
    refine ⟨fun _ => hf.started.trans hs, fun _ hs' => ?_, fun i => ?_⟩
    · cases hs.symm.trans hs'
    · rw [hf.revealed]
  · rw [hf.revealed]
    exact hx

/-- An action of the start. -/
theorem start_rule {a : WalletAct} {k : a.Answer → WalletProg WalletResult}
    {Q : WalletResult → OnChain → Prop} (ha : a ≠ .revealNextAddress)
    (M : a.Answer → OnChain → Prop)
    (hM : ∀ s r s', s.started = false → P s → Exec t a s r s' → Saved t a s r → M r s')
    (hk : ∀ r, discipline.Triple t (Starting t (M r)) (k r) Q) :
    discipline.Triple t (Starting t P) (.act a k) Q := by
  refine .act (fun r => Starting t (M r)) starting_stable ?_ hk
  rintro s hi ⟨ht, hs, hP⟩ r s' ⟨he, hok⟩
  have hf := exec_frame he ha fun _ => hs
  refine ⟨hf.inv hi, ⟨trivial, ?_⟩, ht, hf.started.trans hs, hM s r s' hs hP he hok⟩
  intro u hu
  refine ⟨fun hs' => hf.started.trans hs', fun hu' => absurd (hu'.trans ht.symm) hu, fun i => ?_⟩
  rw [hf.revealed]

theorem reveal_rule {k : Nat → WalletProg WalletResult}
    (hk : ∀ i, discipline.Triple t (Holding t (some i)) (k i) (Returned t)) :
    discipline.Triple t (Holding t none) (.act .revealNextAddress k) (Returned t) := by
  refine .act (fun i => Holding t (some i)) holding_stable ?_ hk
  rintro s hi ⟨hs, _⟩ _ _ ⟨⟨rfl, rfl⟩, _⟩
  have hnew : s.next ∉ s.taken := fun hmem => Nat.lt_irrefl _ (hi.below hs _ hmem)
  refine ⟨⟨List.nodup_cons.mpr ⟨hnew, hi.nodup⟩, ?_, ?_⟩, ⟨trivial, ?_⟩, hs, ?_⟩
  · intro _ i hmem
    rcases List.mem_cons.mp hmem with rfl | hmem
    · exact Nat.lt_succ_self _
    · exact Nat.lt_succ_of_lt (hi.below hs i hmem)
  · intro hs'
    cases hs.symm.trans hs'
  · intro u hu
    refine ⟨id, fun _ hs' => ?_, fun i => ?_⟩
    · cases hs.symm.trans hs'
    · show (u, i) ∈ (t, s.next) :: s.revealed ↔ _
      simp [hu]
  · rintro _ ⟨⟩
    exact List.mem_cons_self

open OnChainWallet

/-! ### Calls -/

theorem reveal_program {result : Nat → WalletResult}
    (hr : ∀ i s, Holding t (some i) s → Returned t (result i) s) :
    discipline.Triple t (Holding t none) (reveal result) (Returned t) := by
  refine quiet_rule nofun nofun fun _ => reveal_rule fun i => ?_
  exact quiet_rule nofun nofun fun _ => .ret holding_stable fun s _ => hr i s

theorem getAddress_program : discipline.Triple t (Holding t none) getAddress (Returned t) :=
  reveal_program fun _ _ h => h

theorem getChangeScript_program :
    discipline.Triple t (Holding t none) getChangeScript (Returned t) :=
  reveal_program fun _ _ h => h

/-- The end of a call that only reports how it went. -/
theorem unlock_rule {out : WalletResult} (h : ∀ s, Returned t out s) :
    discipline.Triple t (Holding t none) (.act .unlock fun _ => .ret out) (Returned t) :=
  quiet_rule nofun nofun fun _ => .ret holding_stable fun s _ _ => h s

theorem applyAndPersist_program {lastActive : Option Nat} :
    discipline.Triple t (Holding t none) (applyAndPersist lastActive) (Returned t) := by
  refine quiet_rule nofun nofun fun r => ?_
  cases r with
  | false => exact unlock_rule fun _ => trivial
  | true =>
      refine quiet_rule nofun nofun fun r => ?_
      cases r <;> exact unlock_rule fun _ => trivial

theorem syncWallet_program : discipline.Triple t (Holding t none) syncWallet (Returned t) := by
  refine quiet_rule nofun nofun fun _ => quiet_rule nofun nofun fun r => ?_
  cases r with
  | false => exact .ret holding_stable fun _ _ _ => trivial
  | true =>
      refine quiet_rule nofun nofun fun r => ?_
      cases r with
      | false => exact unlock_rule fun _ => trivial
      | true => exact applyAndPersist_program

/-! ### The start -/

/-- The next index is recovered; what comes of the scan does not matter any more. -/
theorem recovered_rule {a : WalletAct} {k : a.Answer → WalletProg WalletResult}
    {Q : WalletResult → OnChain → Prop} (ha : a = .unlock ∨ a = .persist)
    (hk : ∀ r, discipline.Triple t (Starting t Recovered) (k r) Q) :
    discipline.Triple t (Starting t Recovered) (.act a k) Q := by
  refine start_rule (by rcases ha with rfl | rfl <;> nofun) (fun _ => Recovered) ?_ hk
  intro s r s' _ h he _
  rcases ha with rfl | rfl
  · obtain rfl := he
    exact h
  · rcases he with ⟨_, rfl⟩ | ⟨_, rfl⟩ <;> exact h

theorem recovered_unlock {out : WalletResult} :
    discipline.Triple t (Starting t Recovered) (.act .unlock fun _ => .ret out) (Scanned t) :=
  recovered_rule (.inl rfl) fun _ => .ret starting_stable fun _ _ h _ => h

/-- The update raises the next index to what the scan found. -/
theorem applyAndPersist_recovers {lastActive : Option Nat} :
    discipline.Triple t
      (Starting t fun s => Loaded s ∧ (s.lost ≤ s.persisted ∨ s.lost ≤ above lastActive))
      (applyAndPersist lastActive) (Scanned t) := by
  refine start_rule nofun (fun _ => Recovered) ?_ fun r => ?_
  · rintro s r s' hs ⟨hloaded, hfound⟩ (⟨hr, rfl⟩ | ⟨_, rfl⟩) hok
    · rcases hok with hs' | hkept | hr'
      · cases hs.symm.trans hs'
      · exact hloaded hkept
      · cases hr.symm.trans hr'
    · rcases hfound with hkept | habove
      · exact Nat.le_trans (hloaded hkept) (Nat.le_max_left _ _)
      · exact Nat.le_trans habove (Nat.le_max_right _ _)
  · cases r with
    | false => exact recovered_unlock
    | true =>
        refine recovered_rule (.inr rfl) fun r => ?_
        cases r <;> exact recovered_unlock

theorem fullScan_recovers :
    discipline.Triple t (Starting t Loaded) fullScan (Scanned t) := by
  refine start_rule nofun (fun _ => Loaded) ?_ fun _ => start_rule nofun (fun _ => Loaded) ?_
    fun opened => ?_
  · rintro s _ _ _ h ⟨_, rfl⟩ _
    exact h
  · rintro s _ _ _ h rfl _
    exact h
  cases opened with
  | false => exact .ret starting_stable fun _ _ _ h => absurd rfl h
  | true =>
      refine start_rule nofun
        (fun r s => Loaded s ∧ (s.lost ≤ s.persisted ∨ s.lost ≤ above r.join)) ?_ fun r => ?_
      · rintro s r _ _ h rfl hok
        exact ⟨h, hok⟩
      cases r with
      | none =>
          refine start_rule nofun (fun _ => Recovered) ?_ fun _ =>
            .ret starting_stable fun _ _ h _ => h
          rintro s _ _ _ ⟨hloaded, hkept | hzero⟩ rfl _
          · exact hloaded hkept
          · exact Nat.le_trans hzero (Nat.zero_le _)
      | some lastActive => exact applyAndPersist_recovers

theorem newFromSeed_program :
    discipline.Triple t (Starting t fun _ => True) newFromSeed (Returned t) := by
  refine start_rule nofun (fun r s => r = true → Loaded s) ?_ fun r => ?_
  · rintro s r s' _ _ (⟨rfl, rfl⟩ | ⟨_, rfl⟩) _ hr
    · cases hr
    · exact id
  cases r with
  | false => exact .ret starting_stable fun _ _ _ => trivial
  | true =>
      refine .bind _ (fullScan_recovers.weaken fun s _ h => ⟨h.1, h.2.1, h.2.2 rfl⟩) fun out => ?_
      cases out with
      | panicked => exact .ret scanned_stable fun _ _ _ => trivial
      | address i | script i | done | failed | started =>
          exact .ret scanned_stable fun _ _ h => h (by rintro ⟨⟩)

end

/-! ## Every run -/

/-- A call that returns the index it holds. -/
theorem Inv.return {t i : Nat} {s : OnChain} (h : Inv s) (hs : Holding t (some i) s) :
    Inv { s with revealed := s.revealed.erase (t, i), returned := i :: s.returned } := by
  have hmem : (t, i) ∈ s.revealed := hs.2 i rfl
  have hperm : ((s.revealed.erase (t, i)).map Prod.snd ++ i :: s.returned).Perm s.taken := by
    have h₁ : (s.revealed.map Prod.snd).Perm (i :: (s.revealed.erase (t, i)).map Prod.snd) :=
      (List.perm_cons_erase hmem).map Prod.snd
    exact List.perm_middle.trans (h₁.symm.append_right s.returned)
  refine ⟨hperm.nodup_iff.mpr h.nodup, ?_, ?_⟩
  · intro _ j hj
    exact h.below hs.1 j (hperm.subset hj)
  · intro hs'
    cases hs.1.symm.trans hs'

theorem return_guar {t i : Nat} {s : OnChain} (hs : s.started = true) :
    discipline.Guar t s
      { s with revealed := s.revealed.erase (t, i), returned := i :: s.returned } := by
  refine ⟨trivial, fun u hu => ⟨id, fun _ hs' => ?_, fun j => ?_⟩⟩
  · cases hs.symm.trans hs'
  · have hne : (u, j) ≠ (t, i) := fun h => hu (congrArg Prod.fst h)
    exact List.mem_erase_of_ne hne

/-- A start hands out the wallet. -/
theorem Inv.start {s : OnChain} (h : Inv s) (hs : s.started = false) (hok : Recovered s) :
    Inv { s with started := true } := by
  obtain ⟨hrevealed, hlost⟩ := h.stopped hs
  refine ⟨h.nodup, ?_, nofun⟩
  intro _ i hi
  have htaken : s.taken = s.returned := by rw [taken, hrevealed, List.map_nil, List.nil_append]
  exact Nat.lt_of_lt_of_le (hlost i (htaken ▸ hi)) hok

theorem Inv.stop {s : OnChain} (h : Inv s) : Inv s.stopped := by
  refine ⟨h.nodup.of_append_right, nofun, fun _ => ⟨rfl, fun i hi => ?_⟩⟩
  show i < if s.started then s.next else s.lost
  cases hs : s.started with
  | false => exact (h.stopped hs).2 i hi
  | true => exact h.below hs i (List.mem_append_right _ hi)

def outline : Outline (onChainWallet.onlyIf Saved) where
  toDiscipline := discipline
  idle _ _ := True
  post := Returned
  idle_stable _ _ _ _ _ _ h := h
  start_ok := by
    rintro t s p s' ⟨hs', hp⟩ hi _
    subst hs'
    refine ⟨hi, ⟨trivial, fun u _ => discipline.rely_refl u _⟩, ?_⟩
    rcases hp with ⟨hs, rfl, rfl⟩ | ⟨hs, hp⟩
    · exact newFromSeed_program _ hi ⟨rfl, hs, trivial⟩
    · have hh : Holding t none s' := ⟨hs, nofun⟩
      rcases hp with rfl | rfl | rfl | rfl
      · exact getAddress_program _ hi hh
      · exact getChangeScript_program _ hi hh
      · exact getChangeScript_program _ hi hh
      · exact syncWallet_program _ hi hh
  finish_ok := by
    rintro t out s s' hf hi hpost
    cases out with
    | address i | script i =>
        obtain rfl := hf
        exact ⟨hi.return hpost, return_guar hpost.1, trivial⟩
    | done | failed =>
        obtain rfl := hf
        exact ⟨hi, ⟨trivial, fun u _ => discipline.rely_refl u _⟩, trivial⟩
    | started =>
        obtain rfl := hf
        obtain ⟨ht, hs, hok⟩ := hpost
        refine ⟨hi.start hs hok, ⟨trivial, ?_⟩, trivial⟩
        intro u hu
        exact ⟨fun _ => rfl, fun hu' => absurd (hu'.trans ht.symm) hu, fun _ => Iff.rfl⟩
    | panicked => exact hf.elim
  env_ok h := h.elim
  crash_ok := by
    rintro s _ rfl hi
    exact ⟨hi.stop, trivial, fun _ => trivial⟩

theorem Inv.new : Inv .new := ⟨List.nodup_nil, nofun, fun _ => ⟨rfl, nofun⟩⟩

/-! ## Calls one after the other -/

/-- Everything succeeds, and nothing is used on chain. -/
def smoothly (t : Nat) : (a : WalletAct) → OnChain → Option (a.Answer × OnChain)
  | .lock, s => if s.locked then none else some ((), { s with locked := true })
  | .unlock, s => some ((), { s with locked := false })
  | .openDb, s => some (true, s)
  | .loadWallet, s => some (true, { s with next := s.persisted })
  | .clientFullScan, s => some (some none, s)
  | .clientSync, s => some (true, s)
  | .applyUpdate lastActive, s =>
      some (true, { s with next := max s.next (above lastActive) })
  | .persist, s => some (true, { s with persisted := s.next })
  | .revealNextAddress, s =>
      some (s.next, { s with next := s.next + 1, revealed := (t, s.next) :: s.revealed })

theorem smoothly_exec {t : Nat} :
    ∀ a s r s', smoothly t a s = some (r, s') → Exec t a s r s' := by
  intro a s r s' h
  cases a with
  | lock =>
      simp only [smoothly] at h
      split_ifs at h with hl
      cases h
      exact ⟨by simpa using hl, rfl⟩
  | unlock | openDb | clientFullScan | clientSync =>
      cases h
      rfl
  | loadWallet | applyUpdate _ | persist =>
      cases h
      exact Or.inr ⟨rfl, rfl⟩
  | revealNextAddress =>
      cases h
      exact ⟨rfl, rfl⟩

theorem reach_call {t : Nat} {p : WalletProg WalletResult} {s s₁ s₂ : OnChain} {out : WalletResult}
    (hs : onChainWallet.start t s p s)
    (hr : run (System.guarded (smoothly t) (Saved t)) p s = some (out, s₁))
    (hf : onChainWallet.finish t out s₁ s₂) :
    (onChainWallet.onlyIf Saved).Reach (.idle s) (.idle s₂) :=
  System.reach_call (S := onChainWallet.onlyIf Saved) (System.exec_of_guarded smoothly_exec) hs hr hf

end OnChain

open OnChain in
/-- While at every start the next index of the stop before had been persisted, or is found
by the scan, none is handed out twice. -/
theorem index_handed_out_once
    {cfg : Config Nat WalletAct WalletAct.Answer WalletResult OnChain}
    (hr : (onChainWallet.onlyIf Saved).Reach (.idle .new) cfg) : cfg.state.returned.Nodup := by
  have hi : Inv cfg.state := ((Outline.Inv.init outline Inv.new fun _ => trivial).reach _ hr).1.state
  exact hi.nodup.of_append_right

open OnChain OnChainWallet in
/-- An address, a sync, a restart, and a change script. -/
theorem index_handed_out_once_synced :
    ∃ cfg, (onChainWallet.onlyIf Saved).Reach (.idle .new) cfg ∧ cfg.state.returned = [1, 0] ∧
      cfg.state.returned.Nodup := by
  have h₁ : (onChainWallet.onlyIf Saved).Reach (.idle .new) (.idle _) :=
    reach_call ⟨rfl, Or.inl ⟨rfl, rfl, rfl⟩⟩ rfl rfl
  have h₂ := h₁.trans (reach_call (t := 1) ⟨rfl, Or.inr ⟨rfl, Or.inl rfl⟩⟩ rfl rfl)
  have h₃ := h₂.trans
    (reach_call (t := 2) ⟨rfl, Or.inr ⟨rfl, Or.inr (Or.inr (Or.inr rfl))⟩⟩ rfl rfl)
  have h₄ := (h₃.tail (.crash rfl)).trans (reach_call ⟨rfl, Or.inl ⟨rfl, rfl, rfl⟩⟩ rfl rfl)
  have h₅ := h₄.trans (reach_call (t := 1) ⟨rfl, Or.inr ⟨rfl, Or.inr (Or.inl rfl)⟩⟩ rfl rfl)
  exact ⟨_, h₅, rfl, index_handed_out_once h₅⟩

open OnChain OnChainWallet in
/-- An address, a restart before any sync, and a change script: index 0 twice. -/
theorem index_handed_out_twice :
    ∃ cfg, onChainWallet.Reach (.idle .new) cfg ∧ cfg.state.returned = [0, 0] := by
  have hcall : ∀ {t : Nat} {p : WalletProg WalletResult} {s s₁ s₂ : OnChain} {out : WalletResult},
      onChainWallet.start t s p s → run (smoothly t) p s = some (out, s₁) →
      onChainWallet.finish t out s₁ s₂ → onChainWallet.Reach (.idle s) (.idle s₂) :=
    fun hs hr hf => System.reach_call (S := onChainWallet) smoothly_exec hs hr hf
  have h₁ : onChainWallet.Reach (.idle .new) (.idle _) :=
    hcall ⟨rfl, Or.inl ⟨rfl, rfl, rfl⟩⟩ rfl rfl
  have h₂ := h₁.trans (hcall (t := 1) ⟨rfl, Or.inr ⟨rfl, Or.inl rfl⟩⟩ rfl rfl)
  have h₃ := (h₂.tail (.crash rfl)).trans (hcall ⟨rfl, Or.inl ⟨rfl, rfl, rfl⟩⟩ rfl rfl)
  have h₄ := h₃.trans (hcall (t := 1) ⟨rfl, Or.inr ⟨rfl, Or.inr (Or.inl rfl)⟩⟩ rfl rfl)
  exact ⟨_, h₄, rfl⟩

end LightningNode
