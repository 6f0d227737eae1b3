/-
# `LightningNode.Store.Linearizability` — one store, many callers

Tasks read, write and remove on one `FilesystemStore`, their steps in any order.
A call takes effect in one of them:

    read     opens the file, or finds that there is none
    write    renames its temporary file
    remove   unlinks the file, or finds, before it takes the lock, that there is none

and calls ordered by these steps answer as the map `Stored` does.  Two writes
never share a temporary file, because the counter hands a number out once
(`Ticketed`).
-/
import LightningNode.Lib.Linearizable
import LightningNode.Lib.Tasks
import LightningNode.Store.Interference
import LightningNode.Store.KeyValue
import LightningNode.Store.Rules
import Mathlib.Data.List.Perm.Subperm

namespace LightningNode

open Conc StoreProg FilesystemStore

/-! ## What the calls should look like -/

/-- The store, used by one caller at a time. -/
def storeObject : Object Stored Call Answer := ⟨∅, Stored.step⟩

/-- The call returned `Ok`, or, being a read, `NotFound`. -/
def Reply.Good : Reply → Prop
  | .bytes (.ok _) | .unit (.ok _) | .keys (.ok _) => True
  | .bytes (.error (.os .notFound)) => True
  | _ => False

theorem Reply.Refused.not_good {r : Reply} (h : r.Refused) : ¬ r.Good := by
  cases r with
  | bytes r =>
      obtain ⟨msg, rfl⟩ := h
      exact id
  | unit r =>
      obtain ⟨msg, rfl⟩ := h
      exact id
  | keys r =>
      obtain ⟨msg, rfl⟩ := h
      exact id

section

variable {m : Stored} {p s k : String} (h : Accepts p s (some k))

include h

theorem Stored.step_write (m : Stored) (buf : Bytes) :
    m.step (.write p s k buf) = (.done, m.insert (p, s, k) buf) :=
  if_pos (show Call.Accepted (.write p s k buf) from h)

theorem Stored.step_remove (m : Stored) (lazily : Bool) :
    m.step (.remove p s k lazily) = (.done, m.erase (p, s, k)) :=
  if_pos (show Call.Accepted (.remove p s k lazily) from h)

theorem Stored.step_read {x : Option Bytes} (hx : m.lookup (p, s, k) = x) :
    m.step (.read p s k) = (x.elim .notFound .value, m) := by
  have hacc : Call.Accepted (.read p s k) := h
  cases x with
  | none => simp only [Stored.step, if_pos hacc, hx, Option.elim]
  | some b => simp only [Stored.step, if_pos hacc, hx, Option.elim]

end

/-! ## The system -/

/-- The store, what its callers have seen, and which call was handed which
number for its temporary file. -/
structure Shared (T : Type) where
  world : World
  trace : Trace T Call Reply Answer
  tickets : List (Nat × UInt64)

/-- The answer of the call, if this is the action at which it takes effect. -/
def Call.point : Call → (a : StoreAct) → a.Answer → Disk → Option Answer
  | .read _ _ _, .disk (.openRead _), .ok (.file i), d => some (.value (d.files i).data)
  | .read _ _ _, .disk (.openRead _), .error .notFound, _ => some .notFound
  | .write _ _ _ _, .disk (.rename _ _), .ok _, _ => some .done
  | .remove _ _ _ _, .disk (.metadata _), .ok (.file _), _ => none
  | .remove _ _ _ _, .disk (.metadata _), _, _ => some .done
  | .remove _ _ _ _, .disk (.removeFile _), .ok _, _ => some .done
  | _, _, _, _ => none

/-- The numbers of the writes. -/
def writeIds (h : List (Event Call Reply)) : List Nat :=
  h.filterMap fun
    | .invoke id (.write _ _ _ _) => some id
    | _ => none

namespace Shared

variable {T : Type}

abbrev disk (s : Shared T) : Disk := s.world.disk

/-- A new store on a new disk. -/
def start : Shared T := ⟨⟨.fresh, .new⟩, .empty, []⟩

/-- The action `a` of `t` was answered by `r`. -/
def after (s : Shared T) (t : T) (a : StoreAct) (r : a.Answer) (w : World) : Shared T where
  world := w
  trace :=
    match s.trace.running t with
    | none => s.trace
    | some (_, c) =>
        match c.point a r s.disk with
        | none => s.trace
        | some x => s.trace.point t x
  tickets :=
    match a, r, s.trace.running t with
    | .fetchAddTmp, n, some (id, _) => (id, n) :: s.tickets
    | _, _, _ => s.tickets

end Shared

/-- Any number of callers on one store below `root`, with no faults and fewer
than 2^64 writes. -/
def concurrentStore (T : Type) [DecidableEq T] (root : PathBuf) :
    System T StoreAct StoreAct.Answer Reply (Shared T) where
  exec t a s r s' := ∃ w, storeStep a s.world = some (r, w) ∧ s' = s.after t a r w
  start t s p s' := ∃ c : Call, c.key.isSome ∧ p = c.program root ∧
    s' = { s with trace := s.trace.invoke t c } ∧ (writeIds s'.trace.events).length < UInt64.size
  finish t r s s' := s' = { s with trace := s.trace.reply t r }
  env _ _ := False
  crash _ _ := False

section

variable {T : Type} {s : Shared T} {t : T} {id : Nat} {c : Call} {a : StoreAct} {r : a.Answer}
  {w : World} (hrun : s.trace.running t = some (id, c))

include hrun

omit hrun in
theorem Shared.tickets_after (ha : a ≠ .fetchAddTmp) : (s.after t a r w).tickets = s.tickets := by
  cases a with
  | fetchAddTmp => exact absurd rfl ha
  | _ => rfl

/-- The call does not take effect here. -/
theorem Shared.trace_quiet (hp : c.point a r s.disk = none) : (s.after t a r w).trace = s.trace := by
  simp only [after, hrun, hp]

theorem Shared.trace_point {x : Answer} (hp : c.point a r s.disk = some x) :
    (s.after t a r w).trace = s.trace.point t x := by
  simp only [after, hrun, hp]

theorem Shared.before_quiet (hp : c.point a r s.disk = none) (hb : s.trace.Before id) :
    (s.after t a r w).trace.Before id := by
  rw [trace_quiet hrun hp]
  exact hb

theorem Shared.after_point {x : Answer} (hp : c.point a r s.disk = some x)
    (hb : s.trace.Before id) : (s.after t a r w).trace.After id x := by
  rw [trace_point hrun hp]
  exact hb.point hrun

theorem Shared.running_after : (s.after t a r w).trace.running = s.trace.running := by
  cases hp : c.point a r s.disk with
  | none => rw [trace_quiet hrun hp]
  | some x => rw [trace_point hrun hp, Trace.running_point hrun]

theorem Shared.events_after : (s.after t a r w).trace.events = s.trace.events := by
  cases hp : c.point a r s.disk with
  | none => rw [trace_quiet hrun hp]
  | some x => rw [trace_point hrun hp, Trace.events_point hrun]

end

/-! ## Numbers for temporary files -/

/-- No number is handed out twice. -/
structure Ticketed (counter : UInt64) (tickets : List (Nat × UInt64)) (writes : List Nat) :
    Prop where
  counter : counter.toNat = tickets.length
  below : ∀ {id n}, (id, n) ∈ tickets → n.toNat < tickets.length
  apart : ∀ {id id' n}, (id, n) ∈ tickets → (id', n) ∈ tickets → id = id'
  once : (tickets.map Prod.fst).Nodup
  issued : ∀ {id n}, (id, n) ∈ tickets → id ∈ writes
  few : writes.length < UInt64.size

namespace Ticketed

variable {counter : UInt64} {tickets : List (Nat × UInt64)} {writes writes' : List Nat} {id : Nat}

theorem start : Ticketed 0 [] [] := ⟨rfl, nofun, nofun, .nil, nofun, by decide⟩

theorem more (h : Ticketed counter tickets writes) (hsub : writes ⊆ writes')
    (hfew : writes'.length < UInt64.size) : Ticketed counter tickets writes' :=
  { h with issued := fun hm => hsub (h.issued hm), few := hfew }

/-- A write that has no number yet takes the next one. -/
theorem fetch (h : Ticketed counter tickets writes) (hw : id ∈ writes)
    (hnew : ∀ n, (id, n) ∉ tickets) : Ticketed (counter + 1) ((id, counter) :: tickets) writes := by
  have honce : (((id, counter) :: tickets).map Prod.fst).Nodup := by
    rw [List.map_cons, List.nodup_cons]
    refine ⟨?_, h.once⟩
    intro hm
    obtain ⟨⟨x, n⟩, hn, heq⟩ := List.mem_map.mp hm
    obtain rfl : x = id := heq
    exact hnew n hn
  have hissued : ∀ {id' n}, (id', n) ∈ (id, counter) :: tickets → id' ∈ writes := by
    intro id' n hm
    rcases List.mem_cons.mp hm with heq | hm
    · cases heq
      exact hw
    · exact h.issued hm
  have hlen : tickets.length + 1 < UInt64.size := by
    have hsub : ((id, counter) :: tickets).map Prod.fst ⊆ writes := by
      intro x hx
      obtain ⟨⟨_, n⟩, hm, rfl⟩ := List.mem_map.mp hx
      exact hissued hm
    have hle := (honce.subperm hsub).length_le
    rw [List.length_map, List.length_cons] at hle
    exact Nat.lt_of_le_of_lt hle h.few
  have hold : ∀ {id'}, (id', counter) ∉ tickets := by
    intro id' hm
    have hlt := h.below hm
    rw [h.counter] at hlt
    exact Nat.lt_irrefl _ hlt
  refine ⟨?_, ?_, ?_, honce, hissued, h.few⟩
  · rw [UInt64.toNat_add, h.counter]
    exact Nat.mod_eq_of_lt hlen
  · intro id' n hm
    rcases List.mem_cons.mp hm with heq | hm
    · cases heq
      rw [h.counter]
      exact Nat.lt_succ_self _
    · exact Nat.lt_succ_of_lt (h.below hm)
  · intro id₁ id₂ n hm₁ hm₂
    rcases List.mem_cons.mp hm₁ with heq₁ | hm₁
    · cases heq₁
      rcases List.mem_cons.mp hm₂ with heq₂ | hm₂
      · cases heq₂
        rfl
      · exact absurd hm₂ hold
    · rcases List.mem_cons.mp hm₂ with heq₂ | hm₂
      · cases heq₂
        exact absurd hm₁ hold
      · exact h.apart hm₁ hm₂

end Ticketed

/-! ## The invariant -/

/-- The map `m` says what is at each key below `root`. -/
def Stores (root : PathBuf) (m : Stored) (d : Disk) : Prop :=
  ∀ {p s k}, Accepts p s (some k) →
    m.lookup (p, s, k) = d.contents (.join (getDestDirPath root p s) k)

theorem Stores.sameKeys {root : PathBuf} {m : Stored} {d d' : Disk} (h : Stores root m d)
    (hsame : SameKeys d d') : Stores root m d' := by
  intro p s k ha
  rw [h ha, hsame _ k (ha.2.2.2.2 k rfl)]

theorem KeySet.stores {root : PathBuf} {p s k : String} {m m' : Stored} {d d' : Disk}
    {b : Option Bytes}
    (hset : KeySet d d' (getDestDirPath root p s) k b) (h : Stores root m d)
    (hps : p = "" → s = "") (hhere : m'.lookup (p, s, k) = b)
    (hother : ∀ x, x ≠ (p, s, k) → m'.lookup x = m.lookup x) : Stores root m' d' := by
  intro p' s' k' ha
  by_cases heq : (p', s', k') = (p, s, k)
  · cases heq
    rw [hhere, hset.here]
  · rw [hother _ heq, h ha, hset.other (ha.2.2.2.2 k' rfl)]
    rintro ⟨hq, rfl⟩
    obtain ⟨rfl, rfl⟩ := getDestDirPath_inj ha.2.1 hps hq
    exact heq rfl

/-- Between two steps: the map that the calls in the order leave is what is on
the disk. -/
structure Linear (root : PathBuf) {T : Type} (s : Shared T) : Prop where
  links : Links s.disk
  consistent : s.trace.Consistent storeObject Reply.Agrees Reply.Good
  stored : Stores root (storeObject.after s.trace.order) s.disk
  ticketed : Ticketed s.world.memory.tmpFileCounter s.tickets (writeIds s.trace.events)

/-- A write that is running is one of the writes. -/
theorem Linear.written {root : PathBuf} {T : Type} {s : Shared T} (h : Linear root s) {t : T}
    {id : Nat} {p q k : String} {buf : Bytes}
    (hrun : s.trace.running t = some (id, .write p q k buf)) : id ∈ writeIds s.trace.events :=
  List.mem_filterMap.mpr ⟨_, (h.consistent.running t _ _ hrun).1, rfl⟩

/-! ## What a call relies on -/

section

variable {T : Type} {s s' s'' : Shared T} {id id' : Nat} {x : String}

/-- The temporary files of the call `id`. -/
def Shared.Names (s : Shared T) (id : Nat) (x : String) : Prop :=
  ∃ k n, ValidName k ∧ (id, n) ∈ s.tickets ∧ x = tmpName k n

theorem Shared.Names.isTmp (h : s.Names id x) : IsTmp x := by
  obtain ⟨k, n, _, _, rfl⟩ := h
  exact tmpName_isTmp k n

theorem Linear.apart {root : PathBuf} (h : Linear root s) (hne : id ≠ id') (hx : s.Names id x) :
    ¬ s.Names id' x := by
  rintro ⟨k', n', hk', hn', rfl⟩
  obtain ⟨k, n, hk, hn, heq⟩ := hx
  obtain rfl := tmpName_inj hk' hk heq
  exact hne (h.ticketed.apart hn hn')

/-- To the call `id` it is all the same. -/
structure Same (id : Nat) (s s' : Shared T) : Prop where
  entries : Trace.SameEntries id s.trace s'.trace
  tickets : ∀ n, (id, n) ∈ s'.tickets ↔ (id, n) ∈ s.tickets
  disk : Undisturbed (s.Names id) s.disk s'.disk

theorem Same.names (h : Same id s s') : s'.Names id = s.Names id := by
  funext x
  refine propext (exists_congr fun k => exists_congr fun n => and_congr_right fun _ => ?_)
  rw [h.tickets n]

theorem Same.trans (h : Same id s s') (h' : Same id s' s'') : Same id s s'' where
  entries := h.entries.trans h'.entries
  tickets n := (h'.tickets n).trans (h.tickets n)
  disk := h.disk.trans (h.names ▸ h'.disk)

/-- What the memory of the store holds is all the same to a call. -/
theorem Same.of_eq (hd : Undisturbed (s.Names id) s.disk s'.disk)
    (ho : s'.trace.order = s.trace.order) (ht : s'.tickets = s.tickets) : Same id s s' where
  entries := .of_order ho
  tickets n := by rw [ht]
  disk := hd

end

variable {T : Type} [DecidableEq T]

/-- The others leave the task in its call, and to that call it is all the same. -/
def linearly (root : PathBuf) : Discipline (concurrentStore T root) where
  inv := Linear root
  change _ _ := True
  rely t s s' := s'.trace.running t = s.trace.running t ∧
    ∀ {id c}, s.trace.running t = some (id, c) → Same id s s'
  change_refl _ := trivial
  change_trans _ _ := trivial
  rely_refl _ _ := ⟨rfl, fun _ => .of_eq (.refl _) rfl rfl⟩
  rely_trans h h' := by
    refine ⟨h'.1.trans h.1, ?_⟩
    intro id c hrun
    exact (h.2 hrun).trans (h'.2 (h.1 ▸ hrun))

section

variable {root : PathBuf} {s : Shared T} {t : T} {id : Nat} {c : Call} {a : StoreAct}
  {r : a.Answer} {w : World}

/-- A step that leaves the disk undisturbed for every other call is one that the
other tasks rely on. -/
theorem Linear.guar (h : Linear root s) (hrun : s.trace.running t = some (id, c))
    (hd : ∀ {Mine : String → Prop}, (∀ x, Mine x → IsTmp x) → (∀ x, s.Names id x → ¬ Mine x) →
      Undisturbed Mine s.disk w.disk) :
    (linearly root).Guar t s (s.after t a r w) := by
  refine ⟨trivial, ?_⟩
  intro u hut
  refine ⟨by rw [Shared.running_after hrun], ?_⟩
  intro id' c' hu
  have hne : id ≠ id' := by
    rintro rfl
    exact hut (h.consistent.apart u t _ _ _ hu hrun)
  refine ⟨?_, ?_, hd (fun _ hx => hx.isTmp) fun _ hx => h.apart hne hx⟩
  · cases hp : c.point a r s.disk with
    | none =>
        rw [Shared.trace_quiet hrun hp]
        exact .of_order rfl
    | some x =>
        rw [Shared.trace_point hrun hp]
        exact .point hrun h.consistent hut hu
  · intro n
    cases a with
    | fetchAddTmp =>
        simp only [Shared.after, hrun, List.mem_cons, Prod.mk.injEq]
        constructor
        · rintro (⟨rfl, _⟩ | hm)
          · exact absurd rfl hne
          · exact hm
        · exact Or.inr
    | _ => exact Iff.rfl

theorem storeStep_counter (ha : a ≠ .fetchAddTmp) {w w' : World} (hs : storeStep a w = some (r, w')) :
    w'.memory.tmpFileCounter = w.memory.tmpFileCounter := by
  cases a with
  | fetchAddTmp => exact absurd rfl ha
  | cloneLock path =>
      cases hs
      simp only [StoreMemory.cloneLock]
      split <;> rfl
  | readLock r =>
      simp only [storeStep] at hs
      split at hs <;> cases hs
      rfl
  | writeLock r =>
      simp only [storeStep] at hs
      split at hs <;> cases hs
      rfl
  | _ => cases hs; rfl

section

variable (h : Linear root s) (hrun : s.trace.running t = some (id, c)) (ha : a ≠ .fetchAddTmp)
  (hs : storeStep a s.world = some (r, w))

include h hrun ha hs

/-- A step at which the call does not take effect. -/
theorem Linear.quiet (hp : c.point a r s.disk = none) (hq : Quiet (s.Names id) s.disk w.disk) :
    Linear root (s.after t a r w) ∧ (linearly root).Guar t s (s.after t a r w) := by
  have hown : ∀ x, s.Names id x → IsTmp x := fun _ hx => hx.isTmp
  refine ⟨⟨hq.links h.links, ?_, ?_, ?_⟩,
    h.guar hrun fun _ happ => hq.undisturbed h.links hown happ⟩
  · rw [Shared.trace_quiet hrun hp]
    exact h.consistent
  · rw [Shared.trace_quiet hrun hp]
    exact Stores.sameKeys h.stored (hq.sameKeys h.links hown)
  · rw [Shared.tickets_after ha, Shared.events_after hrun]
    exact storeStep_counter ha hs ▸ h.ticketed

/-- The step at which it does: what it does to the disk is what the call does to
the map, and its answer is that of the map. -/
theorem Linear.point (hb : s.trace.Before id)
    (hp : c.point a r s.disk = some (Stored.step (storeObject.after s.trace.order) c).1)
    (hl : Links w.disk)
    (hd : ∀ {Mine : String → Prop}, (∀ x, Mine x → IsTmp x) → (∀ x, s.Names id x → ¬ Mine x) →
      Undisturbed Mine s.disk w.disk)
    (hw : Stores root (Stored.step (storeObject.after s.trace.order) c).2 w.disk) :
    Linear root (s.after t a r w) ∧ (linearly root).Guar t s (s.after t a r w) := by
  refine ⟨⟨hl, ?_, ?_, ?_⟩, h.guar hrun hd⟩
  · rw [Shared.trace_point hrun hp]
    exact h.consistent.point hrun hb
  · rw [Shared.trace_point hrun hp, Trace.order_point hrun]
    exact hw
  · rw [Shared.tickets_after ha, Shared.events_after hrun]
    exact storeStep_counter ha hs ▸ h.ticketed

end

end

/-! ## Assertions -/

/-- What the call `id` may say between its steps: nothing the other calls could
make false. -/
structure Assertion (T : Type) (id : Nat) where
  holds : Shared T → Prop
  kept : ∀ {s s'}, Same id s s' → holds s → holds s'

namespace Assertion

variable {id : Nat}

def and (P Q : Assertion T id) : Assertion T id where
  holds s := P.holds s ∧ Q.holds s
  kept h hs := ⟨P.kept h hs.1, Q.kept h hs.2⟩

/-- The call has not taken effect. -/
def before : Assertion T id where
  holds s := s.trace.Before id
  kept h hs := h.entries.before hs

omit [DecidableEq T] in
theorem before_of_trace {s s' : Shared T} (ht : s'.trace = s.trace)
    (hb : (before : Assertion T id).holds s) : (before : Assertion T id).holds s' := by
  show s'.trace.Before id
  rw [ht]
  exact hb

/-- It has, with the answer `x`. -/
def after (x : Answer) : Assertion T id where
  holds s := s.trace.After id x
  kept h hs := h.entries.after hs

/-- It has no number for a temporary file. -/
def unnumbered : Assertion T id where
  holds s := ∀ n, (id, n) ∉ s.tickets
  kept h hs n hn := hs n ((h.tickets n).mp hn)

def numbered (n : UInt64) : Assertion T id where
  holds s := (id, n) ∈ s.tickets
  kept h hs := (h.tickets n).mpr hs

def isDir (q : PathBuf) : Assertion T id where
  holds s := s.disk.IsDir q
  kept h hs := h.disk.isDir hs

/-- Its temporary file `x` in `q` holds `f`, and is one of `H`. -/
def tmpFile (q : PathBuf) (x : String) (f : File) (H : Ino → Prop) : Assertion T id where
  holds s := s.Names id x ∧ s.disk.IsDir q ∧
    ∃ i, H i ∧ (s.disk.dirs q).now.lookup x = some (.file i) ∧ s.disk.files i = f
  kept := by
    rintro s s' h ⟨hx, hq, i, hi, hl, hf⟩
    obtain ⟨hl', hf'⟩ := h.disk.mine hx hq hl
    exact ⟨h.names ▸ hx, h.disk.isDir hq, i, hi, hl', hf'.trans hf⟩

/-- What a read knows of the file it has opened. -/
def opened : Handle → Assertion T id
  | .file i => {
      holds s := Settled s.disk i ∧ s.trace.After id (.value (s.disk.files i).data)
      kept := by
        rintro s s' h ⟨hs, ha⟩
        obtain ⟨hs', hf⟩ := h.disk.settled hs
        exact ⟨hs', hf ▸ h.entries.after ha⟩ }
  | .dir _ => before

/-- What a remove knows from the look at the path. -/
def looked : Except ErrorKind Node → Assertion T id
  | .ok (.file _) => before
  | _ => after .done

/-- A read that returns an error has taken effect if the error is `NotFound`. -/
def missing : IoError → Assertion T id
  | .os .notFound => after .notFound
  | _ => before

/-- The reply says what the order of the calls says. -/
def reported (r : Reply) : Assertion T id where
  holds s := s.trace.Fits Reply.Agrees Reply.Good id r
  kept h hs := h.entries.fits hs

end Assertion

/-! ## Rules -/

section

variable {root : PathBuf} {s : Shared T} {t : T} {id : Nat} {c : Call} {a : StoreAct}
  {r : a.Answer} {w : World} {P : Assertion T id}

/-- A step that touches no file and at which the call does not take effect. -/
theorem Assertion.unseen (hi : Linear root s) (hrun : s.trace.running t = some (id, c))
    (hP : P.holds s) (ha : a ≠ .fetchAddTmp) (hp : c.point a r s.disk = none)
    (hs : storeStep a s.world = some (r, w)) (hq : Quiet (fun _ => False) s.disk w.disk) :
    Linear root (s.after t a r w) ∧ (linearly root).Guar t s (s.after t a r w) ∧
      (s.after t a r w).trace.running t = some (id, c) ∧ P.holds (s.after t a r w) := by
  obtain ⟨hi', hg⟩ := hi.quiet hrun ha hs hp (hq.mono nofun)
  have hmine : Undisturbed (s.Names id) s.disk w.disk := hq.undisturbed hi.links nofun nofun
  have htrace := Shared.trace_quiet (w := w) hrun hp
  refine ⟨hi', hg, by rwa [htrace], ?_⟩
  exact P.kept (.of_eq hmine (congrArg Trace.order htrace) (Shared.tickets_after ha)) hP

end

/-- The assertions of the call `id` of `t`. -/
def calls (root : PathBuf) (t : T) (id : Nat) (c : Call) :
    StoreAssertions (linearly root) t (Assertion T id) where
  holds P s := s.trace.running t = some (id, c) ∧ P.holds s
  stable := by
    intro P s s' _ _ h hs
    exact ⟨h.1 ▸ hs.1, P.kept (h.2 hs.1) hs.2⟩
  memory := by
    rintro P a s r s' ha hf hi ⟨hrun, hP⟩ ⟨w, hs, rfl⟩
    have hp : c.point a r s.disk = none := by
      cases a with
      | disk x => exact ha.elim
      | _ => cases c <;> rfl
    refine P.unseen hi hrun hP hf hp hs ?_
    rw [Shared.disk, storeStep_disk ha hs]
    exact .none

/-- From `P` on, the part `p` of the call `id` of `t` ends in `Q`. -/
abbrev Within (root : PathBuf) (t : T) (id : Nat) (c : Call) {β : Type} (P : Assertion T id)
    (p : StoreProg β) (Q : β → Assertion T id) : Prop :=
  (calls root t id c).Meets P p Q

namespace StoreAssertions.Linearly

open Assertion Discipline.Assertions

variable {root : PathBuf} {t : T} {id : Nat} {c : Call} {α β : Type} {P : Assertion T id}
  {Q : β → Assertion T id}

theorem syncDir {q : PathBuf} {E : IoError → Assertion T id}
    (hc : ∀ r d, c.point (.disk (.openRead q)) r d = none) (hP : ∀ s, P.holds s → s.disk.IsDir q) :
    Within root t id c P (FilesystemStore.syncDir q) (onResult E fun _ => P) := by
  refine StoreAssertions.syncDir ?_ ?_
  · rintro s r s' hi ⟨hrun, hs⟩ ⟨w, he, rfl⟩
    have hdir := DiskAct.openRead_dir (hP s hs)
    have hr : r = .ok (.dir q) := by
      cases he
      rw [hdir]
    refine ⟨P.unseen hi hrun hs nofun (hc r s.disk) he ?_, hr⟩
    cases he
    rw [Shared.disk, DiskAct.openRead_disk]
    exact .none
  · rintro s r s' hi ⟨hrun, hs⟩ ⟨w, he, rfl⟩
    refine ⟨P.unseen hi hrun hs nofun (by cases c <;> rfl) he ?_, ?_⟩
    · cases he
      exact .syncDir
    · cases he
      rfl

theorem os {x : DiskAct} {E : IoError → Assertion T id} {M : x.Out → Assertion T id}
    (hstep : ∀ s r d, Linear root s → s.trace.running t = some (id, c) → P.holds s →
      x.perform s.disk = (r, d) →
      storeStep (.disk x) s.world = some (r, { s.world with disk := d }) →
      (Linear root (s.after t (.disk x) r { s.world with disk := d }) ∧
        (linearly root).Guar t s (s.after t (.disk x) r { s.world with disk := d })) ∧
        (onResult E M (r.mapError .os)).holds (s.after t (.disk x) r { s.world with disk := d })) :
    Within root t id c P (StoreProg.os x) (onResult E M) := by
  refine StoreAssertions.os ?_
  rintro s r s' hi ⟨hrun, hP⟩ ⟨w, hs, rfl⟩
  have hs' := hs
  cases hs
  obtain ⟨⟨hi', hg⟩, hM⟩ := hstep s _ _ hi hrun hP rfl hs'
  exact ⟨hi', hg, by rwa [Shared.running_after hrun], hM⟩

/-- A call of the operating system at which the call of the store does not take effect. -/
theorem os_quiet {x : DiskAct} {E : IoError → Assertion T id} {M : x.Out → Assertion T id}
    (hp : ∀ r d, c.point (.disk x) r d = none)
    (hstep : ∀ s r d, P.holds s → x.perform s.disk = (r, d) →
      Quiet (s.Names id) s.disk d ∧ ∀ s' : Shared T, s'.disk = d → s'.trace = s.trace →
        s'.tickets = s.tickets → (onResult E M (r.mapError .os)).holds s') :
    Within root t id c P (StoreProg.os x) (onResult E M) := by
  refine os ?_
  intro s r d hi hrun hP he hs
  obtain ⟨hq, hM⟩ := hstep s r d hP he
  exact ⟨hi.quiet hrun nofun hs (hp r s.disk) hq, hM _ rfl (Shared.trace_quiet hrun (hp r s.disk)) rfl⟩

/-! ### Writes -/

section

variable {p s k : String} {buf : Bytes}

theorem createDirAll (hc : ∀ q r d, c.point (.disk (.metadata q)) r d = none) (q : PathBuf) :
    Within root t id c P (createDirAll q) fun _ => P := by
  refine keeps_createDirAll ?_ ?_ q
  · rintro q s r _ hi ⟨hrun, hP⟩ ⟨w, hs, rfl⟩
    refine P.unseen hi hrun hP nofun (by cases c <;> rfl) hs ?_
    cases hs
    exact .mkdir q
  · rintro q s r _ hi ⟨hrun, hP⟩ ⟨w, hs, rfl⟩
    refine P.unseen hi hrun hP nofun (hc q r s.disk) hs ?_
    cases hs
    exact .none

variable {q : PathBuf} {n : UInt64} (hk : ValidName k)

include hk

/-- The file is new, or one that is left over and emptied. -/
theorem create :
    Within root t id c (before.and (numbered n)) (StoreProg.os (.create (.join q (tmpName k n))))
      (onResult (fun _ => before) fun h =>
        before.and (tmpFile q (tmpName k n) ⟨[], false⟩ fun i => h = .file i)) := by
  refine os_quiet (fun _ _ => by cases c <;> rfl) ?_
  rintro s r d ⟨hb, hn⟩ he
  have hx : s.Names id (tmpName k n) := ⟨k, n, hk, hn, rfl⟩
  have hquiet : Quiet (· = tmpName k n) s.disk _ := .create q (tmpName k n)
  rcases Holds.create s.disk q (tmpName k n) with ⟨e, hc⟩ | ⟨i, d', hc, hq, hl, hf⟩
  · rw [hc] at he
    cases he
    exact ⟨.none, fun s' _ ht _ => before_of_trace ht hb⟩
  · rw [hc] at he hquiet
    cases he
    refine ⟨hquiet.mono (by rintro _ rfl; exact hx), ?_⟩
    rintro s' rfl ht hti
    exact ⟨before_of_trace ht hb, ⟨k, n, hk, hti ▸ hn, rfl⟩, hq, i, rfl, hl, hf⟩

omit hk

/-- The call writes to its temporary file. -/
theorem setFile {x : String} {h : Handle} {f g : File} {y : DiskAct} (hy : Fills buf h y f g) :
    Within root t id c (before.and (tmpFile q x f fun i => h = .file i)) (StoreProg.os y)
      (onResult (fun _ => before) fun _ =>
        before.and (tmpFile q x g fun i => h = .file i)) := by
  refine os_quiet (fun _ _ => by cases hy <;> cases c <;> rfl) ?_
  rintro s r d ⟨hb, hx, hq, i, rfl, hl, hf⟩ he
  obtain ⟨v, hv⟩ := hy.perform hf
  rw [hv] at he
  cases he
  have hholds : Holds s.disk q x i f := ⟨hl, hf⟩
  refine ⟨hholds.quiet.mono (by rintro _ rfl; exact hx), ?_⟩
  have hq' : (s.disk.setFile i g).IsDir q := (Disk.isDir_setFile _ i g q).mpr hq
  have hholds' : Holds (s.disk.setFile i g) q x i g := hholds.setFile
  intro s' hd ht hti
  rw [← hd] at hq' hholds'
  have hx' : s'.Names id x := by
    rw [Shared.Names, hti]
    exact hx
  exact ⟨before_of_trace ht hb, hx', hq', i, rfl, hholds'⟩

include hk

/-- The temporary file is created, written and synced. -/
theorem writeTmp :
    Within root t id c (before.and (numbered n)) (writeTmp (.join q (tmpName k n)) buf)
      (onResult (fun _ => before) fun _ =>
        before.and (tmpFile q (tmpName k n) ⟨buf, true⟩ fun _ => True)) := by
  refine writeTmp_of_parts
    (W := fun f h => before.and (tmpFile q (tmpName k n) f fun i => h = .file i)) (create hk)
    setFile ?_
  rintro h s ⟨hrun, hb, hx, hq, i, _, hl, hf⟩
  exact ⟨hrun, hb, hx, hq, i, trivial, hl, hf⟩

end

section

variable {p s k : String} (hacc : Accepts p s (some k))

include hacc

/-- The rename: from here on the key holds the data of the write. -/
theorem install {buf : Bytes} {n : UInt64} :
    Within root t id (.write p s k buf)
      (before.and (tmpFile (getDestDirPath root p s) (tmpName k n) ⟨buf, true⟩
        fun _ => True))
      (install (getDestDirPath root p s) (tmpName k n) k)
      (onResult (fun _ => before) fun _ =>
        (after .done).and (isDir (getDestDirPath root p s))) := by
  have hk : ValidName k := hacc.2.2.2.2 k rfl
  generalize hqe : getDestDirPath root p s = q
  refine andThen (M := fun _ => (after .done).and (isDir q)) (os ?_) fun _ =>
    syncDir (fun _ _ => rfl) fun _ h => h.2
  rintro w r d hi hrun ⟨hb, hx, hq, i, _, hl, hf⟩ he hs
  rcases DiskAct.rename_cases w.disk q (tmpName_ne (k := k) (n := n) hk) with
    ⟨e, hr⟩ | ⟨_, j, hj, hd, hr⟩
  · rw [hr] at he
    cases he
    exact ⟨hi.quiet hrun nofun hs rfl .none, Shared.before_quiet hrun rfl hb⟩
  · rw [hr] at he
    cases he
    obtain rfl : i = j := by simpa [hl] using hj
    have hstep := Stored.step_write hacc (storeObject.after w.trace.order) buf
    have hset := KeySet.move hx.isTmp hq hl hd
    refine ⟨hi.point hrun nofun hs hb ?_ (hi.links.move hx.isTmp hk.not_tmp hl)
      (fun hmine happ => .move hk hmine (happ _ hx) hl hd) ?_, Shared.after_point hrun rfl hb, ?_⟩
    · rw [hstep]
      rfl
    · rw [hstep]
      rw [hf] at hset
      subst hqe
      exact hset.stores hi.stored hacc.2.1 (AList.lookup_insert _) fun x hx =>
        AList.lookup_insert_ne hx
    · exact (Disk.isDir_move hl hd q).mpr hq

theorem writeIn {buf : Bytes} :
    Within root t id (.write p s k buf) (before.and unnumbered)
      (writeIn (getDestDirPath root p s) k buf)
      (onResult (fun _ => before) fun _ => after .done) := by
  have hdirs : Within root t id (.write p s k buf) (before.and unnumbered)
      (LightningNode.createDirAll (getDestDirPath root p s))
      (onResult (fun _ => before) fun _ => before.and unnumbered) := by
    refine mono (createDirAll (fun _ _ _ => rfl) _) ?_
    intro r w hw
    cases r with
    | ok _ => exact hw
    | error e => exact ⟨hw.1, hw.2.1⟩
  refine writeIn_of_parts (B := fun n => before.and (numbered n)) hdirs ?_
    (fun _ => writeTmp (hacc.2.2.2.2 k rfl)) (fun _ => install hacc) fun w hw => ⟨hw.1, hw.2.1⟩
  rintro w n _ hi ⟨hrun, hb, hno⟩ ⟨w', hs, rfl⟩
  cases hs
  have hticketed := hi.ticketed.fetch (hi.written hrun) hno
  refine ⟨⟨hi.links, ?_, ?_, ?_⟩, hi.guar hrun fun _ _ => .refl _,
    by rwa [Shared.running_after hrun], Shared.before_quiet hrun rfl hb, ?_⟩
  · rw [Shared.trace_quiet hrun rfl]
    exact hi.consistent
  · rw [Shared.trace_quiet hrun rfl]
    exact hi.stored
  · rw [Shared.events_after hrun]
    simpa only [Shared.after, hrun] using hticketed
  · simp only [numbered, Shared.after, hrun]
    exact List.mem_cons_self

/-! ### Removes -/

theorem unlink {lazily : Bool} :
    Within root t id (.remove p s k lazily) before
      (unlink (getDestDirPath root p s) k lazily)
      (onResult (fun _ => before) fun _ => after .done) := by
  generalize hqe : getDestDirPath root p s = q
  have hunlinked : Within root t id (.remove p s k lazily) before
      (StoreProg.os (.removeFile (.join q k)))
      (onResult (fun _ => before) fun _ => (after .done).and (isDir q)) := by
    refine os ?_
    intro w r d hi hrun hb he hs
    rcases DiskAct.removeFile_cases w.disk q k with ⟨e, hr⟩ | ⟨i, ha, hr⟩
    · rw [hr] at he
      cases he
      exact ⟨hi.quiet hrun nofun hs rfl .none, Shared.before_quiet hrun rfl hb⟩
    · rw [hr] at he
      cases he
      obtain ⟨hq, hl⟩ := Disk.access_join.mp ha
      have hstep := Stored.step_remove hacc (storeObject.after w.trace.order) lazily
      have hset := KeySet.del hl
      refine ⟨hi.point hrun nofun hs hb ?_ hi.links.del
        (fun hmine _ => .del (hacc.2.2.2.2 k rfl) hmine hl) ?_, Shared.after_point hrun rfl hb, ?_⟩
      · rw [hstep]
        rfl
      · rw [hstep]
        subst hqe
        exact hset.stores hi.stored hacc.2.1 (AList.lookup_erase _ _) fun x hx =>
          AList.lookup_erase_ne hx
      · exact (Disk.entry_del.isDir (by simp [hl]) nofun q).mpr hq
  cases lazily with
  | true => exact post hunlinked fun _ _ hs => ⟨hs.1, hs.2.1⟩
  | false =>
      refine andThen hunlinked fun _ => ?_
      exact post (syncDir (fun _ _ => rfl) fun _ h => h.2) fun _ _ hs => ⟨hs.1, hs.2.1⟩

/-- Where the key is not there, the remove takes effect at the look, and has none. -/
theorem isFile {lazily : Bool} :
    Within root t id (.remove p s k lazily) before
      (isFile (.join (getDestDirPath root p s) k))
      fun found => if found then before else after .done := by
  generalize hqe : getDestDirPath root p s = q
  refine Discipline.Assertions.act looked ?_ ?_
  · rintro w r _ hi ⟨hrun, hb⟩ ⟨w', hs, rfl⟩
    have hr : w.disk.access (.join q k) = r := by
      cases hs
      rfl
    have hw : w'.disk = w.disk := by
      cases hs
      rfl
    have hgone : w.disk.contents (.join q k) = none →
        (Call.remove p s k lazily).point (.disk (.metadata (.join q k))) r w.disk = some .done →
        (linearly root).inv (w.after t (.disk (.metadata (.join q k))) r w') ∧
          (linearly root).Guar t w (w.after t (.disk (.metadata (.join q k))) r w') ∧
          (calls root t id (.remove p s k lazily)).holds (after .done)
            (w.after t (.disk (.metadata (.join q k))) r w') := by
      intro hnone hp
      have hstep := Stored.step_remove hacc (storeObject.after w.trace.order) lazily
      have hset : KeySet w.disk w.disk q k none := ⟨hnone, fun _ _ => rfl⟩
      have hpoint : Linear root (w.after t _ r w') ∧ (linearly root).Guar t w (w.after t _ r w') := by
        refine hi.point hrun (by rintro ⟨⟩) hs hb ?_ (hw ▸ hi.links) (fun _ _ => hw ▸ .refl _) ?_
        · rw [hstep]
          exact hp
        · rw [hstep, hw]
          subst hqe
          exact hset.stores hi.stored hacc.2.1 (AList.lookup_erase _ _) fun x hx =>
            AList.lookup_erase_ne hx
      exact ⟨hpoint.1, hpoint.2, by rwa [Shared.running_after hrun],
        Shared.after_point hrun hp hb⟩
    cases r with
    | error e => exact hgone (by simp only [Disk.contents, hr]) rfl
    | ok x =>
        cases x with
        | dir => exact hgone (by simp only [Disk.contents, hr]) rfl
        | file i =>
            refine before.unseen hi hrun hb (by rintro ⟨⟩) rfl hs ?_
            rw [hw]
            exact .none
  · intro r
    cases r with
    | error e => exact ret fun _ h => h
    | ok x =>
        cases x with
        | dir => exact ret fun _ h => h
        | file i => exact ret fun _ h => h

theorem removeIn {lazily : Bool} :
    Within root t id (.remove p s k lazily) before
      (removeIn (getDestDirPath root p s) k lazily)
      (onResult (fun _ => before) fun _ => after .done) := by
  refine bind (fun found => if found then before else after .done) (isFile hacc) fun found => ?_
  cases found with
  | false => exact ret fun _ h => h
  | true =>
      refine andThen (withLock (fun _ => ⟨trivial, nofun⟩) (fun _ => ⟨trivial, nofun⟩)
        (unlink hacc)) fun _ => ?_
      exact collected fun _ h => h

/-! ### Reads -/

/-- The file is opened, or found missing: the call takes effect here. -/
theorem openRead :
    Within root t id (.read p s k) before
      (StoreProg.os (.openRead (.join (getDestDirPath root p s) k)))
      (onResult missing opened) := by
  generalize hqe : getDestDirPath root p s = q
  refine os ?_
  intro w r d hi hrun hb he hs
  have hpoint : ∀ x : Option Bytes, w.disk.contents (.join q k) = x → d = w.disk →
      (Call.read p s k).point (.disk (.openRead (.join q k))) r w.disk =
        some (x.elim .notFound .value) →
      (Linear root (w.after t (.disk (.openRead (.join q k))) r { w.world with disk := d }) ∧
        (linearly root).Guar t w
          (w.after t (.disk (.openRead (.join q k))) r { w.world with disk := d })) ∧
        (w.after t (.disk (.openRead (.join q k))) r { w.world with disk := d }).trace.After id
          (x.elim .notFound .value) := by
    rintro x hx rfl hp
    have hstep := Stored.step_read hacc
      ((hi.stored hacc).trans (hqe ▸ hx))
    refine ⟨hi.point hrun nofun hs hb ?_ hi.links (fun _ _ => .refl _) ?_,
      Shared.after_point hrun hp hb⟩
    · rw [hstep]
      exact hp
    · rw [hstep]
      exact hi.stored
  cases ha : w.disk.access (.join q k) with
  | error e =>
      rw [DiskAct.openRead_error ha] at he
      cases he
      cases e with
      | notFound => exact hpoint none (by simp only [Disk.contents, ha]) rfl rfl
      | _ => exact ⟨hi.quiet hrun nofun hs rfl .none, Shared.before_quiet hrun rfl hb⟩
  | ok x =>
      cases x with
      | dir =>
          rw [DiskAct.openRead_dir ha] at he
          cases he
          exact ⟨hi.quiet hrun nofun hs rfl .none, Shared.before_quiet hrun rfl hb⟩
      | file i =>
          rw [DiskAct.openRead_file ha] at he
          cases he
          obtain ⟨_, hl⟩ := Disk.access_join.mp ha
          obtain ⟨hi', hafter⟩ := hpoint (some (w.disk.files i).data)
            (by simp only [Disk.contents, ha]) rfl rfl
          exact ⟨hi', hi.links.settled (hacc.2.2.2.2 k rfl).not_tmp hl, hafter⟩

omit hacc in
theorem readToEnd (h : Handle) :
    Within root t id (.read p s k) (opened h) (StoreProg.os (.readToEnd h))
      (onResult missing fun b => after (.value b)) := by
  refine os_quiet (fun _ _ => rfl) ?_
  intro w r d ho he
  cases h with
  | dir q' =>
      cases he
      refine ⟨.none, ?_⟩
      intro s' _ ht _
      exact before_of_trace ht ho
  | file i =>
      cases he
      refine ⟨.none, ?_⟩
      intro s' _ ht _
      show s'.trace.After id (.value (w.disk.files i).data)
      rw [ht]
      exact ho.2

theorem readIn :
    Within root t id (.read p s k) before (readIn (getDestDirPath root p s) k)
      (onResult missing fun b => after (.value b)) := by
  refine andThen (M := fun b => after (.value b)) ?_ fun _ => collected fun _ h => h
  refine withLock (fun _ => ⟨trivial, nofun⟩) (fun _ => ⟨trivial, nofun⟩) ?_
  exact andThen (openRead hacc) readToEnd

end

/-! ### Whole calls -/

theorem program (hc : c.key.isSome) :
    Within root t id c (before.and unnumbered) (c.program root) reported := by
  have hdone : ∀ r : Res Unit, ∀ s, (calls root t id c).holds
      (onResult (fun _ => before) (fun _ => after .done) r) s →
      (calls root t id c).holds (reported (.unit r)) s := by
    rintro r s ⟨hrun, hs⟩
    cases r with
    | ok _ => exact ⟨hrun, Trace.After.fits hs trivial trivial⟩
    | error e => exact ⟨hrun, Trace.Before.fits hs fun hg => hg⟩
  by_cases hacc : c.Accepted
  · rw [Call.program_accepted _ hacc]
    cases c with
    | read p s k =>
        refine bind _ (weaken (readIn hacc) fun _ h => ⟨h.1, h.2.1⟩) fun r => ret ?_
        rintro s' ⟨hrun, hs⟩
        refine ⟨hrun, ?_⟩
        cases r with
        | ok b => exact Trace.After.fits hs rfl trivial
        | error e =>
            cases e with
            | custom kind msg => exact Trace.Before.fits hs fun hg => hg
            | os kind =>
                cases kind with
                | notFound => exact Trace.After.fits hs trivial trivial
                | _ => exact Trace.Before.fits hs fun hg => hg
    | write p s k buf => exact bind _ (writeIn hacc) fun r => ret (hdone r)
    | remove p s k lazily =>
        refine bind _ (weaken (removeIn hacc) fun _ h => ⟨h.1, h.2.1⟩) fun r => ret (hdone r)
    | list p s => exact nomatch hc
  · obtain ⟨r, hr, hprog⟩ := Call.program_rejected root hacc
    rw [hprog]
    exact ret fun s hs => ⟨hs.1, hs.2.1.fits hr.not_good⟩

end StoreAssertions.Linearly

/-! ## Runs -/

theorem mem_writeIds {h : List (Event Call Reply)} {id : Nat} (hm : id ∈ writeIds h) :
    ∃ c, .invoke id c ∈ h := by
  obtain ⟨e, he, hid⟩ := List.mem_filterMap.mp hm
  split at hid
  · cases hid
    exact ⟨_, he⟩
  · exact nomatch hid

def linearlyOutline (root : PathBuf) : Outline (concurrentStore T root) where
  toDiscipline := linearly root
  idle t s := s.trace.running t = none
  post t r s := ∃ id c, s.trace.running t = some (id, c) ∧
    s.trace.Fits Reply.Agrees Reply.Good id r
  idle_stable := by
    intro t s s' _ _ h hn
    exact h.1.trans hn
  start_ok := by
    rintro t s p s' ⟨c, hc, rfl, rfl, hfew⟩ hi _
    have hrun : (s.trace.invoke t c).running t = some (s.trace.events.length, c) :=
      Function.update_self ..
    have hsub : writeIds s.trace.events ⊆ writeIds (s.trace.invoke t c).events :=
      fun x hx => ((List.sublist_cons_self _ _).filterMap _).subset hx
    have hi' : Linear root { s with trace := s.trace.invoke t c } :=
      ⟨hi.links, hi.consistent.invoke t c, hi.stored, hi.ticketed.more hsub hfew⟩
    refine ⟨hi', ⟨trivial, ?_⟩, ?_⟩
    · intro u hut
      exact ⟨Function.update_of_ne hut .., fun _ => .of_eq (.refl _) rfl rfl⟩
    · have hbefore : (s.trace.invoke t c).Before s.trace.events.length :=
        fun e he => hi.consistent.fresh (hi.consistent.linearizes.invoked e he)
      have hno : ∀ n, (s.trace.events.length, n) ∉ s.tickets := by
        intro n hn
        obtain ⟨c', hc'⟩ := mem_writeIds (hi.ticketed.issued hn)
        exact hi.consistent.fresh hc' rfl
      have hprog := StoreAssertions.Linearly.program hc _ hi' ⟨hrun, hbefore, hno⟩
      exact Discipline.Safe.mono _ (fun _ _ _ hq => ⟨_, _, hq⟩) hprog
  finish_ok := by
    rintro t r s s' rfl hi ⟨id, c, hrun, hfits⟩
    refine ⟨⟨hi.links, hi.consistent.reply hrun hfits, hi.stored, ?_⟩, ⟨trivial, ?_⟩,
      Function.update_self ..⟩
    · have hwrites : writeIds (s.trace.reply t r).events = writeIds s.trace.events := by
        simp only [Trace.reply, hrun]
        rfl
      exact hwrites.symm ▸ hi.ticketed
    · intro u hut
      exact ⟨Function.update_of_ne hut .., fun _ => .of_eq (.refl _) rfl rfl⟩
  env_ok := nofun
  crash_ok := nofun

omit [DecidableEq T] in
theorem Linear.start {root : PathBuf} : Linear root (.start : Shared T) where
  links := .fresh
  consistent := .empty
  stored := fun _ => (Disk.contents_eq_none rfl).symm
  ticketed := .start

/-- The buffer of the latest write of the key that no remove of it follows. -/
def latest (x : String × String × String) : List (Entry Call Answer) → Option Bytes
  | [] => none
  | e :: order =>
      match e.call with
      | .write p s k buf => if x = (p, s, k) then some buf else latest x order
      | .remove p s k _ => if x = (p, s, k) then none else latest x order
      | _ => latest x order

theorem after_lookup {p s k : String} (h : Accepts p s (some k)) (order : List (Entry Call Answer)) :
    (storeObject.after order).lookup (p, s, k) = latest (p, s, k) order := by
  induction order with
  | nil => rfl
  | cons e order ih =>
      obtain ⟨n, c, x⟩ := e
      show ((storeObject.after order).step c).2.lookup (p, s, k) = latest (p, s, k) (⟨n, c, x⟩ :: order)
      by_cases hacc : c.Accepted
      · cases c with
        | read p' s' k' =>
            have hread : Accepts p' s' (some k') := hacc
            rw [Stored.step_read hread rfl]
            exact ih
        | write p' s' k' buf =>
            have hwrite : Accepts p' s' (some k') := hacc
            rw [Stored.step_write hwrite, AList.lookup_insert_ite, ih]
            rfl
        | remove p' s' k' lazily =>
            have hremove : Accepts p' s' (some k') := hacc
            rw [Stored.step_remove hremove]
            by_cases heq : (p, s, k) = (p', s', k')
            · rw [heq, AList.lookup_erase]
              exact (if_pos rfl).symm
            · rw [AList.lookup_erase_ne heq, ih]
              exact (if_neg heq).symm
        | list p' s' =>
            rw [Stored.step, if_pos hacc]
            exact ih
      · rw [Stored.step_rejected hacc, ih]
        have hne : ∀ {p' s' k'}, ¬ Accepts p' s' (some k') → (p, s, k) ≠ (p', s', k') := by
          rintro _ _ _ hn ⟨⟩
          exact hn h
        cases c with
        | write p' s' k' buf => exact (if_neg (hne hacc)).symm
        | remove p' s' k' lazily => exact (if_neg (hne hacc)).symm
        | _ => rfl

/-- The calls on one store, by any number of callers and in whatever order their
steps come, can be put in an order that agrees with real time, in which each read
returns what the latest write of its key stored, or `NotFound` where there is
none or a remove follows it; a call that returned another error is not in it. -/
theorem linearizable {root : PathBuf} {cfg : Config T StoreAct StoreAct.Answer Reply (Shared T)}
    (h : (concurrentStore T root).Reach (.idle .start) cfg) :
    ∃ order, Linearizes storeObject Reply.Agrees Reply.Good cfg.state.trace.events order ∧
      ∀ newer older n p s k x, order = newer ++ ⟨n, .read p s k, x⟩ :: older →
        Accepts p s (some k) → x = (latest (p, s, k) older).elim .notFound .value := by
  have hinv := ((Outline.Inv.init (linearlyOutline root) Linear.start fun _ => rfl).reach _ h).1.state
  have hl := hinv.consistent.linearizes
  refine ⟨_, hl, ?_⟩
  intro newer older n p s k x hsplit hacc
  have hanswer := Object.Legal.answer (hsplit ▸ hl.legal)
  have hstep := Stored.step_read hacc (after_lookup hacc older)
  exact hanswer.trans (congrArg Prod.fst hstep)

/-- The actions of the task `t`, executable. -/
def playAs (t : T) (a : StoreAct) (s : Shared T) : Option (a.Answer × Shared T) :=
  (storeStep a s.world).map fun x => (x.1, s.after t a x.1 x.2)

theorem playAs_exec {root : PathBuf} (t : T) (a : StoreAct) (s : Shared T) (r : a.Answer)
    (s' : Shared T) (h : playAs t a s = some (r, s')) :
    (concurrentStore T root).exec t a s r s' := by
  obtain ⟨⟨_, w⟩, hs, he⟩ := Option.map_eq_some_iff.mp h
  cases he
  exact ⟨w, hs, rfl⟩

/-- A read overlaps a write and returns first, with the buffer of the write. -/
theorem linearizable_overlap :
    (concurrentStore Bool (.base "data")).Can (.idle .start) fun cfg =>
      cfg.state.trace.events = [.reply 0 (.unit (.ok ())), .reply 1 (.bytes (.ok [7])),
        .invoke 1 (.read "" "" "manager"), .invoke 0 (.write "" "" "manager" [7])] ∧
      ∃ order, Linearizes storeObject Reply.Agrees Reply.Good cfg.state.trace.events order ∧
        ∀ newer older n p s k x, order = newer ++ ⟨n, .read p s k, x⟩ :: older →
          Accepts p s (some k) → x = (latest (p, s, k) older).elim .notFound .value := by
  have hrun : (concurrentStore Bool (.base "data")).Can (.idle .start) fun cfg =>
      cfg.state.trace.events = [.reply 0 (.unit (.ok ())), .reply 1 (.bytes (.ok [7])),
        .invoke 1 (.read "" "" "manager"), .invoke 0 (.write "" "" "manager" [7])] := by
    refine .step (.start (t := true) rfl ⟨.write "" "" "manager" [7], rfl, rfl, rfl, by decide⟩) ?_
    refine .step (.start (t := false) rfl ⟨.read "" "" "manager", rfl, rfl, rfl, by decide⟩) ?_
    refine .acts (t := true) (playAs_exec true) 13 ?_
    refine .acts (t := false) (playAs_exec false) 7 ?_
    refine .step (.finish (t := false) rfl rfl) ?_
    refine .acts (t := true) (playAs_exec true) 1 ?_
    exact .step (.finish (t := true) rfl rfl) (.here rfl)
  obtain ⟨cfg, hr, hevents⟩ := hrun
  exact ⟨cfg, hr, hevents, linearizable hr⟩

end LightningNode
