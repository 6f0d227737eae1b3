/-
# `LightningNode.Ledger.Inbound` — invoices issued and payments claimed

The `inbound_payments` ledger, in memory behind its mutex and in its file.  Two
programs change it, both with the mutex from the change to the end of the write:

    getinvoice        insert a pending record of a new hash
    PaymentClaimed    mark the record succeeded, or insert one that is

A crash can fall between any two actions; a start loads the file.  A completed
`fs_store.write` replaces the file at once, and the codec is any lawful one.

History: the hashes used by an invoice or an event so far, the claim the holder
of the mutex has recorded and not yet written, and the claims written, last one
first.
-/
import LightningNode.Ledger.Serialization
import LightningNode.Ledger.Shared

namespace LightningNode

open Conc

namespace Inbound

/-! ## Programs -/

/-- `PaymentPurpose`, by what the handler takes from it. -/
inductive PaymentPurpose where
  | bolt11InvoicePayment (preimage : Option PaymentPreimage) (secret : PaymentSecret)
  | bolt12OfferPayment (preimage : Option PaymentPreimage) (secret : PaymentSecret)
  | bolt12RefundPayment (preimage : Option PaymentPreimage) (secret : PaymentSecret)
  | spontaneousPayment (preimage : PaymentPreimage)

def PaymentPurpose.preimageAndSecret :
    PaymentPurpose → Option PaymentPreimage × Option PaymentSecret
  | .bolt11InvoicePayment preimage secret
  | .bolt12OfferPayment preimage secret
  | .bolt12RefundPayment preimage secret => (preimage, some secret)
  | .spontaneousPayment preimage => (some preimage, none)

/-- What `Event::PaymentClaimed` brings into the ledger. -/
structure Claim where
  hash : PaymentHash
  preimage : Option PaymentPreimage
  secret : Option PaymentSecret
  amountMsat : UInt64

inductive InboundAct where
  /-- `inbound_payments.lock().unwrap()` -/
  | lock
  | unlock
  /-- `utils::create_invoice_from_channelmanager` -/
  | createInvoice (amtMsat : UInt64)
  /-- `payments.insert(hash, info)` -/
  | insert (hash : PaymentHash) (info : PaymentInfo)
  /-- the `match` on `payments.entry(payment_hash)` -/
  | claim (c : Claim)
  | encode
  /-- `fs_store.write("", "", INBOUND_PAYMENTS_FNAME, &bytes).unwrap()` -/
  | write (bytes : Bytes)

abbrev InboundAct.Answer : InboundAct → Type
  | .createInvoice _ => Option (PaymentHash × PaymentSecret)
  | .encode => Bytes
  | _ => Unit

abbrev InboundProg := Prog InboundAct InboundAct.Answer

/-- `fs_store.write(.., &inbound.encode()).unwrap()` and the end of the guard. -/
def writeAndUnlock : InboundProg Unit :=
  .act .encode fun bytes =>
  .act (.write bytes) fun _ =>
  .act .unlock fun _ => .ret ()

/-- The record `get_invoice` inserts. -/
def invoiceRecord (amtMsat : UInt64) (secret : PaymentSecret) : PaymentInfo :=
  ⟨none, some secret, .pending, ⟨some amtMsat⟩⟩

/-- The end of the command `getinvoice`; a failed invoice is reported, and the
ledger written all the same. -/
def getInvoice (amtMsat : UInt64) : InboundProg Unit :=
  .act .lock fun _ =>
  .act (.createInvoice amtMsat) fun
    | none => writeAndUnlock
    | some (hash, secret) =>
        .act (.insert hash (invoiceRecord amtMsat secret)) fun _ => writeAndUnlock

def claimOf (hash : PaymentHash) (purpose : PaymentPurpose) (amountMsat : UInt64) : Claim :=
  ⟨hash, purpose.preimageAndSecret.1, purpose.preimageAndSecret.2, amountMsat⟩

/-- `Event::PaymentClaimed` -/
def handlePaymentClaimed (hash : PaymentHash) (purpose : PaymentPurpose) (amountMsat : UInt64) :
    InboundProg Unit :=
  .act .lock fun _ =>
  .act (.claim (claimOf hash purpose amountMsat)) fun _ => writeAndUnlock

/-! ## The ledger and its file -/

end Inbound

namespace InboundPaymentInfoStorage

def empty : InboundPaymentInfoStorage := ⟨∅⟩

def lookup (l : InboundPaymentInfoStorage) (hash : PaymentHash) : Option PaymentInfo :=
  l.payments.lookup hash

def insert (l : InboundPaymentInfoStorage) (hash : PaymentHash) (info : PaymentInfo) :
    InboundPaymentInfoStorage :=
  ⟨l.payments.insert hash info⟩

/-- The entry of the hash: occupied or vacant. -/
def claim (l : InboundPaymentInfoStorage) (c : Inbound.Claim) : InboundPaymentInfoStorage :=
  match l.lookup c.hash with
  | some info =>
      l.insert c.hash { info with status := .succeeded, preimage := c.preimage, secret := c.secret }
  | none => l.insert c.hash ⟨c.preimage, c.secret, .succeeded, ⟨some c.amountMsat⟩⟩

@[simp] theorem lookup_insert (l : InboundPaymentInfoStorage) (hash h : PaymentHash)
    (info : PaymentInfo) :
    (l.insert hash info).lookup h = if h = hash then some info else l.lookup h :=
  AList.lookup_insert_ite _ _ _ _

/-- A claim leaves the record of its hash succeeded, with its preimage and its
secret, and all others alone. -/
theorem lookup_claim (l : InboundPaymentInfoStorage) (c : Inbound.Claim) :
    (∃ info, (l.claim c).lookup c.hash = some info ∧ info.status = .succeeded ∧
      info.preimage = c.preimage ∧ info.secret = c.secret) ∧
    ∀ h, h ≠ c.hash → (l.claim c).lookup h = l.lookup h := by
  unfold claim
  cases l.lookup c.hash with
  | some info =>
      refine ⟨⟨_, (lookup_insert _ _ _ _).trans (if_pos rfl), rfl, rfl, rfl⟩, ?_⟩
      intro h hh
      simp [hh]
  | none =>
      refine ⟨⟨_, (lookup_insert _ _ _ _).trans (if_pos rfl), rfl, rfl, rfl⟩, ?_⟩
      intro h hh
      simp [hh]

end InboundPaymentInfoStorage

namespace Inbound

structure InboundState where
  ledger : InboundPaymentInfoStorage
  holder : Option Task
  file : Option Bytes
  used : List PaymentHash
  unwritten : Option Claim
  claimed : List Claim

/-- `disk::read_inbound_payment_info`: a missing or unreadable file is an empty
ledger. -/
def readInboundPaymentInfo (codec : Codec InboundPaymentInfoStorage) :
    Option Bytes → InboundPaymentInfoStorage
  | some bytes =>
      match codec.decode bytes with
      | some info => info
      | none => .empty
  | none => .empty

/-- The effect of one action of the task `t`. -/
def Exec (codec : Codec InboundPaymentInfoStorage) (t : Task) :
    (a : InboundAct) → InboundState → a.Answer → InboundState → Prop
  | .lock, s, _, s' => s.holder = none ∧ s' = { s with holder := some t }
  | .unlock, s, _, s' => s.holder = some t ∧ s' = { s with holder := none }
  | .createInvoice _, s, r, s' =>
      (r = none ∧ s' = s) ∨
      ∃ hash secret, hash ∉ s.used ∧ r = some (hash, secret) ∧
        s' = { s with used := hash :: s.used }
  | .insert hash info, s, _, s' =>
      s.holder = some t ∧ s' = { s with ledger := s.ledger.insert hash info }
  | .claim c, s, _, s' =>
      s.holder = some t ∧ s' = { s with ledger := s.ledger.claim c, unwritten := some c }
  | .encode, s, r, s' => s.holder = some t ∧ r = codec.write s.ledger ∧ s' = s
  | .write bytes, s, _, s' =>
      s' = { s with
        file := some bytes
        claimed := s.unwritten.toList ++ s.claimed
        unwritten := none }

/-- The CLI thread issues invoices and the event task handles claims, of any hash
and again after a restart; at a crash the memory is lost, and the next start
loads the file. -/
def inboundNode (codec : Codec InboundPaymentInfoStorage) :
    System Task InboundAct InboundAct.Answer Unit InboundState where
  exec := Exec codec
  start t s p s' :=
    match t with
    | .cli => (∃ amtMsat, p = getInvoice amtMsat) ∧ s' = s
    | .events => ∃ hash purpose amountMsat,
        p = handlePaymentClaimed hash purpose amountMsat ∧ s' = { s with used := hash :: s.used }
    | .startup => False
  finish _ _ s s' := s' = s
  env _ _ := False
  crash s s' := s' = { s with
    ledger := readInboundPaymentInfo codec s.file
    holder := none
    unwritten := none }

/-- A node that has never run. -/
def InboundState.new : InboundState := ⟨.empty, none, none, [], none, []⟩

variable (codec : Codec InboundPaymentInfoStorage)

/-- The ledger in the file; a missing file counts as empty. -/
def onFile (s : InboundState) : InboundPaymentInfoStorage := readInboundPaymentInfo codec s.file

/-- The file decodes to the ledger in memory. -/
def FileFollows (s : InboundState) : Prop :=
  match s.file with
  | some bytes => codec.decode bytes = some s.ledger
  | none => s.ledger = .empty

/-- The records of `l` that succeeded are those of the claims, each with the
preimage and the secret of the last claim of its hash. -/
def Reflects (l : InboundPaymentInfoStorage) (claimed : List Claim) : Prop :=
  ∀ hash, match claimed.find? (·.hash = hash) with
    | some c => ∃ info, l.lookup hash = some info ∧ info.status = .succeeded ∧
        info.preimage = c.preimage ∧ info.secret = c.secret
    | none => ∀ info, l.lookup hash = some info → info.status ≠ .succeeded

/-- No record of `l` is gone from `l'`, and none that succeeded is anything else. -/
def Extends (l l' : InboundPaymentInfoStorage) : Prop :=
  ∀ hash info, l.lookup hash = some info →
    ∃ info', l'.lookup hash = some info' ∧ (info.status = .succeeded → info'.status = .succeeded)

theorem Extends.refl (l : InboundPaymentInfoStorage) : Extends l l := fun _ info h => ⟨info, h, id⟩

theorem Extends.trans {l₁ l₂ l₃ : InboundPaymentInfoStorage} (h : Extends l₁ l₂)
    (h' : Extends l₂ l₃) : Extends l₁ l₃ := by
  intro hash info hinfo
  obtain ⟨info₂, h₂, hs₂⟩ := h hash info hinfo
  obtain ⟨info₃, h₃, hs₃⟩ := h' hash info₂ h₂
  exact ⟨info₃, h₃, hs₃ ∘ hs₂⟩

/-! ## What the tasks keep -/

/-- Nobody holds the mutex, and the file is the ledger in memory; or somebody
does, and is about to make it so. -/
structure Inv (s : InboundState) : Prop where
  written : s.file = none ∨ ∃ l, s.file = some (codec.write l)
  free : s.holder = none → s.ledger = onFile codec s ∧ s.unwritten = none
  reflects : Reflects (onFile codec s) s.claimed
  used : ∀ hash info, (onFile codec s).lookup hash = some info → hash ∈ s.used
  claims : ∀ c ∈ s.claimed, c.hash ∈ s.used

/-- What a task relies on: while it holds the mutex nothing but `used` changes. -/
structure Rely (t : Task) (s s' : InboundState) : Prop where
  holder : s'.holder = some t ↔ s.holder = some t
  held : s.holder = some t → s'.ledger = s.ledger ∧ s'.file = s.file ∧ s'.claimed = s.claimed ∧
    s'.unwritten = s.unwritten
  used : s.used ⊆ s'.used

def discipline : Discipline (inboundNode codec) where
  inv := Inv codec
  change s s' := Extends (onFile codec s) (onFile codec s')
  rely := Rely
  change_refl _ := .refl _
  change_trans := .trans
  rely_refl _ _ := ⟨Iff.rfl, fun _ => ⟨rfl, rfl, rfl, rfl⟩, fun _ h => h⟩
  rely_trans h h' := by
    refine ⟨h'.holder.trans h.holder, ?_, fun _ hx => h'.used (h.used hx)⟩
    intro hh
    obtain ⟨h₁, h₂, h₃, h₄⟩ := h.held hh
    obtain ⟨h₁', h₂', h₃', h₄'⟩ := h'.held (h.holder.mpr hh)
    exact ⟨h₁'.trans h₁, h₂'.trans h₂, h₃'.trans h₃, h₄'.trans h₄⟩

/-- The ledger in memory is fit to be written: it goes on from the file, and has
what the claim under way brings. -/
structure Fit (s : InboundState) : Prop where
  extends_file : Extends (onFile codec s) s.ledger
  reflects : Reflects s.ledger (s.unwritten.toList ++ s.claimed)
  used : ∀ hash info, s.ledger.lookup hash = some info → hash ∈ s.used
  claims : ∀ c ∈ s.unwritten, c.hash ∈ s.used

variable {codec} {t : Task} {s s' : InboundState}

theorem Fit.rely (h : Fit codec s) (hr : Rely t s s') (hh : s.holder = some t) : Fit codec s' := by
  obtain ⟨hl, hf, hc, hu⟩ := hr.held hh
  refine ⟨?_, ?_, ?_, ?_⟩
  · rw [onFile, hf, hl]
    exact h.extends_file
  · rw [hl, hc, hu]
    exact h.reflects
  · rw [hl]
    exact fun hash info hinfo => hr.used (h.used hash info hinfo)
  · rw [hu]
    exact fun c hc => hr.used (h.claims c hc)

/-- The mutex is held, and the ledger fit to be written. -/
def Holding (codec : Codec InboundPaymentInfoStorage) (t : Task) (s : InboundState) : Prop :=
  s.holder = some t ∧ Fit codec s

theorem holding_stable : (discipline codec).Stable t (Holding codec t) :=
  fun _ _ _ _ hr h => ⟨hr.holder.mpr h.1, h.2.rely hr h.1⟩

/-- The mutex is held, and what was written is the ledger. -/
def Written (codec : Codec InboundPaymentInfoStorage) (t : Task) (s : InboundState) : Prop :=
  s.holder = some t ∧ s.ledger = onFile codec s ∧ s.unwritten = none

theorem written_stable : (discipline codec).Stable t (Written codec t) := by
  rintro s s' _ _ hr ⟨hh, hl, hu⟩
  obtain ⟨hl', hf, _, hu'⟩ := hr.held hh
  refine ⟨hr.holder.mpr hh, ?_, hu'.trans hu⟩
  rw [hl', onFile, hf]
  exact hl

/-- The task does not hold the mutex. -/
def Away (t : Task) (s : InboundState) : Prop := s.holder ≠ some t

theorem away_stable : (discipline codec).Stable t (Away t) :=
  fun _ _ _ _ hr h hh => h (hr.holder.mp hh)

/-- A step of the holder is one the other tasks rely on. -/
theorem guar_held (hh : s.holder = some t) (hh' : s'.holder = s.holder ∨ s'.holder = none)
    (hused : s.used ⊆ s'.used) (hc : Extends (onFile codec s) (onFile codec s')) :
    (discipline codec).Guar t s s' := by
  refine ⟨hc, fun u hu => ⟨?_, ?_, hused⟩⟩
  · rcases hh' with h | h
    · rw [h]
    · rw [h, hh]
      simp [Ne.symm hu]
  · intro hu'
    rw [hh] at hu'
    exact absurd (Option.some.inj hu').symm hu

/-- What was encoded, once written, is what the file holds. -/
theorem onFile_write (l : InboundPaymentInfoStorage) (h : s.file = some (codec.write l)) :
    onFile codec s = l := by
  simp [onFile, readInboundPaymentInfo, h]

/-! ## The programs -/

/-- Encode, write, unlock: the end of both programs. -/
theorem writeAndUnlock_rule :
    (discipline codec).Triple t (Holding codec t) writeAndUnlock fun _ => Away t := by
  refine .act (fun bytes s => Holding codec t s ∧ bytes = codec.write s.ledger) holding_stable ?_
    fun bytes => ?_
  · rintro s hi ⟨hh, hfit⟩ _ _ ⟨_, rfl, rfl⟩
    exact ⟨hi, guar_held hh (.inl rfl) (List.Subset.refl _) (.refl _), ⟨hh, hfit⟩, rfl⟩
  have hstable : (discipline codec).Stable t fun s =>
      Holding codec t s ∧ bytes = codec.write s.ledger := by
    rintro s s' hi hi' hr ⟨h, hb⟩
    refine ⟨holding_stable s s' hi hi' hr h, ?_⟩
    rw [(hr.held h.1).1]
    exact hb
  refine .act (fun _ => Written codec t) hstable ?_ fun _ => ?_
  · rintro s hi ⟨⟨hh, hfit⟩, hb⟩ _ s' hs'
    have hfile : onFile codec s' = s.ledger := onFile_write s.ledger (by rw [hs', hb])
    have hheld : s'.holder = some t := by rw [hs']; exact hh
    have hinv : Inv codec s' := by
      refine ⟨.inr ⟨s.ledger, by rw [hs', hb]⟩, ?_, ?_, ?_, ?_⟩
      · intro hfree
        rw [hheld] at hfree
        exact nomatch hfree
      · rw [hfile, hs']
        exact hfit.reflects
      · rw [hfile, hs']
        exact hfit.used
      · intro c hc
        rw [hs'] at hc ⊢
        rcases List.mem_append.mp hc with hc | hc
        · exact hfit.claims c (Option.mem_toList.mp hc)
        · exact hi.claims c hc
    refine ⟨hinv, guar_held hh (.inl (by rw [hs'])) (by rw [hs']; exact List.Subset.refl _) ?_,
      hheld, ?_, by rw [hs']⟩
    · rw [hfile]
      exact hfit.extends_file
    · rw [hfile, hs']
  refine .act (fun _ => Away t) written_stable ?_ fun _ => .ret away_stable fun _ _ h => h
  rintro s hi ⟨hh, hl, hu⟩ _ _ ⟨_, rfl⟩
  refine ⟨⟨hi.written, fun _ => ⟨hl, hu⟩, hi.reflects, hi.used, hi.claims⟩, ?_, nofun⟩
  exact guar_held hh (.inr rfl) (List.Subset.refl _) (.refl _)

theorem fit_of_written (hi : Inv codec s) (h : Written codec t s) : Fit codec s := by
  obtain ⟨_, hl, hu⟩ := h
  refine ⟨?_, ?_, ?_, ?_⟩
  · rw [hl]
    exact .refl _
  · rw [hl, hu]
    exact hi.reflects
  · rw [hl]
    exact hi.used
  · rw [hu]
    exact nofun

/-- Whoever gets the mutex finds in memory what the file holds. -/
theorem lock_step (hi : Inv codec s) (hh : s.holder = none)
    (hs' : s' = { s with holder := some t }) :
    Inv codec s' ∧ (discipline codec).Guar t s s' ∧ Written codec t s' := by
  subst hs'
  obtain ⟨hl, hu⟩ := hi.free hh
  refine ⟨⟨hi.written, fun _ => ⟨hl, hu⟩, hi.reflects, hi.used, hi.claims⟩, ⟨.refl _, ?_⟩, rfl, hl, hu⟩
  intro u hne
  refine ⟨?_, ?_, List.Subset.refl _⟩
  · simp [hh, Ne.symm hne]
  · intro hu'
    rw [hh] at hu'
    exact nomatch hu'

/-- A hash no record and no claim has. -/
def Fresh (codec : Codec InboundPaymentInfoStorage) (hash : PaymentHash) (s : InboundState) :
    Prop :=
  (onFile codec s).lookup hash = none ∧ (∀ c ∈ s.claimed, c.hash ≠ hash) ∧ hash ∈ s.used

theorem fresh_stable (hash : PaymentHash) :
    (discipline codec).Stable t fun s => Written codec t s ∧ Fresh codec hash s := by
  rintro s s' hi hi' hr ⟨hw, hf, hc, hu⟩
  obtain ⟨_, hf', hc', _⟩ := hr.held hw.1
  refine ⟨written_stable s s' hi hi' hr hw, ?_, ?_, hr.used hu⟩
  · rw [onFile, hf']
    exact hf
  · rw [hc']
    exact hc

theorem fresh_of_unused (hi : Inv codec s) {hash : PaymentHash} (h : hash ∉ s.used) :
    Fresh codec hash { s with used := hash :: s.used } := by
  refine ⟨?_, ?_, List.mem_cons_self⟩
  · show (onFile codec s).lookup hash = none
    cases hl : (onFile codec s).lookup hash with
    | none => rfl
    | some info => exact absurd (hi.used hash info hl) h
  · intro c hc hch
    exact h (hch ▸ hi.claims c hc)

/-- A pending record of a fresh hash leaves the ledger fit to be written. -/
theorem fit_insert (hi : Inv codec s) (hw : Written codec t s) {hash : PaymentHash}
    (hf : Fresh codec hash s) {info : PaymentInfo} (hp : info.status ≠ .succeeded) :
    Fit codec { s with ledger := s.ledger.insert hash info } := by
  obtain ⟨hnone, hclaims, hused⟩ := hf
  obtain ⟨_, hl, hu⟩ := hw
  have hlookup : ∀ h, (s.ledger.insert hash info).lookup h
      = if h = hash then some info else (onFile codec s).lookup h := by
    intro h
    rw [hl]
    exact InboundPaymentInfoStorage.lookup_insert _ _ _ _
  refine ⟨?_, ?_, ?_, ?_⟩
  · intro h i hi'
    have hne : h ≠ hash := by
      rintro rfl
      have hsome : (onFile codec s).lookup h = some i := hi'
      rw [hnone] at hsome
      exact nomatch hsome
    exact ⟨i, by rw [hlookup, if_neg hne]; exact hi', id⟩
  · intro h
    simp only [hu, Option.toList_none, List.nil_append, hlookup]
    by_cases hh : h = hash
    · have hfind : s.claimed.find? (·.hash = h) = none := by
        rw [List.find?_eq_none]
        intro c hc
        simpa [hh] using hclaims c hc
      rw [hfind]
      intro i hi'
      rw [if_pos hh] at hi'
      exact Option.some.inj hi' ▸ hp
    · rw [if_neg hh]
      exact hi.reflects h
  · intro h i hi'
    simp only [hlookup] at hi'
    split at hi'
    · rename_i hh
      exact hh ▸ hused
    · exact hi.used h i hi'
  · show ∀ c ∈ s.unwritten, c.hash ∈ s.used
    rw [hu]
    exact nofun

/-- A claim leaves the ledger fit to be written. -/
theorem fit_claim (hi : Inv codec s) (hw : Written codec t s) {c : Claim} (hc : c.hash ∈ s.used) :
    Fit codec { s with ledger := s.ledger.claim c, unwritten := some c } := by
  obtain ⟨_, hl, _⟩ := hw
  obtain ⟨⟨info, hinfo, hsucc, hpre, hsec⟩, hother⟩ := InboundPaymentInfoStorage.lookup_claim s.ledger c
  refine ⟨?_, ?_, ?_, ?_⟩
  · intro h i hi'
    by_cases hh : h = c.hash
    · exact ⟨info, hh ▸ hinfo, fun _ => hsucc⟩
    · refine ⟨i, ?_, id⟩
      show (s.ledger.claim c).lookup h = some i
      rw [hother h hh, hl]
      exact hi'
  · intro h
    simp only [Option.toList_some, List.singleton_append, List.find?_cons]
    by_cases hh : c.hash = h
    · subst hh
      simp only [decide_true]
      exact ⟨info, hinfo, hsucc, hpre, hsec⟩
    · simp only [hh, decide_false]
      rw [hother h (Ne.symm hh), hl]
      exact hi.reflects h
  · intro h i hi'
    by_cases hh : h = c.hash
    · exact hh ▸ hc
    · have hi'' : (s.ledger.claim c).lookup h = some i := hi'
      rw [hother h hh, hl] at hi''
      exact hi.used h i hi''
  · intro c' hc'
    cases hc'
    exact hc

theorem inv_held (hi : Inv codec s) (hh : s.holder = some t) (hh' : s'.holder = s.holder)
    (hf : s'.file = s.file) (hc : s'.claimed = s.claimed) (hu : s.used ⊆ s'.used) :
    Inv codec s' := by
  have hfile : onFile codec s' = onFile codec s := by rw [onFile, hf, onFile]
  refine ⟨by rw [hf]; exact hi.written, ?_, ?_, ?_, ?_⟩
  · intro hfree
    rw [hh', hh] at hfree
    exact nomatch hfree
  · rw [hfile, hc]
    exact hi.reflects
  · rw [hfile]
    exact fun h i hi' => hu (hi.used h i hi')
  · rw [hc]
    exact fun c hc' => hu (hi.claims c hc')

variable (s') in
/-- What the holder does in memory alone. -/
theorem held_step (hi : Inv codec s) (hh : s.holder = some t) (hh' : s'.holder = s.holder)
    (hf : s'.file = s.file) (hc : s'.claimed = s.claimed) (hu : s.used ⊆ s'.used) :
    Inv codec s' ∧ (discipline codec).Guar t s s' := by
  refine ⟨inv_held hi hh hh' hf hc hu, guar_held hh (.inl hh') hu ?_⟩
  rw [onFile, onFile, hf]
  exact .refl _

theorem getInvoice_rule (amtMsat : UInt64) :
    (discipline codec).Triple t (Away t) (getInvoice amtMsat) fun _ => Away t := by
  refine .act (fun _ => Written codec t) away_stable ?_ fun _ => ?_
  · rintro s hi _ _ s' ⟨hh, hs'⟩
    exact lock_step hi hh hs'
  refine .act (fun r s => match r with
    | none => Holding codec t s
    | some (hash, _) => Written codec t s ∧ Fresh codec hash s) written_stable ?_ fun r => ?_
  · rintro s hi hw r s' (⟨rfl, rfl⟩ | ⟨hash, secret, hfresh, rfl, rfl⟩)
    · exact ⟨hi, guar_held hw.1 (.inl rfl) (List.Subset.refl _) (.refl _), hw.1, fit_of_written hi hw⟩
    · obtain ⟨hi', hg⟩ := held_step { s with used := hash :: s.used } hi hw.1 rfl rfl rfl
        (List.subset_cons_self _ _)
      exact ⟨hi', hg, hw, fresh_of_unused hi hfresh⟩
  cases r with
  | none => exact writeAndUnlock_rule
  | some r =>
      refine .act (fun _ => Holding codec t) (fresh_stable r.1) ?_ fun _ => writeAndUnlock_rule
      rintro s hi ⟨hw, hfresh⟩ _ s' ⟨hh, rfl⟩
      obtain ⟨hi', hg⟩ := held_step
        { s with ledger := s.ledger.insert r.1 (invoiceRecord amtMsat r.2) }
        hi hh rfl rfl rfl (List.Subset.refl _)
      exact ⟨hi', hg, hh, fit_insert hi hw hfresh nofun⟩

theorem handlePaymentClaimed_rule (hash : PaymentHash) (purpose : PaymentPurpose)
    (amountMsat : UInt64) :
    (discipline codec).Triple t (fun s => Away t s ∧ hash ∈ s.used)
      (handlePaymentClaimed hash purpose amountMsat) fun _ => Away t := by
  have hused : ∀ {s s' : InboundState}, Rely t s s' → hash ∈ s.used → hash ∈ s'.used :=
    fun hr h => hr.used h
  refine .act (fun _ s => Written codec t s ∧ hash ∈ s.used)
    (fun s s' hi hi' hr h => ⟨away_stable s s' hi hi' hr h.1, hused hr h.2⟩) ?_ fun _ => ?_
  · rintro s hi ⟨_, hu⟩ _ s' ⟨hh, hs'⟩
    obtain ⟨hi', hg, hw⟩ := lock_step hi hh hs'
    exact ⟨hi', hg, hw, by rw [hs']; exact hu⟩
  refine .act (fun _ => Holding codec t)
    (fun s s' hi hi' hr h => ⟨written_stable s s' hi hi' hr h.1, hused hr h.2⟩) ?_
    fun _ => writeAndUnlock_rule
  rintro s hi ⟨hw, hu⟩ _ s' ⟨hh, rfl⟩
  obtain ⟨hi', hg⟩ := held_step { s with
      ledger := s.ledger.claim (claimOf hash purpose amountMsat)
      unwritten := some (claimOf hash purpose amountMsat) }
    hi hh rfl rfl rfl (List.Subset.refl _)
  exact ⟨hi', hg, hh, fit_claim hi hw hu⟩

/-! ## Runs -/

variable (codec) in
def outline : Outline (inboundNode codec) where
  toDiscipline := discipline codec
  idle := Away
  post t _ := Away t
  idle_stable _ := away_stable
  start_ok := by
    intro t s p s' hstart hi ha
    cases t with
    | cli =>
        obtain ⟨⟨amtMsat, rfl⟩, rfl⟩ := hstart
        exact ⟨hi, ⟨.refl _, fun u _ => (discipline codec).rely_refl u _⟩,
          getInvoice_rule amtMsat s' hi ha⟩
    | events =>
        obtain ⟨hash, purpose, amountMsat, rfl, rfl⟩ := hstart
        have hsub : s.used ⊆ hash :: s.used := List.subset_cons_self _ _
        have hi' : Inv codec { s with used := hash :: s.used } :=
          ⟨hi.written, hi.free, hi.reflects, fun h i hl => hsub (hi.used h i hl),
            fun c hc => hsub (hi.claims c hc)⟩
        exact ⟨hi', ⟨.refl _, fun u _ => ⟨Iff.rfl, fun _ => ⟨rfl, rfl, rfl, rfl⟩, hsub⟩⟩,
          handlePaymentClaimed_rule hash purpose amountMsat _ hi' ⟨ha, List.mem_cons_self⟩⟩
    | startup => exact hstart.elim
  finish_ok := by
    rintro t x s s' rfl hi ha
    exact ⟨hi, ⟨.refl _, fun u _ => (discipline codec).rely_refl u _⟩, ha⟩
  env_ok h := h.elim
  crash_ok := by
    rintro s s' rfl hi
    exact ⟨⟨hi.written, fun _ => ⟨rfl, rfl⟩, hi.reflects, hi.used, hi.claims⟩, .refl _, nofun⟩

theorem Inv.new : Inv codec .new :=
  ⟨.inl rfl, fun _ => ⟨rfl, rfl⟩, fun _ _ h => (nomatch h), fun _ _ h => (nomatch h), nofun⟩

theorem Inv.fileFollows (hi : Inv codec s) (hh : s.holder = none) : FileFollows codec s := by
  have hl := (hi.free hh).1
  unfold FileFollows
  rcases hi.written with hf | ⟨l, hf⟩
  · rw [hf]
    rw [onFile, hf] at hl
    exact hl
  · rw [hf, hl, onFile_write l hf]
    exact codec.decode_write l

end Inbound

open Inbound in
/-- In every run, whatever the order of invoices, claims and crashes: the file
follows the ledger whenever the mutex is free, its succeeded records are those
of the claims written, and it never goes back. -/
theorem inbound_never_regresses {codec : Codec InboundPaymentInfoStorage}
    {c c' : Config Task InboundAct InboundAct.Answer Unit InboundState}
    (h : (inboundNode codec).Reach (.idle .new) c) (h' : (inboundNode codec).Reach c c') :
    (c.state.holder = none → FileFollows codec c.state) ∧
    Reflects (onFile codec c.state) c.state.claimed ∧
    Extends (onFile codec c.state) (onFile codec c'.state) := by
  have hinit : (outline codec).Inv (.idle .new) := .init _ .new nofun
  have hc := (hinit.reach _ h).1
  have hchange := (hc.reach _ h').2
  exact ⟨hc.state.fileFollows, hc.state.reflects, hchange⟩

namespace Inbound

/-- Every action at once, the invoices all failing. -/
def smoothly (codec : Codec InboundPaymentInfoStorage) (t : Task) :
    (a : InboundAct) → InboundState → Option (a.Answer × InboundState)
  | .lock, s => if s.holder = none then some ((), { s with holder := some t }) else none
  | .unlock, s => if s.holder = some t then some ((), { s with holder := none }) else none
  | .createInvoice _, s => some (none, s)
  | .insert hash info, s =>
      if s.holder = some t then some ((), { s with ledger := s.ledger.insert hash info }) else none
  | .claim c, s =>
      if s.holder = some t then
        some ((), { s with ledger := s.ledger.claim c, unwritten := some c })
      else none
  | .encode, s => if s.holder = some t then some (codec.write s.ledger, s) else none
  | .write bytes, s =>
      some ((), { s with
        file := some bytes
        claimed := s.unwritten.toList ++ s.claimed
        unwritten := none })

theorem smoothly_exec {codec : Codec InboundPaymentInfoStorage} {t : Task} (a : InboundAct)
    (s : InboundState) (r : a.Answer) (s' : InboundState)
    (h : smoothly codec t a s = some (r, s')) : (inboundNode codec).exec t a s r s' := by
  cases a with
  | createInvoice amtMsat =>
      cases h
      exact .inl ⟨rfl, rfl⟩
  | write bytes =>
      cases h
      rfl
  | lock | unlock | insert hash info | claim c | encode =>
      simp only [smoothly, Option.ite_none_right_eq_some, Option.some.injEq, Prod.mk.injEq] at h
      obtain ⟨hh, h⟩ := h
      first
        | exact ⟨hh, h.2.symm⟩
        | exact ⟨hh, h.1.symm, h.2.symm⟩

end Inbound

open Inbound in
/-- A spontaneous payment claimed, and its record on the file. -/
theorem inbound_never_regresses_claimed :
    (inboundNode InboundPaymentInfoStorage.codec).Can (.idle .new) fun c =>
      c.state.claimed.length = 1 ∧ FileFollows InboundPaymentInfoStorage.codec c.state ∧
        Reflects (onFile InboundPaymentInfoStorage.codec c.state) c.state.claimed := by
  have hrun : (inboundNode InboundPaymentInfoStorage.codec).Reach (.idle .new) (.idle _) :=
    System.reach_call (t := Task.events) smoothly_exec
      ⟨⟨0⟩, .spontaneousPayment ⟨0⟩, 5, rfl, rfl⟩ rfl rfl
  obtain ⟨hfile, hreflects, _⟩ := inbound_never_regresses hrun .refl
  exact ⟨_, hrun, rfl, hfile rfl, hreflects⟩

end LightningNode
