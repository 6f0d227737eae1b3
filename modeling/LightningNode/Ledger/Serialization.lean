/-
# `LightningNode.Ledger.Serialization` — the bytes of the two ledgers

`impl_writeable_tlv_based!` and `impl_writeable_tlv_based_enum!` as `main.rs`
uses them for `HTLCStatus`, `PaymentInfo`, `InboundPaymentInfoStorage` and
`OutboundPaymentInfoStorage`.  The codecs are total and lawful, so they are
instances of what the results about the ledgers take as a parameter.

A `HashMap` is written in the order it happens to be iterated in.  That order
is the order of the `AList` here, so a value of the model is a map together
with an order, and two maps are equal when they are the `Same`.
-/
import LightningNode.Ledger.Types
import LightningNode.Lib.Codec

namespace LightningNode

open Conc Codec

/-- `CollectionLength`: two bytes, or all ones and the excess in eight. -/
def collectionLength : Codec Nat := extended 2 0xFFFF (by norm_num) length64

/-- A unit variant has no fields. -/
def noFields : Codec Unit := tlv [] (fun _ => some ()) (fun _ => []) fun _ => rfl

def HTLCStatus.variant : HTLCStatus → UInt8
  | .pending => 0
  | .succeeded => 1
  | .failed => 2

def HTLCStatus.ofVariant : UInt8 → Option HTLCStatus
  | 0 => some .pending
  | 1 => some .succeeded
  | 2 => some .failed
  | _ => none

def HTLCStatus.codec : Codec HTLCStatus :=
  (pair u8 noFields).pmap (fun p => ofVariant p.1) (fun st => (st.variant, ())) fun st => by
    cases st <;> rfl

def PaymentId.codec : Codec PaymentId :=
  (fixed 32).pmap (fun v => some ⟨v⟩) PaymentId.bytes fun _ => rfl

def PaymentHash.codec : Codec PaymentHash :=
  (fixed 32).pmap (fun v => some ⟨v⟩) PaymentHash.bytes fun _ => rfl

def PaymentPreimage.codec : Codec PaymentPreimage :=
  (fixed 32).pmap (fun v => some ⟨v⟩) PaymentPreimage.bytes fun _ => rfl

def PaymentSecret.codec : Codec PaymentSecret :=
  (fixed 32).pmap (fun v => some ⟨v⟩) PaymentSecret.bytes fun _ => rfl

def MillisatAmount.codec : Codec MillisatAmount :=
  (option u64).pmap (fun a => some ⟨a⟩) MillisatAmount.amt fun _ => rfl

namespace PaymentInfo

def records (p : PaymentInfo) : List (Nat × List UInt8) :=
  [(0, (option PaymentPreimage.codec).write p.preimage),
   (2, (option PaymentSecret.codec).write p.secret),
   (4, HTLCStatus.codec.write p.status),
   (6, MillisatAmount.codec.write p.amtMsat)]

def ofRecords (rs : List (Nat × List UInt8)) : Option PaymentInfo := do
  let preimage ← required (option PaymentPreimage.codec) 0 rs
  let secret ← required (option PaymentSecret.codec) 2 rs
  let status ← required HTLCStatus.codec 4 rs
  let amtMsat ← required MillisatAmount.codec 6 rs
  return ⟨preimage, secret, status, amtMsat⟩

theorem ofRecords_records (p : PaymentInfo) :
    (accept [0, 2, 4, 6] none p.records).bind ofRecords = some p := by
  simp [accept, records, ofRecords, required, List.lookup_cons]

def codec : Codec PaymentInfo := tlv [0, 2, 4, 6] ofRecords records ofRecords_records

end PaymentInfo

namespace OutboundPaymentInfoStorage

def payments.codec : Codec (AList fun _ : PaymentId => PaymentInfo) :=
  Codec.map collectionLength PaymentId.codec PaymentInfo.codec

def records (l : OutboundPaymentInfoStorage) : List (Nat × List UInt8) :=
  [(0, payments.codec.write l.payments)]

def ofRecords (rs : List (Nat × List UInt8)) : Option OutboundPaymentInfoStorage := do
  let entries ← required payments.codec 0 rs
  return ⟨entries⟩

theorem ofRecords_records (l : OutboundPaymentInfoStorage) :
    (accept [0] none l.records).bind ofRecords = some l := by
  simp [accept, records, ofRecords, required]

def codec : Codec OutboundPaymentInfoStorage := tlv [0] ofRecords records ofRecords_records

end OutboundPaymentInfoStorage

namespace InboundPaymentInfoStorage

def payments.codec : Codec (AList fun _ : PaymentHash => PaymentInfo) :=
  Codec.map collectionLength PaymentHash.codec PaymentInfo.codec

def records (l : InboundPaymentInfoStorage) : List (Nat × List UInt8) :=
  [(0, payments.codec.write l.payments)]

def ofRecords (rs : List (Nat × List UInt8)) : Option InboundPaymentInfoStorage := do
  let entries ← required payments.codec 0 rs
  return ⟨entries⟩

theorem ofRecords_records (l : InboundPaymentInfoStorage) :
    (accept [0] none l.records).bind ofRecords = some l := by
  simp [accept, records, ofRecords, required]

def codec : Codec InboundPaymentInfoStorage := tlv [0] ofRecords records ofRecords_records

end InboundPaymentInfoStorage

/-! ## Reading back what was written -/

section

variable {S κ : Type} [DecidableEq κ] (c : Codec S) (payments : S → AList fun _ : κ => PaymentInfo)

/-- Written in any order of its entries, a map is read back as the same map. -/
theorem read_reordered {l l' : S} (h : (payments l').entries.Perm (payments l).entries)
    (rest : List UInt8) :
    ∃ r, c.read (c.write l' ++ rest) = some (r, rest) ∧ (payments r).Same (payments l) :=
  ⟨l', c.read_write l' rest, fun _ => AList.perm_lookup h⟩

theorem write_differs {l l' : S} (h : ¬ (payments l).Same (payments l')) :
    c.write l ≠ c.write l' := by
  intro hw
  obtain rfl := c.write_injective hw
  exact h fun _ => rfl

end

/-- Both ledgers, whatever the order of iteration, are read back as the maps they
are, up to the last byte written and no further; and different maps are never
written as the same bytes. -/
theorem ledgers_read_back :
    ((∀ l l' : InboundPaymentInfoStorage, l'.payments.entries.Perm l.payments.entries → ∀ rest,
        ∃ r, InboundPaymentInfoStorage.codec.read
              (InboundPaymentInfoStorage.codec.write l' ++ rest) = some (r, rest) ∧
          r.payments.Same l.payments) ∧
      ∀ l l' : InboundPaymentInfoStorage, ¬ l.payments.Same l'.payments →
        InboundPaymentInfoStorage.codec.write l ≠ InboundPaymentInfoStorage.codec.write l') ∧
    ((∀ l l' : OutboundPaymentInfoStorage, l'.payments.entries.Perm l.payments.entries → ∀ rest,
        ∃ r, OutboundPaymentInfoStorage.codec.read
              (OutboundPaymentInfoStorage.codec.write l' ++ rest) = some (r, rest) ∧
          r.payments.Same l.payments) ∧
      ∀ l l' : OutboundPaymentInfoStorage, ¬ l.payments.Same l'.payments →
        OutboundPaymentInfoStorage.codec.write l ≠ OutboundPaymentInfoStorage.codec.write l') :=
  ⟨⟨fun _ _ h rest => read_reordered _ InboundPaymentInfoStorage.payments h rest,
      fun _ _ h => write_differs _ InboundPaymentInfoStorage.payments h⟩,
    ⟨fun _ _ h rest => read_reordered _ OutboundPaymentInfoStorage.payments h rest,
      fun _ _ h => write_differs _ OutboundPaymentInfoStorage.payments h⟩⟩

/-- Two invoices, written in either order. -/
theorem ledgers_read_back_two :
    ∃ l l' : InboundPaymentInfoStorage, l.payments.keys ≠ l'.payments.keys ∧ ∃ r,
      InboundPaymentInfoStorage.codec.read (InboundPaymentInfoStorage.codec.write l')
        = some (r, []) ∧ r.payments.Same l.payments := by
  let paid : PaymentInfo := ⟨some ⟨.replicate 32 1⟩, none, .succeeded, ⟨some 5⟩⟩
  let unpaid : PaymentInfo := ⟨none, some ⟨.replicate 32 2⟩, .pending, ⟨none⟩⟩
  let h₁ : PaymentHash := ⟨.replicate 32 3⟩
  let h₂ : PaymentHash := ⟨.replicate 32 4⟩
  let l : InboundPaymentInfoStorage := ⟨(AList.insert h₁ paid ∅).insert h₂ unpaid⟩
  let l' : InboundPaymentInfoStorage := ⟨(AList.insert h₂ unpaid ∅).insert h₁ paid⟩
  have hperm : l'.payments.entries.Perm l.payments.entries :=
    AList.insert_insert_of_ne ∅ (by decide)
  have hread := ledgers_read_back.1.1 l l' hperm []
  rw [List.append_nil] at hread
  exact ⟨l, l', by decide, hread⟩

end LightningNode
