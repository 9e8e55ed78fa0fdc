import BlockAgreement.Block
import BlockAgreement.Text.Quoted

/-!
# Ledgers

What the engine needs of the store of final blocks: to read headers and to append a block. A ledger
may refuse a block for reasons of its own.
-/

set_option autoImplicit false

namespace BlockAgreement

/-- Why a ledger does not append a block. -/
inductive LedgerFault where
  | notExtendingHead
  | rejected (reason : String)
  deriving DecidableEq, Repr

instance : ToString LedgerFault :=
  ⟨fun
    | .notExtendingHead => "NotExtendingHead"
    | .rejected reason => s!"Rejected({Quoted.encode reason})"⟩

class Ledger (σ : Type) where
  /-- The header of the last block. -/
  head : σ → Header
  headerAt? : σ → Height → Option Header
  headerOf? : σ → Digest → Option Header
  append : σ → Block → Except LedgerFault σ

end BlockAgreement
