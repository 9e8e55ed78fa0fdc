import BlockAgreement.Block

/-!
# A scheme for examples

Signatures that show what was signed and by whom, and a hash that is a number in base 257. Nobody is
kept from forging them, but concrete runs can be evaluated on them.
-/

set_option autoImplicit false

namespace BlockAgreement

@[reducible] def Scheme.plain : Scheme where
  hash bytes := bytes.foldl (fun acc byte => acc * 257 + BitVec.ofNat 256 (byte.toNat + 1)) 1
  recover digest sig := if sig.r = digest then some (sig.s.setWidth 160) else none

def Signer.plain (address : Address) : Signer where
  address
  sign digest := some ⟨digest, address.setWidth 256, 0⟩

theorem Signer.plain_honest (address : Address) : @Signer.Honest .plain (.plain address) := by
  intro digest sig hs
  obtain rfl := Option.some.inj hs
  simp [Signer.plain, Scheme.recover]

theorem exists_ok {ε α : Type} {x : Except ε α} {P : α → Prop} [DecidablePred P]
    (h : x.toOption.any (fun a => P a) = true) : ∃ a, x = .ok a ∧ P a := by
  cases x with
  | error e => cases h
  | ok a => exact ⟨a, rfl, of_decide_eq_true h⟩

end BlockAgreement
