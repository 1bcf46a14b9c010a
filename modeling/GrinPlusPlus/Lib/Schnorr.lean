import Mathlib.Algebra.Group.Hom.Defs
import Mathlib.Algebra.Module.Basic
import Mathlib.Tactic.Abel

/-!
# Signatures of Schnorr that add up

Secrets are the elements of a group, and a homomorphism makes them public. A response `s` to the
challenge `e` fits a public nonce `R` and a public key `P` if what it makes public is `R + e • P`
(`Schnorr.Verifies`). The equation is linear in everything but the challenge, so **the responses of
several signers to one challenge add up** to a response for the sum of their nonces and the sum of
their keys (`Schnorr.Verifies.add`).
-/

namespace Schnorr

variable {F A : Type} [AddCommGroup F] [AddCommGroup A] {reveal : F →+ A}

/-- A response fits a public nonce, a public key and a challenge. -/
def Verifies (reveal : F →+ A) (s : F) (R P : A) (e : ℤ) : Prop :=
  reveal s = R + e • P

/-- **What a signer answers fits.** The nonce is taken with a factor. -/
theorem verifies_answer (reveal : F →+ A) (f e : ℤ) (k x : F) :
    Verifies reveal (f • k + e • x) (f • reveal k) (reveal x) e := by
  rw [Verifies, map_add, map_zsmul, map_zsmul]

/-- **Responses to one challenge add up.** -/
theorem Verifies.add {s s' : F} {R R' P P' : A} {e : ℤ} (h : Verifies reveal s R P e)
    (h' : Verifies reveal s' R' P' e) : Verifies reveal (s + s') (R + R') (P + P') e := by
  rw [Verifies] at h h' ⊢
  rw [map_add, h, h', smul_add]
  abel

end Schnorr
