import BlockAgreement.View

/-!
# The round timer

A round has twice the time of the round before it, up to a maximum. At most one view is being timed;
arming the timer for a view cancels the one before. Durations are in nanoseconds.
-/

set_option autoImplicit false

namespace BlockAgreement

structure Timer where
  request : Nat
  maximum : Nat
  armed : Option View
  deriving DecidableEq, Repr

namespace Timer

def idle (request maximum : Nat) : Timer := ⟨request, maximum, none⟩

def timeout (t : Timer) (round : Round) : Nat :=
  if round < 32 then min (t.request * Nat.pow 2 round.toNat) t.maximum else t.maximum

def arm (t : Timer) (view : View) : Timer := { t with armed := some view }

def stop (t : Timer) : Timer := { t with armed := none }

end Timer

end BlockAgreement
