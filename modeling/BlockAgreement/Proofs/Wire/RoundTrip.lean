import BlockAgreement.Message

/-!
# What is written is read

A codec reads a value if it finds it at the front of any byte string that starts with the value's
encoding. The combinators keep this, so a subject is read from the message that it was signed in.
-/

set_option autoImplicit false

namespace BlockAgreement

namespace Codec

variable {α β : Type}

def Reads (c : Codec α) (a : α) : Prop := ∀ rest, c.decode (c.encode a ++ rest) = .ok (a, rest)

theorem fixed_reads {n : Nat} {toBytes : α → Bytes} {ofBytes : Bytes → α} {a : α}
    (hl : (toBytes a).length = n) (ha : ofBytes (toBytes a) = a) :
    (fixed n toBytes ofBytes).Reads a := by
  intro rest
  have ht : (toBytes a ++ rest).take n = toBytes a := by
    rw [← hl, List.take_left]
  have hd : (toBytes a ++ rest).drop n = rest := by
    rw [← hl, List.drop_left]
  simp [fixed, ht, hd, hl, ha]

theorem word64_reads (n : UInt64) : word64.Reads n := by
  apply fixed_reads
  · simp
  · rw [Digits.value_little (by simpa using n.toNat_lt)]
    exact UInt64.ofNat_toNat

theorem bigEndian_reads {n : Nat} (v : BitVec (8 * n)) : (bigEndian n).Reads v := by
  have hv : v.toNat < Nat.pow 256 n := by
    have h := v.isLt
    rw [Nat.pow_mul] at h
    exact h
  apply fixed_reads
  · simp
  · rw [List.reverse_reverse, Digits.value_little hv]
    simp

theorem both_reads {c : Codec α} {d : Codec β} {p : α × β} (hc : c.Reads p.1) (hd : d.Reads p.2) :
    (both c d).Reads p := by
  intro rest
  simp only [both, List.append_assoc]
  rw [hc]
  simp only [bind, Except.bind]
  rw [hd]
  rfl

theorem map_reads {c : Codec α} {f : α → β} {g : β → α} {b : β} (hc : c.Reads (g b))
    (hb : f (g b) = b) : (c.map f g).Reads b := by
  intro rest
  show (c.decode (c.encode (g b) ++ rest)).map _ = _
  rw [hc, Except.map, hb]

theorem decodeAll_encode {c : Codec α} {a : α} (h : c.Reads a) :
    c.decodeAll (c.encode a) = .ok a := by
  have h := h []
  rw [List.append_nil] at h
  rw [decodeAll, h]

end Codec

theorem subject_reads (s : Subject) : (Wire.codec : Codec Subject).Reads s :=
  Codec.map_reads
    (Codec.both_reads
      (Codec.map_reads (Codec.both_reads (Codec.word64_reads _) (Codec.word64_reads _)) rfl)
      (Codec.bigEndian_reads _))
    rfl

theorem decode_subject (s : Subject) : (Wire.decode (Wire.encode s) : Except DecodeError Subject) =
    .ok s :=
  Codec.decodeAll_encode (subject_reads s)

end BlockAgreement
