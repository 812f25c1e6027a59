import FramedRelay.Address.Ipv4
import FramedRelay.Proofs.Address.Numerals
import FramedRelay.Proofs.Text.Decimals

/-!
# Reading printed IPv4 addresses

A printed address is read as it was, if no digit follows it (`Ipv4.read?_text`), and no address is
read off a text without a point (`Ipv4.read?_eq_none`).
-/

namespace FramedRelay.Address.Ipv4

variable {cs rest : List Char}

theorem octet?_toDigits (a : UInt8) (hrest : Stops 10 rest) :
    octet? (Nat.toDigits 10 a.toNat ++ rest) = some (a, rest) := by
  have hwidth : (Nat.toDigits 10 a.toNat).length ≤ 3 :=
    (Nat.length_toDigits_le_iff (by decide) (by decide)).2
      (Nat.lt_of_lt_of_le a.toNat_lt (by decide))
  -- Only zero is printed with a zero first, and it has no other digit.
  have hzero : ¬((Nat.toDigits 10 a.toNat ++ rest).head? = some '0' ∧
      rest.length + 1 < (Nat.toDigits 10 a.toNat ++ rest).length) := by
    rintro ⟨hhead, hlength⟩
    rw [List.head?_append_of_ne_nil _ Nat.toDigits_ne_nil] at hhead
    rcases Nat.eq_zero_or_pos a.toNat with h | h
    · rw [h, List.length_append] at hlength
      simp only [Nat.toDigits_zero, List.length_singleton] at hlength
      omega
    · exact head?_toDigits h hhead
  rw [octet?, short?_toDigits (by decide) (by decide) hrest hwidth]
  simp only [if_neg hzero, if_pos a.toNat_lt, UInt8.ofNat_toNat]

theorem pointOctet?_toDigits (a : UInt8) (hrest : Stops 10 rest) :
    pointOctet? ('.' :: (Nat.toDigits 10 a.toNat ++ rest)) = some (a, rest) :=
  octet?_toDigits a hrest

/-- A printed address is read as it was, if no digit follows. -/
theorem read?_text (x : Ipv4) (hrest : Stops 10 rest) :
    read? (x.text ++ rest) = some (x, rest) := by
  have hpoint (cs : List Char) : Stops 10 ('.' :: cs) := stops_cons (by decide) cs
  simp only [read?, text, List.append_assoc, List.cons_append,
    octet?_toDigits x.a (hpoint _), pointOctet?_toDigits x.b (hpoint _),
    pointOctet?_toDigits x.c (hpoint _), pointOctet?_toDigits x.d hrest,
    Option.bind_eq_bind, Option.bind_some]
  rfl

theorem octet?_suffix {a : UInt8} (h : octet? cs = some (a, rest)) : rest <:+ cs := by
  unfold octet? at h
  split at h
  · cases h
  · next n rest' hread =>
    split at h
    · cases h
    · split at h
      · obtain ⟨-, rfl⟩ := Prod.mk.inj (Option.some.inj h)
        exact short?_suffix hread
      · cases h

/-- There is no address where there is no point. -/
theorem read?_eq_none (h : '.' ∉ cs) : read? cs = none := by
  rcases hfirst : octet? cs with _ | ⟨a, rest⟩
  · simp [read?, hfirst]
  · have hrest : pointOctet? rest = none := by
      cases rest with
      | nil => rfl
      | cons c rest =>
        have hc : '.' ≠ c := by
          rintro rfl
          exact h ((octet?_suffix hfirst).subset List.mem_cons_self)
        simp [pointOctet?, char?, hc]
    simp [read?, hfirst, hrest]

end FramedRelay.Address.Ipv4
