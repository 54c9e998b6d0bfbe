import Handheld.Text.Utf8

/-!
# UTF-8 there and back

The octets of a text decode to the text (`decode_encode`).
-/

namespace Handheld.Utf8

theorem scalar?_toNat (c : Char) : scalar? c.toNat = some c := by
  have hvalid : c.toNat.isValidChar := c.valid
  rw [scalar?, dif_pos hvalid]
  rfl

theorem toNat_lt (c : Char) : c.toNat < 0x110000 := by
  rcases c.valid with h | h
  · exact Nat.lt_trans h (by decide)
  · exact h.2

theorem toNat_octet {n : Nat} (h : n < 256) : n.toUInt8.toNat = n := by
  rw [UInt8.toNat_ofNat']
  omega

theorem continuation?_octet (n : Nat) : continuation? (0x80 + n % 64).toUInt8 = some (n % 64) := by
  rw [continuation?, toNat_octet (by omega), if_pos (by omega)]
  congr 1
  omega

/-- The first of the octets of a character says how many there are, and the others what it is. -/
theorem decodeFirst_encodeChar (c : Char) (rest : List UInt8) :
    ∃ lead tail, encodeChar c = lead :: tail ∧
      decodeFirst lead (tail ++ rest) = some (c, tail.length) := by
  have hbound := toNat_lt c
  unfold encodeChar
  dsimp only
  split
  · next h1 =>
    refine ⟨_, _, rfl, ?_⟩
    simp only [decodeFirst, toNat_octet (show c.toNat < 256 by omega), if_pos h1, scalar?_toNat]
    rfl
  · next h1 =>
    split
    · next h2 =>
      refine ⟨_, _, rfl, ?_⟩
      have hlead := toNat_octet (show 0xC0 + c.toNat / 64 < 256 by omega)
      have hsame : (0xC0 + c.toNat / 64 - 0xC0) * 64 + c.toNat % 64 = c.toNat := by omega
      rw [decodeFirst, hlead, if_neg (by omega), if_neg (by omega), if_pos (by omega)]
      simp only [List.cons_append, List.getElem?_cons_zero, Option.bind_eq_bind, Option.bind_some,
        continuation?_octet, hsame, scalar?_toNat]
      rfl
    · next h2 =>
      split
      · next h3 =>
        refine ⟨_, _, rfl, ?_⟩
        have hlead := toNat_octet (show 0xE0 + c.toNat / 4096 < 256 by omega)
        have hsame : ((0xE0 + c.toNat / 4096 - 0xE0) * 64 + c.toNat / 64 % 64) * 64 + c.toNat % 64 =
            c.toNat := by omega
        rw [decodeFirst, hlead, if_neg (by omega), if_neg (by omega), if_neg (by omega),
          if_pos (by omega)]
        simp only [List.cons_append, List.getElem?_cons_zero, List.getElem?_cons_succ,
          Option.bind_eq_bind, Option.bind_some, continuation?_octet, hsame, scalar?_toNat]
        rw [if_neg h2]
        rfl
      · next h3 =>
        refine ⟨_, _, rfl, ?_⟩
        have hlead := toNat_octet (show 0xF0 + c.toNat / 262144 < 256 by omega)
        have hsame : (((0xF0 + c.toNat / 262144 - 0xF0) * 64 + c.toNat / 4096 % 64) * 64 +
            c.toNat / 64 % 64) * 64 + c.toNat % 64 = c.toNat := by omega
        rw [decodeFirst, hlead, if_neg (by omega), if_neg (by omega), if_neg (by omega),
          if_neg (by omega), if_pos (by omega)]
        simp only [List.cons_append, List.getElem?_cons_zero, List.getElem?_cons_succ,
          Option.bind_eq_bind, Option.bind_some, continuation?_octet, hsame, scalar?_toNat]
        rw [if_neg h3]
        rfl

theorem decode_encodeChar (c : Char) (rest : List UInt8) :
    decode (encodeChar c ++ rest) = (decode rest).map (c :: ·) := by
  obtain ⟨lead, tail, hencoded, hfirst⟩ := decodeFirst_encodeChar c rest
  rw [hencoded, List.cons_append, decode, hfirst]
  show (decode ((tail ++ rest).drop tail.length) >>= fun text => some (c :: text)) = _
  rw [List.drop_left]
  cases decode rest <;> rfl

theorem decode_encode (text : List Char) : decode (encode text) = some text := by
  induction text with
  | nil => rw [encode, List.flatMap_nil, decode]
  | cons c text ih =>
    rw [encode, List.flatMap_cons, decode_encodeChar]
    exact congrArg (Option.map (c :: ·)) ih

end Handheld.Utf8
