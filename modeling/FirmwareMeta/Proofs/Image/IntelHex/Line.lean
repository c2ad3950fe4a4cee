import FirmwareMeta.Image.IntelHex.Record

/-! Every record is read back from its line: from the digits of its bytes, past the checksum, to
its fields. -/
namespace FirmwareMeta.IntelHex

theorem digit?_digitChar {n : Nat} (small : n < 16) :
    Numeral.digit? 16 (Nat.digitChar n).toUpper = some n := by
  revert n
  decide

theorem digit?_pair (byte : UInt8) {c : Char} (mem : c ∈ pair byte) :
    (Numeral.digit? 16 c).isSome := by
  have bound := byte.toNat_lt
  simp only [pair, List.mem_cons, List.not_mem_nil, or_false] at mem
  rcases mem with rfl | rfl
  · rw [digit?_digitChar (by omega)]
    rfl
  · rw [digit?_digitChar (by omega)]
    rfl

theorem length_flatMap_pair (bytes : List UInt8) :
    (bytes.flatMap pair).length = 2 * bytes.length := by
  induction bytes with
  | nil => rfl
  | cons byte rest ih =>
    rw [List.flatMap_cons, List.length_append, ih, List.length_cons, Nat.mul_add, Nat.add_comm]
    rfl

theorem unhex?_flatMap_pair (bytes : List UInt8) : unhex? (bytes.flatMap pair) = some bytes := by
  induction bytes with
  | nil => rfl
  | cons byte rest ih =>
    have bound := byte.toNat_lt
    have high : byte.toNat / 16 < 16 := by omega
    have low : byte.toNat % 16 < 16 := by omega
    have whole : 16 * (byte.toNat / 16) + byte.toNat % 16 = byte.toNat := by omega
    simp only [List.flatMap_cons, pair, List.cons_append, List.nil_append, unhex?,
      digit?_digitChar high, digit?_digitChar low, ih, whole, bind, Option.bind, pure,
      UInt8.ofNat_toNat]

theorem halfWord_halfBytes (h : UInt16) :
    halfWord (.ofNat (h.toNat / 256)) (.ofNat h.toNat) = h := by
  have bound := h.toNat_lt
  apply UInt16.toNat.inj
  simp [halfWord]
  omega

namespace Record

theorem ofFields_fields (r : Record) : ofFields r.offset r.type r.payload = .ok r := by
  cases r <;> simp only [offset, type, payload, ofFields, halfBytes, halfWord_halfBytes,
    List.cons_append, List.nil_append]

theorem ofBytes_bytes {r : Record} (fits : r.payload.length ≤ maxPayload) :
    ofBytes r.bytes = .ok r := by
  have size : (UInt8.ofNat r.payload.length).toNat = r.payload.length := by
    simp only [maxPayload] at fits
    simp
    omega
  simp only [bytes, halfBytes, List.cons_append, List.nil_append, ofBytes, size, ↓reduceIte,
    halfWord_halfBytes, ofFields_fields]

theorem length_bytes (r : Record) : r.bytes.length = r.payload.length + 4 := by
  simp only [bytes, halfBytes, List.cons_append, List.nil_append, List.length_cons]

theorem mem_line {r : Record} {c : Char} (mem : c ∈ r.line) :
    c = ':' ∨ (Numeral.digit? 16 c).isSome := by
  rcases List.mem_cons.mp mem with rfl | mem
  · exact Or.inl rfl
  · obtain ⟨byte, _, mem⟩ := List.mem_flatMap.mp mem
    exact Or.inr (digit?_pair byte mem)

theorem newline_not_mem_line (r : Record) : '\n' ∉ r.line := by
  intro mem
  rcases mem_line mem with colon | digit
  · exact absurd colon (by decide)
  · exact absurd digit (by decide)

theorem return_not_mem_line (r : Record) : '\r' ∉ r.line := by
  intro mem
  rcases mem_line mem with colon | digit
  · exact absurd colon (by decide)
  · exact absurd digit (by decide)

/-- A record is read back from its line if the length byte can count its payload. -/
theorem ofLine_line {r : Record} (fits : r.payload.length ≤ maxPayload) :
    ofLine r.line = .ok r := by
  have digits : ((r.bytes ++ [checksum r.bytes]).flatMap pair).any
      (fun c => (Numeral.digit? 16 c).isNone) = false := by
    apply List.any_eq_false.mpr
    intro c mem
    obtain ⟨byte, _, mem⟩ := List.mem_flatMap.mp mem
    have digit := digit?_pair byte mem
    simp [Option.isSome_iff_ne_none.mp digit]
  have size : ((r.bytes ++ [checksum r.bytes]).flatMap pair).length =
      2 * (r.payload.length + 5) := by
    rw [length_flatMap_pair, List.length_append, length_bytes, List.length_singleton]
  have short : ¬2 * (r.payload.length + 5) < shortest := by
    simp only [shortest]
    omega
  have long : ¬longest < 2 * (r.payload.length + 5) := by
    simp only [longest, maxPayload] at fits ⊢
    omega
  simp only [line, ofLine, digits, size, short, long, unhex?_flatMap_pair,
    List.getLast?_concat, List.dropLast_concat, Option.getD_some, ↓reduceIte, ofBytes_bytes fits,
    Bool.false_eq_true]

end Record
end FirmwareMeta.IntelHex
