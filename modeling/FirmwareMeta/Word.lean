/-!
Unsigned 32-bit words as four bytes, least significant first.
-/
namespace FirmwareMeta.Word

/-- The number of values of a word, and of addresses in flash. -/
def limit : Nat := 0x100000000

def bytes (w : UInt32) : List UInt8 :=
  [.ofNat w.toNat, .ofNat (w.toNat / 0x100), .ofNat (w.toNat / 0x10000),
    .ofNat (w.toNat / 0x1000000)]

def ofBytes (a b c d : UInt8) : UInt32 :=
  .ofNat (a.toNat + 0x100 * b.toNat + 0x10000 * c.toNat + 0x1000000 * d.toNat)

/-- The word at an offset, if four bytes are there. -/
def at? (data : List UInt8) (offset : Nat) : Option UInt32 :=
  match data.drop offset with
  | a :: b :: c :: d :: _ => some (ofBytes a b c d)
  | _ => none

@[simp] theorem length_bytes (w : UInt32) : (bytes w).length = 4 := rfl

theorem ofBytes_bytes (w : UInt32) :
    ofBytes (.ofNat w.toNat) (.ofNat (w.toNat / 0x100)) (.ofNat (w.toNat / 0x10000))
      (.ofNat (w.toNat / 0x1000000)) = w := by
  have h := w.toNat_lt
  apply UInt32.toNat.inj
  simp [ofBytes]
  omega

theorem bytes_ofBytes (a b c d : UInt8) : bytes (ofBytes a b c d) = [a, b, c, d] := by
  have ha := a.toNat_lt
  have hb := b.toNat_lt
  have hc := c.toNat_lt
  have hd := d.toNat_lt
  simp only [bytes, ofBytes, List.cons.injEq, and_true, UInt32.toNat_ofNat']
  refine ⟨?_, ?_, ?_, ?_⟩ <;> apply UInt8.toNat.inj <;> simp <;> omega

/-- A word is read back from its bytes, whatever stands around them. -/
theorem at?_append_bytes (before after : List UInt8) (w : UInt32) :
    at? (before ++ (bytes w ++ after)) before.length = some w := by
  simpa [at?, bytes] using ofBytes_bytes w

end FirmwareMeta.Word
