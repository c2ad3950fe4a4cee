import FirmwareMeta.Proofs.Image.IntelHex.Stream
import Mathlib.Computability.StateTransition

/-! The loop that puts out the records of an image. It works on words: an address wraps behind the
last one, and what is left of the segment decides alone whether there is another turn. It ends for
every image, and its records are a stream with the bytes of the image. -/
namespace FirmwareMeta.IntelHex

open StateTransition (eval mem_eval Reaches)

variable {image : Image} {address before : Nat} {bytes : List UInt8}

/-- The loop between two turns: the records so far, the upper half that was put out last, the
address and the bytes of what is left of the segment, and the segments to come. -/
structure Emitter where
  records : List Record
  upper : UInt16
  address : UInt32
  rest : List UInt8
  segments : List Segment

namespace Emitter

def start (image : Image) : Emitter := ⟨[], 0, 0, [], image.segments⟩

/-- Puts out one data record, and in front of it the upper half of its address if that is not the
one that was put out last. -/
def emit (e : Emitter) : Emitter :=
  let upper := (e.address >>> 16).toUInt16
  let offset := (e.address &&& 0xFFFF).toUInt16
  let size := min (min e.rest.length recordLength) (bank - offset.toNat)
  let heading := if upper = e.upper then [] else [.linearAddress upper]
  { e with
    records := e.records ++ heading ++ [.data offset (e.rest.take size)]
    upper := upper
    address := e.address + .ofNat size
    rest := e.rest.drop size }

/-- One turn. The next segment is begun where nothing is left of the one before. -/
def step (e : Emitter) : Option Emitter :=
  match e.rest, e.segments with
  | [], [] => none
  | [], s :: segments =>
    some { e with address := .ofNat s.start, rest := s.bytes.toList, segments := segments }
  | _ :: _, _ => some e.emit

variable {e : Emitter} {records : List Record} {segments : List Segment}

theorem upper_ofNat (low : address < Word.limit) :
    (UInt32.ofNat address >>> 16).toUInt16 = .ofNat (address / bank) := by
  have word : (UInt32.ofNat address).toNat = address := UInt32.toNat_ofNat_of_lt' low
  have places : (16 : UInt32).toNat % 32 = 16 := rfl
  rw [← UInt16.toNat_inj, UInt32.toNat_toUInt16, UInt32.toNat_shiftRight, word, places,
    Nat.shiftRight_eq_div_pow, UInt16.toNat_ofNat']
  rfl

theorem offset_ofNat (low : address < Word.limit) :
    (UInt32.ofNat address &&& 0xFFFF).toUInt16 = .ofNat (address % bank) := by
  have word : (UInt32.ofNat address).toNat = address := UInt32.toNat_ofNat_of_lt' low
  have mask : (0xFFFF : UInt32).toNat = 2 ^ 16 - 1 := rfl
  rw [← UInt16.toNat_inj, UInt32.toNat_toUInt16, UInt32.toNat_and, word, mask,
    Nat.and_two_pow_sub_one_eq_mod, UInt16.toNat_ofNat']
  rfl

theorem ofNat_eq_iff {n m : Nat} (low : n < bank) (also : m < bank) :
    UInt16.ofNat n = UInt16.ofNat m ↔ n = m := by
  rw [← UInt16.toNat_inj, UInt16.toNat_ofNat_of_lt' low, UInt16.toNat_ofNat_of_lt' also]

/-- A turn within a segment takes its next piece. -/
theorem emit_eq (filled : bytes ≠ []) (inside : address + bytes.length ≤ Word.limit)
    (known : before < bank) :
    emit ⟨records, .ofNat before, .ofNat address, bytes, segments⟩ =
      ⟨records ++ Piece.records ⟨address, bytes.take (sizeAt address bytes)⟩ before,
        .ofNat (address / bank), .ofNat (address + sizeAt address bytes),
        bytes.drop (sizeAt address bytes), segments⟩ := by
  have low : address < Word.limit := by
    have := List.length_pos_iff.mpr filled
    omega
  have half : address / bank < bank := Nat.div_lt_of_lt_mul low
  have offset : (UInt16.ofNat (address % bank)).toNat = address % bank :=
    UInt16.toNat_ofNat_of_lt' (Nat.mod_lt _ (by decide))
  have size : min (min bytes.length recordLength) (bank - address % bank) = sizeAt address bytes :=
    Nat.min_assoc _ _ _
  have heading : (if UInt16.ofNat (address / bank) = .ofNat before then []
      else [Record.linearAddress (.ofNat (address / bank))]) =
        Piece.heading ⟨address, bytes.take (sizeAt address bytes)⟩ before :=
    if_congr (ofNat_eq_iff half known) rfl rfl
  simp only [emit, upper_ofNat low, offset_ofNat low, offset, size, heading, Piece.records_eq,
    Piece.record, UInt32.ofNat_add, List.append_assoc]

theorem step_eq_emit (filled : e.rest ≠ []) : e.step = some e.emit := by
  obtain ⟨b, rest, same⟩ := List.exists_cons_of_ne_nil filled
  rw [step, same]

/-- What is left of a segment is put out piece by piece. -/
theorem reaches_rest (records : List Record) (inside : address + bytes.length ≤ Word.limit)
    (known : before < bank) :
    Reaches step ⟨records, .ofNat before, .ofNat address, bytes, segments⟩
      ⟨records ++ recordsFrom before (piecesFrom [] address bytes),
        .ofNat (upperAfter before (piecesFrom [] address bytes)),
        .ofNat (address + bytes.length), [], segments⟩ := by
  induction address, bytes using run_induction generalizing records before with
  | nil address =>
    rw [piecesFrom_nil, recordsFrom, List.zip_nil_left, List.flatMap_nil, List.append_nil]
    exact .refl
  | cons address bytes filled ih =>
    have taken : sizeAt address bytes ≤ bytes.length := Nat.min_le_left _ _
    have low : address < Word.limit := by
      have := List.length_pos_iff.mpr filled
      omega
    have turn : step ⟨records, .ofNat before, .ofNat address, bytes, segments⟩ = some _ :=
      (step_eq_emit filled).trans (congrArg some (emit_eq filled inside known))
    have size : address + sizeAt address bytes + (bytes.drop (sizeAt address bytes)).length =
        address + bytes.length := by
      rw [List.length_drop]
      omega
    have others := ih (records ++ Piece.records ⟨address, bytes.take (sizeAt address bytes)⟩ before)
      (size ▸ inside)
      (Nat.div_lt_of_lt_mul low : address / bank < bank)
    rw [size] at others
    rw [piecesFrom_eq_cons address filled, recordsFrom_cons, upperAfter_cons, ← List.append_assoc]
    exact .head turn others

theorem upperAfter_lt (known : before < bank) {ps : List Piece}
    (bound : ∀ p ∈ ps, p.address < Word.limit) : upperAfter before ps < bank := by
  rw [upperAfter]
  cases last : ps.getLast? with
  | none => exact known
  | some p => exact Nat.div_lt_of_lt_mul (bound p (List.mem_of_getLast? last))

/-- The segments to come are put out one after the other. -/
theorem reaches_segments (records : List Record) (w : UInt32)
    (bounded : ∀ s ∈ segments, s.stop ≤ Word.limit) (known : before < bank) : ∃ upper w',
      Reaches step ⟨records, .ofNat before, w, [], segments⟩
        ⟨records ++ recordsFrom before (pieces ⟨segments⟩), upper, w', [], []⟩ := by
  induction segments generalizing records before w with
  | nil =>
    refine ⟨.ofNat before, w, ?_⟩
    rw [pieces, List.flatMap_nil, recordsFrom, List.zip_nil_left, List.flatMap_nil, List.append_nil]
    exact .refl
  | cons s rest ih =>
    rw [List.forall_mem_cons] at bounded
    have inside : s.start + s.bytes.toList.length ≤ Word.limit := by
      rw [Array.length_toList]
      exact bounded.1
    have within : ∀ p ∈ piecesFrom [] s.start s.bytes.toList, p.address < Word.limit := by
      intro p mem
      obtain ⟨filled, -, -, -, below⟩ := mem_piecesFrom mem
      have := List.length_pos_iff.mpr filled
      omega
    obtain ⟨upper, w', others⟩ := ih
      (records ++ recordsFrom before (piecesFrom [] s.start s.bytes.toList))
      (.ofNat (s.start + s.bytes.toList.length)) bounded.2 (upperAfter_lt known within)
    refine ⟨upper, w', .head rfl ((reaches_rest records inside known).trans ?_)⟩
    have parts : pieces ⟨s :: rest⟩ = piecesFrom [] s.start s.bytes.toList ++ pieces ⟨rest⟩ := rfl
    rw [parts, recordsFrom_append, ← List.append_assoc]
    exact others

/-- The loop ends with the records of the pieces. -/
theorem ends (normal : image.Normal) :
    ∃ e ∈ eval step (start image), e.records = recordsFrom 0 (pieces image) := by
  obtain ⟨upper, w, reaches⟩ := reaches_segments [] 0 normal.bounded
    (show 0 < bank by decide)
  exact ⟨_, mem_eval.mpr ⟨reaches, rfl⟩, rfl⟩

end Emitter

/-- The records of an image. The loop over its segments ends, and what it has put out is all but the
record behind it, which ends the file: a stream, and its data at the addresses of the records is the
image, byte for byte. -/
theorem records_stream (h : image.Reachable) :
    ∃ e ∈ eval Emitter.step (.start image), records image = e.records ++ [.endOfFile] ∧
      Stream e.records ∧ contents e.records = image.cells ∧
      ∀ a b, (b, a) ∈ contents e.records ↔ image.byte? a = some b := by
  have normal := h.normal
  obtain ⟨e, ended, made⟩ := Emitter.ends normal
  have bytes : contents e.records = image.cells := by
    rw [made, contents, (base_recordsFrom (address_lt normal)).2, cellsOf_pieces]
  refine ⟨e, ended, made ▸ records_eq image, made ▸ stream_records normal, bytes, fun a b => ?_⟩
  rw [bytes]
  exact normal.mem_cells_iff

/-- Data over the border of a bank, and data up to the last address behind a change of the bank. -/
theorem records_stream_borders :
    ∃ image : Image, image.Reachable ∧
      records image =
        [.linearAddress 1, .data 0xFFFF [1], .linearAddress 2, .data 0 [2, 3],
          .linearAddress 0xFFFF, .data 0xFFFE [4, 5], .endOfFile] ∧
      ∃ e ∈ eval Emitter.step (.start image), records image = e.records ++ [.endOfFile] ∧
        Stream e.records ∧ (5, 0xFFFFFFFF) ∈ contents e.records := by
  have reachable : ((Image.empty.attempt 0xFFFFFFFE [4, 5]).attempt 0x1FFFF [1, 2, 3]).Reachable :=
    .attempt _ _ (.attempt _ _ .empty)
  obtain ⟨e, ended, same, stream, -, bytes⟩ := records_stream reachable
  exact ⟨_, reachable, by decide +kernel, e, ended, same, stream,
    (bytes 0xFFFFFFFF 5).mpr (by decide +kernel)⟩

end FirmwareMeta.IntelHex
