import FirmwareMeta.Image.IntelHex.Reader
import FirmwareMeta.Proofs.Image.Cells
import Mathlib.Data.List.Induction
import Mathlib.Data.List.TakeWhile

/-! What a file says, without a reader: its records put bytes at addresses, each record behind the
base address that was given last. A file is read exactly if no two of its bytes share an address
and all of them have one, and then the image is these bytes. -/
namespace FirmwareMeta.IntelHex

def endsFile : Except LineError Record → Bool
  | .ok .endOfFile => true
  | _ => false

/-- What the lines stand for, up to the record that ends the file. Empty lines stand for
nothing. -/
def entriesOf (lines : List (List Char)) : List (Except LineError Record) :=
  ((lines.filter (!·.isEmpty)).map Record.ofLine).takeWhile (!endsFile ·)

/-- The records of a text and the lines that are none. -/
def entries (text : String) : List (Except LineError Record) :=
  entriesOf ((Text.cut text.toList).map Text.body)

/-- The base address that a record gives. -/
def Record.base? : Record → Option Nat
  | .segmentAddress base => some (16 * base.toNat)
  | .linearAddress upper => some (0x10000 * upper.toNat)
  | _ => none

/-- The base address behind some records: the one given last, or zero. -/
def baseBehind (rs : List Record) : Nat := (rs.filterMap Record.base?).getLast?.getD 0

/-- What a record writes where a base address holds. -/
def Record.writes (base : Nat) : Record → List (Nat × List UInt8)
  | .data offset bytes => [(base + offset.toNat, bytes)]
  | _ => []

/-- What records write, each with the base address behind those in front of it. -/
def writes (rs : List Record) : List (Nat × List UInt8) :=
  rs.zipIdx.flatMap fun (r, i) => r.writes (baseBehind (rs.take i))

/-- The bytes of records with their addresses. -/
def contents (rs : List Record) : List (UInt8 × Nat) := Image.cellsOf (writes rs)

variable {line : List Char} {lines : List (List Char)} {r : Record} {rs : List Record}
  {image : Image} {l loaded : Loaded}

/-! Records -/

theorem baseBehind_concat (rs : List Record) (r : Record) :
    baseBehind (rs ++ [r]) = r.base?.getD (baseBehind rs) := by
  rw [baseBehind, List.filterMap_append]
  cases given : r.base? with
  | none => simp [given, baseBehind]
  | some base => simp [given]

theorem writes_concat (rs : List Record) (r : Record) :
    writes (rs ++ [r]) = writes rs ++ r.writes (baseBehind rs) := by
  have front : ∀ entry ∈ rs.zipIdx, (rs ++ [r]).take entry.2 = rs.take entry.2 := by
    intro entry mem
    have := List.snd_lt_add_of_mem_zipIdx mem
    exact List.take_append_of_le_length (by omega)
  rw [writes, List.zipIdx_append, List.flatMap_append]
  congr 1
  · refine List.flatMap_congr fun entry mem => ?_
    simp only [front entry mem]
  · simp

/-- Behind any base address there is room for all offsets. -/
theorem baseBehind_add_lt (rs : List Record) (offset : UInt16) :
    baseBehind rs + offset.toNat < Word.limit := by
  have small : ∀ r base, Record.base? r = some base → base ≤ 0x10000 * 0xFFFF := by
    intro r base given
    cases r with
    | segmentAddress value =>
      have := value.toNat_lt
      cases given
      omega
    | linearAddress upper =>
      have := upper.toNat_lt
      cases given
      omega
    | _ => contradiction
  have bound : baseBehind rs ≤ 0x10000 * 0xFFFF := by
    rw [baseBehind]
    cases last : (rs.filterMap Record.base?).getLast? with
    | none => exact Nat.zero_le _
    | some base =>
      obtain ⟨r, _, given⟩ := List.mem_filterMap.mp (List.mem_of_getLast? last)
      exact small r base given
  have := offset.toNat_lt
  rw [Word.limit]
  omega

/-- What a record does to what has been read. -/
theorem add_ok_iff (inner : r ≠ .endOfFile) :
    Loaded.add ⟨baseBehind rs, image, false⟩ r = .ok loaded ↔
      ∃ written, image.writeAll (r.writes (baseBehind rs)) = .ok written ∧
        loaded = ⟨baseBehind (rs ++ [r]), written, false⟩ := by
  rw [baseBehind_concat]
  cases r with
  | data offset bytes =>
    have low := Nat.not_le.mpr (baseBehind_add_lt rs offset)
    simp only [Loaded.add, low, ↓reduceIte, Record.writes, Image.writeAll_cons_ok_iff,
      Image.writeAll_nil, Except.ok.injEq, exists_eq_right, Record.base?, Option.getD_none]
    cases image.write (baseBehind rs + offset.toNat) bytes <;> simp [eq_comm]
  | endOfFile => exact absurd rfl inner
  | _ =>
    simp [Loaded.add, Record.writes, Image.writeAll_nil, Record.base?, eq_comm]

/-- The state behind records is the base address behind them and what they write. -/
theorem foldlM_add_ok_iff (inner : ∀ r ∈ rs, r ≠ .endOfFile) :
    rs.foldlM Loaded.add Loaded.start = .ok loaded ↔
      ∃ image, Image.empty.writeAll (writes rs) = .ok image ∧
        loaded = ⟨baseBehind rs, image, false⟩ := by
  induction rs using List.reverseRecOn generalizing loaded with
  | nil =>
    change Except.ok _ = _ ↔ ∃ image, Except.ok _ = _ ∧ _
    simp [Loaded.start, baseBehind, eq_comm]
  | append_singleton rs r ih =>
    rw [List.forall_mem_append] at inner
    have last := inner.2 r List.mem_cons_self
    have single : ∀ l, [r].foldlM Loaded.add l = l.add r := fun l => bind_pure (l.add r)
    simp only [List.foldlM_append, bind_ok_iff, ih inner.1, single, writes_concat,
      Image.writeAll_append]
    constructor
    · rintro ⟨_, ⟨image, front, rfl⟩, added⟩
      obtain ⟨written, back, rfl⟩ := (add_ok_iff last).mp added
      exact ⟨written, ⟨image, front, back⟩, rfl⟩
    · rintro ⟨written, ⟨image, front, back⟩, rfl⟩
      exact ⟨_, ⟨image, front, rfl⟩, (add_ok_iff last).mpr ⟨written, back, rfl⟩⟩

/-! Lines -/

/-- Takes in what a line stands for. -/
def Loaded.take (l : Loaded) : Except LineError Record → Except ReadError Loaded
  | .ok record => l.add record
  | .error e => .error (.line e)

theorem addLine_nil (l : Loaded) : l.addLine [] = .ok l := by
  rw [Loaded.addLine, List.isEmpty_nil, Bool.or_true, if_pos rfl]

theorem addLine_finished (finished : l.finished = true) (line : List Char) :
    l.addLine line = .ok l := by
  rw [Loaded.addLine, finished, Bool.true_or, if_pos rfl]

theorem addLine_filled (inside : l.finished = false) (filled : line ≠ []) :
    l.addLine line = l.take (Record.ofLine line) := by
  rw [Loaded.addLine, inside, if_neg (by simpa using filled)]
  cases Record.ofLine line <;> rfl

theorem foldlM_addLine_finished (finished : l.finished = true) (lines : List (List Char)) :
    lines.foldlM Loaded.addLine l = .ok l := by
  induction lines with
  | nil => rfl
  | cons line rest ih =>
    rw [List.foldlM_cons, addLine_finished finished]
    exact ih

theorem finished_take {entry : Except LineError Record} (inner : endsFile entry = false)
    (taken : l.take entry = .ok loaded) : loaded.finished = l.finished := by
  cases entry with
  | error e => contradiction
  | ok r =>
    cases r with
    | data offset bytes =>
      simp only [Loaded.take, Loaded.add] at taken
      split at taken
      · contradiction
      · split at taken
        · exact Except.ok.inj taken ▸ rfl
        · contradiction
    | endOfFile => contradiction
    | _ => exact Except.ok.inj taken ▸ rfl

theorem take_of_endsFile {entry : Except LineError Record} (last : endsFile entry = true) :
    l.take entry = .ok { l with finished := true } := by
  unfold endsFile at last
  split at last
  · rfl
  · contradiction

theorem entriesOf_nil_cons (lines : List (List Char)) :
    entriesOf ([] :: lines) = entriesOf lines := rfl

theorem entriesOf_cons (filled : line ≠ []) : entriesOf (line :: lines) =
    if endsFile (Record.ofLine line) then [] else Record.ofLine line :: entriesOf lines := by
  rw [entriesOf, List.filter_cons_of_pos (by simpa using filled), List.map_cons,
    List.takeWhile_cons]
  cases endsFile (Record.ofLine line) <;> rfl

/-- Reading lines is taking in what they stand for, and nothing behind the end of the file. -/
theorem foldlM_addLine (inside : l.finished = false) (lines : List (List Char)) :
    (·.image) <$> lines.foldlM Loaded.addLine l =
      (·.image) <$> (entriesOf lines).foldlM Loaded.take l := by
  induction lines generalizing l with
  | nil => rfl
  | cons line rest ih =>
    rw [List.foldlM_cons]
    by_cases filled : line = []
    · subst filled
      rw [addLine_nil, entriesOf_nil_cons]
      exact ih inside
    · rw [addLine_filled inside filled, entriesOf_cons filled]
      cases last : endsFile (Record.ofLine line) with
      | true =>
        rw [take_of_endsFile last]
        have ended : { l with finished := true }.finished = true := rfl
        exact congrArg ((·.image) <$> ·) (foldlM_addLine_finished ended rest)
      | false =>
        rw [if_neg Bool.false_ne_true, List.foldlM_cons]
        cases taken : l.take (Record.ofLine line) with
        | error e => rfl
        | ok next => exact ih ((finished_take last taken).trans inside)

theorem foldlM_take_ok_iff {es : List (Except LineError Record)} :
    es.foldlM Loaded.take l = .ok loaded ↔
      ∃ rs : List Record, es = rs.map .ok ∧ rs.foldlM Loaded.add l = .ok loaded := by
  constructor
  · intro read
    induction es generalizing l with
    | nil => exact ⟨[], rfl, read⟩
    | cons entry rest ih =>
      obtain ⟨next, taken, others⟩ := bind_ok_iff.mp read
      obtain ⟨rs, rfl, added⟩ := ih others
      cases entry with
      | error e => contradiction
      | ok r => exact ⟨r :: rs, rfl, bind_ok_iff.mpr ⟨next, taken, added⟩⟩
  · rintro ⟨rs, rfl, read⟩
    rw [List.foldlM_map]
    exact read

theorem ne_endOfFile_of_entries {text : String} (read : entries text = rs.map .ok) :
    ∀ r ∈ rs, r ≠ .endOfFile := by
  rintro r mem rfl
  have entry : Except.ok .endOfFile ∈ entries text := read ▸ List.mem_map_of_mem mem
  have goesOn := List.mem_takeWhile_imp entry
  contradiction

/-! Texts -/

/-- A text is read if its lines are records and what these write can be written. -/
theorem parse_ok_iff_writes {text : String} : parse text = .ok image ↔
    ∃ rs : List Record, entries text = rs.map .ok ∧
      Image.empty.writeAll (writes rs) = .ok image := by
  have steps : parse text = (·.image) <$> (entries text).foldlM Loaded.take Loaded.start := by
    rw [entries, ← foldlM_addLine rfl, parse]
    cases ((Text.cut text.toList).map Text.body).foldlM Loaded.addLine Loaded.start <;> rfl
  rw [steps, map_ok_iff]
  simp only [foldlM_take_ok_iff]
  constructor
  · rintro ⟨_, ⟨rs, read, added⟩, rfl⟩
    obtain ⟨image, wrote, rfl⟩ := (foldlM_add_ok_iff (ne_endOfFile_of_entries read)).mp added
    exact ⟨rs, read, wrote⟩
  · rintro ⟨rs, read, wrote⟩
    exact ⟨_, ⟨rs, read, (foldlM_add_ok_iff (ne_endOfFile_of_entries read)).mpr
      ⟨image, wrote, rfl⟩⟩, rfl⟩

theorem parse_ok_iff_of_entries {text : String} (read : entries text = rs.map .ok) :
    parse text = .ok image ↔ Image.empty.writeAll (writes rs) = .ok image := by
  rw [parse_ok_iff_writes]
  constructor
  · rintro ⟨others, also, wrote⟩
    have same := List.map_injective_iff.mpr (fun _ _ => Except.ok.inj) (also.symm.trans read)
    exact same ▸ wrote
  · intro wrote
    exact ⟨rs, read, wrote⟩

/-- A text is read exactly if it has no malformed line and no two of its bytes share an address or
lie behind the last one. The image is these bytes, so texts with the same bytes are the same. -/
theorem parse_ok_iff_contents (text : String) :
    ((∃ image, parse text = .ok image) ↔
      ∃ rs : List Record, entries text = rs.map .ok ∧ Image.Writable (contents rs)) ∧
    ∀ rs : List Record, entries text = rs.map .ok →
      (∀ image, parse text = .ok image →
        image.Reachable ∧ ∀ a b, image.byte? a = some b ↔ (b, a) ∈ contents rs) ∧
      ∀ (other : String) (ss : List Record), entries other = ss.map .ok →
        (contents rs).Perm (contents ss) →
        ∀ image, parse text = .ok image ↔ parse other = .ok image := by
  refine ⟨?_, fun rs read => ⟨fun image parsed => ?_, fun other ss also same image => ?_⟩⟩
  · constructor
    · rintro ⟨image, read⟩
      obtain ⟨rs, entries, wrote⟩ := parse_ok_iff_writes.mp read
      exact ⟨rs, entries, (Image.writeAll_ok_iff_writable Image.normal_empty).mp ⟨image, wrote⟩⟩
    · rintro ⟨rs, read, writable⟩
      obtain ⟨image, wrote⟩ := (Image.writeAll_ok_iff_writable Image.normal_empty).mpr writable
      exact ⟨image, (parse_ok_iff_of_entries read).mpr wrote⟩
  · have wrote := (parse_ok_iff_of_entries read).mp parsed
    obtain ⟨normal, cells⟩ := Image.normal_writeAll Image.normal_empty wrote
    exact ⟨Image.Reachable.empty.writeAll wrote, fun a b =>
      normal.mem_cells_iff.symm.trans cells.mem_iff⟩
  · rw [parse_ok_iff_of_entries read, parse_ok_iff_of_entries also]
    exact Image.writeAll_ok_iff_of_perm Image.normal_empty same

/-- The same bytes behind a linear and behind a segment address, in one record and in two. -/
theorem parse_ok_iff_contents_segment :
    entries ":020000040001F9\n:020000000102FB\n:00000001FF\n" =
        ([.linearAddress 1, .data 0 [1, 2]] : List Record).map .ok ∧
      entries ":0400000500001234B1\n:020000021000EC\n:0100010002FC\n:0100000001FE\n" =
        ([.startLinear 0 0x1234, .segmentAddress 0x1000, .data 1 [2], .data 0 [1]] :
          List Record).map .ok ∧
      (contents [.linearAddress 1, .data 0 [1, 2]]).Perm
        (contents [.startLinear 0 0x1234, .segmentAddress 0x1000, .data 1 [2], .data 0 [1]]) ∧
      ∃ image, parse ":0400000500001234B1\n:020000021000EC\n:0100010002FC\n:0100000001FE\n" =
        .ok image ∧ image.byte? 0x10001 = some 2 := by
  have linear : entries ":020000040001F9\n:020000000102FB\n:00000001FF\n" =
      ([.linearAddress 1, .data 0 [1, 2]] : List Record).map .ok := rfl
  have segment : entries ":0400000500001234B1\n:020000021000EC\n:0100010002FC\n:0100000001FE\n" =
      ([.startLinear 0 0x1234, .segmentAddress 0x1000, .data 1 [2], .data 0 [1]] :
        List Record).map .ok := rfl
  have same : (contents [.linearAddress 1, .data 0 [1, 2]]).Perm
      (contents [.startLinear 0 0x1234, .segmentAddress 0x1000, .data 1 [2], .data 0 [1]]) := by
    decide
  obtain ⟨readable, exact_bytes⟩ :=
    parse_ok_iff_contents ":020000040001F9\n:020000000102FB\n:00000001FF\n"
  obtain ⟨image, read⟩ := readable.mpr ⟨_, linear, by decide, by decide⟩
  obtain ⟨bytes, alike⟩ := exact_bytes _ linear
  exact ⟨linear, segment, same, image, (alike _ _ segment same image).mp read,
    ((bytes image read).2 _ _).mpr (by decide)⟩

end FirmwareMeta.IntelHex
