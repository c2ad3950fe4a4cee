import FirmwareMeta.Proofs.Image.IntelHex.Text
import FirmwareMeta.Proofs.Image.Sequence

/-! An image is read back from its text. The reader's base follows the upper half that the
writer has put out last, and writing the pieces of a segment one after the other is writing the
segment. -/
namespace FirmwareMeta.IntelHex

variable {image written : Image} {before address : Nat} {bytes : List UInt8} {p : Piece}
  {ps : List Piece}

/-! Pieces -/

/-- Induction along the pieces of a run of bytes. -/
theorem pieces_induction {motive : Nat → List UInt8 → Prop}
    (nil : ∀ address, motive address [])
    (cons : ∀ address bytes, bytes ≠ [] →
      motive (address + room address) (bytes.drop (room address)) → motive address bytes)
    (address : Nat) (bytes : List UInt8) : motive address bytes :=
  piecesFrom.induct (motive := fun _ address bytes => motive address bytes)
    (fun _ address => nil address) (fun _ address bytes filled ih => cons address bytes filled ih)
    [] address bytes

theorem piecesFrom_eq (front : List Piece) (address : Nat) (bytes : List UInt8) :
    piecesFrom front address bytes = front.reverse ++ piecesFrom [] address bytes := by
  induction address, bytes using pieces_induction generalizing front with
  | nil address =>
    unfold piecesFrom
    simp only [↓reduceIte, List.reverse_nil, List.append_nil]
  | cons address bytes filled ih =>
    unfold piecesFrom
    simp only [filled, ↓reduceIte]
    rw [ih, ih [_], List.reverse_cons, List.append_assoc]
    rfl

theorem piecesFrom_nil (address : Nat) : piecesFrom [] address [] = [] := by
  unfold piecesFrom
  rfl

theorem piecesFrom_cons (address : Nat) (filled : bytes ≠ []) :
    piecesFrom [] address bytes = ⟨address, bytes.take (room address)⟩ ::
      piecesFrom [] (address + room address) (bytes.drop (room address)) := by
  rw [piecesFrom, if_neg filled]
  exact piecesFrom_eq [_] _ _

theorem room_le (address : Nat) :
    room address ≤ recordLength ∧ address % bank + room address ≤ bank := by
  have := Nat.mod_lt address (show 0 < bank by decide)
  simp only [room]
  omega

/-- A piece fits a record, crosses no bank and stays within the run. -/
theorem mem_piecesFrom (mem : p ∈ piecesFrom [] address bytes) :
    p.bytes ≠ [] ∧ p.bytes.length ≤ recordLength ∧ p.address % bank + p.bytes.length ≤ bank ∧
      address ≤ p.address ∧ p.address + p.bytes.length ≤ address + bytes.length := by
  induction address, bytes using pieces_induction with
  | nil address => simp [piecesFrom_nil] at mem
  | cons address bytes filled ih =>
    have positive := room_pos address
    obtain ⟨short, within⟩ := room_le address
    have size := List.length_pos_iff.mpr filled
    rw [piecesFrom_cons address filled] at mem
    rcases List.mem_cons.mp mem with rfl | mem
    · refine ⟨?_, ?_, ?_, Nat.le_refl _, ?_⟩
      · rw [← List.length_pos_iff, List.length_take]
        omega
      all_goals simp only [List.length_take]; omega
    · obtain ⟨nonempty, fits, inside, above, below⟩ := ih mem
      have := List.length_pos_iff.mpr nonempty
      rw [List.length_drop] at below
      exact ⟨nonempty, fits, inside, by omega, by omega⟩

def Piece.write (image : Image) (p : Piece) : Except Image.WriteError Image :=
  image.write p.address p.bytes

/-- Writing the pieces of a run is writing the run. -/
theorem write_piecesFrom (normal : image.Normal)
    (success : image.write address bytes = .ok written) :
    (piecesFrom [] address bytes).foldlM Piece.write image = .ok written := by
  induction address, bytes using pieces_induction generalizing image with
  | nil address =>
    rw [piecesFrom_nil]
    exact success
  | cons address bytes filled ih =>
    rw [piecesFrom_cons address filled, List.foldlM_cons]
    rw [← List.take_append_drop (room address) bytes] at success
    obtain ⟨middle, first, middleNormal, second⟩ := Image.write_append normal success
    rw [Piece.write, first]
    refine ih middleNormal ?_
    by_cases more : room address ≤ bytes.length
    · rwa [List.length_take, Nat.min_eq_left more] at second
    · have none : bytes.drop (room address) = [] := List.drop_eq_nil_of_le (by omega)
      rw [none] at second ⊢
      exact second

theorem write_pieces_behind {segments rest : List Segment}
    (normal : Image.Normal ⟨segments ++ rest⟩) :
    (rest.flatMap fun s => piecesFrom [] s.start s.bytes.toList).foldlM Piece.write ⟨segments⟩ =
      .ok ⟨segments ++ rest⟩ := by
  induction rest generalizing segments with
  | nil =>
    rw [List.append_nil]
    rfl
  | cons s rest ih =>
    have split : segments ++ s :: rest = segments ++ [s] ++ rest := by
      rw [List.append_assoc, List.singleton_append]
    rw [split] at normal ⊢
    have upto := normal.sublist (List.sublist_append_left (segments ++ [s]) rest)
    have front := upto.sublist (List.sublist_append_left segments [s])
    rw [List.flatMap_cons, List.foldlM_append,
      write_piecesFrom front (Image.write_behind upto)]
    exact ih normal

theorem write_pieces (normal : image.Normal) :
    (pieces image).foldlM Piece.write Image.empty = .ok image :=
  @write_pieces_behind [] image.segments normal

/-! Records -/

/-- The records of some pieces behind one with the given upper half. -/
def recordsFrom (before : Nat) (ps : List Piece) : List Record :=
  (ps.zip (before :: ps.map (·.upper))).flatMap fun (p, before) => p.records before

theorem recordsFrom_cons (before : Nat) (p : Piece) (ps : List Piece) :
    recordsFrom before (p :: ps) = p.records before ++ recordsFrom p.upper ps := rfl

theorem records_eq (image : Image) :
    records image = recordsFrom 0 (pieces image) ++ [.endOfFile] := rfl

theorem next_record (bound : p.address < Word.limit) (success : p.write image = .ok written) :
    Loaded.next ⟨bank * p.upper, image, false⟩ p.record =
      .ok ⟨bank * p.upper, written, false⟩ := by
  have low : (UInt16.ofNat (p.address % bank)).toNat = p.address % bank :=
    UInt16.toNat_ofNat_of_lt' (Nat.mod_lt _ (by decide))
  have whole : bank * p.upper + p.address % bank = p.address := Nat.div_add_mod _ _
  simp only [Piece.write] at success
  simp only [Loaded.next, Loaded.add, Piece.record, low, whole, Nat.not_le.mpr bound, success,
    Bool.false_eq_true, ↓reduceIte]

theorem next_linearAddress (base : Nat) (image : Image) (bound : p.address < Word.limit) :
    Loaded.next ⟨base, image, false⟩ (.linearAddress (.ofNat p.upper)) =
      .ok ⟨bank * p.upper, image, false⟩ := by
  have upper : (UInt16.ofNat p.upper).toNat = p.upper := by
    apply UInt16.toNat_ofNat_of_lt'
    exact Nat.div_lt_of_lt_mul bound
  simp only [Loaded.next, Loaded.add, upper, Bool.false_eq_true, ↓reduceIte, bank]

/-- The records of a piece bring the reader's base to the upper half of the piece and write its
bytes. -/
theorem read_records (bound : p.address < Word.limit) (success : p.write image = .ok written) :
    (p.records before).foldlM Loaded.next ⟨bank * before, image, false⟩ =
      .ok ⟨bank * p.upper, written, false⟩ := by
  unfold Piece.records
  split
  · rename_i same
    rw [← same, List.foldlM_cons, next_record bound success]
    rfl
  · rw [List.foldlM_cons, next_linearAddress _ _ bound]
    change [p.record].foldlM Loaded.next ⟨bank * p.upper, image, false⟩ = _
    rw [List.foldlM_cons, next_record bound success]
    rfl

/-- Between two pieces the reader's base is the upper half that the writer has put out last. -/
theorem read_recordsFrom (before : Nat) (bound : ∀ p ∈ ps, p.address < Word.limit)
    (success : ps.foldlM Piece.write image = .ok written) :
    ∃ last, (recordsFrom before ps).foldlM Loaded.next ⟨bank * before, image, false⟩ =
      .ok ⟨bank * last, written, false⟩ := by
  induction ps generalizing before image with
  | nil =>
    obtain rfl := Except.ok.inj success
    exact ⟨before, rfl⟩
  | cons p rest ih =>
    rw [List.foldlM_cons] at success
    cases step : p.write image with
    | error e =>
      rw [step] at success
      contradiction
    | ok middle =>
      rw [step] at success
      rw [recordsFrom_cons, List.foldlM_append, read_records (bound p List.mem_cons_self) step]
      exact ih _ (fun q mem => bound q (List.mem_cons_of_mem _ mem)) success

theorem mem_pieces (normal : image.Normal) (mem : p ∈ pieces image) :
    p.bytes ≠ [] ∧ p.bytes.length ≤ recordLength ∧ p.address % bank + p.bytes.length ≤ bank ∧
      p.address + p.bytes.length ≤ Word.limit := by
  obtain ⟨s, inside, mem⟩ := List.mem_flatMap.mp mem
  obtain ⟨filled, fits, within, _, below⟩ := mem_piecesFrom mem
  have bound := normal.bounded s inside
  simp only [Segment.stop] at bound
  rw [Array.length_toList] at below
  exact ⟨filled, fits, within, by omega⟩

/-- What a file is made of: records that the length byte can count, of which the last and no
other ends the file. -/
structure Complete (rs : List Record) : Prop where
  fits : ∀ r ∈ rs, r.payload.length ≤ maxPayload
  ends : rs.getLast? = some .endOfFile
  once : rs.count .endOfFile = 1

theorem mem_recordsFrom {r : Record} (mem : r ∈ recordsFrom before ps) :
    (∃ p ∈ ps, r = p.record) ∨ ∃ p ∈ ps, r = .linearAddress (.ofNat p.upper) := by
  induction ps generalizing before with
  | nil => simp [recordsFrom] at mem
  | cons p rest ih =>
    rw [recordsFrom_cons] at mem
    rcases List.mem_append.mp mem with mem | mem
    · unfold Piece.records at mem
      split at mem
      · exact Or.inl ⟨p, List.mem_cons_self, List.mem_singleton.mp mem⟩
      · rcases List.mem_cons.mp mem with rfl | mem
        · exact Or.inr ⟨p, List.mem_cons_self, rfl⟩
        · exact Or.inl ⟨p, List.mem_cons_self, List.mem_singleton.mp mem⟩
    · rcases ih mem with ⟨q, inside, same⟩ | ⟨q, inside, same⟩
      · exact Or.inl ⟨q, List.mem_cons_of_mem _ inside, same⟩
      · exact Or.inr ⟨q, List.mem_cons_of_mem _ inside, same⟩

theorem records_complete (normal : image.Normal) : Complete (records image) := by
  have inner : ∀ r ∈ recordsFrom 0 (pieces image),
      r.payload.length ≤ maxPayload ∧ r ≠ .endOfFile := by
    intro r mem
    rcases mem_recordsFrom mem with ⟨p, inside, rfl⟩ | ⟨p, inside, rfl⟩
    · obtain ⟨_, short, _⟩ := mem_pieces normal inside
      refine ⟨Nat.le_trans short (by decide), by simp [Piece.record]⟩
    · exact ⟨by simp [Record.payload, halfBytes, maxPayload], by simp⟩
  rw [records_eq]
  refine ⟨?_, List.getLast?_concat, ?_⟩
  · intro r mem
    rcases List.mem_append.mp mem with mem | mem
    · exact (inner r mem).1
    · rw [List.mem_singleton.mp mem]
      decide
  · have none : (recordsFrom 0 (pieces image)).count .endOfFile = 0 :=
      List.count_eq_zero.mpr fun mem => (inner _ mem).2 rfl
    rw [List.count_append, none, List.count_singleton_self]

theorem read_image (normal : image.Normal) :
    ∃ last, (records image).foldlM Loaded.next Loaded.start = .ok ⟨bank * last, image, true⟩ := by
  have bound : ∀ p ∈ pieces image, p.address < Word.limit := by
    intro p mem
    obtain ⟨filled, _, _, below⟩ := mem_pieces normal mem
    have := List.length_pos_iff.mpr filled
    omega
  have read : ∃ last, (recordsFrom 0 (pieces image)).foldlM Loaded.next Loaded.start =
      .ok ⟨bank * last, image, false⟩ :=
    read_recordsFrom 0 bound (write_pieces normal)
  obtain ⟨last, read⟩ := read
  refine ⟨last, ?_⟩
  rw [records_eq, List.foldlM_append, read]
  rfl

theorem parse_print (normal : image.Normal) : parse (print image) = .ok image := by
  obtain ⟨last, read⟩ := read_image normal
  change parse (text (records image)) = _
  rw [parse_text (records_complete normal).fits, read]
  rfl

/-- Every image has a complete file, and that file holds the image. -/
theorem parse_print_image (h : image.Reachable) :
    Complete (records image) ∧ parse (print image) = .ok image :=
  ⟨records_complete h.normal, parse_print h.normal⟩

/-- One segment crosses a bank and the other one ends at the last address. -/
theorem parse_print_image_at_borders :
    ∃ image : Image, image.segments = [⟨0x1FFFE, #[1, 2, 3]⟩, ⟨0xFFFFFFFF, #[4]⟩] ∧
      image.Reachable ∧ parse (print image) = .ok image := by
  have reachable : ((Image.empty.attempt 0xFFFFFFFF [4]).attempt 0x1FFFE [1, 2, 3]).Reachable :=
    .attempt _ _ (.attempt _ _ .empty)
  exact ⟨_, rfl, reachable, (parse_print_image reachable).2⟩

end FirmwareMeta.IntelHex
