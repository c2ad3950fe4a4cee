import FirmwareMeta.Proofs.Image.IntelHex.Contents
import FirmwareMeta.Proofs.Image.IntelHex.RoundTrip

/-! The records of an image as a stream: pieces of its bytes in ascending order, each in one record,
and a linear address in front of those that are in another bank than the one before. -/
namespace FirmwareMeta.IntelHex

variable {image : Image} {address before : Nat} {bytes : List UInt8} {p q : Piece}
  {ps qs : List Piece} {rs front back : List Record} {offset upper : UInt16}

/-! Pieces -/

/-- The size of the first piece of a run. -/
def sizeAt (address : Nat) (bytes : List UInt8) : Nat := min bytes.length (room address)

theorem sizeAt_pos (address : Nat) (filled : bytes ≠ []) : 0 < sizeAt address bytes :=
  Nat.lt_min.mpr ⟨List.length_pos_iff.mpr filled, room_pos address⟩

theorem piecesFrom_eq_cons (address : Nat) (filled : bytes ≠ []) :
    piecesFrom [] address bytes = ⟨address, bytes.take (sizeAt address bytes)⟩ ::
      piecesFrom [] (address + sizeAt address bytes) (bytes.drop (sizeAt address bytes)) := by
  rw [piecesFrom_cons address filled, sizeAt, List.take_eq_take_min, Nat.min_comm]
  by_cases more : room address ≤ bytes.length
  · rw [Nat.min_eq_right more]
  · have none : bytes.drop (room address) = [] := List.drop_eq_nil_of_le (by omega)
    rw [none, Nat.min_eq_left (by omega), List.drop_length, piecesFrom_nil, piecesFrom_nil]

/-- Induction along a run. What is left starts where the first piece ends, also behind the last
one. -/
theorem run_induction {motive : Nat → List UInt8 → Prop} (nil : ∀ address, motive address [])
    (cons : ∀ address bytes, bytes ≠ [] →
      motive (address + sizeAt address bytes) (bytes.drop (sizeAt address bytes)) →
        motive address bytes)
    (address : Nat) (bytes : List UInt8) : motive address bytes := by
  generalize size : bytes.length = length
  induction length using Nat.strong_induction_on generalizing address bytes with
  | h length ih =>
    by_cases filled : bytes = []
    · exact filled ▸ nil address
    · refine cons address bytes filled (ih _ ?_ _ _ rfl)
      have := sizeAt_pos address filled
      have := List.length_pos_iff.mpr filled
      rw [List.length_drop]
      omega

/-- A piece ends where the next one starts, or in front of it. -/
def Piece.Ahead (p q : Piece) : Prop := p.address + p.bytes.length ≤ q.address

theorem pairwise_piecesFrom (address : Nat) (bytes : List UInt8) :
    (piecesFrom [] address bytes).Pairwise Piece.Ahead := by
  induction address, bytes using run_induction with
  | nil address =>
    rw [piecesFrom_nil]
    exact .nil
  | cons address bytes filled ih =>
    rw [piecesFrom_eq_cons address filled, List.pairwise_cons]
    refine ⟨fun q mem => ?_, ih⟩
    obtain ⟨-, -, -, above, -⟩ := mem_piecesFrom mem
    have := List.length_take_le (sizeAt address bytes) bytes
    simp only [Piece.Ahead]
    omega

theorem pairwise_pieces (normal : image.Normal) : (pieces image).Pairwise Piece.Ahead := by
  rw [pieces, List.pairwise_flatMap]
  refine ⟨fun s _ => pairwise_piecesFrom _ _, normal.apart.imp fun {s t} apart p mem q inside => ?_⟩
  obtain ⟨-, -, -, -, below⟩ := mem_piecesFrom mem
  obtain ⟨-, -, -, above, -⟩ := mem_piecesFrom inside
  simp only [Segment.stop] at apart
  rw [Array.length_toList] at below
  simp only [Piece.Ahead]
  omega

/-- What pieces write. -/
def Piece.entry (p : Piece) : Nat × List UInt8 := (p.address, p.bytes)

/-- The bytes of the pieces are those of the run. -/
theorem cellsOf_piecesFrom (address : Nat) (bytes : List UInt8) :
    Image.cellsOf ((piecesFrom [] address bytes).map Piece.entry) = bytes.zipIdx address := by
  induction address, bytes using run_induction with
  | nil address =>
    rw [piecesFrom_nil]
    rfl
  | cons address bytes filled ih =>
    have size : (bytes.take (sizeAt address bytes)).length = sizeAt address bytes :=
      List.length_take_of_le (Nat.min_le_left _ _)
    have parts : bytes.zipIdx address = (bytes.take (sizeAt address bytes)).zipIdx address ++
        (bytes.drop (sizeAt address bytes)).zipIdx (address + sizeAt address bytes) := by
      conv_lhs =>
        rw [← List.take_append_drop (sizeAt address bytes) bytes, List.zipIdx_append, size]
    rw [piecesFrom_eq_cons address filled, List.map_cons, Piece.entry, Image.cellsOf_cons, ih,
      parts]

theorem cellsOf_pieces (image : Image) :
    Image.cellsOf ((pieces image).map Piece.entry) = image.cells := by
  obtain ⟨segments⟩ := image
  rw [pieces, Image.cells, Image.cellsOf, List.flatMap_map, List.flatMap_assoc]
  refine List.flatMap_congr fun s _ => ?_
  rw [← cellsOf_piecesFrom, Image.cellsOf, List.flatMap_map]

/-! Records of pieces -/

/-- The upper half in force behind some pieces. -/
def upperAfter (before : Nat) (ps : List Piece) : Nat := (ps.getLast?.map (·.upper)).getD before

theorem upperAfter_cons (before : Nat) (p : Piece) (ps : List Piece) :
    upperAfter before (p :: ps) = upperAfter p.upper ps := by
  rw [upperAfter, upperAfter, List.getLast?_cons]
  cases ps.getLast? <;> rfl

theorem upperAfter_append (before : Nat) (ps qs : List Piece) :
    upperAfter before (ps ++ qs) = upperAfter (upperAfter before ps) qs := by
  induction ps generalizing before with
  | nil => rfl
  | cons p rest ih => rw [List.cons_append, upperAfter_cons, upperAfter_cons, ih]

theorem recordsFrom_append (before : Nat) (ps qs : List Piece) :
    recordsFrom before (ps ++ qs) =
      recordsFrom before ps ++ recordsFrom (upperAfter before ps) qs := by
  induction ps generalizing before with
  | nil => rfl
  | cons p rest ih =>
    rw [List.cons_append, recordsFrom_cons, recordsFrom_cons, ih, upperAfter_cons,
      List.append_assoc]

theorem recordsFrom_single (before : Nat) (p : Piece) :
    recordsFrom before [p] = p.records before := by
  rw [recordsFrom_cons]
  exact List.append_nil _

/-- What stands in front of the data of a piece. -/
def Piece.heading (p : Piece) (before : Nat) : List Record :=
  if p.upper = before then [] else [.linearAddress (.ofNat p.upper)]

theorem Piece.records_eq (p : Piece) (before : Nat) :
    p.records before = p.heading before ++ [p.record] := by
  unfold records heading
  split <;> rfl

theorem toNat_ofNat_upper (bound : p.address < Word.limit) :
    (UInt16.ofNat p.upper).toNat = p.upper :=
  UInt16.toNat_ofNat_of_lt' (Nat.div_lt_of_lt_mul bound)

theorem toNat_ofNat_offset (p : Piece) :
    (UInt16.ofNat (p.address % bank)).toNat = p.address % bank :=
  UInt16.toNat_ofNat_of_lt' (Nat.mod_lt _ (by decide))

/-- Where the upper half of the last record is the base address, it is that of a piece behind its
heading, and the piece is written where it belongs. -/
theorem base_records (bound : p.address < Word.limit) (base : baseBehind rs = bank * before) :
    baseBehind (rs ++ p.heading before) = bank * p.upper ∧
      baseBehind (rs ++ p.records before) = bank * p.upper ∧
      writes (rs ++ p.heading before) = writes rs ∧
      writes (rs ++ p.records before) = writes rs ++ [p.entry] := by
  have headed : baseBehind (rs ++ p.heading before) = bank * p.upper ∧
      writes (rs ++ p.heading before) = writes rs := by
    unfold Piece.heading
    split
    · rename_i same
      rw [List.append_nil, same]
      exact ⟨base, rfl⟩
    · simp only [baseBehind_concat, writes_concat, Record.base?, Record.writes,
        toNat_ofNat_upper bound, Option.getD_some, List.append_nil, and_true]
      rfl
  have whole : bank * p.upper + p.address % bank = p.address := Nat.div_add_mod _ _
  refine ⟨headed.1, ?_, headed.2, ?_⟩
  · rw [Piece.records_eq, ← List.append_assoc, baseBehind_concat, headed.1]
    rfl
  · rw [Piece.records_eq, ← List.append_assoc, writes_concat, headed.1, headed.2]
    simp only [Piece.record, Record.writes, toNat_ofNat_offset, whole, Piece.entry]

/-- The base address behind pieces and what they write. -/
theorem base_recordsFrom (bound : ∀ p ∈ ps, p.address < Word.limit) :
    baseBehind (recordsFrom 0 ps) = bank * upperAfter 0 ps ∧
      writes (recordsFrom 0 ps) = ps.map Piece.entry := by
  induction ps using List.reverseRecOn with
  | nil => exact ⟨rfl, rfl⟩
  | append_singleton ps p ih =>
    rw [List.forall_mem_append, List.forall_mem_singleton] at bound
    obtain ⟨base, wrote⟩ := ih bound.1
    obtain ⟨-, behind, -, more⟩ := base_records bound.2 base
    rw [recordsFrom_append, recordsFrom_single, behind, more, wrote, upperAfter_append,
      List.map_append]
    exact ⟨rfl, rfl⟩

theorem recordsFrom_eq_cons (before : Nat) (p : Piece) (ps : List Piece) :
    recordsFrom before (p :: ps) =
      p.heading before ++ p.record :: recordsFrom p.upper ps := by
  rw [recordsFrom_cons, Piece.records_eq, List.append_assoc, List.singleton_append]

/-- Data comes from a piece, with the records of those ahead of it and its heading in front. -/
theorem exists_piece_of_data (split : recordsFrom before ps = front ++ .data offset bytes :: back) :
    ∃ qs p more, ps = qs ++ p :: more ∧ p.record = .data offset bytes ∧
      front = recordsFrom before qs ++ p.heading (upperAfter before qs) := by
  induction ps generalizing before front with
  | nil => cases front <;> contradiction
  | cons p rest ih =>
    rw [recordsFrom_eq_cons] at split
    rcases List.append_eq_append_iff.mp split with ⟨mid, rfl, tail⟩ | ⟨mid, headed, tail⟩
    · rcases List.cons_eq_append_iff.mp tail with ⟨rfl, same⟩ | ⟨behind, rfl, others⟩
      · refine ⟨[], p, rest, rfl, (List.cons.inj same).1.symm, ?_⟩
        rw [List.append_nil]
        rfl
      · obtain ⟨qs, q, more, rfl, record, rfl⟩ := ih others
        refine ⟨p :: qs, q, more, rfl, record, ?_⟩
        rw [recordsFrom_eq_cons, upperAfter_cons, List.append_assoc, List.cons_append]
    · -- There is no data in a heading.
      cases mid with
      | nil =>
        rw [List.nil_append] at tail
        exact ⟨[], p, rest, rfl, (List.cons.inj tail).1.symm,
          (headed.trans (List.append_nil front)).symm⟩
      | cons r mid =>
        obtain rfl := (List.cons.inj tail).1
        have mem : Record.data offset bytes ∈ p.heading before := by simp [headed]
        unfold Piece.heading at mem
        split at mem <;> simp at mem

/-- The data of its piece follows a linear address. -/
theorem exists_data_of_linearAddress
    (split : recordsFrom before ps = front ++ .linearAddress upper :: back) :
    ∃ offset bytes more, back = .data offset bytes :: more := by
  induction ps generalizing before front with
  | nil => cases front <;> contradiction
  | cons p rest ih =>
    rw [recordsFrom_eq_cons] at split
    rcases List.append_eq_append_iff.mp split with ⟨mid, rfl, tail⟩ | ⟨mid, headed, tail⟩
    · rcases List.cons_eq_append_iff.mp tail with ⟨rfl, same⟩ | ⟨behind, rfl, others⟩
      · exact absurd (List.cons.inj same).1 nofun
      · exact ih others
    · cases mid with
      | nil => exact absurd (List.cons.inj tail).1 nofun
      | cons r mid =>
        have alone : mid = [] := by
          unfold Piece.heading at headed
          split at headed
          · simp at headed
          · have size := congrArg List.length headed
            simp only [List.length_append, List.length_cons, List.length_nil] at size
            exact List.length_eq_zero_iff.mp (by omega)
        rw [alone, List.cons_append, List.nil_append] at tail
        exact ⟨_, _, _, (List.cons.inj tail).2⟩

/-! Streams -/

/-- The upper half of the address of the last data, zero if there is none. -/
def upperBehind (rs : List Record) : Nat :=
  ((writes rs).getLast?.map fun (address, _) => address / bank).getD 0

/-- Records of data and of linear addresses in an order in which a reader can take them: the data is
short, stays within a bank and ascends, and a linear address stands in front of data in another bank
than that of the data before, and nowhere else. -/
structure Stream (rs : List Record) : Prop where
  kinds : ∀ r ∈ rs, (∃ offset bytes, r = .data offset bytes) ∨ ∃ upper, r = .linearAddress upper
  sizes : ∀ offset bytes, .data offset bytes ∈ rs →
    1 ≤ bytes.length ∧ bytes.length ≤ 16 ∧ offset.toNat + bytes.length ≤ 0x10000
  ascending : (writes rs).Pairwise fun first second =>
    first.1 < second.1 ∧ first.1 + first.2.length ≤ second.1
  announced : ∀ front offset bytes back, rs = front ++ .data offset bytes :: back →
    ((∃ before upper, front = before ++ [.linearAddress upper]) ↔
      (baseBehind front + offset.toNat) / 0x10000 ≠ upperBehind front)
  needed : ∀ front upper back, rs = front ++ .linearAddress upper :: back →
    ∃ offset bytes more, back = .data offset bytes :: more

theorem upperBehind_recordsFrom (bound : ∀ p ∈ ps, p.address < Word.limit) :
    upperBehind (recordsFrom 0 ps) = upperAfter 0 ps := by
  rw [upperBehind, (base_recordsFrom bound).2, List.getLast?_map, Option.map_map, upperAfter]
  rfl

theorem heading_iff (bound : ∀ p ∈ ps, p.address < Word.limit)
    (split : recordsFrom 0 ps = front ++ .data offset bytes :: back) :
    (∃ before upper, front = before ++ [.linearAddress upper]) ↔
      (baseBehind front + offset.toNat) / bank ≠ upperBehind front := by
  obtain ⟨qs, p, more, rfl, record, rfl⟩ := exists_piece_of_data split
  rw [List.forall_mem_append, List.forall_mem_cons] at bound
  obtain ⟨base, wrote⟩ := base_recordsFrom bound.1
  obtain ⟨headed, -, same, -⟩ := base_records bound.2.1 base
  have whole : bank * p.upper + p.address % bank = p.address := Nat.div_add_mod _ _
  have last : upperBehind (recordsFrom 0 qs ++ p.heading (upperAfter 0 qs)) = upperAfter 0 qs := by
    rw [upperBehind, same]
    exact upperBehind_recordsFrom bound.1
  rw [last, headed, ← (Record.data.inj record).1, toNat_ofNat_offset, whole]
  change _ ↔ p.upper ≠ _
  unfold Piece.heading
  split
  · rename_i kept
    refine iff_of_false ?_ (not_not.mpr kept)
    rintro ⟨before, upper, ends⟩
    rw [List.append_nil] at ends
    obtain ⟨_, _, _, none⟩ := exists_data_of_linearAddress ends
    contradiction
  · rename_i changed
    exact iff_of_true ⟨_, _, rfl⟩ changed

theorem address_lt (normal : image.Normal) : ∀ p ∈ pieces image, p.address < Word.limit := by
  intro p mem
  obtain ⟨filled, -, -, below⟩ := mem_pieces normal mem
  have := List.length_pos_iff.mpr filled
  omega

theorem stream_records (normal : image.Normal) : Stream (recordsFrom 0 (pieces image)) := by
  have bound := address_lt normal
  have sizes : ∀ p ∈ pieces image, 0 < p.bytes.length := fun p mem =>
    List.length_pos_iff.mpr (mem_pieces normal mem).1
  refine ⟨fun r mem => ?_, fun offset bytes mem => ?_, ?_,
    fun front offset bytes back split => heading_iff bound split,
    fun front upper back split => exists_data_of_linearAddress split⟩
  · rcases mem_recordsFrom mem with ⟨p, -, rfl⟩ | ⟨p, -, rfl⟩
    · exact .inl ⟨_, _, rfl⟩
    · exact .inr ⟨_, rfl⟩
  · rcases mem_recordsFrom mem with ⟨p, inside, same⟩ | ⟨p, -, other⟩
    · obtain ⟨rfl, rfl⟩ := Record.data.inj same
      obtain ⟨-, short, within, -⟩ := mem_pieces normal inside
      rw [toNat_ofNat_offset]
      exact ⟨sizes p inside, short, within⟩
    · contradiction
  · rw [(base_recordsFrom bound).2, List.pairwise_map]
    refine (pairwise_pieces normal).imp_of_mem fun {p q} mem _ ahead => ?_
    have := sizes p mem
    simp only [Piece.Ahead] at ahead
    exact ⟨by simp only [Piece.entry]; omega, ahead⟩

end FirmwareMeta.IntelHex
