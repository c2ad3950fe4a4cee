import FirmwareMeta.Proofs.Command.Repeating
import FirmwareMeta.Proofs.Image.Extent
import FirmwareMeta.Proofs.Build.Payloads
import FirmwareMeta.Proofs.Update.Listing
import FirmwareMeta.Proofs.Update.Verification

/-! What a listing vouches for: a record at the lowest address of a file, and each of its payloads
if any bytes stand behind the record. -/
namespace FirmwareMeta.Command

open Build Update

variable {styled verbose : Bool} {arguments : List String} {input : Path} {config : Option Path}
  {w w' : World} {fs : FileSystem} {image : Image} {address : Nat} {data : List UInt8}
  {r : Update.Record} {text : String} {outcome : Except RunError Unit}

/-- A file with a record at its lowest address. `data` stands there, up to the first gap. -/
structure RecordFile (fs : FileSystem) (path : Path) (image : Image) (address : Nat)
    (data : List UInt8) (r : Update.Record) : Prop where
  file : ImageFile fs path image
  lowest : image.Lowest address
  run : image.Run address data
  decoded : Record.decode data = .ok r

/-- The record is alone, or all its payloads are there and sound. -/
def Vouched (image : Image) (address : Nat) (data : List UInt8) (r : Update.Record) : Prop :=
  data.length = r.encodedSize ∨ ∃ r', verify image address = .ok r'

theorem run?_of_lowest (normal : image.Normal) (lowest : image.Lowest address) :
    image.run? address = some data ↔ image.Run address data := by
  rw [normal.run?_eq_some_iff, and_iff_right_iff_imp]
  rintro run rfl
  exact lowest.taken run.ends

/-- A record that is read does not end behind the bytes that it is read from. -/
theorem drop_encodedSize_eq_nil_iff (decoded : Record.decode data = .ok r) :
    data.drop r.encodedSize = [] ↔ data.length = r.encodedSize := by
  have whole := (Record.decode_ok_iff_front.mp decoded).2.2.1.length_le
  rw [Record.length_encode] at whole
  rw [List.drop_eq_nil_iff]
  omega

theorem listing_ok_iff_at (normal : image.Normal) (lowest : image.Lowest address)
    (run : image.Run address data) : listing styled image = .ok text ↔
      ∃ r, Record.decode data = .ok r ∧ Vouched image address data r ∧
        Listing.text styled address r (data.drop r.encodedSize) = text := by
  have first := normal.minAddress?_eq_some_iff.mpr lowest
  have read := (run?_of_lowest normal lowest).mpr run
  simp only [listing, first, Option.getD_some, read, bind_ok_iff, Failure.lift_ok_iff]
  refine exists_congr fun r => and_congr_right fun decoded => ?_
  by_cases alone : data.drop r.encodedSize = []
  · have ends := (drop_encodedSize_eq_nil_iff decoded).mp alone
    simp [alone, Vouched, ends, pure, Except.pure]
  · have more : data.length ≠ r.encodedSize := mt (drop_encodedSize_eq_nil_iff decoded).mpr alone
    simp [alone, Vouched, more, bind_ok_iff, pure, Except.pure]

/-- A listing can be made of the records that are vouched for, and of nothing else. -/
theorem listing_ok_iff (normal : image.Normal) :
    listing styled image = .ok text ↔ ∃ address data r, image.Lowest address ∧
      image.Run address data ∧ Record.decode data = .ok r ∧ Vouched image address data r ∧
      Listing.text styled address r (data.drop r.encodedSize) = text := by
  constructor
  · intro listed
    cases first : image.minAddress? with
    | none =>
      obtain rfl := Image.minAddress?_eq_none_iff.mp first
      contradiction
    | some address =>
      have lowest := normal.minAddress?_eq_some_iff.mp first
      obtain ⟨data, read⟩ := normal.exists_run?_iff.mpr lowest.taken
      have run := (run?_of_lowest normal lowest).mp read
      obtain ⟨r, decoded, vouched, shown⟩ := (listing_ok_iff_at normal lowest run).mp listed
      exact ⟨address, data, r, lowest, run, decoded, vouched, shown⟩
  · rintro ⟨address, data, r, lowest, run, decoded, vouched, shown⟩
    exact (listing_ok_iff_at normal lowest run).mpr ⟨r, decoded, vouched, shown⟩

/-! Runs -/

theorem run_of_parse (parsed : parse arguments = .ok ⟨.dump input, verbose, config⟩) :
    w.run (run styled arguments) = w.run (dump styled input) := by
  simp only [run, parsed]
  rfl

/-- The listing of a file, before it is printed. -/
def listingOf (styled : Bool) (input : Path) : Job String := do
  Job.ofExcept (listing styled (← loadImage input))

def printListing (text : String) : Run Unit := do
  if let .error e ← ExceptT.lift (Script.ask (.print text)) then throw (.print e)

theorem dump_eq : dump styled input = (listingOf styled input).adapt .failure >>= printListing := by
  rw [listingOf, adapt_bind, bind_assoc]
  rfl

theorem uses_listingOf : Uses Operation.Looks (listingOf styled input) :=
  .bind (uses_loadImage input) fun _ => Job.uses_ofExcept _

theorem run_listingOf_ok_iff : w.run (listingOf styled input) = (.ok text, w') ↔
    w' = w ∧ ∃ image, ImageFile w.files input image ∧ listing styled image = .ok text := by
  have listed : ∀ {image : Image} {w : World},
      w.run (Job.ofExcept (listing styled image)) = (listing styled image, w) := rfl
  simp only [listingOf, World.run_bind_ok_iff, run_loadImage_ok_iff, listed, Prod.mk.injEq]
  constructor
  · rintro ⟨image, _, ⟨rfl, file⟩, made, rfl⟩
    exact ⟨rfl, image, file, made⟩
  · rintro ⟨rfl, image, file, made⟩
    exact ⟨image, w', ⟨rfl, file⟩, made, rfl⟩

/-- An output that never fails takes all of a text. -/
theorem run_printListing (endless : w.output.room = none) (text : String) :
    w.run (printListing text) =
      (.ok (), { w with output := { w.output with text := w.output.text ++ text } }) := by
  obtain ⟨files, ⟨room, full, shown⟩, events, temporaries⟩ := w
  obtain rfl : room = none := endless
  rfl

/-- On an output that never fails, what can be listed is printed, and nothing else is. -/
theorem dump_cases (endless : w.output.room = none)
    (ran : w.run (dump styled input) = (outcome, w')) :
    (∃ f, outcome = .error (.failure f) ∧ (w.run (listingOf styled input)).1 = .error f ∧
      w'.output = w.output) ∨
    ∃ text, outcome = .ok () ∧ w.run (listingOf styled input) = (.ok text, w) ∧
      w'.output.text = w.output.text ++ text := by
  rw [dump_eq, World.run_bind, World.run_adapt] at ran
  have silent : (w.run (listingOf styled input)).2.output = w.output := uses_listingOf.output
  rcases made : w.run (listingOf styled input) with ⟨f | text, middle⟩
  · rw [made] at ran silent
    obtain ⟨rfl, rfl⟩ := Prod.mk.inj ran
    exact Or.inl ⟨f, rfl, rfl, silent⟩
  · obtain ⟨rfl, _⟩ := run_listingOf_ok_iff.mp made
    rw [made] at ran
    simp only [Except.mapError, run_printListing endless] at ran
    obtain ⟨rfl, rfl⟩ := Prod.mk.inj ran
    exact Or.inr ⟨text, rfl, rfl, rfl⟩

/-- A file is listed if it has a record that is vouched for. -/
theorem run_listingOf_iff_vouched : w.run (listingOf styled input) = (.ok text, w) ↔
    ∃ image address data r, RecordFile w.files input image address data r ∧
      Vouched image address data r ∧
      Listing.text styled address r (data.drop r.encodedSize) = text := by
  rw [run_listingOf_ok_iff]
  constructor
  · rintro ⟨-, image, file, listed⟩
    obtain ⟨address, data, r, lowest, run, decoded, vouched, shown⟩ :=
      (listing_ok_iff file.normal).mp listed
    exact ⟨image, address, data, r, ⟨file, lowest, run, decoded⟩, vouched, shown⟩
  · rintro ⟨image, address, data, r, ⟨file, lowest, run, decoded⟩, vouched, shown⟩
    exact ⟨rfl, image, file, (listing_ok_iff file.normal).mpr
      ⟨address, data, r, lowest, run, decoded, vouched, shown⟩⟩

theorem RecordFile.of_listed (held : RecordFile w.files input image address data r)
    (made : w.run (listingOf styled input) = (.ok text, w)) : Vouched image address data r ∧
      Listing.text styled address r (data.drop r.encodedSize) = text := by
  obtain ⟨-, other, file, listed⟩ := run_listingOf_ok_iff.mp made
  obtain rfl := held.file.unique file
  obtain ⟨r', decoded, vouched, shown⟩ :=
    (listing_ok_iff_at file.normal held.lowest held.run).mp listed
  obtain rfl := Except.ok.inj (held.decoded.symm.trans decoded)
  exact ⟨vouched, shown⟩

/-- Payloads behind a record that is vouched for are sound. -/
theorem RecordFile.sound (held : RecordFile fs input image address data r)
    (vouched : Vouched image address data r) (more : r.encodedSize < data.length) :
    ∀ b ∈ r.blocks, b.Sound image (address + r.encodedSize) := by
  have normal := held.file.normal
  rcases vouched with alone | ⟨r', passed⟩
  · omega
  · obtain ⟨data', read, decoded, -, checked⟩ := verify_steps passed
    have again := (run?_of_lowest normal held.lowest).mp read
    obtain rfl := held.run.ext again
    obtain rfl := Except.ok.inj (held.decoded.symm.trans decoded)
    exact fun b mem => Block.sound_of_verify normal (checked b mem)

/-- A run that lists a file changes no file. On an output that never fails, it ends well exactly if
the file has a record that is alone or passes with all its payloads, and prints nothing otherwise.
It says that the blocks were verified exactly if bytes stand behind the record, and then each
payload is in the file with the checksum of its block. -/
theorem dump_vouches_for_payloads
    (parsed : parse arguments = .ok ⟨.dump input, verbose, config⟩)
    (ran : w.run (run styled arguments) = (outcome, w')) :
    w'.files = w.files ∧
    (w.output.room = none →
      (exitCode outcome = 0 ↔ ∃ image address data r,
        RecordFile w.files input image address data r ∧
          (data.length = r.encodedSize ∨ ∃ r', verify image address = .ok r')) ∧
      (exitCode outcome = 1 → w'.output = w.output) ∧
      ∀ image address data r, RecordFile w.files input image address data r →
        exitCode outcome = 0 → r.blocks ≠ [] ∧
        w'.output.text = w.output.text ++
          Listing.text styled address r (data.drop r.encodedSize) ∧
        Text.linesEnding "verified" (Listing.text styled address r (data.drop r.encodedSize)) =
          (if r.encodedSize < data.length then r.blocks.map fun b =>
            (Listing.line styled "crc" (Numeral.hexWord b.checksum.toNat ++ " verified")).toList
          else []) ∧
        (r.encodedSize < data.length →
          ∀ b ∈ r.blocks, b.Sound image (address + r.encodedSize))) := by
  rw [run_of_parse parsed] at ran
  have files : (w.run (dump styled input)).2.files = w.files := (uses_dump input).files
  rw [ran] at files
  refine ⟨files, fun endless => ?_⟩
  rcases dump_cases endless ran with ⟨f, rfl, failed, silent⟩ | ⟨text, rfl, made, printed⟩
  · have unlisted : ¬∃ image address data r, RecordFile w.files input image address data r ∧
        Vouched image address data r := by
      rintro ⟨image, address, data, r, held, vouched⟩
      have made : w.run (listingOf styled input) = (.ok _, w) := run_listingOf_iff_vouched.mpr
        ⟨image, address, data, r, held, vouched, rfl⟩
      rw [made] at failed
      contradiction
    have failed : exitCode (.error (.failure f)) ≠ 0 := Nat.one_ne_zero
    exact ⟨iff_of_false failed unlisted, fun _ => silent, fun _ _ _ _ _ done => absurd done failed⟩
  · obtain ⟨image, address, data, r, held, vouched, -⟩ := run_listingOf_iff_vouched.mp made
    refine ⟨iff_of_true rfl ⟨image, address, data, r, held, vouched⟩, nofun, ?_⟩
    intro image address data r held _
    obtain ⟨vouched, rfl⟩ := held.of_listed made
    have some_block := (Record.decode_ok_iff_front.mp held.decoded).1
    refine ⟨some_block, printed, ?_, held.sound vouched⟩
    rw [Listing.linesEnding_text]
    simp only [List.drop_eq_nil_iff, ← Nat.not_lt, ite_not]

/-- A record with the payloads of its two blocks behind it. -/
def bundleData : List UInt8 :=
  Record.encode ⟨[tinyBlock, tinyLoaderBlock 0x55000]⟩ ++ Payload.join [tinySoftDevice, tinyLoader]

def bundleImage : Image := ⟨[⟨0x100, bundleData.toArray⟩]⟩

def bundleFile : World :=
  ⟨⟨[(["m.hex"], .file (IntelHex.print bundleImage).toUTF8)], []⟩, ⟨none, .notText, ""⟩, [], .first⟩

theorem dump_vouches_for_payloads_of_bundle :
    ∃ w', bundleFile.run (run false ["dump", "--input", "m.hex"]) = (.ok (), w') ∧
      w'.files = bundleFile.files ∧ (Text.linesEnding "verified" w'.output.text).length = 2 ∧
      ∀ b ∈ [tinyBlock, tinyLoaderBlock 0x55000], b.Sound bundleImage (0x100 + 56) := by
  have parsed : parse ["dump", "--input", "m.hex"] = .ok ⟨.dump ⟨"m.hex"⟩, false, none⟩ := by
    decide +kernel
  have named : bundleFile.files.Names ⟨"m.hex"⟩ ["m.hex"] := by decide +kernel
  have size : bundleData.length = 58 := by decide
  have some_bytes : bundleData ≠ [] := List.ne_nil_of_length_pos (by omega)
  have normal : bundleImage.Normal := normal_single some_bytes (by rw [size]; decide)
  have differs : (tinyLoaderBlock 0x55000).partitionAddress ≠
      crc32 (Record.body ⟨[tinyBlock]⟩) := by
    rw [Record.checksum_tinyBlock]
    decide
  have held : RecordFile bundleFile.files ⟨"m.hex"⟩ bundleImage 0x100 bundleData
      ⟨[tinyBlock, tinyLoaderBlock 0x55000]⟩ :=
    ⟨.of_names named rfl (IntelHex.parse_print normal), normal.minAddress?_eq_some_iff.mp rfl,
      run_single, Record.decode_pair _ differs⟩
  have tiled : Tiled _ 0 _ _ := ofPayloads_ok_iff.mp (make_tiny 0x55000)
  have payloads := (Image.holds_append.mp held.run.held).2
  rw [Record.length_encode] at payloads
  have passed : verify bundleImage 0x100 = .ok ⟨[tinyBlock, tinyLoaderBlock 0x55000]⟩ :=
    (verify_eq_ok_iff normal tiled.filled).mpr ⟨_, held.run, held.decoded, tiled.sound payloads⟩
  rcases ran : bundleFile.run (run false ["dump", "--input", "m.hex"]) with ⟨outcome, w'⟩
  obtain ⟨files, cases⟩ := dump_vouches_for_payloads parsed ran
  obtain ⟨ends, -, printed⟩ := cases rfl
  have code := ends.mpr ⟨_, _, _, _, held, Or.inr ⟨_, passed⟩⟩
  obtain ⟨-, text, lines, sound⟩ := printed _ _ _ _ held code
  obtain rfl := exitCode_eq_zero_iff.mp code
  have more : Record.encodedSize ⟨[tinyBlock, tinyLoaderBlock 0x55000]⟩ < bundleData.length := by
    rw [size]
    decide
  refine ⟨w', rfl, files, ?_, sound more⟩
  have start : bundleFile.output.text = "" := rfl
  rw [text, start, String.empty_append, lines, if_pos more]
  rfl

end FirmwareMeta.Command
