import FirmwareMeta.Proofs.Build.Artifacts
import FirmwareMeta.Proofs.Image.Flattening
import FirmwareMeta.Proofs.Image.IntelHex.Contents
import FirmwareMeta.Proofs.Image.Views

/-! Payloads from Intel HEX files are images flattened between their lowest and their highest
address. -/
namespace FirmwareMeta.Build

open Image (empty erased)

variable {fs : FileSystem} {w w' : World} {path : Path} {image : Image}

theorem ImageFile.kind?_eq (held : ImageFile w.files path image) :
    w.files.kind? path = some .file := by
  obtain ⟨content, _, found, _⟩ := held
  exact kind?_of_read found

/-- What the log says about a payload. -/
def payloadNote (p : Update.Payload) : Event :=
  ⟨.debug, p.role.name ++ " payload " ++ p.source.text ++ ": " ++ toString p.data.length ++
    " bytes, crc " ++ Numeral.hexWord (crc32 p.data).toNat⟩

theorem run_loadPayload_hex (role : Role) (hex : path.hasExtension "hex" = true)
    (held : ImageFile w.files path image) (filled : image.contiguous ≠ []) :
    w.run (loadPayload role path) = (.ok ⟨role, path, image.contiguous⟩,
      { w with events := w.events ++ [payloadNote ⟨role, path, image.contiguous⟩] }) := by
  have loaded : w.run (loadImage path) = (.ok image, w) := run_loadImage_ok_iff.mpr ⟨rfl, held⟩
  unfold loadPayload
  simp only [World.run_bind, run_isFile, held.kind?_eq, hex, BEq.rfl, Bool.not_true,
    Bool.false_eq_true, ↓reduceIte, map_eq_pure_bind, loaded, World.run_pure, List.isEmpty_iff,
    filled]
  rfl

theorem ImageFile.normal (held : ImageFile fs path image) : image.Normal := by
  obtain ⟨_, _, _, _, parsed⟩ := held
  obtain ⟨rs, _, wrote⟩ := IntelHex.parse_ok_iff_writes.mp parsed
  exact (Image.normal_writeAll Image.normal_empty wrote).1

/-- The flattened image reaches from the lowest to the highest address and holds what is written
there, and erased bytes between. It comes out of a buffer with no step that fails, and it can be
written. So two files whose images differ in nothing but gaps that are erased bytes in the other one
are the same payload. -/
theorem flattened_between_extremes :
    (∀ image : Image, image.Reachable → image ≠ empty → ∃ min max,
      (image.minAddress? = some min ∧ image.Lowest min) ∧
      (image.maxAddress? = some max ∧ image.Highest max) ∧
      (min ≤ max ∧ max < Word.limit ∧ image.span = max - min + 1) ∧
      image.contiguous.length = image.span ∧
      (∀ i < image.span, image.contiguous[i]? = some ((image.byte? (min + i)).getD erased)) ∧
      image.buffered? = some image.contiguous ∧
      ∃ written, Image.ofBytes min image.contiguous = .ok written) ∧
    ∀ (w w' : World) (role role' : Role) (path path' : Path) (image image' : Image) (min max : Nat),
      path.hasExtension "hex" = true → path'.hasExtension "hex" = true →
      ImageFile w.files path image → ImageFile w'.files path' image' →
      image.Lowest min → image'.Lowest min → image.Highest max → image'.Highest max →
      (∀ a, min ≤ a → a ≤ max → (image.byte? a).getD erased = (image'.byte? a).getD erased) →
      ∃ p p', (w.run (loadPayload role path)).1 = .ok p ∧
        (w'.run (loadPayload role' path')).1 = .ok p' ∧
        p.data = p'.data ∧ crc32 p.data = crc32 p'.data := by
  constructor
  · intro image reachable filled
    have normal := reachable.normal
    obtain ⟨min, max, first, last⟩ := Image.exists_extent filled
    have lowest := normal.minAddress?_eq_some_iff.mp first
    have highest := normal.maxAddress?_eq_some_iff.mp last
    have order := lowest.le_highest highest
    have span := Image.span_eq first last
    have length : image.contiguous.length = image.span := by
      have := normal.length_contiguous first last
      omega
    exact ⟨min, max, ⟨first, lowest⟩, ⟨last, highest⟩,
      ⟨order, normal.lt_limit highest.taken, span⟩, length,
      fun i inside => normal.getElem?_contiguous first (length ▸ inside),
      normal.buffered?_eq, normal.exists_ofBytes first last⟩
  · intro w w' role role' path path' image image' min max hex hex' held held' lowest lowest' highest
      highest' same
    have normal := held.normal
    have normal' := held'.normal
    rw [← normal.minAddress?_eq_some_iff] at lowest
    rw [← normal'.minAddress?_eq_some_iff] at lowest'
    rw [← normal.maxAddress?_eq_some_iff] at highest
    rw [← normal'.maxAddress?_eq_some_iff] at highest'
    have alike := normal.contiguous_congr normal' lowest highest lowest' highest' same
    have loaded := run_loadPayload_hex role hex held
      (normal.contiguous_ne_nil lowest highest)
    have loaded' := run_loadPayload_hex role' hex' held'
      (normal'.contiguous_ne_nil lowest' highest')
    exact ⟨_, _, congrArg Prod.fst loaded, congrArg Prod.fst loaded', alike,
      congrArg crc32 alike⟩

/-- Two files with the same bytes at three addresses. One of them leaves the erased byte out. -/
def gapFiles : World :=
  ⟨⟨[(["a.hex"], .file ":0100000001FE\n:0100020003FA\n:00000001FF\n".toUTF8),
    (["b.hex"], .file ":0300000001FF03FA\n:00000001FF\n".toUTF8)], []⟩,
    ⟨none, .notText, ""⟩, [], .first⟩

theorem flattened_between_extremes_gap :
    (∃ min max, Image.topImage.minAddress? = some min ∧ Image.topImage.maxAddress? = some max ∧
      Image.topImage.buffered? = some Image.topImage.contiguous) ∧
    ∃ p p', (gapFiles.run (loadPayload .softDevice ⟨"a.hex"⟩)).1 = .ok p ∧
      (gapFiles.run (loadPayload .softDevice ⟨"b.hex"⟩)).1 = .ok p' ∧
      p.data = p'.data ∧ crc32 p.data = crc32 p'.data := by
  obtain ⟨between, alike⟩ := flattened_between_extremes
  have reachable : Image.topImage.Reachable := .attempt _ _ (.attempt _ _ .empty)
  obtain ⟨min, max, ⟨first, -⟩, ⟨last, -⟩, -, -, -, buffered, -⟩ :=
    between Image.topImage reachable (by decide)
  have named : gapFiles.files.Names ⟨"a.hex"⟩ ["a.hex"] := by decide +kernel
  have named' : gapFiles.files.Names ⟨"b.hex"⟩ ["b.hex"] := by decide +kernel
  have ends : Path.extension? ⟨"a.hex"⟩ = some "hex" := by decide +kernel
  have ends' : Path.extension? ⟨"b.hex"⟩ = some "hex" := by decide +kernel
  have gap : ImageFile gapFiles.files ⟨"a.hex"⟩ ⟨[⟨0, #[1]⟩, ⟨2, #[3]⟩]⟩ := .of_names named rfl rfl
  have whole : ImageFile gapFiles.files ⟨"b.hex"⟩ ⟨[⟨0, #[1, 0xFF, 3]⟩]⟩ :=
    .of_names named' rfl rfl
  refine ⟨⟨min, max, first, last, buffered⟩, alike gapFiles gapFiles _ _ _ _ _ _ 0 2
    (by simp [Path.hasExtension, ends]) (by simp [Path.hasExtension, ends']) gap whole
    ?_ ?_ ?_ ?_ ?_⟩
  · exact gap.normal.minAddress?_eq_some_iff.mp rfl
  · exact whole.normal.minAddress?_eq_some_iff.mp rfl
  · exact gap.normal.maxAddress?_eq_some_iff.mp rfl
  · exact whole.normal.maxAddress?_eq_some_iff.mp rfl
  · have same : ∀ a ≤ 2, ((⟨[⟨0, #[1]⟩, ⟨2, #[3]⟩]⟩ : Image).byte? a).getD erased =
        ((⟨[⟨0, #[1, 0xFF, 3]⟩]⟩ : Image).byte? a).getD erased := by decide
    exact fun a _ high => same a high

end FirmwareMeta.Build
