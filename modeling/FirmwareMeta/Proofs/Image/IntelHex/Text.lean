import FirmwareMeta.Image.IntelHex.Writer
import FirmwareMeta.Image.IntelHex.Reader
import FirmwareMeta.Proofs.Image.IntelHex.Line
import FirmwareMeta.Proofs.Text.Line

/-! The text of some records, one line each, is read as these records in order. -/
namespace FirmwareMeta.IntelHex

def text (rs : List Record) : String :=
  String.ofList (rs.flatMap fun r => r.line ++ ['\n'])

/-- Takes a record in unless the file has ended. -/
def Loaded.next (l : Loaded) (r : Record) : Except ReadError Loaded :=
  if l.finished then .ok l else l.add r

variable {rs : List Record}

theorem Loaded.addLine_line (l : Loaded) {r : Record} (fits : r.payload.length ≤ maxPayload) :
    l.addLine r.line = l.next r := by
  have filled : r.line.isEmpty = false := rfl
  simp only [addLine, next, filled, Bool.or_false, Record.ofLine_line fits]

theorem foldlM_lines (l : Loaded) (fits : ∀ r ∈ rs, r.payload.length ≤ maxPayload) :
    (rs.map Record.line).foldlM Loaded.addLine l = rs.foldlM Loaded.next l := by
  induction rs generalizing l with
  | nil => rfl
  | cons r rest ih =>
    have tail := fun l => ih l fun s mem => fits s (List.mem_cons_of_mem _ mem)
    simp only [List.map_cons, List.foldlM_cons, Loaded.addLine_line l (fits r List.mem_cons_self),
      tail]

theorem lines_text (rs : List Record) :
    (Text.cut (text rs).toList).map Text.body = rs.map Record.line := by
  have single : ∀ line ∈ rs.map Record.line, '\n' ∉ line := by
    intro line mem
    obtain ⟨r, _, rfl⟩ := List.mem_map.mp mem
    exact r.newline_not_mem_line
  have lines := Text.cut_lines single
  rw [List.flatMap_map] at lines
  rw [text, String.toList_ofList, lines, List.map_map, List.map_map]
  exact List.map_congr_left fun r _ => Text.body_line r.return_not_mem_line

theorem parse_text (fits : ∀ r ∈ rs, r.payload.length ≤ maxPayload) :
    parse (text rs) = (rs.foldlM Loaded.next Loaded.start).map (·.image) := by
  rw [parse, lines_text, foldlM_lines _ fits]
  cases rs.foldlM Loaded.next Loaded.start <;> rfl

end FirmwareMeta.IntelHex
