import FirmwareMeta.Hardware.Description
import FirmwareMeta.Proofs.Json.Reading

/-! A description is read back from its JSON, whatever its texts and its numbers are. -/
namespace FirmwareMeta.Hardware

open Json (printList printString)
open Json.Reader

/-- No cells at all are told apart from an empty list of them. -/
theorem reads_reg (reg : Option (List UInt64)) :
    Reads (optional (list word))
      (match reg with
        | none => "null".toList
        | some cells => printList (cells.map fun c => (toString c.toNat).toList)) reg := by
  cases reg with
  | none => exact reads_null
  | some cells =>
    exact (reads_list fun c _ => ⟨opens_toString _, reads_word c⟩).optional (opens_printList _)

theorem NodeInfo.reads_json (n : NodeInfo) : Reads read n.json n := by
  have path : Reads (Fields.read ⟨none, none, none⟩ "path") (':' :: printString n.path)
      ⟨some n.path, none, none⟩ :=
    ((reads_string n.path).once "path").map fun path => Fields.mk (some path) none none
  have each : Reads (list string) (printList (n.labels.map printString)) n.labels :=
    reads_list fun label _ => ⟨opens_printString label, reads_string label⟩
  have labels : Reads (Fields.read ⟨some n.path, none, none⟩ "labels") (':' :: _)
      ⟨some n.path, some n.labels, none⟩ :=
    (each.once "labels").map fun labels => Fields.mk (some n.path) (some labels) none
  have reg : Reads (Fields.read ⟨some n.path, some n.labels, none⟩ "reg") (':' :: _)
      ⟨some n.path, some n.labels, some n.reg⟩ :=
    ((reads_reg n.reg).once "reg").map fun reg => Fields.mk (some n.path) (some n.labels) (some reg)
  intro rest _
  obtain ⟨more, opens, read⟩ := (Builds.cons path (.cons labels (.cons reg .nil))).object rest
  have brace : n.json ++ rest = '\x7b' :: more := opens
  rw [brace, NodeInfo.read, bind_eq (next?_cons rfl _)]
  simp only
  rw [bind_eq (skip_cons ..), bind_eq (get_eq _), bind_eq read, bind_eq (skip_cons ..)]
  rfl

theorem Description.reads_json (d : Description) : Reads read d.json.toList d := by
  have each : Reads (list NodeInfo.read) (printList (d.nodes.map NodeInfo.json)) d.nodes :=
    reads_list fun n _ => ⟨opens_printObject _, n.reads_json⟩
  have nodes : Reads (readField none "nodes") (':' :: _) (some d.nodes) :=
    (each.once "nodes").map some
  intro rest _
  obtain ⟨more, opens, read⟩ := (Builds.cons nodes .nil).object rest
  rw [json, String.toList_ofList, opens, Description.read, bind_eq (next?_cons rfl _)]
  simp only
  rw [bind_eq (skip_cons ..), bind_eq (get_eq _), bind_eq read]
  rfl

theorem Description.ofJson_json (d : Description) : ofJson d.json = .ok d := by
  have read := parse_eq d.reads_json
  rwa [String.ofList_toList] at read

end FirmwareMeta.Hardware
