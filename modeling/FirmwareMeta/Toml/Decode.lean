import FirmwareMeta.Decimal.Style
import FirmwareMeta.Toml.Document

/-!
Tables of texts under known keys. Keys and values are looked at in order, so the first one that
does not fit is reported.
-/
namespace FirmwareMeta.Toml

/-- Numbers are written out in full. -/
def floatStyle : Decimal.Style := ⟨fun _ => true, ".0", "inf.0", "NaN.0"⟩

/-- What a value is called where another one was expected. -/
def Value.show : Value → String
  | text value => "string \"" ++ value ++ "\""
  | integer value => "integer `" ++ toString value ++ "`"
  | float bits => "floating point `" ++ floatStyle.render bits ++ "`"
  | boolean value => "boolean `" ++ toString value ++ "`"
  | datetime => "map"
  | array => "sequence"
  | inlineTable => "map"

/-- The bytes of all tables of one name. -/
def Item.tablesSpan? (list : List Table) : Option Span := do
  let last ← (← list.head?).span
  let first ← (← list.getLast?).span
  pure ⟨first.start, last.stop⟩

/-- The text that an item is. -/
def Item.text (expected : String) (key : Key) (item : Item) : Except Fault String :=
  let refuse (found : String) (span : Span) : Except Fault String :=
    .error ⟨span, "invalid type: " ++ found ++ ", expected " ++ expected⟩
  match item with
  | .value (.text s) _ => .ok s
  | .value v span => refuse v.show span
  | .table t => refuse "map" (t.span.getD key.span)
  | .tables list => refuse "sequence" ((tablesSpan? list).getD key.span)

/-- The texts of a table that has no other keys than some known ones. -/
def Table.texts (expected : String) (known : List String) (t : Table) :
    Except Fault (List (String × String)) :=
  t.entries.mapM fun (key, item) =>
    if key.name ∈ known then do pure (key.name, ← item.text expected key)
    else
      let names := ", ".intercalate (known.map fun name => "`" ++ name ++ "`")
      .error ⟨key.span, "unknown field `" ++ key.name ++ "`, expected one of " ++ names⟩

end FirmwareMeta.Toml
