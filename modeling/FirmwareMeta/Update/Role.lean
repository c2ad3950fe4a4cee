/-!
The images that the installer can replace.
-/
namespace FirmwareMeta

/-- What an update image is for. -/
inductive Role where
  | softDevice
  | firmwareLoader
  deriving DecidableEq, Repr

namespace Role

/-- The number of a role in a record. -/
def id : Role → UInt8
  | softDevice => 1
  | firmwareLoader => 2

def ofId? : UInt8 → Option Role
  | 1 => some softDevice
  | 2 => some firmwareLoader
  | _ => none

def name : Role → String
  | softDevice => "SoftDevice"
  | firmwareLoader => "firmware loader"

@[simp] theorem ofId?_id (r : Role) : ofId? r.id = some r := by
  cases r <;> rfl

theorem ofId?_eq_some {n : UInt8} {r : Role} : ofId? n = some r ↔ n = r.id := by
  constructor
  · unfold ofId?
    split <;> simp <;> rintro rfl <;> rfl
  · rintro rfl
    exact ofId?_id r

end Role
end FirmwareMeta
