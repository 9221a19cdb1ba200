import DeviceTwin.Diagnostic

/-!
Reading objects as records. Members are taken one by one, in order, and each may set a part of the
record. A member that breaks a rule is refused and reported under its name; the others still count.
-/
namespace DeviceTwin

/-- A value with what was found on the way to it. -/
structure Noted (α : Type) where
  value : α
  findings : List Finding := []

namespace Noted

def map {α β : Type} (f : α → β) (n : Noted α) : Noted β := ⟨f n.value, n.findings⟩

/-- Findings made inside of a value that stands under `segment`. -/
def within {α : Type} (segment : String) (n : Noted α) : Noted α :=
  ⟨n.value, n.findings.map (·.within segment)⟩

/-- A value that stands in for one that could not be read. -/
def refused {α : Type} (value : α) (violation : Violation) : Noted α := ⟨value, [⟨[], violation⟩]⟩

end Noted

/-- What became of a member: the record after it, what was found inside of its value, and why it
was refused as a whole, if it was. -/
structure Taken (ρ : Type) where
  record : ρ
  findings : List Finding := []
  refusal : Option Violation := none

namespace Taken

variable {ρ α : Type}

/-- A member that changes the record or is refused. -/
def ofExcept (record : ρ) : Except Violation ρ → Taken ρ
  | .ok changed => { record := changed }
  | .error violation => { record, refusal := some violation }

def refused (record : ρ) (violation : Violation) : Taken ρ := { record, refusal := some violation }

/-- A member whose value was read; storing it may still be refused. -/
def store (record : ρ) (n : Noted α) (put : α → Except Violation ρ) : Taken ρ :=
  { ofExcept record (put n.value) with findings := n.findings }

/-- Everything found in the member, as seen from the record. -/
def findingsUnder (key : String) (taken : Taken ρ) : List Finding :=
  (taken.findings ++ taken.refusal.toList.map (Finding.mk [])).map (·.within key)

end Taken

/-- Takes members in order. -/
def readMembers {ρ : Type} (take : ρ → String → Json → Taken ρ) (record : ρ) :
    List (String × Json) → Noted ρ
  | [] => ⟨record, []⟩
  | (key, value) :: rest =>
    let taken := take record key value
    let later := readMembers take taken.record rest
    ⟨later.value, taken.findingsUnder key ++ later.findings⟩

/-- Reads an array from an index on; items without a value are left out. -/
def readItems {α : Type} (read : Json → Noted (Option α)) (index : Nat) :
    List Json → Noted (List α)
  | [] => ⟨[], []⟩
  | item :: rest =>
    let first := (read item).within (toString index)
    let later := readItems read (index + 1) rest
    ⟨first.value.toList ++ later.value, first.findings ++ later.findings⟩

namespace Json

def expectObject : Json → Except Violation (List (String × Json))
  | obj members => .ok members
  | other => .error (.unexpectedType "object" other.typeName)

def expectArray : Json → Except Violation (List Json)
  | arr items => .ok items
  | other => .error (.unexpectedType "array" other.typeName)

def expectString : Json → Except Violation String
  | str s => .ok s
  | other => .error (.unexpectedType "string" other.typeName)

def expectBool : Json → Except Violation Bool
  | bool b => .ok b
  | other => .error (.unexpectedType "boolean" other.typeName)

def expectBinary64 : Json → Except Violation Binary64
  | num n => .ok n.toBinary64
  | other => .error (.unexpectedType "number" other.typeName)

/-- A string member that may be absent. -/
def optionalString (members : List (String × Json)) (key : String) :
    Except Violation (Option String) :=
  match members.lookup key with
  | none => .ok none
  | some value => value.expectString.map some

end Json

/-- Reads an object as a record. -/
def readRecord {ρ : Type} (take : ρ → String → Json → Taken ρ) (initial : ρ) (value : Json) :
    Noted (Option ρ) :=
  match value.expectObject with
  | .ok members => (readMembers take initial members).map some
  | .error violation => .refused none violation

end DeviceTwin
