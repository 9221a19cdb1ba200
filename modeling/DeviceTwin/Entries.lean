/-! Lists of entries by key, in the order in which their keys were first put. -/
namespace DeviceTwin.Entries

variable {κ α : Type} [DecidableEq κ]

/-- Sets the value of a key. A key already there keeps its place. -/
def put (key : κ) (value : α) : List (κ × α) → List (κ × α)
  | [] => [(key, value)]
  | (k, v) :: rest => if k = key then (k, value) :: rest else (k, v) :: put key value rest

/-- Entries with distinct keys: each key at its first place, with its last value. -/
def distinct (entries : List (κ × α)) : List (κ × α) :=
  entries.foldl (fun done (key, value) => put key value done) []

end DeviceTwin.Entries
