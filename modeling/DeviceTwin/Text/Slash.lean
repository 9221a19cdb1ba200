/-! Text divided by slashes. -/
namespace DeviceTwin

/-- The texts between slashes, those before the first and after the last included. -/
def splitSlash : List Char → List (List Char)
  | [] => [[]]
  | '/' :: rest => [] :: splitSlash rest
  | c :: rest =>
    match splitSlash rest with
    | [] => [[c]]
    | part :: parts => (c :: part) :: parts

end DeviceTwin
