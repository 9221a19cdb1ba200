import DeviceTwin.Record

/-! Texts for people, in the two languages of a device description. -/
namespace DeviceTwin

/-- A text in Japanese and English, each of which may be absent. -/
structure Labels where
  ja : Option String := none
  en : Option String := none
  deriving DecidableEq, Repr

/-- Reads the two texts; other members are not looked at. -/
def Labels.read (value : Json) : Except Violation Labels := do
  let members ← value.expectObject
  let ja ← Json.optionalString members "ja"
  let en ← Json.optionalString members "en"
  return { ja, en }

end DeviceTwin
