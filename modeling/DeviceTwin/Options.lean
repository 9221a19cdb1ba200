/-! Options of a conversion. -/
namespace DeviceTwin

structure Options where
  /-- Namespace of every generated identifier. -/
  urnNamespace : String := "EchonetLite"
  /-- The `@context` of interfaces and their contents. -/
  context : String := "http://azureiot.com/v1/contexts/IoTModel.json"
  /-- How deep type descriptors may be nested, followed references included. -/
  maxDepth : Nat := 32
  deriving DecidableEq, Repr

/-- The identifier of a name, at its first version. -/
def Options.urn (options : Options) (name : String) : String :=
  "urn:" ++ options.urnNamespace ++ ":" ++ name ++ ":1"

end DeviceTwin
