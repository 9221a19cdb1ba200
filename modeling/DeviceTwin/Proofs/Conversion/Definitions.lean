import DeviceTwin.Proofs.Conversion.Location
import DeviceTwin.Proofs.Conversion.Reports
import DeviceTwin.Proofs.Descriptor.Definitions
import DeviceTwin.Proofs.Json.Replace

/-!
Definitions that are not consulted. A conversion reports every name that it looks up and does not
find, so that a definition of any other name can be added without a change.
-/
namespace DeviceTwin.Conversion

variable {document value : Json} {root before after definitions : List (String × Json)}
  {name key other : String}

theorem adds_insert {maxDepth : Nat} (hname : name ∉ Json.keys (before ++ after)) :
    Scope.Adds { definitions := before ++ after, maxDepth }
      { definitions := before ++ (name, value) :: after, maxDepth } name where
  maxDepth_eq := rfl
  undefined := by
    cases hlookup : (before ++ after).lookup name with
    | none => rfl
    | some value => exact absurd (mem_keys (mem_of_lookup hlookup)) hname
  lookup_eq _ hother := lookup_append_cons_of_ne hother

theorem rootMember_replace (h : rootMember document key = .ok definitions) :
    rootMember (Pointer.replace (.obj root) [key] document) key = .ok root := by
  obtain ⟨members, rfl, hlookup⟩ := rootMember_eq_ok_iff.mp h
  refine rootMember_eq_ok_iff.mpr ⟨_, rfl, ?_⟩
  rw [Pointer.lookup_map_value, hlookup]
  rfl

theorem rootMember_replace_of_ne (h : other ≠ key) :
    rootMember (Pointer.replace value [key] document) other = rootMember document other := by
  cases document with
  | obj members =>
    have hlookup : (members.map fun member =>
        (member.1, if member.1 = key then value else member.2)).lookup other =
          members.lookup other := Pointer.lookup_map_value_of_ne (f := fun _ => value) h
    simp only [rootMember, Pointer.replace, Pointer.mapChild, Json.get?, hlookup]
  | _ => rfl

/-- A definition of a name that no conversion reports as undefined can be added anywhere among the
definitions, with any value, and the conversion stays the same. -/
theorem ofDocument_insert_definition (options : Options) (document value : Json)
    (before after : List (String × Json)) (name : String)
    (hdefs : rootMember document "definitions" = .ok (before ++ after))
    (hname : name ∉ Json.keys (before ++ after))
    (hunreported : ∀ c, ofDocument options document = .ok c → ∀ d ∈ c.diagnostics,
      d.violation ≠ .undefinedReference ("#/definitions/" ++ name)) :
    rootMember (Pointer.replace (.obj (before ++ (name, value) :: after)) ["definitions"] document)
        "definitions" = .ok (before ++ (name, value) :: after) ∧
      ofDocument options (Pointer.replace (.obj (before ++ (name, value) :: after)) ["definitions"]
        document) = ofDocument options document := by
  have hdefs' : rootMember (Pointer.replace (.obj (before ++ (name, value) :: after))
      ["definitions"] document) "definitions" = .ok (before ++ (name, value) :: after) :=
    rootMember_replace hdefs
  refine ⟨hdefs', ?_⟩
  have hdevices' : rootMember (Pointer.replace (.obj (before ++ (name, value) :: after))
      ["definitions"] document) "devices" = rootMember document "devices" :=
    rootMember_replace_of_ne (by decide)
  cases hdevices : rootMember document "devices" with
  | error e => simp only [ofDocument, hdefs, hdefs', hdevices, hdevices', bind, Except.bind]
  | ok devices =>
    have hc := ofDocument_eq hdefs hdevices options
    have hviolations : Descriptor.Unreported name
        (ofDevices { definitions := before ++ after, maxDepth := options.maxDepth } options
          devices).violations := fun hreported => by
      obtain ⟨f, hf, hviolation⟩ := List.mem_map.mp hreported
      exact hunreported _ hc (f.diagnostic "") (List.mem_map_of_mem hf) hviolation
    rw [ofDocument_eq hdefs' (hdevices'.trans hdevices), hc, Except.ok.injEq]
    refine ofDevices_congr fun descriptor hdescribed => ?_
    obtain ⟨place, hkeeps⟩ := hdescribed.keeps
    exact Descriptor.read_eq_of_adds (adds_insert hname) (hviolations.of_keeps hkeeps)

/-- One property refers to a definition, the other to none. -/
def partialDocument (definitions : List (String × Json)) : Json :=
  .obj [("definitions", .obj definitions),
    ("devices", .obj [("0x0130", .obj [("className", .obj [("en", .str "Partial")]),
      ("elProperties", .obj [
        ("0x80", linkedProperty "shade"), ("0x81", linkedProperty "missing")])])])]

def shadeDefinition : String × Json := ("shade", .obj [("type", .str "level")])

theorem ofDocument_insert_spare :
    rootMember (partialDocument [shadeDefinition]) "definitions" = .ok ([shadeDefinition] ++ []) ∧
      (∃ c, ofDocument {} (partialDocument [shadeDefinition]) = .ok c ∧ ∀ d ∈ c.diagnostics,
        d.violation ≠ .undefinedReference ("#/definitions/" ++ "spare")) ∧
      ofDocument {} (partialDocument [shadeDefinition, ("spare", .null)]) =
        ofDocument {} (partialDocument [shadeDefinition]) := by
  have hdefs : rootMember (partialDocument [shadeDefinition]) "definitions" =
    .ok ([shadeDefinition] ++ []) := rfl
  obtain ⟨c, hc⟩ : ∃ c, ofDocument {} (partialDocument [shadeDefinition]) = .ok c := ⟨_, rfl⟩
  have hunreported : ∀ d ∈ c.diagnostics,
      d.violation ≠ .undefinedReference ("#/definitions/" ++ "spare") := by
    cases hc
    decide
  refine ⟨hdefs, ⟨c, hc, hunreported⟩, ?_⟩
  refine (ofDocument_insert_definition {} _ .null [shadeDefinition] [] "spare" hdefs (by decide)
    fun c' hc' => ?_).2
  rw [hc, Except.ok.injEq] at hc'
  exact hc' ▸ hunreported

/-- The name that is reported is the one that can not be added. -/
example : ((ofDocument {} (partialDocument [shadeDefinition])).toOption.map (·.stats.interfaces),
    (ofDocument {} (partialDocument [shadeDefinition, ("missing", shadeDefinition.2)])).toOption.map
      (·.stats.interfaces)) = (some 1, some 2) := by
  decide

end DeviceTwin.Conversion
