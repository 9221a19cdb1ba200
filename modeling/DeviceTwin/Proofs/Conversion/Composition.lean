import DeviceTwin.Proofs.Conversion.Emission

/-! Documents with the same definitions: the devices of one may follow those of the other. -/
namespace DeviceTwin.Conversion

/-- The conversion of a document with the devices of two documents is that of the first followed by
that of the second, with the sums of their counts. Its diagnostics are those of the entries in
order, and those of an entry lie at the entry. -/
theorem ofDocument_append (options : Options) (definitions first second : List (String × Json))
    (document firstDocument secondDocument : Json)
    (hdefs : ∀ d ∈ [document, firstDocument, secondDocument],
      rootMember d "definitions" = .ok definitions)
    (hdevices : rootMember document "devices" = .ok (first ++ second))
    (hfirst : rootMember firstDocument "devices" = .ok first)
    (hsecond : rootMember secondDocument "devices" = .ok second) :
    ∃ c a b, ofDocument options document = .ok c ∧ ofDocument options firstDocument = .ok a ∧
      ofDocument options secondDocument = .ok b ∧
      c.interfaces = a.interfaces ++ b.interfaces ∧
      c.diagnostics = a.diagnostics ++ b.diagnostics ∧
      c.stats = ⟨a.stats.devices + b.stats.devices,
        a.stats.devicesEmitted + b.stats.devicesEmitted,
        a.stats.devicesDropped + b.stats.devicesDropped,
        a.stats.interfaces + b.stats.interfaces⟩ ∧
      c.diagnostics = (first ++ second).flatMap (fun entry =>
        (ofDevice { definitions, maxDepth := options.maxDepth } options entry.1
          entry.2).diagnostics) ∧
      ∀ entry ∈ first ++ second,
        ∀ d ∈ (ofDevice { definitions, maxDepth := options.maxDepth } options entry.1
            entry.2).diagnostics,
          Pointer.LiesAt (Pointer.join "/devices" entry.1) d.path := by
  simp only [List.mem_cons, List.not_mem_nil, or_false, forall_eq_or_imp, forall_eq] at hdefs
  obtain ⟨hdefs, hdefsFirst, hdefsSecond⟩ := hdefs
  have happend := ofDevices_append { definitions, maxDepth := options.maxDepth } options first
    second
  refine ⟨_, _, _, ofDocument_eq hdefs hdevices options, ofDocument_eq hdefsFirst hfirst options,
    ofDocument_eq hdefsSecond hsecond options, ?_, ?_, ?_, ?_, ?_⟩
  · rw [happend, interfaces_append]
  · rw [happend, diagnostics_append]
  · rw [happend]
    rfl
  · exact diagnostics_ofDevices _ options (first ++ second)
  · exact fun entry _ d hd => liesAt_of_mem_diagnostics _ options hd

/-- A document without definitions. -/
def plainDocument (devices : List (String × Json)) : Json :=
  .obj [("definitions", .obj []), ("devices", .obj devices)]

/-- A device with an unknown member, and a property whose data refers to nothing. -/
def faultyDevice : Json :=
  .obj [("className", .obj [("en", .str "Faulty")]), ("colour", .str "red"),
    ("elProperties", .obj [("0x80", .obj [("data", .obj [("$ref", .str "#/definitions/none")])])])]

theorem ofDocument_append_faulty :
    ∃ c a b,
      ofDocument {} (plainDocument ([("0x0011", faultyDevice)] ++ [("0x0130", variedDevice)])) =
        .ok c ∧
      ofDocument {} (plainDocument [("0x0011", faultyDevice)]) = .ok a ∧
      ofDocument {} (plainDocument [("0x0130", variedDevice)]) = .ok b ∧
      c.interfaces = a.interfaces ++ b.interfaces ∧ c.diagnostics = a.diagnostics ++ b.diagnostics ∧
      c.stats = ⟨a.stats.devices + b.stats.devices,
        a.stats.devicesEmitted + b.stats.devicesEmitted,
        a.stats.devicesDropped + b.stats.devicesDropped,
        a.stats.interfaces + b.stats.interfaces⟩ := by
  have hdefs : ∀ devices, rootMember (plainDocument devices) "definitions" = .ok [] := fun _ => rfl
  obtain ⟨c, a, b, hc, ha, hb, hinterfaces, hdiagnostics, hstats, _⟩ :=
    ofDocument_append {} [] [("0x0011", faultyDevice)] [("0x0130", variedDevice)]
      (plainDocument ([("0x0011", faultyDevice)] ++ [("0x0130", variedDevice)]))
      (plainDocument [("0x0011", faultyDevice)]) (plainDocument [("0x0130", variedDevice)])
      (by simp [hdefs]) rfl rfl rfl
  exact ⟨c, a, b, hc, ha, hb, hinterfaces, hdiagnostics, hstats⟩

end DeviceTwin.Conversion
