import DeviceTwin.Proofs.Conversion.Location
import DeviceTwin.Proofs.Descriptor.Reordering
import DeviceTwin.Proofs.Json.Reader
import DeviceTwin.Proofs.Property.Draft

/-!
Documents with members in another order. Wherever the members of unordered constructs are put into
another order, the interfaces remain and the diagnostics are the same in some order.
-/
namespace DeviceTwin

variable {scope scope' : Scope} {options : Options} {key : String} {c : Construct}
  {value value' : Json} {members members' : List (String × Json)} {variants variants' : List Json}

/-- A member that only has to be an object. -/
theorem checked_matches {ρ : Type} {r : ρ} (h : Reordered c value value') :
    (Taken.ofExcept r (value.expectObject.map fun _ => r)).Matches
      (Taken.ofExcept r (value'.expectObject.map fun _ => r)) :=
  .of_shallow (f := fun value : Json => Taken.ofExcept r (value.expectObject.map fun _ => r))
    ⟨fun _ _ => rfl, fun _ _ => rfl⟩ h

section Variants

variable {α ρ : Type} {read read' : Json → Noted (List α)}
  {take take' : ρ → String → Json → Taken ρ} {extend : ρ → Noted (List α) → Taken ρ} {r : ρ}

theorem takeOrExtend_oneOf : takeOrExtend read take extend r "oneOf" value =
    match value.expectArray with
    | .ok variants => extend r (readEach read 0 variants)
    | .error v => .refused r v := by
  cases value <;> rfl

theorem takeOrExtend_matches
    (hextend : ∀ n n', Noted.Matches n n' → (extend r n).Matches (extend r n'))
    (h : Reordered (c.member key) value value')
    (hread : ∀ variants, key = "oneOf" → value = .arr variants → ∀ variant variant',
      variant ∈ variants → Reordered (c.member key).item variant variant' →
      (read variant).Matches (read' variant'))
    (htake : (take r key value).Matches (take' r key value')) :
    (takeOrExtend read take extend r key value).Matches
      (takeOrExtend read' take' extend r key value') := by
  by_cases hkey : key = "oneOf"
  · subst hkey
    rw [takeOrExtend_oneOf, takeOrExtend_oneOf]
    rcases h.expectArray_cases with ⟨v, hv, hv'⟩ | ⟨variants, variants', rfl, rfl, hvariants⟩
    · rw [hv, hv']
      exact .refl _
    · refine hextend _ _ (.map (hvariants.readItems_matches 0 ?_) _)
      exact fun variant variant' hm h => (hread variants rfl rfl variant variant' hm h).map _
  · simp only [takeOrExtend, if_neg hkey]
    exact htake

end Variants

namespace Property

theorem takeRule_alike : TakeAlike .rules members takeRule takeRule := by
  intro r key value value' _ h
  simp only [takeRule, h.eq_of_shallow shallow_expectString]
  exact .refl _

theorem finish_matches {n n' : Noted Draft} (h : n.Matches n') :
    (Draft.finish options n).Matches (Draft.finish options n') := by
  obtain ⟨draft, findings⟩ := n
  obtain ⟨_, findings'⟩ := n'
  obtain ⟨rfl, hfindings⟩ := h
  unfold Draft.finish
  dsimp only
  split
  · exact ⟨rfl, hfindings⟩
  · exact ⟨rfl, hfindings.append_right _⟩

theorem read_of_error {v : Violation} (h : value.expectObject = .error v) :
    read scope options value = .refused [] v := by
  cases value <;> cases h <;> rfl

variable (hscope : scope.Reorders scope')

include hscope

theorem takeMember_alike (hkeys : (Json.obj members).hasDistinctKeys) :
    TakeAlike .property members (Draft.takeMember scope) (Draft.takeMember scope') := by
  intro r key value value' hm h
  have hvalue := (Json.hasDistinctKeys_obj.mp hkeys).2 _ hm
  unfold Draft.takeMember
  split
  · simp only [Draft.takeLabels, Labels.read_eq_of_reordered h hvalue]
    exact .refl _
  · unfold Draft.takeAccess
    rcases h.expectObject_cases with ⟨v, hv, hv'⟩ | ⟨rules, rules', rfl, rfl⟩
    · rw [hv, hv']
      exact .refl _
    · exact .store (h.readMembers_matches (fun _ => orderFree_takeRule)
        (Json.hasDistinctKeys_obj.mp hvalue).1 takeRule_alike) _
  · unfold Draft.takeData
    rcases h.expectObject_cases with ⟨v, hv, hv'⟩ | ⟨fields, fields', rfl, rfl⟩
    · rw [hv, hv']
      exact .refl _
    · exact .store (Descriptor.read_matches hscope h hvalue) _
  · exact checked_matches h
  · exact checked_matches h
  · rw [h.eq_of_shallow shallow_expectString]
    exact .refl _
  · exact .refl _

theorem read_matches {property property' : Json} (h : Reordered .property property property')
    (hkeys : property.hasDistinctKeys) :
    (read scope options property).Matches (read scope' options property') := by
  induction property using variants_induction generalizing property' with
  | step property ih =>
    rcases h.expectObject_cases with ⟨v, hv, hv'⟩ | ⟨members, members', rfl, rfl⟩
    · rw [read_of_error hv, read_of_error hv']
      exact .refl _
    · rw [read, read, readDraft_eq_readMembers, readDraft_eq_readMembers]
      apply finish_matches
      apply h.readMembers_matches (fun _ => orderFree_take scope' options)
        (Json.hasDistinctKeys_obj.mp hkeys).1
      intro r key value value' hm hvalue
      apply takeOrExtend_matches (c := .property) (fun _ _ hn => .store hn _) hvalue
      · rintro variants rfl rfl variant variant' hvariant hreordered
        have hvariants := (Json.hasDistinctKeys_obj.mp hkeys).2 _ hm
        exact ih members variants variant rfl hm hvariant hreordered
          (Json.hasDistinctKeys_arr.mp hvariants variant hvariant)
      · exact takeMember_alike hscope hkeys r key value value' hm hvalue

end Property

namespace Device

theorem read_of_error {v : Violation} (h : value.expectObject = .error v) :
    read scope options value = .refused [] v := by
  cases value <;> cases h <;> rfl

variable (hscope : scope.Reorders scope')

include hscope

theorem readProperties_matches (h : ReorderedMembers .properties members members')
    (hkeys : ∀ member ∈ members, member.2.hasDistinctKeys) :
    (readProperties scope options members).Matches
      (readProperties scope' options members') := by
  induction members generalizing members' with
  | nil =>
    cases h
    exact .refl _
  | cons member rest ih =>
    cases h with
    | cons h hrest =>
      have hfirst : Noted.Matches (Property.read scope options _)
          (Property.read scope' options _) :=
        Property.read_matches hscope h (hkeys _ List.mem_cons_self)
      have hlater := ih hrest fun member hm => hkeys member (List.mem_cons_of_mem _ hm)
      refine ⟨?_, (hfirst.within _).findings.append hlater.findings⟩
      simp only [readProperties, (hfirst.within _).value_eq, hlater.value_eq]

theorem takeMember_alike (hkeys : (Json.obj members).hasDistinctKeys) :
    TakeAlike .device members (Draft.takeMember scope options)
      (Draft.takeMember scope' options) := by
  intro r key value value' hm h
  have hvalue := (Json.hasDistinctKeys_obj.mp hkeys).2 _ hm
  unfold Draft.takeMember
  split
  · rw [Labels.read_eq_of_reordered h hvalue]
    exact .refl _
  · rcases h.expectObject_cases with ⟨v, hv, hv'⟩ | ⟨properties, properties', rfl, rfl⟩
    · rw [hv, hv']
      exact .refl _
    · obtain ⟨changed, _, ⟨⟩, hchanged, _, hsame⟩ := h.exists_of_obj
      rw [hsame rfl]
      exact .store (readProperties_matches hscope hchanged
        (Json.hasDistinctKeys_obj.mp hvalue).2) _
  · exact checked_matches h
  · rw [h.eq_of_shallow shallow_expectString]
    exact .refl _
  · exact .refl _

theorem read_matches {device device' : Json} (h : Reordered .device device device')
    (hkeys : device.hasDistinctKeys) :
    (read scope options device).Matches (read scope' options device') := by
  induction device using variants_induction generalizing device' with
  | step device ih =>
    rcases h.expectObject_cases with ⟨v, hv, hv'⟩ | ⟨members, members', rfl, rfl⟩
    · rw [read_of_error hv, read_of_error hv']
      exact .refl _
    · rw [read, read, readDraft_eq_readMembers, readDraft_eq_readMembers]
      refine .map ?_ _
      apply h.readMembers_matches (fun hc => absurd hc (by decide))
        (Json.hasDistinctKeys_obj.mp hkeys).1
      intro r key value value' hm hvalue
      apply takeOrExtend_matches (c := .device) (fun _ _ hn => .store hn _) hvalue
      · rintro variants rfl rfl variant variant' hvariant hreordered
        have hvariants := (Json.hasDistinctKeys_obj.mp hkeys).2 _ hm
        exact ih members variants variant rfl hm hvariant hreordered
          (Json.hasDistinctKeys_arr.mp hvariants variant hvariant)
      · exact takeMember_alike hscope hkeys r key value value' hm hvalue

end Device

namespace Conversion

/-- The same interfaces and counts, and the same findings in some order. -/
structure Matches (c c' : Conversion) : Prop where
  interfaces_eq : c'.interfaces = c.interfaces
  findings : c'.findings.Perm c.findings
  stats_eq : c'.stats = c.stats

theorem ofDevice_matches (options : Options) (hscope : scope.Reorders scope') (code : String)
    {device device' : Json} (h : Reordered .device device device')
    (hkeys : device.hasDistinctKeys) :
    (ofDevice scope options code device).Matches (ofDevice scope' options code device') := by
  have hread : Noted.Matches (((Device.read scope options device).within code).within "devices")
      (((Device.read scope' options device').within code).within "devices") :=
    ((Device.read_matches hscope h hkeys).within code).within "devices"
  have hmembers : device'.members?.isSome = device.members?.isSome :=
    h.eq_of_shallow (f := fun device => device.members?.isSome) ⟨fun _ _ => rfl, fun _ _ => rfl⟩
  refine ⟨?_, hread.findings, ?_⟩
  · simp only [ofDevice, hread.value_eq]
  · simp only [ofDevice, hread.value_eq, hmembers]

theorem ofDevices_matches (options : Options) (hscope : scope.Reorders scope')
    (h : ReorderedMembers .devices members members')
    (hkeys : ∀ member ∈ members, member.2.hasDistinctKeys) :
    (ofDevices scope options members).Matches (ofDevices scope' options members') := by
  induction members generalizing members' with
  | nil =>
    cases h
    exact ⟨rfl, .refl _, rfl⟩
  | cons member rest ih =>
    cases h with
    | @cons _ code device device' _ rest' h hrest =>
      have hfirst := ofDevice_matches options hscope code h
        (hkeys _ List.mem_cons_self)
      have hlater := ih hrest fun member hm => hkeys member (List.mem_cons_of_mem _ hm)
      refine ⟨?_, hfirst.findings.append hlater.findings, ?_⟩
      · exact congrArg₂ _ hfirst.interfaces_eq hlater.interfaces_eq
      · exact congrArg₂ Stats.add hfirst.stats_eq hlater.stats_eq

theorem rootMember_cases {document document' : Json} (h : Reordered .document document document')
    (hkeys : document.hasDistinctKeys) (key : String) :
    (∃ e, rootMember document key = .error e ∧ rootMember document' key = .error e) ∨
      ∃ root root', rootMember document key = .ok root ∧ rootMember document' key = .ok root' ∧
        (Json.obj root).hasDistinctKeys ∧
        Reordered (Construct.document.member key) (.obj root) (.obj root') := by
  have hget := h.get? hkeys key
  unfold rootMember
  cases hvalue : document.get? key with
  | none =>
    rw [hvalue] at hget
    generalize document'.get? key = value? at hget
    cases hget
    exact .inl ⟨_, rfl, rfl⟩
  | some value =>
    rw [hvalue] at hget
    generalize document'.get? key = value? at hget
    cases hget with
    | some hvalues =>
      rcases hvalues.expectObject_cases with ⟨v, hv, hv'⟩ | ⟨root, root', rfl, rfl⟩
      · simp only [Option.bind_some, Json.members?_of_error hv, Json.members?_of_error hv']
        exact .inl ⟨_, rfl, rfl⟩
      · exact .inr ⟨root, root', rfl, rfl, Json.hasDistinctKeys_of_get? hkeys hvalue, hvalues⟩

theorem reorders_definitions (maxDepth : Nat) {definitions definitions' : List (String × Json)}
    (h : Reordered .definitions (.obj definitions) (.obj definitions'))
    (hkeys : (Json.obj definitions).hasDistinctKeys) :
    Scope.Reorders { definitions, maxDepth } { definitions := definitions', maxDepth } where
  maxDepth_eq := rfl
  lookup name := by
    obtain ⟨hdistinct, hvalues⟩ := Json.hasDistinctKeys_obj.mp hkeys
    have hrel := h.lookup hdistinct name
    cases hlookup : definitions.lookup name with
    | none =>
      rw [hlookup] at hrel
      generalize definitions'.lookup name = target? at hrel ⊢
      cases hrel
      exact .none
    | some target =>
      rw [hlookup] at hrel
      generalize definitions'.lookup name = target? at hrel ⊢
      cases hrel with
      | some htarget => exact .some ⟨htarget, hvalues _ (mem_of_lookup hlookup)⟩

theorem ofDocument_matches (options : Options) {document document' : Json}
    (hkeys : document.hasDistinctKeys) (h : Reordered .document document document') :
    (∃ e, ofDocument options document = .error e ∧ ofDocument options document' = .error e) ∨
      ∃ c c', ofDocument options document = .ok c ∧ ofDocument options document' = .ok c' ∧
        c.Matches c' := by
  rcases rootMember_cases h hkeys "definitions" with
    ⟨e, he, he'⟩ | ⟨definitions, definitions', hdefs, hdefs', hdefsKeys, hdefinitions⟩
  · have herror : ∀ json, rootMember json "definitions" = .error e →
        ofDocument options json = .error e := fun json hjson => by rw [ofDocument, hjson]; rfl
    exact .inl ⟨e, herror _ he, herror _ he'⟩
  rcases rootMember_cases h hkeys "devices" with
    ⟨e, he, he'⟩ | ⟨devices, devices', hdevs, hdevs', hdevsKeys, hdevices⟩
  · have herror : ∀ json root, rootMember json "definitions" = .ok root →
        rootMember json "devices" = .error e → ofDocument options json = .error e :=
      fun json root hroot hjson => by rw [ofDocument, hroot, hjson]; rfl
    exact .inl ⟨e, herror _ _ hdefs he, herror _ _ hdefs' he'⟩
  · obtain ⟨changed, _, ⟨⟩, hchanged, _, hsame⟩ := hdevices.exists_of_obj
    obtain rfl := hsame rfl
    exact .inr ⟨_, _, ofDocument_eq hdefs hdevs options, ofDocument_eq hdefs' hdevs' options,
      ofDevices_matches options (reorders_definitions options.maxDepth hdefinitions hdefsKeys)
        hchanged (Json.hasDistinctKeys_obj.mp hdevsKeys).2⟩

/-- Putting the members of properties, access rules, texts, states, parts, bit fields, positions
and of the definitions into another order, anywhere in a document, changes neither its interfaces
nor the counts, and only the order of the diagnostics. -/
theorem ofDocument_reordered (options : Options) (document document' : Json)
    (hkeys : document.hasDistinctKeys) (h : Reordered .document document document') :
    (∀ e, ofDocument options document = .error e → ofDocument options document' = .error e) ∧
      ∀ c, ofDocument options document = .ok c → ∃ c', ofDocument options document' = .ok c' ∧
        c'.interfaces = c.interfaces ∧ c'.stats = c.stats ∧
        c'.diagnostics.Perm c.diagnostics := by
  rcases ofDocument_matches options hkeys h with ⟨e, he, he'⟩ | ⟨c, c', hc, hc', hmatches⟩
  · rw [he, he']
    exact ⟨fun _ h => h, fun c hc => (by cases hc)⟩
  · rw [hc, hc']
    refine ⟨fun e he => (by cases he), fun _ heq => ?_⟩
    cases heq
    exact ⟨c', rfl, hmatches.interfaces_eq, hmatches.stats_eq, hmatches.findings.map _⟩

/-- A lamp that refers to a definition, with the members of what is unordered in these orders. -/
def lampDocument (definitions property : List (String × Json)) : Json :=
  .obj [("definitions", .obj definitions),
    ("devices", .obj [("0x0290", .obj [("className", .obj [("en", .str "Lamp")]),
      ("elProperties", .obj [("0x80", .obj property)])])])]

def lampState (entry : List (String × Json)) : String × Json :=
  ("state", .obj [("type", .str "state"), ("enum", .arr [.obj entry])])

def lampName : String × Json := ("propertyName", .obj [("en", .str "Power")])

def lampData : String × Json := ("data", .obj [("$ref", .str "#/definitions/state")])

/-- Something is found in two members of the property. -/
def lamp : Json :=
  lampDocument [("spare", .null), lampState [("edt", .str "0x30"), ("state", lampName.2)]]
    [lampName, ("accessRule", .obj [("get", .str "required"), ("inf", .str "required"),
      ("put", .str "optional")]), lampData, ("colour", .null)]

def lampReordered : Json :=
  lampDocument [lampState [("state", lampName.2), ("edt", .str "0x30")], ("spare", .null)]
    [("colour", .null), lampData, ("accessRule", .obj [("put", .str "optional"),
      ("inf", .str "required"), ("get", .str "required")]), lampName]

theorem reordered_lamp : Reordered .document lamp lampReordered := by
  have hentry : Reordered .descriptor
      (lampState [("edt", .str "0x30"), ("state", lampName.2)]).2
      (lampState [("state", lampName.2), ("edt", .str "0x30")]).2 :=
    .members (.cons .same (.cons (.items (.cons (.permuted rfl (.refl _ _) (.swap _ _ _)) .nil))
      .nil))
  have hrules : Reordered .rules
      (.obj [("get", .str "required"), ("inf", .str "required"), ("put", .str "optional")])
      (.obj [("put", .str "optional"), ("inf", .str "required"), ("get", .str "required")]) :=
    .permuted rfl (.refl _ _) (List.reverse_perm _).symm
  have hproperty : Reordered .property
      (.obj [lampName, ("accessRule", .obj [("get", .str "required"), ("inf", .str "required"),
        ("put", .str "optional")]), lampData, ("colour", .null)])
      (.obj [("colour", .null), lampData, ("accessRule", .obj [("put", .str "optional"),
        ("inf", .str "required"), ("get", .str "required")]), lampName]) :=
    .permuted rfl (.cons .same (.cons hrules (.refl _ _))) (List.reverse_perm _).symm
  refine .members (.cons (.permuted rfl (.cons .same (.cons hentry .nil)) (.swap _ _ _))
    (.cons (.members (.cons (.members ?_) .nil)) .nil))
  exact .cons .same (.cons (.members (.cons hproperty .nil)) .nil)

theorem ofDocument_reordered_lamp :
    lamp.hasDistinctKeys ∧ Reordered .document lamp lampReordered ∧
      ∃ c c', ofDocument {} lamp = .ok c ∧ ofDocument {} lampReordered = .ok c' ∧
        c'.interfaces = c.interfaces ∧ c'.stats = c.stats ∧ c'.diagnostics.Perm c.diagnostics := by
  have hkeys : lamp.hasDistinctKeys := by decide
  obtain ⟨c, hc⟩ : ∃ c, ofDocument {} lamp = .ok c := ⟨_, rfl⟩
  obtain ⟨c', hc', hsame⟩ := (ofDocument_reordered {} lamp _ hkeys reordered_lamp).2 c hc
  exact ⟨hkeys, reordered_lamp, c, c', hc, hc', hsame⟩

/-- The diagnostics of the two members change places. -/
example : [lamp, lampReordered].map (fun document =>
    ((ofDocument {} document).toOption.map (·.diagnostics.map (·.path))).getD []) =
      [["/devices/0x0290/elProperties/0x80/accessRule/put",
          "/devices/0x0290/elProperties/0x80/colour"],
        ["/devices/0x0290/elProperties/0x80/colour",
          "/devices/0x0290/elProperties/0x80/accessRule/put"]] := by
  decide

/-- Reads the text of a document and converts it. -/
def ofText (options : Options) (text : String) : Except Failure Conversion :=
  (parseDocument text).bind (ofDocument options)

theorem hasDistinctKeys_of_parseDocument {text : String} {document : Json}
    (h : parseDocument text = .ok document) : document.hasDistinctKeys := by
  unfold parseDocument at h
  split at h
  · next hread =>
    cases h
    exact Json.hasDistinctKeys_of_read? hread
  · cases h

/-- Keys are distinct in all that is read from text, so two texts convert alike as soon as their
documents are the same up to the order of such members. -/
theorem ofText_matches (options : Options) {text text' : String} {document document' : Json}
    (hread : parseDocument text = .ok document) (hread' : parseDocument text' = .ok document')
    (h : Reordered .document document document') :
    (∃ e, ofText options text = .error e ∧ ofText options text' = .error e) ∨
      ∃ c c', ofText options text = .ok c ∧ ofText options text' = .ok c' ∧ c.Matches c' := by
  rw [ofText, ofText, hread, hread']
  exact ofDocument_matches options (hasDistinctKeys_of_parseDocument hread) h

end Conversion

end DeviceTwin
