import DeviceTwin.Proofs.Json.Pointer
import DeviceTwin.Proofs.Property.Draft
import DeviceTwin.Proofs.Reports

/-!
What a property contributes by itself. Its data either gives contents, or something is reported, or
there is no state to choose. The one exception are the untyped data of a property with variants.
-/
namespace DeviceTwin

/-- There is no state to choose: an enumeration without entries, or alternatives that are all so. -/
def Shape.Stateless (shape : Shape) : Prop :=
  shape.kind = .state [] ∨ ∃ alternatives, shape.kind = .oneOf alternatives ∧
    ∀ alternative ∈ alternatives, alternative.kind = .state []

theorem Kind.tag?_eq_none_iff {α : Type} {kind : Kind α} : kind.tag? = none ↔ kind = .unset := by
  cases kind <;> simp [tag?]

/-- An English text that is given is the one that is read. -/
theorem Labels.en_of_read {names : List (String × Json)} {en : String} {labels : Labels}
    (hen : names.lookup "en" = some (.str en)) (h : Labels.read (.obj names) = .ok labels) :
    labels.en = some en := by
  have hread : Json.optionalString names "en" = .ok (some en) := by
    rw [Json.optionalString, hen]
    rfl
  obtain ⟨_, ⟨⟩, h⟩ := bind_eq_ok_iff.mp h
  obtain ⟨_, hja, h⟩ := bind_eq_ok_iff.mp h
  obtain ⟨_, heq, h⟩ := bind_eq_ok_iff.mp h
  cases hread.symm.trans heq
  cases h
  rfl

/-- Under an English name, only a state without entries gives no contents. -/
theorem Content.kind_of_make {options : Options} {index : Nat} {access : Access} {labels : Labels}
    {shape : Shape} {en : String} (hen : labels.en = some en)
    (h : make options index access labels shape = .ok []) : shape.kind = .state [] := by
  unfold make at h
  rw [hen] at h
  obtain ⟨role, -, h⟩ := bind_eq_ok_iff.mp h
  split at h
  · next entries _ hkind =>
    have hentries : entries = [] := List.map_eq_nil_iff.mp (Except.ok.inj h)
    rw [hkind, hentries]
  · obtain ⟨content, -, h⟩ := bind_eq_ok_iff.mp h
    cases h

namespace Property

variable {scope : Scope} {options : Options} {property : Property} {position index : Nat}
  {shape : Shape} {shapes : List Shape} {en path : String} {n : Noted (List Content)}
  {members names fields : List (String × Json)}

section Contents

variable (hen : property.labels.en = some en)

include hen

theorem kind_of_contentsOf (h : contentsOf options property index shape = ⟨[], []⟩) :
    shape.kind = .state [] := by
  unfold contentsOf at h
  split at h
  · next contents hmake =>
    cases h
    exact Content.kind_of_make hen hmake
  · cases h

theorem kind_of_alternativeContents
    (h : alternativeContents options property position shapes = ⟨[], []⟩) :
    ∀ shape ∈ shapes, shape.kind = .state [] := by
  induction shapes generalizing position with
  | nil => exact nofun
  | cons first rest ih =>
    simp only [alternativeContents, Noted.within, Noted.mk.injEq, List.append_eq_nil_iff,
      List.map_eq_nil_iff] at h
    obtain ⟨⟨hvalue, hrest⟩, hfindings, hrestFindings⟩ := h
    intro shape hshape
    rcases List.mem_cons.mp hshape with rfl | hshape
    · exact kind_of_contentsOf hen (Noted.ext hvalue hfindings)
    · exact ih (Noted.ext hrest hrestFindings) shape hshape

/-- A named property whose data gives no contents, and nothing to report, has no state to choose. -/
theorem stateless_of_contents (h : property.contents options = ⟨[], []⟩) :
    property.shape.Stateless := by
  unfold contents at h
  split at h
  · next alternatives hkind =>
    simp only [Noted.within, Noted.mk.injEq, List.map_eq_nil_iff] at h
    exact .inr ⟨alternatives, hkind, kind_of_alternativeContents hen (Noted.ext h.1 h.2)⟩
  · exact .inl (kind_of_contentsOf hen h)

end Contents

/-- The property has variants. -/
def HasVariants (members : List (String × Json)) : Prop :=
  ∃ variants, members.lookup "oneOf" = some (.arr variants)

/-- What the variants contribute. -/
def variantContents (scope : Scope) (options : Options) (members : List (String × Json)) :
    List Content :=
  match members.lookup "oneOf" with
  | some (.arr variants) => (readVariants scope options 0 variants).value
  | _ => []

/-- Nothing is reported at the path or below it. -/
def Silent (path : String) (n : Noted (List Content)) : Prop :=
  ∀ d ∈ n.findings.map (·.diagnostic path), ¬ Pointer.LiesAt path d.path

theorem silent_iff : Silent path n ↔ n.findings = [] := by
  constructor
  · intro h
    refine List.eq_nil_iff_forall_not_mem.mpr fun f hf => ?_
    exact h _ (List.mem_map_of_mem hf) (Pointer.liesAt_renderFrom path f.pointer)
  · intro h d hd
    rw [h] at hd
    cases hd

section Members

/-! The parts of a property whose members have been taken. -/

variable (scope options) (hkeys : (Json.keys members).Nodup)

include hkeys

theorem shape_readDraft (hdata : members.lookup "data" = some (.obj fields)) :
    (readDraft scope options {} members).value.property.shape =
      (Descriptor.read scope (.obj fields)).value := by
  have hpart := readMembers_part (o := {}) (fun draft : Draft => draft.property.shape)
    (fun draft key value => congrArg (·.property.shape)
      (Draft.record_take scope options draft key value)) hkeys
  rw [readDraft_eq_readMembers, hpart, hdata]
  rfl

theorem hasVariants_readDraft :
    (readDraft scope options {} members).value.hasVariants = true ↔ HasVariants members := by
  have hpart := readMembers_part (o := {}) (fun draft : Draft => draft.hasVariants)
    (fun draft key value => congrArg (·.hasVariants)
      (Draft.record_take scope options draft key value)) hkeys
  rw [readDraft_eq_readMembers, hpart, HasVariants]
  cases members.lookup "oneOf" with
  | none => simp
  | some value => cases value <;> simp [readOr, Json.expectArray, Except.map]

theorem contents_readDraft :
    (readDraft scope options {} members).value.contents =
      variantContents scope options members := by
  have hpart := readMembers_part (o := {}) (fun draft : Draft => draft.contents)
    (f := fun value contents =>
      readOr ((readContents scope options value).map (contents ++ ·)) contents)
    (fun draft key value => congrArg (·.contents)
      (Draft.record_take scope options draft key value)) hkeys
  rw [readDraft_eq_readMembers, hpart, variantContents]
  cases members.lookup "oneOf" with
  | none => rfl
  | some value =>
    cases value <;>
      simp [readOr, readContents, Json.expectArray, Except.map, readVariants_eq_readEach]

theorem en_readDraft (hname : members.lookup "propertyName" = some (.obj names))
    (hen : names.lookup "en" = some (.str en))
    (hclean : (readDraft scope options {} members).findings = []) :
    (readDraft scope options {} members).value.property.labels.en = some en := by
  have hpart := readMembers_part (o := {}) (fun draft : Draft => draft.property.labels)
    (fun draft key value => congrArg (·.property.labels)
      (Draft.record_take scope options draft key value)) hkeys
  rw [readDraft_eq_readMembers] at hclean ⊢
  rw [hpart, hname]
  change (readOr (Labels.read (.obj names)) {}).en = some en
  cases hlabels : Labels.read (.obj names) with
  | ok labels => exact Labels.en_of_read hen hlabels
  | error v =>
    -- The refusal would have been found.
    obtain ⟨draft, hv⟩ : ∃ draft, Visits (Draft.take scope options) {} members draft "propertyName"
      (.obj names) := exists_visits_of_mem (mem_of_lookup hname)
    have hrefusal : (Draft.take scope options draft "propertyName" (.obj names)).refusal =
        some v := by
      simp [takeOrExtend, Draft.takeMember, Draft.takeLabels, hlabels, Taken.ofExcept, Except.map]
    have hmem := refusal_mem_readMembers hv hrefusal
    rw [hclean] at hmem
    cases hmem

end Members

/-- A property with an English name and data contributes nothing by itself, without a report and
although there are states to choose or other data, exactly if it has variants and its data have no
kind. -/
theorem lost_silently_iff (scope : Scope) (options : Options)
    (members names fields : List (String × Json)) (en path : String)
    (hkeys : (Json.keys members).Nodup)
    (hname : members.lookup "propertyName" = some (.obj names))
    (hen : names.lookup "en" = some (.str en))
    (hdata : members.lookup "data" = some (.obj fields)) :
    ((read scope options (.obj members)).value = variantContents scope options members ∧
        Silent path (read scope options (.obj members)) ∧
        ¬ (Descriptor.read scope (.obj fields)).value.Stateless) ↔
      HasVariants members ∧ (Descriptor.read scope (.obj fields)).value.kind = .unset ∧
        Silent path (read scope options (.obj members)) := by
  have hshape := shape_readDraft scope options hkeys hdata
  have hcontents := contents_readDraft scope options hkeys
  have hvariants := hasVariants_readDraft scope options hkeys
  have hlabels := en_readDraft scope options hkeys hname hen
  rw [silent_iff, read]
  generalize readDraft scope options {} members = n at hshape hcontents hvariants hlabels
  obtain ⟨⟨property, hasVariants, contents⟩, findings⟩ := n
  simp only at hshape hcontents hvariants hlabels
  subst hcontents
  rw [← hshape, ← hvariants, ← Kind.tag?_eq_none_iff]
  simp only [Draft.finish]
  split
  · next hwrapper =>
    simp only [Bool.and_eq_true, Option.isNone_iff_eq_none] at hwrapper
    have hkind := Kind.tag?_eq_none_iff.mp hwrapper.2
    refine ⟨fun h => ⟨hwrapper.1, hwrapper.2, h.2.1⟩, fun h => ⟨rfl, h.2.2, ?_⟩⟩
    rintro (h | ⟨_, h, _⟩) <;> simp [hkind] at h
  · next hwrapper =>
    refine ⟨?_, fun h => absurd (by simp [h.1, h.2.1]) hwrapper⟩
    rintro ⟨hvalue, hfindings, hstates⟩
    obtain ⟨hclean, hown⟩ := List.append_eq_nil_iff.mp hfindings
    have hnone := List.append_right_eq_self.mp hvalue
    exact absurd (stateless_of_contents (hlabels hclean) (Noted.ext hnone hown)) hstates

/-- A property with data around an empty list of variants. -/
def wrapper (data : List (String × Json)) : List (String × Json) :=
  [("propertyName", .obj [("en", .str "Power")]),
    ("accessRule", .obj [("get", .str "required"), ("inf", .str "required")]),
    ("data", .obj data), ("oneOf", .arr [])]

/-- Around variants, data with a kind are not lost. -/
theorem not_lost_of_level :
    (Json.keys (wrapper [("type", .str "level")])).Nodup ∧
      (wrapper [("type", .str "level")]).lookup "propertyName" =
        some (.obj [("en", .str "Power")]) ∧
      List.lookup "en" [("en", Json.str "Power")] = some (.str "Power") ∧
      (wrapper [("type", .str "level")]).lookup "data" = some (.obj [("type", .str "level")]) ∧
      ¬ ((read { maxDepth := 32 } {} (.obj (wrapper [("type", .str "level")]))).value =
          variantContents { maxDepth := 32 } {} (wrapper [("type", .str "level")]) ∧
        Silent "/p" (read { maxDepth := 32 } {} (.obj (wrapper [("type", .str "level")]))) ∧
        ¬ (Descriptor.read { maxDepth := 32 }
          (.obj [("type", .str "level")])).value.Stateless) := by
  have hkeys : (Json.keys (wrapper [("type", .str "level")])).Nodup := by decide
  refine ⟨hkeys, rfl, rfl, rfl, fun hlost => ?_⟩
  obtain ⟨_, hkind, _⟩ :=
    (lost_silently_iff { maxDepth := 32 } {} _ _ _ "Power" "/p" hkeys rfl rfl rfl).mp hlost
  cases hkind

/-- Not every property leaves a trace: data without a kind are lost around variants. -/
theorem lost_around_variants :
    (Json.keys (wrapper [("unit", .str "kWh")])).Nodup ∧
      (wrapper [("unit", .str "kWh")]).lookup "propertyName" =
        some (.obj [("en", .str "Power")]) ∧
      (wrapper [("unit", .str "kWh")]).lookup "data" = some (.obj [("unit", .str "kWh")]) ∧
      (read { maxDepth := 32 } {} (.obj (wrapper [("unit", .str "kWh")]))).value = [] ∧
      variantContents { maxDepth := 32 } {} (wrapper [("unit", .str "kWh")]) = [] ∧
      Silent "/p" (read { maxDepth := 32 } {} (.obj (wrapper [("unit", .str "kWh")]))) ∧
      ¬ (Descriptor.read { maxDepth := 32 } (.obj [("unit", .str "kWh")])).value.Stateless := by
  refine ⟨by decide, rfl, rfl, rfl, rfl, silent_iff.mpr rfl, ?_⟩
  rintro (h | ⟨_, h, _⟩) <;> cases h

end Property
end DeviceTwin
