import DeviceTwin.Proofs.Conversion.Emission
import DeviceTwin.Proofs.Interface.Relabelling

/-!
Conversions under other labels. Two conversions of a document that differ in namespace and context
are read side by side: they find the same, and what they make is the same up to the labels.
-/
namespace DeviceTwin

variable (o o' : Options)

/-- The same entries under other labels. -/
abbrev RelabelledContents : List Content → List Content → Prop :=
  List.Forall₂ (Content.Relabelled o o')

namespace Property

variable {draft draft' : Draft} {key : String}

theorem related_contentsOf (property : Property) (index : Nat) (shape : Shape) :
    (contentsOf o property index shape).Related (RelabelledContents o o')
      (contentsOf o' property index shape) := by
  have hmake : Agree (RelabelledContents o o')
      (Content.make o index property.access property.labels shape)
      (Content.make o' index property.access property.labels shape) := Content.agree_make o o'
  unfold contentsOf
  generalize Content.make o index property.access property.labels shape = made,
    Content.make o' index property.access property.labels shape = made' at hmake
  cases hmake with
  | error violation => exact ⟨.nil, rfl⟩
  | ok hcontents => exact ⟨hcontents, rfl⟩

theorem related_alternativeContents (property : Property) (position : Nat) (shapes : List Shape) :
    (alternativeContents o property position shapes).Related (RelabelledContents o o')
      (alternativeContents o' property position shapes) := by
  induction shapes generalizing position with
  | nil => exact ⟨.nil, rfl⟩
  | cons shape rest ih =>
    have hfirst := related_contentsOf o o' property (position + 1) shape
    exact (hfirst.within (toString position)).append (ih (position + 1))

theorem related_contents (property : Property) :
    (property.contents o).Related (RelabelledContents o o') (property.contents o') := by
  unfold contents
  split
  · exact ((related_alternativeContents o o' property 0 _).within "oneOf").within "data"
  · exact related_contentsOf o o' property 0 property.shape

/-- The same property with the same variants, whose contents are under other labels. -/
structure Draft.Relabelled (draft draft' : Draft) : Prop where
  property_eq : draft'.property = draft.property
  hasVariants_eq : draft'.hasVariants = draft.hasVariants
  contents : RelabelledContents o o' draft.contents draft'.contents

variable {o o'}

theorem Draft.Relabelled.update (h : draft.Relabelled o o' draft') (f : Property → Property) :
    Draft.Relabelled o o' { draft with property := f draft.property }
      { draft' with property := f draft'.property } :=
  ⟨congrArg f h.property_eq, h.hasVariants_eq, h.contents⟩

theorem related_takeMember (h : draft.Relabelled o o' draft') (scope : Scope) (key : String)
    (value : Json) :
    (draft.takeMember scope key value).Related (Draft.Relabelled o o')
      (draft'.takeMember scope key value) := by
  unfold Draft.takeMember
  split
  · exact .ofExcept h ((Agree.refl _).map fun labels _ heq =>
      heq ▸ h.update fun property => { property with labels })
  · unfold Draft.takeAccess
    split
    · exact .refused h _
    · exact .store h (.refl _) fun access _ heq =>
        heq ▸ .ok (h.update fun property => { property with access })
  · unfold Draft.takeData
    split
    · exact .refused h _
    · exact .store h (.refl _) fun shape _ heq =>
        heq ▸ .ok (h.update fun property => { property with shape })
  · exact .ofExcept h ((Agree.refl _).map fun _ _ _ => h)
  · exact .ofExcept h ((Agree.refl _).map fun _ _ _ => h)
  · exact .ofExcept h ((Agree.refl _).map fun _ _ _ => h)
  · exact .refused h _

theorem related_takeVariants (h : draft.Relabelled o o' draft') {variants variants'}
    (hvariants : Noted.Related (RelabelledContents o o') variants variants') :
    (draft.takeVariants variants).Related (Draft.Relabelled o o')
      (draft'.takeVariants variants') :=
  .store h hvariants fun _ _ hcontents =>
    .ok ⟨h.property_eq, rfl, List.rel_append h.contents hcontents⟩

theorem related_finish {draft draft' : Noted Draft}
    (h : draft.Related (Draft.Relabelled o o') draft') :
    (Draft.finish o draft).Related (RelabelledContents o o') (Draft.finish o' draft') := by
  obtain ⟨⟨property, hasVariants, variants⟩, findings⟩ := draft
  obtain ⟨⟨property', hasVariants', variants'⟩, findings'⟩ := draft'
  obtain ⟨⟨hproperty, hhas, hcontents⟩, hfindings⟩ := h
  dsimp only at hproperty hhas hcontents hfindings
  subst hproperty hhas hfindings
  unfold Draft.finish
  dsimp only
  split
  · exact ⟨hcontents, rfl⟩
  · have hvariants : (Noted.mk variants findings').Related (RelabelledContents o o')
        ⟨variants', findings'⟩ := ⟨hcontents, rfl⟩
    exact hvariants.append (related_contents o o' property')

variable (o o')

theorem related_read (scope : Scope) (property : Json) :
    (read scope o property).Related (RelabelledContents o o') (read scope o' property) := by
  have hempty : Draft.Relabelled o o' {} {} := ⟨rfl, rfl, .nil⟩
  refine related_of_variants (Draft.finish o) (Draft.finish o') (fun members => ?_)
    (fun members => ?_) (fun json hjson => ?_) hempty
    (fun _ _ key value h => related_takeMember h scope key value)
    (fun _ _ _ _ h hvariants => related_takeVariants h hvariants)
    (fun _ _ h => related_finish h) property
  · rw [read, readDraft_eq_readMembers]
  · rw [read, readDraft_eq_readMembers]
  · cases json with
    | obj members => cases hjson
    | _ => exact ⟨.nil, rfl⟩

end Property

namespace Device

/-- The same event, with contents under other labels. -/
inductive Event.Relabelled : Event → Event → Prop
  | produced {contents contents'} (h : RelabelledContents o o' contents contents') :
      Relabelled (.produced contents) (.produced contents')
  | ended (className : Labels) : Relabelled (.ended className) (.ended className)

/-- The same trace under other labels. -/
abbrev RelabelledTrace : List Event → List Event → Prop := List.Forall₂ (Event.Relabelled o o')

theorem relabelled_assembleFrom {trace trace' : List Event} (h : RelabelledTrace o o' trace trace')
    {pending pending' : List Content} (hpending : RelabelledContents o o' pending pending') :
    List.Forall₂ (Interface.Relabelled o o') (assembleFrom o pending trace)
      (assembleFrom o' pending' trace') := by
  induction h generalizing pending pending' with
  | nil => exact .nil
  | cons hevent _ ih =>
    cases hevent with
    | produced hcontents => exact ih (List.rel_append hpending hcontents)
    | ended className =>
      obtain ⟨ja, _ | en⟩ := className
      · exact ih .nil
      · exact .cons (Interface.relabelled_make o o' hpending) (ih .nil)

/-- The same class, and the same trace under other labels. -/
structure Draft.Relabelled (draft draft' : Draft) : Prop where
  className_eq : draft'.className = draft.className
  trace : RelabelledTrace o o' draft.trace draft'.trace

theorem related_readProperties (scope : Scope) (properties : List (String × Json)) :
    (readProperties scope o properties).Related (RelabelledTrace o o')
      (readProperties scope o' properties) := by
  induction properties with
  | nil => exact ⟨.nil, rfl⟩
  | cons entry rest ih =>
    have hfirst := (Property.related_read o o' scope entry.2).within entry.1
    exact ⟨.cons (.produced hfirst.value) ih.value,
      congrArg₂ _ hfirst.findings_eq ih.findings_eq⟩

variable {o o'} {draft draft' : Draft}

theorem related_extend (h : draft.Relabelled o o' draft') {events events' : Noted (List Event)}
    (hevents : events.Related (RelabelledTrace o o') events') :
    (draft.extend events).Related (Draft.Relabelled o o') (draft'.extend events') :=
  .store h hevents fun _ _ htrace => .ok ⟨h.className_eq, List.rel_append h.trace htrace⟩

theorem related_takeMember (h : draft.Relabelled o o' draft') (scope : Scope) (key : String)
    (value : Json) :
    (draft.takeMember scope o key value).Related (Draft.Relabelled o o')
      (draft'.takeMember scope o' key value) := by
  unfold Draft.takeMember
  split
  · exact .ofExcept h ((Agree.refl _).map fun _ _ heq => ⟨heq.symm, h.trace⟩)
  · split
    · exact .refused h _
    · exact related_extend h (related_readProperties o o' scope _)
  · exact .ofExcept h ((Agree.refl _).map fun _ _ _ => h)
  · exact .ofExcept h ((Agree.refl _).map fun _ _ _ => h)
  · exact .refused h _

theorem relabelled_finish (h : draft.Relabelled o o' draft') :
    RelabelledTrace o o' draft.finish draft'.finish := by
  unfold Draft.finish
  rw [h.className_eq]
  exact List.rel_append h.trace (.cons (.ended _) .nil)

variable (o o')

theorem related_read (scope : Scope) (device : Json) :
    (read scope o device).Related (RelabelledTrace o o') (read scope o' device) := by
  have hempty : Draft.Relabelled o o' {} {} := ⟨rfl, .nil⟩
  refine related_of_variants (·.map Draft.finish) (·.map Draft.finish) (fun members => ?_)
    (fun members => ?_) (fun json hjson => ?_) hempty
    (fun _ _ key value h => related_takeMember h scope key value)
    (fun _ _ _ _ h hevents => related_extend h hevents)
    (fun _ _ h => ⟨relabelled_finish h.value, h.findings_eq⟩) device
  · rw [read, readDraft_eq_readMembers]
  · rw [read, readDraft_eq_readMembers]
  · cases json with
    | obj members => cases hjson
    | _ => exact ⟨.nil, rfl⟩

end Device

namespace Conversion

/-- The same findings and counts, and the same interfaces under other labels. -/
structure Relabelled (c c' : Conversion) : Prop where
  interfaces : List.Forall₂ (Interface.Relabelled o o') c.interfaces c'.interfaces
  diagnostics_eq : c'.diagnostics = c.diagnostics
  stats_eq : c'.stats = c.stats

theorem Relabelled.append {a b a' b' : Conversion} (ha : a.Relabelled o o' a')
    (hb : b.Relabelled o o' b') : (a ++ b).Relabelled o o' (a' ++ b') where
  interfaces := List.rel_append ha.interfaces hb.interfaces
  diagnostics_eq := by
    rw [diagnostics_append, diagnostics_append, ha.diagnostics_eq, hb.diagnostics_eq]
  stats_eq := congrArg₂ (· + ·) ha.stats_eq hb.stats_eq

/-- Counts do not depend on labels. -/
theorem ofDevice_relabelled_eq {interfaces interfaces' : List Interface}
    (h : List.Forall₂ (Interface.Relabelled o o') interfaces interfaces') :
    Stats.ofDevice interfaces' = Stats.ofDevice interfaces := by
  have hcontents : (interfaces'.flatMap (·.contents)).length =
      (interfaces.flatMap (·.contents)).length :=
    (List.rel_flatMap h fun _ _ hinterface => hinterface.contents).length_eq.symm
  have hempty : interfaces'.isEmpty = interfaces.isEmpty := by
    cases h <;> rfl
  unfold Stats.ofDevice
  rw [hcontents, hempty, h.length_eq]

theorem relabelled_ofDevice (scope : Scope) (code : String) (device : Json) :
    (ofDevice scope o code device).Relabelled o o' (ofDevice scope o' code device) := by
  have htrace := ((Device.related_read o o' scope device).within code).within "devices"
  have hinterfaces := Device.relabelled_assembleFrom o o' htrace.value .nil
  refine ⟨hinterfaces, congrArg (List.map _) htrace.findings_eq, ?_⟩
  unfold ofDevice
  dsimp only
  split
  · exact ofDevice_relabelled_eq o o' hinterfaces
  · rfl

theorem relabelled_ofDevices (scope : Scope) (devices : List (String × Json)) :
    (ofDevices scope o devices).Relabelled o o' (ofDevices scope o' devices) := by
  induction devices with
  | nil => exact ⟨.nil, rfl, rfl⟩
  | cons entry rest ih => exact (relabelled_ofDevice o o' scope entry.1 entry.2).append o o' ih

variable {o o'}

theorem agree_ofDocument (hdepth : o.maxDepth = o'.maxDepth) (document : Json) :
    Agree (Relabelled o o') (ofDocument o document) (ofDocument o' document) := by
  refine .after _ fun definitions => .after _ fun devices => .ok ?_
  rw [← hdepth]
  exact relabelled_ofDevices o o' _ devices

/-- Namespace and context are labels: with another one a document is refused with the same failure,
or converted with the same diagnostics and counts into the same interfaces, up to the namespace in
the identifiers and to the context. -/
theorem ofDocument_relabelled (o o' : Options) (hdepth : o.maxDepth = o'.maxDepth)
    (document : Json) :
    (∃ failure, ofDocument o document = .error failure ∧
      ofDocument o' document = .error failure) ∨
    ∃ c c', ofDocument o document = .ok c ∧ ofDocument o' document = .ok c' ∧
      c'.diagnostics = c.diagnostics ∧ c'.stats = c.stats ∧
      List.Forall₂ (Interface.Relabelled o o') c.interfaces c'.interfaces := by
  rcases (agree_ofDocument hdepth document).error_or_ok with hfailed | ⟨c, c', hc, hc', h⟩
  · exact .inl hfailed
  · exact .inr ⟨c, c', hc, hc', h.diagnostics_eq, h.stats_eq, h.interfaces⟩

/-- A device with a variant inside a variant. The inner one has a command whose data has three
alternatives, one of them of an unknown type. -/
def doorDocument : Json :=
  .obj [("definitions", .obj []), ("devices", .obj [("0x0160", .obj [("oneOf", .arr [.obj [
    ("oneOf", .arr [.obj [("className", .obj [("en", .str "Door")]),
      ("elProperties", .obj [("0xE0", .obj [
        ("propertyName", .obj [("ja", .str "開ける"), ("en", .str "Open to")]),
        ("accessRule", .obj [("set", .str "optional")]),
        ("data", .obj [("oneOf", .arr [.obj [("type", .str "level")],
          .obj [("type", .str "unknown")], .obj [("type", .str "raw")]])])])])]])]])])])]

theorem ofDocument_relabelled_door :
    ∃ c c', ofDocument {} doorDocument = .ok c ∧
      ofDocument { urnNamespace := "a:b", context := "c" } doorDocument = .ok c' ∧
      c'.diagnostics = c.diagnostics ∧ c'.stats = c.stats ∧
      List.Forall₂ (Interface.Relabelled {} { urnNamespace := "a:b", context := "c" })
        c.interfaces c'.interfaces ∧
      c'.diagnostics.map (·.violation.code) = ["S003", "U001"] ∧
      c.interfaces.map (·.contents.map (·.id)) =
        [[some "urn:EchonetLite:Open_to2:1", some "urn:EchonetLite:Open_to4:1"]] ∧
      c'.interfaces.map (·.contents.map (·.id)) =
        [[some "urn:a:b:Open_to2:1", some "urn:a:b:Open_to4:1"]] := by
  obtain ⟨c, hc⟩ : ∃ c, ofDocument {} doorDocument = .ok c := ⟨_, rfl⟩
  obtain ⟨c', hc'⟩ : ∃ c, ofDocument { urnNamespace := "a:b", context := "c" } doorDocument =
    .ok c := ⟨_, rfl⟩
  obtain ⟨failure, hfailure, -⟩ | ⟨d, d', hd, hd', hdiagnostics, hstats, hinterfaces⟩ :=
    ofDocument_relabelled {} { urnNamespace := "a:b", context := "c" } rfl doorDocument
  · cases hc.symm.trans hfailure
  · cases hc.symm.trans hd
    cases hc'.symm.trans hd'
    refine ⟨c, c', hc, hc', hdiagnostics, hstats, hinterfaces, ?_⟩
    cases hc
    cases hc'
    decide +kernel

end Conversion
end DeviceTwin
