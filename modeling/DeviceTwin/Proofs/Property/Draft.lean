import DeviceTwin.Proofs.Order
import DeviceTwin.Proofs.Property

/-!
The parts of a property that is being read. Each member changes its own part, the variants included,
so that the members of a property can be taken in any order.
-/
namespace DeviceTwin.Property

variable {scope : Scope} {options : Options} {draft : Draft} {key : String} {value : Json}
  {members : List (String × Json)}

/-- Takes a member of a property, variants included. -/
abbrev Draft.take (scope : Scope) (options : Options) : Draft → String → Json → Taken Draft :=
  takeOrExtend (read scope options) (Draft.takeMember scope) Draft.takeVariants

/-- The rules in a value. -/
def readAccess (value : Json) : Except Violation Access :=
  value.expectObject.map fun rules => (readMembers takeRule {} rules).value

/-- The shape of data. -/
def readShape (scope : Scope) (value : Json) : Except Violation Shape :=
  value.expectObject.map fun _ => (Descriptor.read scope value).value

/-- The contents of variants. -/
def readContents (scope : Scope) (options : Options) (value : Json) :
    Except Violation (List Content) :=
  value.expectArray.map fun variants => (readEach (read scope options) 0 variants).value

theorem record_takeRule (access : Access) (key : String) (value : Json) :
    (takeRule access key value).record =
      { get := changeAt "get" key (readOr (value.expectString.map .ofName)) access.get
        set := changeAt "set" key (readOr (value.expectString.map .ofName)) access.set
        inform := changeAt "inf" key (readOr (value.expectString.map .ofName)) access.inform } := by
  unfold takeRule
  cases value.expectString with
  | error v => simp [Taken.ofExcept, bind, Except.bind, readOr, changeAt, Except.map]
  | ok name =>
    simp only [bind, Except.bind]
    split
    · rfl
    · rfl
    · rfl
    · simp_all [changeAt, Taken.ofExcept]

theorem orderFree_takeRule : OrderFree takeRule where
  findings_eq r s key value := by simp only [takeRule, Taken.findings_ofExcept]
  refusal_eq r s key value := by
    unfold takeRule
    cases value.expectString with
    | error v => rfl
    | ok name =>
      simp only [bind, Except.bind]
      split <;> rfl
  record_comm r key key' value value' h := by simp only [record_takeRule, changeAt_comm h]

theorem Draft.record_take (scope : Scope) (options : Options) (draft : Draft) (key : String)
    (value : Json) : (Draft.take scope options draft key value).record =
      { property :=
          { labels := changeAt "propertyName" key (readOr (Labels.read value)) draft.property.labels
            access := changeAt "accessRule" key (readOr (readAccess value)) draft.property.access
            shape := changeAt "data" key (readOr (readShape scope value)) draft.property.shape }
        hasVariants := changeAt "oneOf" key (readOr (value.expectArray.map fun _ => true))
          draft.hasVariants
        contents := changeAt "oneOf" key
          (fun contents => readOr ((readContents scope options value).map (contents ++ ·)) contents)
          draft.contents } := by
  unfold Draft.take takeOrExtend
  split
  · next hkey =>
    subst hkey
    cases value <;> rfl
  · next hkey =>
    unfold Draft.takeMember
    split
    · unfold Draft.takeLabels
      cases Labels.read value <;> rfl
    · cases value <;> rfl
    · cases value <;> rfl
    · cases value.expectObject <;> rfl
    · cases value.expectObject <;> rfl
    · cases value.expectString <;> rfl
    · simp_all [changeAt, Taken.refused]

theorem orderFree_take (scope : Scope) (options : Options) :
    OrderFree (Draft.take scope options) where
  findings_eq r s key value := by
    unfold Draft.take takeOrExtend
    split
    · cases value <;> rfl
    · unfold Draft.takeMember
      split
      · simp only [Draft.takeLabels, Taken.findings_ofExcept]
      · cases value <;> rfl
      · cases value <;> rfl
      · simp only [Taken.findings_ofExcept]
      · simp only [Taken.findings_ofExcept]
      · simp only [Taken.findings_ofExcept]
      · rfl
  refusal_eq r s key value := by
    unfold Draft.take takeOrExtend
    split
    · cases value <;> rfl
    · unfold Draft.takeMember
      split
      · exact Taken.refusal_ofExcept_map _ _ _
      · cases value <;> rfl
      · cases value <;> rfl
      · exact Taken.refusal_ofExcept_map _ _ _
      · exact Taken.refusal_ofExcept_map _ _ _
      · exact Taken.refusal_ofExcept_map _ _ _
      · rfl
  record_comm r key key' value value' h := by simp only [Draft.record_take, changeAt_comm h]

end DeviceTwin.Property
