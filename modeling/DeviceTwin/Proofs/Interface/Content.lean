import DeviceTwin.Interface.Content
import DeviceTwin.Proofs.Limits

/-!
How making contents fails. The rules and shapes that cannot be expressed are reported, never a
limit; the cap on the depth is not looked at.
-/
namespace DeviceTwin

variable {options : Options}

namespace Schema

mutual

theorem plain_ofShape : (shape : Shape) → Plain (ofShape shape)
  | ⟨kind, _, _, _⟩ => plain_ofKind kind

theorem plain_ofKind : (kind : Kind Shape) → Plain (ofKind kind)
  | .unset | .number none _ => plain_error rfl
  | .object members => (plain_ofMembers members).map
  | .bitmap fields => (plain_ofFields fields).map
  | .oneOf alternatives => (plain_ofAlternatives alternatives).map
  | .state _ | .dateTime | .time | .raw | .array _ | .level | .number (some _) _
  | .numericValue _ => plain_ok _

theorem plain_ofMembers : (members : List (Member Shape)) → Plain (ofMembers members)
  | [] => plain_ok _
  | ⟨_, shape⟩ :: rest =>
    (plain_ofShape shape).bind fun _ => (plain_ofMembers rest).bind fun _ => plain_ok _

theorem plain_ofFields : (fields : List (BitField Shape)) → Plain (ofFields fields)
  | [] => plain_ok _
  | ⟨_, _, _, _, value⟩ :: rest =>
    (plain_ofShape value).bind fun _ => (plain_ofFields rest).bind fun _ => plain_ok _

theorem plain_ofAlternatives : (alternatives : List Shape) → Plain (ofAlternatives alternatives)
  | [] => plain_ok _
  | shape :: rest =>
    (plain_ofShape shape).bind fun _ => (plain_ofAlternatives rest).bind fun _ => plain_ok _

end

end Schema

theorem Role.plain_of (access : Access) (shape : Shape) : Plain (Role.of access shape) := by
  unfold Role.of
  split <;> first | exact plain_ok _ | exact plain_error rfl

namespace Content

variable {index : Nat} {labels : Labels} {access : Access} {shape : Shape}

theorem plain_payload (ja : Option String) (en : String) :
    Plain (CommandPayload.make options ja en shape) :=
  (Schema.plain_ofShape shape).bind fun _ => plain_ok _

theorem plain_entry (ja : Option String) (en : String) (role : Role) :
    Plain (entry options index ja en role shape) := by
  unfold entry
  split
  · exact (plain_payload ja en).bind fun _ => plain_ok _
  · exact (Schema.plain_ofShape shape).bind fun _ => plain_ok _
  · exact (Schema.plain_ofShape shape).bind fun _ => plain_ok _

theorem plain_make : Plain (make options index access labels shape) := by
  unfold make
  split
  · exact plain_ok _
  · refine (Role.plain_of access shape).bind fun role => ?_
    split
    · exact plain_ok _
    · exact (plain_entry labels.ja _ role).bind fun _ => plain_ok _

/-- Every entry is the command of a state, or the one entry of a property with a role. -/
theorem yields_make {p : Content → Prop}
    (hstate : ∀ role entries state, Role.of access shape = .ok role → role.type = .command →
      shape.kind = .state entries → p (stateCommand options state))
    (hentry : ∀ en role, Role.of access shape = .ok role →
      Yields p (entry options index labels.ja en role shape)) :
    Yields (fun contents => ∀ content ∈ contents, p content)
      (make options index access labels shape) := by
  unfold make
  split
  · exact yields_ok fun _ h => absurd h List.not_mem_nil
  · have hgiven : Yields (fun role => Role.of access shape = .ok role) (Role.of access shape) :=
      fun _ hrole => hrole
    refine hgiven.andThen fun role hrole => ?_
    split
    · next entries hcommand hkind =>
      refine yields_ok fun content hcontent => ?_
      obtain ⟨state, _, rfl⟩ := List.mem_map.mp hcontent
      exact hstate role entries state hrole hcommand hkind
    · refine (hentry _ role hrole).andThen fun content hcontent => yields_ok ?_
      exact List.forall_mem_singleton.mpr hcontent

/-- Contents do not depend on the cap. -/
theorem make_maxDepth (cap : Nat) :
    make { options with maxDepth := cap } index access labels shape =
      make options index access labels shape := rfl

end Content
end DeviceTwin
